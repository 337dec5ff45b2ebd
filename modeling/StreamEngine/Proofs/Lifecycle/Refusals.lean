import StreamEngine.Proofs.Graph.Lookup
import StreamEngine.Proofs.Lifecycle.Evolution

/-!
# Refused operations

An operation that is refused leaves everything as it was. For most of them this is plain, because they look
for a reason to refuse before they change anything. A request registers with one access after another, and
would be left half done if it was refused on the way. It checks all room beforehand, and that is enough:
registering with one access takes no room from another one, and a new access has room.

- `Manager.Roomy` : what the check establishes, and what every registration of the request keeps;
- `Roomy.issueBlocks` : after the check no registration is refused;
- `sound_run` : free slots of the pool are empty after every run, so a new access never replaces one;
- `run_refused` : what a refusal leaves behind.
-/

namespace StreamEngine
namespace Manager

variable {m m' : Manager} {e : ElementId} {a : AccessId} {s : StreamId} {i : Nat} {plan : IssuePlan}
  {plans rest : List (Nat × IssuePlan)} {op : Operation} {ops : List Operation}

/-! ## Registering one by one -/

/-- The accesses that are to be shared are in flight and have room for the element. -/
structure Roomy (m : Manager) (e : ElementId) (plans : List (Nat × IssuePlan)) : Prop where
  sound : m.accesses.slab.Sound
  room : ∀ i a, (i, IssuePlan.share a) ∈ plans →
    ∃ access, m.accesses.find? a = some access ∧ access.receivers.hasRoomFor e = true

/-- Pools grow during a request, and so does what can be carried out. -/
theorem Roomy.next (h : m.Roomy e ((i, plan) :: rest)) (hsound : m'.accesses.slab.Sound)
    (hgrows : Grows e m.accesses m'.accesses) : m'.Roomy e rest := by
  refine ⟨hsound, ?_⟩
  intro j a hmem
  rcases h.room j a (List.mem_cons_of_mem _ hmem) with ⟨access, hfind, hroom⟩
  rcases hgrows a access hfind with ⟨access', hfind', _, _, hroom'⟩
  exact ⟨access', hfind', hroom' hroom⟩

/-- Where there is room, a registration is not refused. -/
theorem attach_roomy {access : Access} {r : Except EngineError Unit} (hsound : m.accesses.slab.Sound)
    (hfind : m.accesses.find? a = some access) (hroom : access.receivers.hasRoomFor e = true)
    (h : m.attach e i a = .ok (r, m')) :
    r = .ok () ∧ m'.accesses.slab.Sound ∧ Grows e m.accesses m'.accesses := by
  rcases attach_eq_ok hfind hroom h with ⟨hr, receivers, el, hregister, _, rfl⟩
  exact ⟨hr, hsound.replace hfind _, grows_put hfind hregister⟩

theorem Roomy.issueBlock (h : m.Roomy e ((i, plan) :: rest)) {r : Except EngineError (Option AccessId)}
    (hblock : m.issueBlock e i plan = .ok (r, m')) : (∃ made, r = .ok made) ∧ m'.Roomy e rest := by
  rcases issueBlock_cases hblock with
    ⟨a, r₁, rfl, hattach, rfl⟩ | ⟨rfl, rfl, el, _, rfl⟩ | ⟨el, b, r₁, rfl, _, _, hattach, rfl⟩
  · rcases h.room i a (List.mem_cons_self ..) with ⟨access, hfind, hroom⟩
    rcases attach_roomy h.sound hfind hroom hattach with ⟨rfl, hsound, hgrows⟩
    exact ⟨⟨none, rfl⟩, h.next hsound hgrows⟩
  · exact ⟨⟨none, rfl⟩, h.next h.sound fun _ access hfind => ⟨access, hfind, rfl, rfl, id⟩⟩
  · -- nobody is registered with the new access, which takes the place of no other one
    let fresh := accessFor e el b
    have hfind : (m.accesses.alloc fresh).2.find? (m.accesses.alloc fresh).1 = some fresh := by
      rw [AccessPool.find?_alloc h.sound, if_pos rfl]
    have hinserted : (m.accesses.alloc fresh).2.slab.Sound := h.sound.insert fresh
    rcases attach_roomy (m := { m with accesses := (m.accesses.alloc fresh).2 }) hinserted hfind rfl
      hattach with ⟨rfl, hsound, hgrows⟩
    exact ⟨⟨_, rfl⟩, h.next hsound ((grows_alloc h.sound fresh).trans hgrows)⟩

/-- After the check no registration is refused. -/
theorem Roomy.issueBlocks (h : m.Roomy e plans) {r : Except EngineError (List AccessId)}
    (hblocks : m.issueBlocks e plans = .ok (r, m')) :
    (∃ made, r = .ok made) ∧ m'.accesses.slab.Sound :=
  (keeps_of_issueBlocks (I := fun plans m => m.Roomy e plans)
    (fun _ _ _ _ _ _ h hblock => h.issueBlock hblock) h hblocks).imp_right Roomy.sound

theorem roomy_of_checkRoom (hsound : m.accesses.slab.Sound) (h : m.checkRoom e plans = .ok (.ok ())) :
    m.Roomy e plans :=
  ⟨hsound, fun _ _ hmem => room_of_checkRoom h hmem⟩

/-- A refused request has not begun. -/
theorem issue_refused (hsound : m.accesses.slab.Sound) {err : EngineError}
    (h : m.issue e = .ok (.error err, m')) : m' = m := by
  rcases issue_eq_ok h with ⟨prev, el, plans, _, ⟨_, rfl⟩ | ⟨hroom, r₁, m₁, hblocks, hcase⟩⟩
  · rfl
  rcases (roomy_of_checkRoom hsound hroom).issueBlocks hblocks with ⟨⟨made, rfl⟩, _⟩
  rcases hcase with ⟨⟨_, hrefused⟩, _⟩ | ⟨⟨_, _, hr⟩, _⟩
  · cases hrefused
  · cases hr

/-! ## Free slots of the pool -/

theorem sound_issue (h : m.accesses.slab.Sound) {r : Except EngineError (List AccessId)}
    (hissue : m.issue e = .ok (r, m')) : m'.accesses.slab.Sound := by
  rcases issue_eq_ok hissue with ⟨prev, el, plans, _, ⟨_, rfl⟩ | ⟨hroom, r₁, m₁, hblocks, hcase⟩⟩
  · exact h
  rcases (roomy_of_checkRoom h hroom).issueBlocks hblocks with ⟨_, hsound⟩
  rcases hcase with ⟨_, rfl⟩ | ⟨_, el₁, _, ⟨_, rfl⟩ | ⟨_, became, hset⟩⟩
  · exact hsound
  · exact hsound
  · rcases setValueFromPrevious_eq_ok hset with ⟨_, _, _, _, _, _, _, _, rfl⟩
    exact hsound

theorem sound_answer (h : m.accesses.slab.Sound)
    {settle : Element → Nat → Except Fault (Bool × Element)} {ready : List ElementId}
    (hanswer : m.answer a settle = .ok (ready, m')) : m'.accesses.slab.Sound := by
  rcases answer_eq_ok hanswer with ⟨access, hfind, hdeliver⟩
  rw [deliver_shape hdeliver]
  exact h.erase hfind

theorem sound_releaseFront (h : m.accesses.slab.Sound) (hrelease : m.releaseFront s = .ok m') :
    m'.accesses.slab.Sound := by
  rcases releaseFront_eq_ok hrelease with ⟨st, e, rest, el, pool, freed, graph, _, _, _, hpool, _, rfl⟩
  exact (AccessPool.leaves_deregisterAll hpool).sound h

theorem accesses_commit {v : StreamValue} (h : m.commit e v = .ok m') : m'.accesses = m.accesses := by
  rcases commit_eq_ok h with ⟨el, el', _, rfl, _⟩
  rfl

theorem accesses_apply (happly : m.apply op = .ok m') (hop : op.SparesAccesses) :
    m'.accesses = m.accesses := by
  cases op with
  | configure d =>
      rcases map_snd_eq_ok happly with ⟨id, hconfigure⟩
      rcases configure_eq_ok hconfigure with ⟨_, config, graph, graph', bases, _, _, rfl⟩
      rfl
  | allocate s =>
      rcases map_snd_eq_ok happly with ⟨r, hallocate⟩
      rcases allocate_eq_ok hallocate with ⟨_, rfl⟩ | ⟨st, el, e, m₁, graph, _, _, _, _, _, hlink, _, rfl⟩
      · rfl
      · rcases linkLast_cases hlink with rfl | ⟨last, el', _, _, rfl⟩ <;> rfl
  | markAddrReady e =>
      rcases map_snd_eq_ok happly with ⟨r, hmark⟩
      rcases markAddrReady_eq_ok hmark with rfl | ⟨el, el', addr, _, _, _, rfl⟩ <;> rfl
  | setValue e vaddr data =>
      rcases map_snd_eq_ok happly with ⟨became, hset⟩
      rcases setValue_eq_ok hset with ⟨el, el', _, _, rfl⟩
      rfl
  | setValueFromPrevious e =>
      rcases map_snd_eq_ok happly with ⟨became, hset⟩
      rcases setValueFromPrevious_eq_ok hset with ⟨_, _, _, _, _, _, _, _, rfl⟩
      rfl
  | compute e =>
      rcases compute_cases happly with ⟨v, hcommit⟩ | ⟨v, cycles, hschedule⟩
      · exact accesses_commit hcommit
      · rcases schedule_eq_ok hschedule with ⟨el, _, rfl⟩
        rfl
  | tick now =>
      rcases map_snd_eq_ok happly with ⟨done, htick⟩
      exact foldlM_keeps (fun _ m₁ => m₁.accesses = m.accesses)
        (fun _ _ _ _ hsame hcommit => (accesses_commit hcommit).trans hsame) rfl (tick_eq_ok htick)
  | setFinalValue s idx w =>
      rcases map_snd_eq_ok happly with ⟨r, hset⟩
      rcases setFinalValue_eq_ok hset with rfl | ⟨st, _, _, rfl⟩ <;> rfl
  | step s =>
      rcases map_snd_eq_ok happly with ⟨r, hstep⟩
      rcases step_eq_ok hstep with ⟨_, rfl⟩ | ⟨st, e, el, i, _, _, _, _, _, _, rfl⟩ <;> rfl
  | _ => exact hop.elim

theorem sound_apply (h : m.accesses.slab.Sound) (happly : m.apply op = .ok m') :
    m'.accesses.slab.Sound := by
  cases op with
  | issue e =>
      rcases map_snd_eq_ok happly with ⟨r, hop⟩
      exact sound_issue h hop
  | respond a data =>
      rcases map_snd_eq_ok happly with ⟨ready, hop⟩
      exact sound_answer h hop
  | respondFault a =>
      rcases map_snd_eq_ok happly with ⟨ready, hop⟩
      exact sound_answer h hop
  | flush e aliased =>
      rcases flush_eq_ok happly with ⟨el, pool, _, hpool, rfl⟩
      exact (AccessPool.leaves_deregisterAll hpool).sound h
  | release _ | releaseStepped _ | endStream _ =>
      exact keeps_of_isRelease (I := fun m => m.accesses.slab.Sound) (fun _ _ _ h => sound_releaseFront h)
        (fun _ _ _ => id) h happly trivial
  | _ =>
      rw [accesses_apply happly trivial]
      exact h

theorem sound_run {o : Options} (hrun : Manager.run { options := o } ops = .ok m) :
    m.accesses.slab.Sound :=
  run_keeps (P := fun m => m.accesses.slab.Sound) (Q := fun _ _ => True) (fun _ _ _ h _ => sound_apply h)
    (fun _ _ _ => trivial) Slab.sound_empty hrun

/-! ## Every run -/

theorem markAddrReady_refused {err : EngineError} (h : m.markAddrReady e = .ok (.error err, m')) :
    m' = m := by
  rcases markAddrReady_eq_ok h with rfl | ⟨_, _, _, _, _, hr, _⟩
  · rfl
  · cases hr

theorem step_refused {err : EngineError} (h : m.step s = .ok (.error err, m')) : m' = m := by
  rcases step_eq_ok h with ⟨_, rfl⟩ | ⟨_, _, _, _, _, _, _, _, _, hr, _⟩
  · rfl
  · cases hr

theorem releaseStepped_refused {err : EngineError} (h : m.releaseStepped s = .ok (.error err, m')) :
    m' = m := by
  rw [releaseStepped] at h
  cases hst : m.stream? s with
  | none =>
      rw [hst] at h
      cases h
      rfl
  | some st =>
      simp only [hst] at h
      rcases bind_eq_ok.1 h with ⟨answer, _, h⟩
      cases h

theorem setFinalValue_refused {idx : Nat} {w : UInt64} {err : EngineError}
    (h : m.setFinalValue s idx w = .ok (.error err, m')) : m' = m := by
  rcases setFinalValue_eq_ok h with rfl | ⟨_, _, hr, _⟩
  · rfl
  · cases hr

/-- After every run and under both policies, an operation that is refused leaves the whole manager as it
was. A request is refused by the check of room or not at all: when the check has passed, none of the
registrations that follow is refused, and with lines of a power of two all of them succeed. A split that is
refused leaves the graph as it was, whatever the graph. -/
theorem run_refused {o : Options} (hrun : Manager.run { options := o } ops = .ok m) :
    (∀ s err m', m.allocate s = .ok (.error err, m') → m' = m) ∧
    (∀ e err m', m.markAddrReady e = .ok (.error err, m') → m' = m) ∧
    (∀ e err m', m.issue e = .ok (.error err, m') → m' = m) ∧
    (∀ s err m', m.step s = .ok (.error err, m') → m' = m) ∧
    (∀ s err m', m.releaseStepped s = .ok (.error err, m') → m' = m) ∧
    (∀ s idx w err m', m.setFinalValue s idx w = .ok (.error err, m') → m' = m) ∧
    (∀ s err m', m.endStream s = .ok (.error err, m') → m' = m) ∧
    (∀ e prev el plans, m.Begins e prev el plans → m.checkRoom e plans = .ok (.ok ()) →
      (∀ r m', m.issueBlocks e plans = .ok (r, m') → ∃ made, r = .ok made) ∧
      ∀ k, k < 64 → o.lineSize = 2 ^ k → ∃ made m', m.issueBlocks e plans = .ok (.ok made, m')) ∧
    ∀ (g : Graph) c split refusal g',
      g.splitIntoStrands c split = .ok (.error refusal, g') → g' = g := by
  have hsound := sound_run hrun
  refine ⟨?_, fun _ _ _ => markAddrReady_refused, fun _ _ _ => issue_refused hsound,
    fun _ _ _ => step_refused, fun _ _ _ => releaseStepped_refused,
    fun _ _ _ _ _ => setFinalValue_refused, ?_, ?_, fun _ _ _ _ _ => Graph.splitIntoStrands_eq_error⟩
  · intro s err m' hallocate
    rcases (owned_run hrun).allocate_cases hallocate with ⟨_, _, rfl⟩ | ⟨_, _, _, _, _, _, _, hr, _⟩
    · rfl
    · cases hr
  · intro s err m' hend
    rcases endStream_eq_ok hend with ⟨_, rfl⟩ | ⟨st, m₁, freed, graph, _, _, _, hr, _⟩
    · rfl
    · cases hr
  · intro e prev el plans hbegins hroom
    refine ⟨fun r m' hblocks => ((roomy_of_checkRoom hsound hroom).issueBlocks hblocks).1, ?_⟩
    intro k hk hline
    rcases connected_run hk hline hrun with ⟨howned, hconnected⟩
    rcases (hconnected.requesting howned hbegins hroom).issueBlocks_ok with ⟨made, m', hblocks, _⟩
    exact ⟨made, m', hblocks⟩

/-! ## A full access -/

/-- One word, over and over. -/
def repeatedWord : Declaration :=
  { staticId := 1, role := .load, elemSize := 8, formal := Formal.ofWords [0, 0x1000] }

/-- As many elements wait for the word as an access has room for, and one more has its address. -/
def crowdedRun : List Operation :=
  let s : StreamId := { core := 0, staticId := 1, instanceNo := 1 }
  let waits (i : Nat) : List Operation :=
    [.allocate s, .markAddrReady { val := i }, .issue { val := i }]
  .configure repeatedWord :: (List.range maxReceivers).flatMap waits ++
    [.allocate s, .markAddrReady { val := maxReceivers }]

/-- The last element is refused and asks for nothing. -/
theorem run_refused_crowded :
    ∃ m leader, Manager.run { options := { policy := .report } } crowdedRun = .ok m ∧
      m.issue { val := 64 } = .ok (.error (.capacity (.receivers leader 0x1000)), m) := by
  let leader : ElementLabel := { stream := { core := 0, staticId := 1, instanceNo := 1 }, index := 0 }
  have hshape : (Manager.run { options := { policy := .report } } crowdedRun).toOption.bind (fun m =>
      (m.issue { val := 64 }).toOption.map Prod.fst) =
      some (.error (.capacity (.receivers leader 0x1000))) := by
    decide +kernel
  rcases Option.bind_eq_some_iff.1 hshape with ⟨m, hrun, hshape⟩
  rcases Option.map_eq_some_iff.1 hshape with ⟨⟨r, m'⟩, hissue, hr⟩
  cases hr
  have hissue := toOption_eq_some hissue
  rcases run_refused (toOption_eq_some hrun) with ⟨_, _, hrefused, _⟩
  cases hrefused _ _ m' hissue
  exact ⟨m, leader, toOption_eq_some hrun, hissue⟩

end Manager
end StreamEngine
