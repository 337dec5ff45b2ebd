import StreamEngine.Proofs.Lifecycle.Numbering
import StreamEngine.Proofs.Lifecycle.Refusals

/-!
# Who has registered with an access

Elements register with accesses in requests only. An element that leaves keeps its entry, and takes it up again
when it comes back, so the entries of an access are in the order in which their elements registered first.

- `AccessPool.entered` : the elements with an entry;
- `AccessPool.Enters` : a pool before and after one element has registered;
- `entered_apply` : an operation adds one entry, or none, or ends the access;
- `exists_registering` : the entries numbered by the requests that made them, after every run.
-/

namespace StreamEngine

/-! ## Entries -/

namespace AccessPool

variable {p p' p'' : AccessPool} {a a' : AccessId} {access : Access} {e : ElementId} {r : Receivers}

/-- The elements with an entry at an access, in order. There are none if it is not in flight. -/
def entered (p : AccessPool) (a : AccessId) : List ElementId :=
  match p.find? a with
  | some access => access.receivers.entries.map Receiver.element
  | none => []

theorem entered_of_some (h : p.find? a = some access) :
    p.entered a = access.receivers.entries.map Receiver.element := by
  rw [entered, h]

theorem entered_of_none (h : p.find? a = none) : p.entered a = [] := by
  rw [entered, h]

theorem entered_put (h : p.find? a = some access) (r : Receivers) :
    (p.put a { access with receivers := r }).entered a' =
      if a' = a then r.entries.map Receiver.element else p.entered a' := by
  rw [entered, find?_put h]
  by_cases ha : a' = a
  · rw [if_pos ha, if_pos ha]
  · rw [if_neg ha, if_neg ha, entered]

/-- A new access has no entries yet, and neither had one of its key. -/
theorem entered_alloc (h : p.slab.Sound) (hnone : access.receivers = {}) (a : AccessId) :
    (p.alloc access).2.entered a = p.entered a := by
  rw [entered, find?_alloc h]
  by_cases ha : a = (p.alloc access).1
  · simp only [if_pos ha, hnone]
    rw [ha, entered_of_none (find?_alloc_eq_none h access)]
    rfl
  · rw [if_neg ha, entered]

theorem entered_erase (h : p.find? a = some access) :
    (AccessPool.mk (p.slab.erase a.val)).entered a' = if a' = a then [] else p.entered a' := by
  rw [entered, find?_erase h]
  by_cases ha : a' = a
  · rw [if_pos ha, if_pos ha]
  · rw [if_neg ha, if_neg ha, entered]

/-- Whoever leaves keeps its entry. -/
theorem entered_deregister (h : p.deregister a e = .ok p') (a' : AccessId) : p'.entered a' = p.entered a' := by
  rcases bind_eq_ok.1 h with ⟨access, hget, h⟩
  rcases bind_eq_ok.1 h with ⟨access', hleave, h⟩
  cases h
  rcases bind_eq_ok.1 hleave with ⟨receivers, hreceivers, hleave⟩
  cases hleave
  have hfind := get_eq_ok.1 hget
  have hentries : receivers.entries.map Receiver.element =
      access.receivers.entries.map Receiver.element := by
    rw [Receivers.deregister] at hreceivers
    split at hreceivers
    · split at hreceivers
      · cases hreceivers
        exact Receivers.map_element_setLive e false _
      · cases hreceivers
    · cases hreceivers
  rw [entered_put hfind, hentries]
  split
  · rename_i ha
    rw [ha, entered_of_some hfind]
  · rfl

theorem entered_deregisterAll {accesses : List AccessId}
    (h : accesses.foldlM (fun p a => p.deregister a e) p = .ok p') (a : AccessId) :
    p'.entered a = p.entered a :=
  foldlM_keeps (fun _ q => q.entered a = p.entered a)
    (fun _ _ _ _ hsame hstep => (entered_deregister hstep a).trans hsame) rfl h

/-- The element has taken part in a request: it may have a new entry, behind the others. -/
def Enters (e : ElementId) (p p' : AccessPool) : Prop :=
  ∀ a, p'.entered a = p.entered a ∨ e ∉ p.entered a ∧ p'.entered a = p.entered a ++ [e]

theorem Enters.trans (h : Enters e p p') (h' : Enters e p' p'') : Enters e p p'' := by
  intro a
  rcases h a with hsame | ⟨hnot, hadded⟩
  · rw [← hsame]
    exact h' a
  · rcases h' a with hsame | ⟨hcontra, _⟩
    · exact .inr ⟨hnot, hsame.trans hadded⟩
    · -- it has its entry already
      rw [hadded] at hcontra
      exact absurd (List.mem_append_right _ (List.mem_singleton_self e)) hcontra

theorem enters_put (hfind : p.find? a = some access) (h : access.receivers.register e = .ok (some r)) :
    Enters e p (p.put a { access with receivers := r }) := by
  intro a'
  rw [entered_put hfind]
  by_cases ha : a' = a
  · rw [if_pos ha, ha, entered_of_some hfind]
    rcases Receivers.register_eq_some h with ⟨x, _, _, rfl⟩ | ⟨hnone, rfl⟩
    · exact .inl (Receivers.map_element_setLive e true _)
    · exact .inr ⟨Receivers.not_mem_of_find?_eq_none hnone, List.map_append⟩
  · exact .inl (if_neg ha)

end AccessPool

namespace Manager

variable {m m' : Manager} {e : ElementId} {a : AccessId} {s : StreamId} {i : Nat} {plan : IssuePlan}
  {plans rest : List (Nat × IssuePlan)} {op : Operation} {ops : List Operation} {o : Options}

/-! ## Requests -/

theorem enters_attach {access : Access} {r : Except EngineError Unit}
    (hfind : m.accesses.find? a = some access) (hroom : access.receivers.hasRoomFor e = true)
    (h : m.attach e i a = .ok (r, m')) : AccessPool.Enters e m.accesses m'.accesses := by
  rcases attach_eq_ok hfind hroom h with ⟨_, receivers, el, hregister, _, rfl⟩
  exact AccessPool.enters_put hfind hregister

theorem Roomy.enters_issueBlock (h : m.Roomy e ((i, plan) :: rest)) {r : Except EngineError (Option AccessId)}
    (hblock : m.issueBlock e i plan = .ok (r, m')) : AccessPool.Enters e m.accesses m'.accesses := by
  rcases issueBlock_cases hblock with
    ⟨a, r₁, rfl, hattach, _⟩ | ⟨_, _, el, _, rfl⟩ | ⟨el, b, r₁, _, _, _, hattach, _⟩
  · rcases h.room i a (List.mem_cons_self ..) with ⟨access, hfind, hroom⟩
    exact enters_attach hfind hroom hattach
  · exact fun _ => .inl rfl
  · let fresh := accessFor e el b
    have hfind : (m.accesses.alloc fresh).2.find? (m.accesses.alloc fresh).1 = some fresh := by
      rw [AccessPool.find?_alloc h.sound, if_pos rfl]
    have hmade : AccessPool.Enters e m.accesses (m.accesses.alloc fresh).2 :=
      fun a => .inl (AccessPool.entered_alloc h.sound rfl a)
    exact hmade.trans (enters_attach (m := { m with accesses := (m.accesses.alloc fresh).2 }) hfind rfl
      hattach)

theorem Roomy.enters_issueBlocks (h : m.Roomy e plans) {r : Except EngineError (List AccessId)}
    (hblocks : m.issueBlocks e plans = .ok (r, m')) : AccessPool.Enters e m.accesses m'.accesses := by
  have hkept := keeps_of_issueBlocks (e := e)
    (I := fun plans m₁ => m₁.Roomy e plans ∧ AccessPool.Enters e m.accesses m₁.accesses)
    (fun _ _ _ _ _ _ hleft hblock => (hleft.1.issueBlock hblock).imp_right fun hnext =>
      ⟨hnext, hleft.2.trans (hleft.1.enters_issueBlock hblock)⟩)
    ⟨h, fun _ => .inl rfl⟩ hblocks
  exact hkept.2.2

theorem enters_issue (h : m.accesses.slab.Sound) {r : Except EngineError (List AccessId)}
    (hissue : m.issue e = .ok (r, m')) : AccessPool.Enters e m.accesses m'.accesses := by
  rcases issue_eq_ok hissue with ⟨prev, el, plans, _, ⟨_, rfl⟩ | ⟨hroom, r₁, m₁, hblocks, hcase⟩⟩
  · exact fun _ => .inl rfl
  have henters := (roomy_of_checkRoom h hroom).enters_issueBlocks hblocks
  rcases hcase with ⟨_, rfl⟩ | ⟨_, el₁, _, ⟨_, rfl⟩ | ⟨_, became, hset⟩⟩
  · exact henters
  · exact henters
  · rcases setValueFromPrevious_eq_ok hset with ⟨_, _, _, _, _, _, _, _, rfl⟩
    exact henters

/-! ## Operations -/

theorem entered_answer {settle : Element → Nat → Except Fault (Bool × Element)} {ready : List ElementId}
    {c : AccessId} (h : m.answer c settle = .ok (ready, m')) (a : AccessId) :
    (m'.accesses.entered a).Sublist (m.accesses.entered a) := by
  rcases answer_eq_ok h with ⟨access, hfind, hdeliver⟩
  rw [deliver_shape hdeliver]
  change (AccessPool.entered { slab := m.accesses.slab.erase c.val } a).Sublist _
  rw [AccessPool.entered_erase hfind]
  split
  · exact List.nil_sublist _
  · exact List.Sublist.refl _

theorem entered_releaseFront (h : m.releaseFront s = .ok m') (a : AccessId) :
    m'.accesses.entered a = m.accesses.entered a := by
  rcases releaseFront_eq_ok h with ⟨st, e, rest, el, pool, freed, graph, _, _, _, hpool, _, rfl⟩
  exact AccessPool.entered_deregisterAll hpool a

/-- Entries are made by requests, one for an access, and they end with the access. -/
theorem entered_apply (h : m.accesses.slab.Sound) (happly : m.apply op = .ok m') (a : AccessId) :
    (m'.accesses.entered a).Sublist (m.accesses.entered a) ∨
      ∃ e, op = .issue e ∧ m'.accesses.entered a = m.accesses.entered a ++ [e] := by
  have hkept : m'.accesses.entered a = m.accesses.entered a →
      (m'.accesses.entered a).Sublist (m.accesses.entered a) ∨
        ∃ e, op = .issue e ∧ m'.accesses.entered a = m.accesses.entered a ++ [e] :=
    fun hsame => .inl (hsame ▸ List.Sublist.refl _)
  cases op with
  | issue e =>
      rcases map_snd_eq_ok happly with ⟨r, hop⟩
      rcases enters_issue h hop a with hsame | ⟨_, hadded⟩
      · exact hkept hsame
      · exact .inr ⟨e, rfl, hadded⟩
  | respond a data =>
      rcases map_snd_eq_ok happly with ⟨ready, hop⟩
      exact .inl (entered_answer hop _)
  | respondFault a =>
      rcases map_snd_eq_ok happly with ⟨ready, hop⟩
      exact .inl (entered_answer hop _)
  | flush e aliased =>
      rcases flush_eq_ok happly with ⟨el, pool, _, hpool, rfl⟩
      exact hkept (AccessPool.entered_deregisterAll hpool a)
  | release _ | releaseStepped _ | endStream _ =>
      have hsame : m'.accesses.entered a = m.accesses.entered a :=
        keeps_of_isRelease (I := fun m₁ => m₁.accesses.entered a = m.accesses.entered a)
          (fun _ _ _ hsame hfront => (entered_releaseFront hfront a).trans hsame) (fun _ _ _ => id) rfl happly
          trivial
      exact hkept hsame
  | _ => exact hkept (by rw [accesses_apply happly trivial])

/-! ## Every run -/

/-- The elements with an entry at an access, numbered by the requests in which they registered first. -/
def Registering (o : Options) (ops : List Operation) (m : Manager) (a : AccessId)
    (numbered : List (Nat × ElementId)) : Prop :=
  ({ options := o } : Manager).Numbered (fun m => m.accesses.entered a) (fun op e => op = .issue e) ops m
    numbered

theorem exists_registering (hrun : Manager.run { options := o } ops = .ok m) (a : AccessId) :
    ∃ numbered, Registering o ops m a numbered :=
  exists_numbered rfl (fun _ _ _ _ hfound happly => entered_apply (sound_run hfound) happly a) hrun

end Manager
end StreamEngine
