import StreamEngine.Proofs.Lifecycle.Contents
import StreamEngine.Proofs.Lifecycle.Requesting

/-!
# What an element keeps from its allocation

An element is allocated for a stream and an index, with a size and with the bases that it reads. All of
that stays as it is until the element is released, and what was declared of its stream stays with the
stream.

- `Manager.Alike` : a projection is as before, for all elements;
- `Element.origin` : what an element has from its allocation;
- `Owned.inherits` : an element after an operation was there before, with the same origin, or is new;
- `Owned.proceeds` : an operation goes on with the streams that there are, declared as they are.
-/

namespace StreamEngine

/-- What an element has from its allocation. -/
structure Origin where
  stream : StreamId
  config : ConfigId
  idx : Nat
  size : Nat
  isMem : Bool
  lineSize : Nat
  addrBases : List BaseRef
  valueBases : List BaseRef

/-- The same stream, declared alike and with at least as many elements allocated so far. -/
structure LiveStream.Continues (st st' : LiveStream) : Prop where
  config_eq : st'.config = st.config
  decl_eq : st'.decl = st.decl
  bases_eq : st'.bases = st.bases
  nextIdx_le : st.nextIdx ≤ st'.nextIdx

theorem LiveStream.continues_refl (st : LiveStream) : st.Continues st :=
  ⟨rfl, rfl, rfl, Nat.le_refl _⟩

theorem LiveStream.Continues.trans {st st' st'' : LiveStream} (h : st.Continues st')
    (h' : st'.Continues st'') : st.Continues st'' :=
  ⟨h'.config_eq.trans h.config_eq, h'.decl_eq.trans h.decl_eq, h'.bases_eq.trans h.bases_eq,
    Nat.le_trans h.nextIdx_le h'.nextIdx_le⟩

/-! ## Projections -/

namespace Element

variable {α : Type} {f : Element → α} {el el' prev : Element} {became : Bool}

def origin (el : Element) : Origin where
  stream := el.stream
  config := el.config
  idx := el.idx
  size := el.size
  isMem := el.isMem
  lineSize := el.lineSize
  addrBases := el.addrBases
  valueBases := el.valueBases

theorem steady_origin : Steady origin :=
  fun _ _ _ _ _ => rfl

end Element

namespace Manager

variable {α : Type} {f : Element → α} {m m' : Manager} {e e' : ElementId} {el el' : Element}
  {s : StreamId} {st st' : LiveStream} {a : AccessId}

/-- A projection is as before for every element, and the same computations are under way. -/
structure Alike (f : Element → α) (m m' : Manager) : Prop where
  pending_eq : m'.pending = m.pending
  read_eq : ∀ e, m'.read f e = m.read f e

theorem alike_refl (f : Element → α) (m : Manager) : Alike f m m :=
  ⟨rfl, fun _ => rfl⟩

theorem Alike.trans {m'' : Manager} (h : Alike f m m') (h' : Alike f m' m'') : Alike f m m'' :=
  ⟨h'.pending_eq.trans h.pending_eq, fun e => (h'.read_eq e).trans (h.read_eq e)⟩

theorem alike_putElement (hel : m.element? e = some el) (hsame : f el' = f el) :
    Alike f m (m.putElement e el') :=
  ⟨rfl, read_putElement hel hsame⟩

theorem Exchanges.alike (h : m.Exchanges m') (hf : Element.Steady f) : Alike f m m' := by
  refine ⟨?_, h.read_eq hf⟩
  rw [h.shape]

/-! ## Origins -/

theorem exists_of_read_eq (h : m'.read f e = m.read f e) (hel' : m'.element? e = some el') :
    ∃ el, m.element? e = some el ∧ f el' = f el := by
  rw [read, hel', Option.map_some] at h
  rcases Option.map_eq_some_iff.1 h.symm with ⟨el, hel, hsame⟩
  exact ⟨el, hel, hsame.symm⟩

theorem origin_markAddrReady {r : Except EngineError Unit} (h : m.markAddrReady e = .ok (r, m'))
    (e' : ElementId) : m'.read Element.origin e' = m.read Element.origin e' := by
  rcases markAddrReady_eq_ok h with rfl | ⟨el, el', addr, hel, hready, _, rfl⟩
  · rfl
  rcases Element.markAddrReady_eq_ok hready with ⟨_, start, blocks, _, rfl⟩
  refine read_putElement hel ?_ e'
  rfl

theorem origin_commit {v : StreamValue} (h : m.commit e v = .ok m') (e' : ElementId) :
    m'.read Element.origin e' = m.read Element.origin e' := by
  rcases commit_eq_ok h with ⟨el, el', hel, rfl, rfl | hadv⟩
  · refine read_putElement hel ?_ e'
    rfl
  · have hsame := Element.steady_origin.advances hadv
    exact read_putElement hel hsame e'

theorem origin_compute (h : m.compute e = .ok m') (e' : ElementId) :
    m'.read Element.origin e' = m.read Element.origin e' := by
  rcases compute_cases h with ⟨v, hcommit⟩ | ⟨v, cycles, hschedule⟩
  · exact origin_commit hcommit e'
  · rcases schedule_eq_ok hschedule with ⟨el, hel, rfl⟩
    have hsame : ({ el with computeScheduled := true } : Element).origin = el.origin := rfl
    exact read_putElement hel hsame e'

theorem origin_tick {now : Nat} {done : List ElementId} (h : m.tick now = .ok (done, m'))
    (e' : ElementId) : m'.read Element.origin e' = m.read Element.origin e' := by
  refine foldlM_keeps (fun _ m₁ => m₁.read Element.origin e' = m.read Element.origin e') ?_ rfl
    (tick_eq_ok h)
  intro p rest m₁ m₂ hsame hcommit
  exact (origin_commit hcommit e').trans hsame

theorem origin_step {r : Except EngineError ElementId} (h : m.step s = .ok (r, m'))
    (e' : ElementId) : m'.read Element.origin e' = m.read Element.origin e' := by
  rcases step_eq_ok h with ⟨_, rfl⟩ | ⟨st, e, el, i, _, _, hel, _, _, _, rfl⟩
  · rfl
  · refine read_putElement hel ?_ e'
    rfl

theorem origin_flush {aliased : Bool} (h : m.flush e aliased = .ok m') (e' : ElementId) :
    m'.read Element.origin e' = m.read Element.origin e' := by
  rcases flush_eq_ok h with ⟨el, pool, hel, _, rfl⟩
  have hsame : (el.flush aliased).2.origin = el.origin := rfl
  exact read_putElement (m := m.dropPending e) hel hsame e'

/-- A new element stands alone under a new key, and the one before it in the chain is told of it. -/
theorem Owned.allocate_cases (h : m.Owned) {r : Except EngineError ElementId}
    (hallocate : m.allocate s = .ok (r, m')) :
    m.stream? s = none ∧ r = .error (.unknownStream s) ∧ m' = m ∨
      ∃ st bases own e, m.stream? s = some st ∧
      m.boundBases st = .ok bases ∧ ownBase s st = .ok own ∧ r = .ok e ∧ m.element? e = none ∧
      m'.element? e = some (m.newElement s st bases own e) ∧
      ∀ e', e' ≠ e → m'.element? e' = (m.element? e').map fun el =>
        if st.chain.getLast? = some e' then { el with next := some e } else el := by
  rcases Manager.allocate_cases hallocate with
    hnone | ⟨st, bases, own, e, m₁, graph, hst, hbases, hown, hr, he, hlink, _, rfl⟩
  · exact Or.inl hnone
  have hsound := h.elements.sound
  let el := m.newElement s st bases own e
  let grown : Manager := { m with elements := (m.elements.insert el).2 }
  have hnew : m.element? e = none := by
    rw [he]
    exact element?_insert_eq_none hsound el
  have hgrown : ∀ e', grown.element? e' = if e' = e then some el else m.element? e' := by
    rw [he]
    exact element?_insert hsound el
  refine Or.inr ⟨st, bases, own, e, hst, hbases, hown, hr, hnew, ?_⟩
  change m₁.element? e = some el ∧ ∀ e', e' ≠ e → m₁.element? e' = _
  rw [linkLast] at hlink
  cases hlast : st.chain.getLast? with
  | none =>
      rw [hlast] at hlink
      cases hlink
      refine ⟨(hgrown e).trans (if_pos rfl), ?_⟩
      intro e' hne
      rw [hgrown, if_neg hne]
      simp
  | some last =>
      rw [hlast] at hlink
      rcases modifyElement_eq_ok hlink with ⟨old, hold, rfl⟩
      -- members of a chain exist, and the key of the new element was free
      have hother : last ≠ e := by
        rintro rfl
        rcases (h.chained s st hst).exists_element (List.mem_of_getLast? hlast) with ⟨el', hel', _⟩
        rw [hnew] at hel'
        cases hel'
      have hbefore : m.element? last = some old := by
        rw [← hold, hgrown, if_neg hother]
      refine ⟨(element?_putElement_of_ne hold _ hother.symm).trans ((hgrown e).trans (if_pos rfl)), ?_⟩
      intro e' hne
      rw [element?_putElement hold, hgrown, if_neg hne]
      by_cases he' : e' = last
      · rw [if_pos he', he', hbefore, Option.map_some, if_pos rfl]
      · rw [if_neg he']
        simp [Ne.symm he']

/-- An element that is there after an operation was there before, with the same origin, or has been
allocated by it. -/
theorem Owned.inherits (h : m.Owned) {op : Operation} (happly : m.apply op = .ok m')
    (hel' : m'.element? e = some el') :
    (∃ el, m.element? e = some el ∧ el'.origin = el.origin) ∨
      ∃ s st bases own, op = .allocate s ∧ m.allocate s = .ok (.ok e, m') ∧
        m.stream? s = some st ∧ m.boundBases st = .ok bases ∧ ownBase s st = .ok own ∧
        m.element? e = none ∧ el' = m.newElement s st bases own e := by
  have hread : m'.read Element.origin e = m.read Element.origin e →
      ∃ el, m.element? e = some el ∧ el'.origin = el.origin :=
    fun hsame => exists_of_read_eq hsame hel'
  cases op with
  | configure d =>
      rcases map_snd_eq_ok happly with ⟨id, hop⟩
      rcases configure_eq_ok hop with ⟨_, config, graph, graph', bases, _, _, rfl⟩
      exact Or.inl ⟨el', hel', rfl⟩
  | allocate s =>
      rcases map_snd_eq_ok happly with ⟨r, hop⟩
      rcases h.allocate_cases hop with
        ⟨_, _, rfl⟩ | ⟨st, bases, own, e₁, hst, hbases, hown, rfl, hnone, hself, hothers⟩
      · exact Or.inl ⟨el', hel', rfl⟩
      by_cases he : e = e₁
      · subst he
        cases (hself.symm.trans hel')
        exact Or.inr ⟨s, st, bases, own, rfl, hop, hst, hbases, hown, hnone, rfl⟩
      · rw [hothers e he] at hel'
        rcases Option.map_eq_some_iff.1 hel' with ⟨el, hel, rfl⟩
        refine Or.inl ⟨el, hel, ?_⟩
        split <;> rfl
  | markAddrReady e₁ =>
      rcases map_snd_eq_ok happly with ⟨r, hop⟩
      exact Or.inl (hread (origin_markAddrReady hop e))
  | issue _ | respond _ _ | respondFault _ | setValue _ _ _ | setValueFromPrevious _ =>
      exact Or.inl (hread ((exchanges_apply happly trivial).read_eq Element.steady_origin e))
  | compute e₁ => exact Or.inl (hread (origin_compute happly e))
  | tick now =>
      rcases map_snd_eq_ok happly with ⟨done, hop⟩
      exact Or.inl (hread (origin_tick hop e))
  | setFinalValue s idx w =>
      rcases map_snd_eq_ok happly with ⟨r, hop⟩
      rcases setFinalValue_eq_ok hop with rfl | ⟨st, _, _, rfl⟩
      · exact Or.inl ⟨el', hel', rfl⟩
      · exact Or.inl ⟨el', hel', rfl⟩
  | step s =>
      rcases map_snd_eq_ok happly with ⟨r, hop⟩
      exact Or.inl (hread (origin_step hop e))
  | flush e₁ aliased => exact Or.inl (hread (origin_flush happly e))
  | release _ | releaseStepped _ | endStream _ =>
      exact Or.inl ⟨el', element?_of_isRelease happly trivial hel', rfl⟩

/-! ## Streams -/

/-- Instances are numbered on, and every stream was there before or has a number of its own. -/
structure Proceeds (m m' : Manager) : Prop where
  issued : ∀ s ∈ m.instances.issued, s ∈ m'.instances.issued
  streams : ∀ s st', m'.stream? s = some st' → ∃ st, m.stream? s = some st ∧ st.Continues st'

theorem proceeds_refl (m : Manager) : m.Proceeds m :=
  ⟨fun _ => id, fun _ st' hst' => ⟨st', hst', st'.continues_refl⟩⟩

theorem Proceeds.trans {m'' : Manager} (h : m.Proceeds m') (h' : m'.Proceeds m'') :
    m.Proceeds m'' := by
  refine ⟨fun s hs => h'.issued s (h.issued s hs), ?_⟩
  intro s st₂ hst₂
  rcases h'.streams s st₂ hst₂ with ⟨st₁, hst₁, hlater⟩
  rcases h.streams s st₁ hst₁ with ⟨st, hst, hfirst⟩
  exact ⟨st, hst, hfirst.trans hlater⟩

theorem Quiet.proceeds (h : m.Quiet m') : m.Proceeds m' := by
  refine ⟨?_, ?_⟩
  · intro s hs
    rw [h.shape]
    exact hs
  · intro s st' hst'
    rw [h.stream?_eq] at hst'
    exact ⟨st', hst', st'.continues_refl⟩

/-- A stream may be replaced by one that continues it. -/
theorem proceeds_putStream (hst : m.stream? s = some st) (hcontinues : st.Continues st') :
    m.Proceeds (m.putStream s st') := by
  refine ⟨fun _ => id, ?_⟩
  intro s' st₁ hst₁
  rcases stream?_putStream_cases hst₁ with ⟨rfl, rfl⟩ | ⟨_, hold⟩
  · exact ⟨st, hst, hcontinues⟩
  · exact ⟨st₁, hold, st₁.continues_refl⟩

theorem proceeds_releaseFront (h : m.releaseFront s = .ok m') : m.Proceeds m' := by
  rcases releaseFront_eq_ok h with ⟨st, e, rest, el, pool, freed, graph, hst, _, _, _, _, rfl⟩
  have hput : m.Proceeds (m.putStream s { st with chain := rest }) :=
    proceeds_putStream hst ⟨rfl, rfl, rfl, Nat.le_refl _⟩
  exact ⟨hput.issued, hput.streams⟩

theorem proceeds_allocate (howned : m.Owned) {r : Except EngineError ElementId}
    (h : m.allocate s = .ok (r, m')) : m.Proceeds m' := by
  rcases allocate_eq_ok h with ⟨_, rfl⟩ | ⟨st, el, e, m₁, graph, hst, _, _, _, _, hlink, _, rfl⟩
  · exact proceeds_refl m'
  rcases linkLast_eq_ok (howned.elements.insert el) hlink with ⟨hshape, _, _⟩
  let grown : LiveStream := { st with chain := st.chain ++ [e], nextIdx := st.nextIdx + 1 }
  have hput : m.Proceeds (m.putStream s grown) :=
    proceeds_putStream hst ⟨rfl, rfl, rfl, Nat.le_succ _⟩
  have hstream : ∀ s', (m₁.putStream s grown).stream? s' = (m.putStream s grown).stream? s' := by
    intro s'
    rw [stream?_putStream, stream?_putStream, hshape]
    rfl
  refine ⟨?_, ?_⟩
  · intro s' hs'
    change s' ∈ m₁.instances.issued
    rw [hshape]
    exact hs'
  · intro s' st' hst'
    exact hput.streams s' st' ((hstream s').symm.trans hst')

theorem proceeds_dropStream (m : Manager) (s : StreamId) (graph : Graph) :
    m.Proceeds { m.dropStream s with graph } :=
  ⟨fun _ => id, fun _ st' hst' => ⟨st', (stream?_of_erase hst').2, st'.continues_refl⟩⟩

/-- Every operation goes on with the streams that there are. Only a configuration adds one. -/
theorem Owned.proceeds (h : m.Owned) {op : Operation} (happly : m.apply op = .ok m')
    (hop : ∀ d, op ≠ .configure d) : m.Proceeds m' := by
  cases op with
  | configure d => exact absurd rfl (hop d)
  | allocate s =>
      rcases map_snd_eq_ok happly with ⟨r, hop⟩
      exact proceeds_allocate h hop
  | markAddrReady _ | issue _ | respond _ _ | respondFault _ | setValue _ _ _ | setValueFromPrevious _
  | compute _ | tick _ | flush _ _ => exact (quiet_apply happly trivial).proceeds
  | setFinalValue s idx w =>
      rcases map_snd_eq_ok happly with ⟨r, hop⟩
      rcases setFinalValue_eq_ok hop with rfl | ⟨st, hst, _, rfl⟩
      · exact proceeds_refl m'
      · exact proceeds_putStream hst ⟨rfl, rfl, rfl, Nat.le_refl _⟩
  | step s =>
      rcases map_snd_eq_ok happly with ⟨r, hop⟩
      rcases step_eq_ok hop with ⟨_, rfl⟩ | ⟨st, e, el, i, _, _, _, _, _, _, rfl⟩
      · exact proceeds_refl m'
      · exact ⟨fun _ => id, fun _ st' hst' => ⟨st', hst', st'.continues_refl⟩⟩
  | release _ | releaseStepped _ | endStream _ =>
      exact keeps_of_isRelease (fun _ _ _ hbefore hfront => hbefore.trans (proceeds_releaseFront hfront))
        (fun s m₁ graph hbefore => hbefore.trans (proceeds_dropStream m₁ s graph)) (proceeds_refl m) happly
        trivial

end Manager
end StreamEngine
