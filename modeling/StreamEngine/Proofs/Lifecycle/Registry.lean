import StreamEngine.Lifecycle.Retire
import StreamEngine.Proofs.Lifecycle.Waiting

/-!
# Streams, chains and keys

Keys are used again, so the tables of a manager must agree on who uses them: a chain lists live elements
of its own stream, once each, and an instance number is never given out twice.

- `Manager.Registered` : the tables agree;
- `element?_putElement`, `stream?_putStream`, … : reading after writing;
- `Registered.putElement` and the lemmas behind it : what every update of a table keeps.
-/

namespace StreamEngine

/-! ## Instances -/

namespace InstanceCounter

variable {c : InstanceCounter}

/-- No instance has a higher number than instances there are. -/
def Counted (c : InstanceCounter) : Prop :=
  ∀ s ∈ c.issued, s.instanceNo ≤ c.count s.core s.staticId

theorem not_mem_next (h : c.Counted) (core : Int) (staticId : StaticId) :
    (c.next core staticId).1 ∉ c.issued := by
  intro hmem
  have hle := h _ hmem
  simp only [next] at hle
  omega

theorem Counted.next (h : c.Counted) (core : Int) (staticId : StaticId) :
    (c.next core staticId).2.Counted := by
  intro s hs
  rcases List.mem_cons.1 hs with rfl | hs
  · simp only [InstanceCounter.next, count, List.countP_cons_of_pos, beq_self_eq_true,
      Bool.and_self, Nat.le_refl]
  · refine Nat.le_trans (h s hs) ?_
    exact List.Sublist.countP_le (List.sublist_cons_self _ _)

end InstanceCounter

namespace Manager

variable {m m' : Manager} {e e' : ElementId} {el el' : Element} {s s' : StreamId}
  {st st' : LiveStream}

/-! ## Reading after writing -/

theorem element?_putElement (h : m.element? e = some el) (el' : Element) (e' : ElementId) :
    (m.putElement e el').element? e' = if e' = e then some el' else m.element? e' := by
  rw [element?, putElement, Slab.get?_replace h]
  by_cases he : e' = e
  · rw [if_pos he, if_pos (congrArg ElementId.val he)]
  · rw [if_neg he, if_neg fun hval => he (ElementId.eq_of_val hval)]
    rfl

theorem element?_putElement_self (h : m.element? e = some el) (el' : Element) :
    (m.putElement e el').element? e = some el' := by
  rw [element?_putElement h, if_pos rfl]

theorem element?_putElement_of_ne (h : m.element? e = some el) (el' : Element) (hne : e' ≠ e) :
    (m.putElement e el').element? e' = m.element? e' := by
  rw [element?_putElement h, if_neg hne]

theorem putElement_putElement (m : Manager) (e : ElementId) (el el' : Element) :
    (m.putElement e el).putElement e el' = m.putElement e el' := by
  rw [putElement, putElement, Slab.replace_replace]
  rfl

/-- What is read after a replacement is the replacement, or it stood under another key before. -/
theorem element?_putElement_cases (h : m.element? e = some el) {found : Element}
    (hfound : (m.putElement e el').element? e' = some found) :
    e' = e ∧ found = el' ∨ e' ≠ e ∧ m.element? e' = some found := by
  rw [element?_putElement h] at hfound
  by_cases he : e' = e
  · rw [if_pos he] at hfound
    exact Or.inl ⟨he, (Option.some.inj hfound).symm⟩
  · rw [if_neg he] at hfound
    exact Or.inr ⟨he, hfound⟩

theorem stream?_putStream (m : Manager) (s s' : StreamId) (st : LiveStream) :
    (m.putStream s st).stream? s' = if s = s' then some st else m.stream? s' :=
  Table.find?_insert _ _ _ _

theorem stream?_putStream_cases {found : LiveStream}
    (hfound : (m.putStream s st).stream? s' = some found) :
    s = s' ∧ found = st ∨ s ≠ s' ∧ m.stream? s' = some found := by
  rw [stream?_putStream] at hfound
  by_cases hsame : s = s'
  · rw [if_pos hsame] at hfound
    exact Or.inl ⟨hsame, (Option.some.inj hfound).symm⟩
  · rw [if_neg hsame] at hfound
    exact Or.inr ⟨hsame, hfound⟩

/-- The streams that are left when one is forgotten were there before, under other names. -/
theorem stream?_of_erase {found : LiveStream}
    (hfound : ({ m with streams := m.streams.erase s } : Manager).stream? s' = some found) :
    s ≠ s' ∧ m.stream? s' = some found := by
  rw [stream?, Table.find?_erase] at hfound
  by_cases hsame : s = s'
  · rw [if_pos hsame] at hfound
    cases hfound
  · rw [if_neg hsame] at hfound
    exact ⟨hsame, hfound⟩

theorem element_eq_ok : m.element e = .ok el ↔ m.element? e = some el := by
  rw [element]
  cases m.element? e with
  | none =>
      constructor
      · intro h
        cases h
      · intro h
        cases h
  | some found =>
      constructor
      · intro h
        cases h
        rfl
      · intro h
        cases h
        rfl

theorem stream_eq_ok : m.stream s = .ok st ↔ m.stream? s = some st := by
  rw [stream]
  cases m.stream? s with
  | none =>
      constructor
      · intro h
        cases h
      · intro h
        cases h
  | some found =>
      constructor
      · intro h
        cases h
        rfl
      · intro h
        cases h
        rfl

theorem modifyElement_eq_ok {f : Element → Element} (h : m.modifyElement e f = .ok m') :
    ∃ el, m.element? e = some el ∧ m' = m.putElement e (f el) := by
  rcases bind_eq_ok.1 h with ⟨el, hel, h⟩
  cases h
  exact ⟨el, element_eq_ok.1 hel, rfl⟩

/-! ## Tables that agree -/

structure Registered (m : Manager) : Prop where
  elements : m.elements.Sound
  accesses : m.accesses.slab.Sound
  counted : m.instances.Counted
  streams : ∀ s st, m.stream? s = some st → s ∈ m.instances.issued
  owners : ∀ e el, m.element? e = some el → el.stream ∈ m.instances.issued
  nodup : ∀ s st, m.stream? s = some st → st.chain.Nodup
  chained : ∀ s st, m.stream? s = some st → ∀ e ∈ st.chain,
    ∃ el, m.element? e = some el ∧ el.stream = s

theorem registered_new (o : Options) : ({ options := o } : Manager).Registered where
  elements := Slab.sound_empty
  accesses := Slab.sound_empty
  counted := by
    intro s hs
    cases hs
  streams := by
    intro s st h
    cases h
  owners := by
    intro e el h
    cases h
  nodup := by
    intro s st h
    cases h
  chained := by
    intro s st h
    cases h

/-- The graph, the latest instances, the clock and the computations under way do not matter. -/
theorem Registered.setOthers (h : m.Registered) (graph : Graph)
    (latest : Table (Int × StaticId) StreamId) (pending : List PendingCompute) (now : Nat) :
    ({ m with graph, latest, pending, now } : Manager).Registered :=
  ⟨h.elements, h.accesses, h.counted, h.streams, h.owners, h.nodup, h.chained⟩

theorem Registered.setAccesses (h : m.Registered) {p : AccessPool} (hp : p.slab.Sound) :
    ({ m with accesses := p } : Manager).Registered :=
  ⟨h.elements, hp, h.counted, h.streams, h.owners, h.nodup, h.chained⟩

theorem Registered.putElement (h : m.Registered) (hel : m.element? e = some el)
    (hstream : el'.stream = el.stream) : (m.putElement e el').Registered where
  elements := h.elements.replace hel el'
  accesses := h.accesses
  counted := h.counted
  streams := h.streams
  owners := by
    intro e' el₁ hel₁
    rcases element?_putElement_cases hel hel₁ with ⟨_, rfl⟩ | ⟨_, hold⟩
    · rw [hstream]
      exact h.owners e el hel
    · exact h.owners e' el₁ hold
  nodup := h.nodup
  chained := by
    intro s st hst e' he'
    rcases h.chained s st hst e' he' with ⟨el₁, hel₁, hs⟩
    by_cases he : e' = e
    · rw [he, hel] at hel₁
      cases hel₁
      exact ⟨el', he ▸ element?_putElement_self hel el', hstream.trans hs⟩
    · exact ⟨el₁, (element?_putElement_of_ne hel el' he).trans hel₁, hs⟩

/-- A stream may get another chain of its own live elements. -/
theorem Registered.putStream (h : m.Registered) (hs : s ∈ m.instances.issued)
    (hnodup : st'.chain.Nodup)
    (hchain : ∀ e ∈ st'.chain, ∃ el, m.element? e = some el ∧ el.stream = s) :
    (m.putStream s st').Registered where
  elements := h.elements
  accesses := h.accesses
  counted := h.counted
  streams := by
    intro s' st hst
    rcases stream?_putStream_cases hst with ⟨rfl, _⟩ | ⟨_, hold⟩
    · exact hs
    · exact h.streams s' st hold
  owners := h.owners
  nodup := by
    intro s' st hst
    rcases stream?_putStream_cases hst with ⟨_, rfl⟩ | ⟨_, hold⟩
    · exact hnodup
    · exact h.nodup s' st hold
  chained := by
    intro s' st hst
    rcases stream?_putStream_cases hst with ⟨rfl, rfl⟩ | ⟨_, hold⟩
    · exact hchain
    · exact h.chained s' st hold

theorem Registered.eraseStream (h : m.Registered) (s : StreamId) :
    ({ m with streams := m.streams.erase s } : Manager).Registered :=
  ⟨h.elements, h.accesses, h.counted, fun s' st hst => h.streams s' st (stream?_of_erase hst).2,
    h.owners, fun s' st hst => h.nodup s' st (stream?_of_erase hst).2,
    fun s' st hst => h.chained s' st (stream?_of_erase hst).2⟩

/-! ## New and freed keys -/

/-- The manager with a new element, and its key. -/
theorem element?_insert (h : m.elements.Sound) (el : Element) (e' : ElementId) :
    ({ m with elements := (m.elements.insert el).2 } : Manager).element? e' =
      if e' = { val := (m.elements.insert el).1 } then some el else m.element? e' := by
  rw [element?, Slab.get?_insert h]
  by_cases he : e'.val = (m.elements.insert el).1
  · rw [if_pos he, if_pos (ElementId.eq_of_val he)]
  · rw [if_neg he, if_neg fun hkey => he (congrArg ElementId.val hkey)]
    rfl

theorem element?_insert_eq_none (h : m.elements.Sound) (el : Element) :
    m.element? { val := (m.elements.insert el).1 } = none :=
  Slab.get?_insert_self_eq_none h el

/-- Live elements stay where they are: the key of the new one was free. -/
theorem element?_insert_of_some {el₁ : Element} (h : m.elements.Sound) (el : Element)
    (hel₁ : m.element? e = some el₁) :
    ({ m with elements := (m.elements.insert el).2 } : Manager).element? e = some el₁ := by
  rw [element?_insert h, if_neg]
  · exact hel₁
  · rintro rfl
    rw [element?_insert_eq_none h el] at hel₁
    cases hel₁

theorem Registered.insertElement (h : m.Registered) (hs : el.stream ∈ m.instances.issued) :
    ({ m with elements := (m.elements.insert el).2 } : Manager).Registered where
  elements := h.elements.insert el
  accesses := h.accesses
  counted := h.counted
  streams := h.streams
  owners := by
    intro e el₁ hel₁
    rw [element?_insert h.elements] at hel₁
    by_cases he : e = { val := (m.elements.insert el).1 }
    · rw [if_pos he] at hel₁
      cases hel₁
      exact hs
    · rw [if_neg he] at hel₁
      exact h.owners e el₁ hel₁
  nodup := h.nodup
  chained := by
    intro s st hst e he
    rcases h.chained s st hst e he with ⟨el₁, hel₁, hs₁⟩
    exact ⟨el₁, element?_insert_of_some h.elements el hel₁, hs₁⟩

theorem element?_erase (h : m.element? e = some el) (e' : ElementId) :
    ({ m with elements := m.elements.erase e.val } : Manager).element? e' =
      if e' = e then none else m.element? e' := by
  rw [element?, Slab.get?_erase h]
  by_cases he : e' = e
  · rw [if_pos he, if_pos (congrArg ElementId.val he)]
  · rw [if_neg he, if_neg fun hval => he (ElementId.eq_of_val hval)]
    rfl

/-- The elements that are left when one is freed were there before, under other keys. -/
theorem element?_of_erase (h : m.element? e = some el) {found : Element}
    (hfound : ({ m with elements := m.elements.erase e.val } : Manager).element? e' = some found) :
    e' ≠ e ∧ m.element? e' = some found := by
  rw [element?_erase h] at hfound
  by_cases he : e' = e
  · rw [if_pos he] at hfound
    cases hfound
  · rw [if_neg he] at hfound
    exact ⟨he, hfound⟩

/-- An element that is in no chain may be freed. -/
theorem Registered.eraseElement (h : m.Registered) (hel : m.element? e = some el)
    (hfree : ∀ s st, m.stream? s = some st → e ∉ st.chain) :
    ({ m with elements := m.elements.erase e.val } : Manager).Registered where
  elements := h.elements.erase hel
  accesses := h.accesses
  counted := h.counted
  streams := h.streams
  owners := fun e' el₁ hel₁ => h.owners e' el₁ (element?_of_erase hel hel₁).2
  nodup := h.nodup
  chained := by
    intro s st hst e' he'
    rcases h.chained s st hst e' he' with ⟨el₁, hel₁, hs⟩
    refine ⟨el₁, ?_, hs⟩
    rw [element?_erase hel, if_neg]
    · exact hel₁
    · intro he
      exact hfree s st hst (he ▸ he')

/-- The head of a chain is in no other place. -/
theorem Registered.not_mem_chain (h : m.Registered) (hst : m.stream? s = some st) {rest : List ElementId}
    (hchain : st.chain = e :: rest) (hst' : m.stream? s' = some st') (hne : s' ≠ s) :
    e ∉ st'.chain := by
  intro hmem
  rcases h.chained s st hst e (by simp [hchain]) with ⟨el, hel, hs⟩
  rcases h.chained s' st' hst' e hmem with ⟨el', hel', hs'⟩
  rw [hel] at hel'
  cases hel'
  exact hne (hs'.symm.trans hs)

end Manager
end StreamEngine
