import StreamEngine.Proofs.Graph.References
import StreamEngine.Proofs.Lifecycle.Creating
import StreamEngine.Proofs.Lifecycle.Frames
import StreamEngine.Proofs.Lifecycle.Operations

/-!
# Who owns elements and configurations

Chains, elements, configurations and the latest instances are tables of their own. They agree: every
element stands at its place in the chain of its stream, the head of a chain has been stepped over as far as
one prefix reaches, and the configuration of a stream has one reference for each element.

- `LiveStream.placeAt` : the place that a chain gives to its members;
- `Manager.Owned` : the tables agree;
- `Owned.quiet` : quiet changes keep that;
- `Owned.update` : a stream may be given another chain whose members have their places.
-/

namespace StreamEngine

/-- Place of member `i` of the chain of stream `s`, the first `n` members of which were stepped over. -/
def LiveStream.placeAt (st : LiveStream) (s : StreamId) (n i : Nat) : Place where
  stream := s
  config := st.config
  idx := st.nextIdx - st.chain.length + i
  next := st.chain[i + 1]?
  stepped := decide (i < n)

/-- Place of an element that is allocated next. -/
def LiveStream.nextPlace (st : LiveStream) (s : StreamId) : Place where
  stream := s
  config := st.config
  idx := st.nextIdx
  next := none
  stepped := false

namespace Manager

variable {m m' : Manager} {e : ElementId} {el : Element} {s s' : StreamId} {st st' : LiveStream}
  {p : Place}

/-- Every member of a chain stands at its place. -/
structure Chained (m : Manager) (s : StreamId) (st : LiveStream) : Prop where
  length_le : st.chain.length ≤ st.nextIdx
  placed : ∃ n, n ≤ st.chain.length ∧
    ∀ i e, st.chain[i]? = some e → m.place? e = some (st.placeAt s n i)

structure Owned (m : Manager) : Prop where
  elements : m.elements.Exact
  counted : m.instances.Counted
  issued : ∀ s st, m.stream? s = some st → s ∈ m.instances.issued
  home : ∀ e p, m.place? e = some p → ∃ st, m.stream? p.stream = some st ∧ e ∈ st.chain
  chained : ∀ s st, m.stream? s = some st → m.Chained s st
  held : ∀ s st, m.stream? s = some st → m.graph.Holds st.config st.chain.length
  apart : ∀ s s' st st', m.stream? s = some st → m.stream? s' = some st' →
    st.config = st'.config → s = s'
  latest : ∀ key s, m.latest.find? key = some s →
    key = (s.core, s.staticId) ∧ ∃ st, m.stream? s = some st

theorem owned_new (o : Options) : ({ options := o } : Manager).Owned where
  elements := Slab.exact_empty
  counted := by
    intro s hs
    cases hs
  issued := by
    intro s st h
    cases h
  home := by
    intro e p h
    cases h
  chained := by
    intro s st h
    cases h
  held := by
    intro s st h
    cases h
  apart := by
    intro s s' st st' h
    cases h
  latest := by
    intro key s h
    cases h

/-! ## Reading places -/

theorem place?_eq (hel : m.element? e = some el) : m.place? e = some el.place := by
  rw [place?, hel, Option.map_some]

theorem place?_eq_some : m.place? e = some p ↔ ∃ el, m.element? e = some el ∧ el.place = p :=
  Option.map_eq_some_iff

theorem place?_putElement (hel : m.element? e = some el) (el' : Element) (e' : ElementId) :
    (m.putElement e el').place? e' = if e' = e then some el'.place else m.place? e' := by
  rw [place?, element?_putElement hel]
  by_cases he : e' = e
  · rw [if_pos he, if_pos he, Option.map_some]
  · rw [if_neg he, if_neg he, place?]

theorem Chained.nodup (h : m.Chained s st) : st.chain.Nodup := by
  rcases h.placed with ⟨n, _, hplaced⟩
  rw [List.nodup_iff_getElem?_ne_getElem?]
  intro i j hij hj hsame
  rcases List.getElem?_eq_some_iff.1 (List.getElem?_eq_getElem hj) with ⟨hj', _⟩
  -- the place of a member tells its position
  have hpi := hplaced i st.chain[j] (hsame.trans (List.getElem?_eq_getElem hj'))
  have hpj := hplaced j st.chain[j] (List.getElem?_eq_getElem hj')
  have hidx := congrArg Place.idx (Option.some.inj (hpi.symm.trans hpj))
  simp only [LiveStream.placeAt] at hidx
  omega

theorem Chained.place_of_mem (h : m.Chained s st) (he : e ∈ st.chain) :
    ∃ p, m.place? e = some p ∧ p.stream = s := by
  rcases h.placed with ⟨n, _, hplaced⟩
  rcases List.mem_iff_getElem?.1 he with ⟨i, hi⟩
  exact ⟨_, hplaced i e hi, rfl⟩

theorem Chained.exists_element (h : m.Chained s st) (he : e ∈ st.chain) :
    ∃ el, m.element? e = some el ∧ el.stream = s := by
  rcases h.place_of_mem he with ⟨p, hp, hs⟩
  rcases place?_eq_some.1 hp with ⟨el, hel, rfl⟩
  exact ⟨el, hel, hs⟩

/-- Chains list live elements of their own stream, so they have no member in common. -/
theorem Owned.stream_eq_of_mem (h : m.Owned) (hst : m.stream? s = some st) (he : e ∈ st.chain)
    (hst' : m.stream? s' = some st') (he' : e ∈ st'.chain) : s' = s := by
  rcases (h.chained s st hst).place_of_mem he with ⟨p, hp, hs⟩
  rcases (h.chained s' st' hst').place_of_mem he' with ⟨p', hp', hs'⟩
  rw [hp] at hp'
  cases hp'
  exact hs'.symm.trans hs

/-- A chain depends on no other element than its members. -/
theorem Chained.congr (h : m.Chained s st) (hplace : ∀ e ∈ st.chain, m'.place? e = m.place? e) :
    m'.Chained s st := by
  rcases h.placed with ⟨n, hn, hplaced⟩
  refine ⟨h.length_le, n, hn, ?_⟩
  intro i e hi
  rw [hplace e (List.mem_of_getElem? hi)]
  exact hplaced i e hi

/-! ## Quiet changes -/

theorem Owned.quiet (h : m.Owned) (hquiet : m.Quiet m') : m'.Owned := by
  have hstream := hquiet.stream?_eq
  have hgraph : m'.graph = m.graph := by rw [hquiet.shape]
  have hlatest : m'.latest = m.latest := by rw [hquiet.shape]
  have hinstances : m'.instances = m.instances := by rw [hquiet.shape]
  refine
    { elements := hquiet.exact h.elements
      counted := hinstances ▸ h.counted
      issued := ?issued
      home := ?home
      chained := ?chained
      held := ?held
      apart := ?apart
      latest := ?latest }
  case issued =>
    intro s st hst
    rw [hinstances]
    exact h.issued s st (hstream s ▸ hst)
  case home =>
    intro e p hp
    rw [hstream]
    exact h.home e p (hquiet.place_eq e ▸ hp)
  case chained =>
    intro s st hst
    exact (h.chained s st (hstream s ▸ hst)).congr fun e _ => hquiet.place_eq e
  case held =>
    intro s st hst
    rw [hgraph]
    exact h.held s st (hstream s ▸ hst)
  case apart =>
    intro s s' st st' hst hst'
    exact h.apart s s' st st' (hstream s ▸ hst) (hstream s' ▸ hst')
  case latest =>
    intro key s hlast
    rw [hstream]
    exact h.latest key s (hlatest ▸ hlast)

/-! ## Changing one stream -/

/-- The manager with other data for a stream, other elements and another graph. -/
theorem Owned.update (h : m.Owned) (hst : m.stream? s = some st) (st' : LiveStream)
    (hstream : ∀ s', m'.stream? s' = if s = s' then some st' else m.stream? s')
    (hinstances : m'.instances = m.instances) (hlatest : m'.latest = m.latest)
    (helements : m'.elements.Exact) (hconfig : st'.config = st.config)
    (hchained : m'.Chained s st')
    (hplace : ∀ e, e ∉ st.chain → e ∉ st'.chain → m'.place? e = m.place? e)
    (hnew : ∀ e ∈ st'.chain, e ∉ st.chain → m.place? e = none)
    (hgone : ∀ e ∈ st.chain, e ∉ st'.chain → m'.place? e = none)
    (hheld : m'.graph.Holds st.config st'.chain.length)
    (hspares : m.graph.Spares st.config m'.graph) : m'.Owned := by
  have hother : ∀ s' st₁, s ≠ s' → m'.stream? s' = some st₁ → m.stream? s' = some st₁ := by
    intro s' st₁ hne hst₁
    rwa [hstream, if_neg hne] at hst₁
  have hself : ∀ st₁, m'.stream? s = some st₁ → st₁ = st' := by
    intro st₁ hst₁
    rw [hstream, if_pos rfl] at hst₁
    exact (Option.some.inj hst₁).symm
  -- members of other chains stand where they did
  have hkept : ∀ s' st₁, s ≠ s' → m.stream? s' = some st₁ → ∀ e ∈ st₁.chain,
      m'.place? e = m.place? e := by
    intro s' st₁ hne hst₁ e he
    have hnot : e ∉ st.chain := fun hmem => hne (h.stream_eq_of_mem hst₁ he hst hmem)
    refine hplace e hnot ?_
    intro hmem
    rcases (h.chained s' st₁ hst₁).place_of_mem he with ⟨p, hp, _⟩
    rw [hnew e hmem hnot] at hp
    cases hp
  -- and every stream has the configuration that it had
  have hconfigs : ∀ s' st₁, m'.stream? s' = some st₁ →
      ∃ st₀, m.stream? s' = some st₀ ∧ st₀.config = st₁.config := by
    intro s' st₁ hst₁
    by_cases hsame : s = s'
    · rw [hself st₁ (hsame ▸ hst₁), hconfig]
      exact ⟨st, hsame ▸ hst, rfl⟩
    · exact ⟨st₁, hother s' st₁ hsame hst₁, rfl⟩
  refine
    { elements := helements
      counted := hinstances ▸ h.counted
      issued := ?issued
      home := ?home
      chained := ?chained
      held := ?held
      apart := ?apart
      latest := ?latest }
  case issued =>
    intro s' st₁ hst₁
    rcases hconfigs s' st₁ hst₁ with ⟨st₀, hst₀, _⟩
    rw [hinstances]
    exact h.issued s' st₀ hst₀
  case home =>
    intro e p hp
    by_cases hmem : e ∈ st'.chain
    · rcases hchained.place_of_mem hmem with ⟨p', hp', hs⟩
      rw [hp] at hp'
      cases hp'
      exact ⟨st', by rw [hs, hstream, if_pos rfl], hmem⟩
    · have hnot : e ∉ st.chain := by
        intro hmem'
        rw [hgone e hmem' hmem] at hp
        cases hp
      rw [hplace e hnot hmem] at hp
      rcases h.home e p hp with ⟨st₁, hst₁, he⟩
      have hne : s ≠ p.stream := by
        rintro rfl
        rw [hst] at hst₁
        cases hst₁
        exact hnot he
      exact ⟨st₁, by rw [hstream, if_neg hne]; exact hst₁, he⟩
  case chained =>
    intro s' st₁ hst₁
    by_cases hsame : s = s'
    · rw [hself st₁ (hsame ▸ hst₁), ← hsame]
      exact hchained
    · have hst₀ := hother s' st₁ hsame hst₁
      exact (h.chained s' st₁ hst₀).congr (hkept s' st₁ hsame hst₀)
  case held =>
    intro s' st₁ hst₁
    by_cases hsame : s = s'
    · rw [hself st₁ (hsame ▸ hst₁), hconfig]
      exact hheld
    · have hst₀ := hother s' st₁ hsame hst₁
      refine hspares st₁.config _ ?_ (h.held s' st₁ hst₀)
      exact fun heq => hsame (h.apart s' s st₁ st hst₀ hst heq).symm
  case apart =>
    intro s₁ s₂ st₁ st₂ hst₁ hst₂ heq
    rcases hconfigs s₁ st₁ hst₁ with ⟨st₃, hst₃, heq₁⟩
    rcases hconfigs s₂ st₂ hst₂ with ⟨st₄, hst₄, heq₂⟩
    exact h.apart s₁ s₂ st₃ st₄ hst₃ hst₄ (heq₁.trans (heq.trans heq₂.symm))
  case latest =>
    intro key s' hlast
    rw [hlatest] at hlast
    rcases h.latest key s' hlast with ⟨hkey, st₁, hst₁⟩
    refine ⟨hkey, ?_⟩
    rw [hstream]
    by_cases hsame : s = s'
    · exact ⟨st', if_pos hsame⟩
    · exact ⟨st₁, by rw [if_neg hsame]; exact hst₁⟩

end Manager
end StreamEngine
