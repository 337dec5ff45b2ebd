import StreamEngine.Proofs.Lifecycle.Ownership

/-!
# Chains that grow

A new stream has a chain without members and a configuration that nothing refers to yet. New elements join
a chain at its end, and stepping goes over its members in order.

- `Owned.setFinalValue`, `Owned.step`;
- `Owned.configure`, `Owned.allocate`.
-/

namespace StreamEngine
namespace Manager

variable {m m' : Manager} {e : ElementId} {el : Element} {s s' : StreamId} {st st' : LiveStream}

theorem stream?_self (hst : m.stream? s = some st) (s' : StreamId) :
    m.stream? s' = if s = s' then some st else m.stream? s' := by
  by_cases hsame : s = s'
  · rw [if_pos hsame, ← hsame, hst]
  · rw [if_neg hsame]

/-! ## Stepping -/

theorem Owned.setFinalValue (h : m.Owned) {idx : Nat} {w : UInt64} {r : Except EngineError Unit}
    (hset : m.setFinalValue s idx w = .ok (r, m')) : m'.Owned := by
  rcases setFinalValue_eq_ok hset with rfl | ⟨st, hst, _, rfl⟩
  · exact h
  have hchained := h.chained s st hst
  exact h.update hst _ (stream?_putStream m s · _) rfl rfl h.elements rfl
    ⟨hchained.length_le, hchained.placed⟩ (fun _ _ _ => rfl) (fun e he hnot => absurd he hnot)
    (fun e he hnot => absurd he hnot) (h.held s st hst) (fun _ _ _ => id)

/-- The oldest member that was not stepped over stands right behind the prefix of those that were. -/
theorem index_eq_of_unstepped {n i : Nat} (hn : n ≤ st.chain.length)
    (hplaced : ∀ j e, st.chain[j]? = some e → m.place? e = some (st.placeAt s n j))
    (hi : st.chain[i]? = some e) (hel : m.element? e = some el) (hunstepped : el.stepped = false)
    (hbefore : ∀ (j : Nat) e' el', j < i → st.chain[j]? = some e' → m.element? e' = some el' →
      el'.stepped = true) : i = n := by
  have hstepped : ∀ j e' el', st.chain[j]? = some e' → m.element? e' = some el' →
      el'.stepped = decide (j < n) := by
    intro j e' el' hj hel'
    have hp := hplaced j e' hj
    rw [place?_eq hel'] at hp
    exact congrArg Place.stepped (Option.some.inj hp)
  have hge : n ≤ i := by
    by_contra hlt
    rw [hstepped i e el hi hel, decide_eq_true (Nat.not_le.1 hlt)] at hunstepped
    cases hunstepped
  have hlt := (List.getElem?_eq_some_iff.1 hi).1
  -- a member behind the prefix and before `i` would have been stepped over
  by_contra hne
  have hn' : n < st.chain.length := by omega
  rcases place?_eq_some.1 (hplaced n _ (List.getElem?_eq_getElem hn')) with ⟨el', hel', _⟩
  have htrue := hbefore n _ el' (by omega) (List.getElem?_eq_getElem hn') hel'
  rw [hstepped n _ el' (List.getElem?_eq_getElem hn') hel', decide_eq_true_eq] at htrue
  exact Nat.lt_irrefl n htrue

/-- Stepping over the member behind the prefix makes the prefix one longer. -/
theorem placed_step {n : Nat} (hnodup : st.chain.Nodup)
    (hplaced : ∀ j e, st.chain[j]? = some e → m.place? e = some (st.placeAt s n j))
    (hn : st.chain[n]? = some e) (hel : m.element? e = some el) (j : Nat) (e' : ElementId)
    (hj : st.chain[j]? = some e') :
    (m.putElement e { el with stepped := true }).place? e' = some (st.placeAt s (n + 1) j) := by
  have hold := hplaced j e' hj
  rw [place?_putElement hel]
  by_cases he : e' = e
  · -- a member has one position
    have hjn : j = n := by
      have hlt := (List.getElem?_eq_some_iff.1 hj).1
      exact (List.getElem?_inj hlt hnodup).1 (hj.trans (he ▸ hn.symm))
    rw [if_pos he]
    rw [he, place?_eq hel, hjn] at hold
    have hplace := Option.some.inj hold
    simp only [Element.place, LiveStream.placeAt, Place.mk.injEq] at hplace
    rcases hplace with ⟨hstream, hconfig, hidx, hnext, _⟩
    simp only [Element.place, LiveStream.placeAt, Option.some.injEq, Place.mk.injEq]
    rw [hjn]
    exact ⟨hstream, hconfig, hidx, hnext, (decide_eq_true (Nat.lt_succ_self n)).symm⟩
  · have hjn : j ≠ n := by
      rintro rfl
      rw [hn] at hj
      exact he (Option.some.inj hj).symm
    have hdecide : decide (j < n) = decide (j < n + 1) := by
      rw [decide_eq_decide]
      omega
    rw [if_neg he, hold]
    simp only [LiveStream.placeAt, hdecide]

theorem Owned.step (h : m.Owned) {r : Except EngineError ElementId}
    (hstep : m.step s = .ok (r, m')) : m'.Owned := by
  rcases step_eq_ok hstep with ⟨_, rfl⟩ | ⟨st, e, el, i, hst, hi, hel, hunstepped, hbefore, _, rfl⟩
  · exact h
  have hchained := h.chained s st hst
  rcases hchained.placed with ⟨n, hn, hplaced⟩
  have hlt := (List.getElem?_eq_some_iff.1 hi).1
  have hin := index_eq_of_unstepped hn hplaced hi hel hunstepped hbefore
  rw [hin] at hi hlt
  have hmem := List.mem_of_getElem? hi
  refine h.update hst _ (fun s' => stream?_self hst s') rfl rfl (h.elements.replace hel _) rfl
    ⟨hchained.length_le, n + 1, hlt, placed_step hchained.nodup hplaced hi hel⟩ ?_
    (fun e he hnot => absurd he hnot) (fun e he hnot => absurd he hnot) (h.held s st hst)
    (fun _ _ _ => id)
  intro e' hnot _
  rw [place?_putElement hel, if_neg]
  rintro rfl
  exact hnot hmem

/-! ## Configuring -/

theorem holds_bindBases {id : StreamId} {c c' : ConfigId} {bases : List BaseDecl}
    {bounds : List BoundBase} {n : Nat} (hold : m.graph.Holds c n)
    (h : m.bindBases id c' bases = .ok (bounds, m')) : m'.graph.Holds c n := by
  induction bases generalizing m bounds with
  | nil =>
      cases h
      exact hold
  | cons base rest ih =>
      rcases bind_eq_ok.1 h with ⟨⟨bound, m₁⟩, hbound, h⟩
      rcases bind_eq_ok.1 h with ⟨⟨more, m₂⟩, hmore, h⟩
      cases h
      rcases bindBase_eq_ok hbound with ⟨graph, _, rfl, _, _, _, hgraph | hgraph⟩
      · exact ih (m := { m with graph }) (hold.addUsedBy hgraph) hmore
      · exact ih (m := { m with graph }) (hold.addBaseOn hgraph) hmore

theorem Owned.configure (h : m.Owned) {d : Declaration} {id : StreamId}
    (hconfigure : m.configure d = .ok (id, m')) : m'.Owned := by
  rcases configure_eq_ok hconfigure with
    ⟨hid, config, graph, graph', bases, hconfig, hbases, rfl⟩
  -- the instance is new, so no element and no stream has its identity
  have hfresh : id ∉ m.instances.issued := by
    rw [hid]
    exact InstanceCounter.not_mem_next h.counted d.core d.staticId
  have hnew : ∀ s st, m.stream? s = some st → id ≠ s := by
    rintro s st hst rfl
    exact hfresh (h.issued id st hst)
  let next : LiveStream := { config, decl := d, bases }
  have hstream : ∀ s, (m.putStream id next).stream? s = if id = s then some next else m.stream? s :=
    fun s => stream?_putStream m id s next
  have hheld : ∀ s st, m.stream? s = some st →
      st.config ≠ config ∧ graph'.Holds st.config st.chain.length := by
    intro s st hst
    rcases (h.held s st hst).configure hconfig with ⟨hne, hholds⟩
    exact ⟨hne, holds_bindBases (m := { m with
      instances := (m.instances.next d.core d.staticId).2, graph }) hholds hbases⟩
  have hnext : graph'.Holds config 0 := by
    have hfind := (Graph.configure_eq_ok hconfig).2 config
    rw [if_pos rfl] at hfind
    exact holds_bindBases (m := { m with
      instances := (m.instances.next d.core d.staticId).2, graph }) ⟨_, hfind, rfl, rfl, rfl⟩ hbases
  -- a configured stream is the new one or an old one
  have hcases : ∀ s st, (m.putStream id next).stream? s = some st →
      id = s ∧ st = next ∨ id ≠ s ∧ m.stream? s = some st :=
    fun _ _ => stream?_putStream_cases
  refine
    { elements := h.elements
      counted := h.counted.next d.core d.staticId
      issued := ?issued
      home := ?home
      chained := ?chained
      held := ?held
      apart := ?apart
      latest := ?latest }
  case issued =>
    intro s st hst
    rcases hcases s st hst with ⟨rfl, _⟩ | ⟨_, hold⟩
    · exact hid ▸ List.mem_cons_self ..
    · exact List.mem_cons_of_mem _ (h.issued s st hold)
  case home =>
    intro e p hp
    rcases h.home e p hp with ⟨st, hst, he⟩
    exact ⟨st, (hstream p.stream).trans ((if_neg (hnew p.stream st hst)).trans hst), he⟩
  case chained =>
    intro s st hst
    rcases hcases s st hst with ⟨_, rfl⟩ | ⟨_, hold⟩
    · exact ⟨Nat.le_refl _, 0, Nat.le_refl _, fun i e hi => by cases hi⟩
    · exact (h.chained s st hold).congr fun _ _ => rfl
  case held =>
    intro s st hst
    rcases hcases s st hst with ⟨_, rfl⟩ | ⟨_, hold⟩
    · exact hnext
    · exact (hheld s st hold).2
  case apart =>
    intro s s' st st' hst hst' heq
    rcases hcases s st hst with ⟨rfl, rfl⟩ | ⟨_, hold⟩
    · rcases hcases s' st' hst' with ⟨rfl, _⟩ | ⟨_, hold'⟩
      · rfl
      · exact absurd heq.symm (hheld s' st' hold').1
    · rcases hcases s' st' hst' with ⟨rfl, rfl⟩ | ⟨_, hold'⟩
      · exact absurd heq (hheld s st hold).1
      · exact h.apart s s' st st' hold hold' heq
  case latest =>
    intro key s hlast
    change (m.latest.insert (d.core, d.staticId) id).find? key = some s at hlast
    rw [Table.find?_insert] at hlast
    by_cases hkey : (d.core, d.staticId) = key
    · rw [if_pos hkey] at hlast
      cases hlast
      refine ⟨?_, next, (hstream id).trans (if_pos rfl)⟩
      rw [← hkey, hid]
      rfl
    · rw [if_neg hkey] at hlast
      rcases h.latest key s hlast with ⟨hkey', st, hst⟩
      exact ⟨hkey', st, (hstream s).trans ((if_neg (hnew s st hst)).trans hst)⟩

/-! ## Allocating -/

theorem allocate_eq_ok {r : Except EngineError ElementId} (h : m.allocate s = .ok (r, m')) :
    m.stream? s = none ∧ m' = m ∨ ∃ st el e m₁ graph, m.stream? s = some st ∧
      e = { val := (m.elements.insert el).1 } ∧
      el.place = st.nextPlace s ∧
      el.blocks = [] ∧ el.lineSize = m.options.lineSize ∧
      ({ m with elements := (m.elements.insert el).2 } : Manager).linkLast st.chain e = .ok m₁ ∧
      m₁.graph.acquire st.config = .ok graph ∧
      m' = { m₁.putStream s { st with chain := st.chain ++ [e], nextIdx := st.nextIdx + 1 } with
        graph } := by
  rcases allocate_cases h with
    ⟨hnone, _, rfl⟩ | ⟨st, bases, own, e, m₁, graph, hst, _, _, _, he, hlink, hgraph, rfl⟩
  · exact Or.inl ⟨hnone, rfl⟩
  · exact Or.inr ⟨st, _, e, m₁, graph, hst, he, rfl, rfl, rfl, hlink, hgraph, rfl⟩

/-- Linking changes nothing but the successor of the last element. -/
theorem linkLast_eq_ok {chain : List ElementId} (hexact : m.elements.Exact)
    (h : m.linkLast chain e = .ok m') :
    m' = { m with elements := m'.elements } ∧ m'.elements.Exact ∧
      ∀ e', m'.place? e' =
        if chain.getLast? = some e' then (m.place? e').map fun p => { p with next := some e }
        else m.place? e' := by
  rw [linkLast] at h
  cases hlast : chain.getLast? with
  | none =>
      rw [hlast] at h
      cases h
      exact ⟨rfl, hexact, fun e' => (if_neg (by simp)).symm⟩
  | some last =>
      rw [hlast] at h
      rcases modifyElement_eq_ok h with ⟨el, hel, rfl⟩
      refine ⟨rfl, hexact.replace hel _, ?_⟩
      intro e'
      rw [place?_putElement hel]
      by_cases he : e' = last
      · rw [if_pos he, if_pos (congrArg some he.symm), he, place?_eq hel]
        rfl
      · rw [if_neg he, if_neg fun hsame => he (Option.some.inj hsame).symm]

/-- A chain with one more member, whose place is the next one. -/
theorem Chained.append (h : m.Chained s st) (hnew : m.place? e = none)
    (hself : m'.place? e = some (st.nextPlace s))
    (hlinked : ∀ e', e' ≠ e → m'.place? e' =
      if st.chain.getLast? = some e' then (m.place? e').map fun p => { p with next := some e }
      else m.place? e') :
    m'.Chained s { st with chain := st.chain ++ [e], nextIdx := st.nextIdx + 1 } := by
  have hle := h.length_le
  rcases h.placed with ⟨n, hn, hplaced⟩
  refine ⟨by simpa using hle, n, by simp; omega, ?_⟩
  intro i e' hi
  change (st.chain ++ [e])[i]? = some e' at hi
  by_cases hold : i < st.chain.length
  · rw [List.getElem?_append_left hold] at hi
    have hp := hplaced i e' hi
    have hne : e' ≠ e := by
      rintro rfl
      rw [hnew] at hp
      cases hp
    have hidx : st.nextIdx - st.chain.length + i = st.nextIdx + 1 - (st.chain.length + 1) + i := by
      omega
    rw [hlinked e' hne, hp]
    by_cases hlast : i + 1 < st.chain.length
    · -- a member before the last one keeps its successor
      have hnotLast : st.chain.getLast? ≠ some e' := by
        intro hsame
        rw [List.getLast?_eq_getElem?, ← hi] at hsame
        have hindex := (List.getElem?_inj (by omega) h.nodup).1 hsame
        omega
      rw [if_neg hnotLast]
      simp only [LiveStream.placeAt, List.length_append, List.length_singleton,
        List.getElem?_append_left hlast, hidx]
    · -- and the last one gets the new member for a successor
      have hsame : st.chain.getLast? = some e' := by
        rw [List.getLast?_eq_getElem?, ← hi]
        congr 1
        omega
      have hend : i + 1 = st.chain.length := by omega
      rw [if_pos hsame]
      simp only [LiveStream.placeAt, List.length_append, List.length_singleton, Option.map_some,
        hend, List.getElem?_concat_length, hidx]
  · -- what stands behind the old members is the new one
    have hend : i = st.chain.length := by
      have hlt := (List.getElem?_eq_some_iff.1 hi).1
      simp only [List.length_append, List.length_singleton] at hlt
      omega
    rw [hend, List.getElem?_concat_length] at hi
    cases hi
    have hidx : st.nextIdx + 1 - (st.chain.length + 1) + st.chain.length = st.nextIdx := by omega
    have hunstepped : decide (st.chain.length < n) = false := by
      rw [decide_eq_false_iff_not]
      omega
    rw [hself, hend]
    simp only [LiveStream.placeAt, LiveStream.nextPlace, List.length_append, List.length_singleton,
      hidx, hunstepped]
    rw [List.getElem?_eq_none (by simp)]

theorem Owned.allocate (h : m.Owned) {r : Except EngineError ElementId}
    (hallocate : m.allocate s = .ok (r, m')) : m'.Owned := by
  rcases allocate_eq_ok hallocate with
    ⟨_, rfl⟩ | ⟨st, el, e, m₁, graph, hst, he, hplace, _, _, hlink, hgraph, rfl⟩
  · exact h
  have hchained := h.chained s st hst
  have hsound := h.elements.sound
  let grown : Manager := { m with elements := (m.elements.insert el).2 }
  have hnew : m.place? e = none := by
    rw [place?, he, element?_insert_eq_none hsound, Option.map_none]
  have hgrown : ∀ e', grown.place? e' = if e' = e then some el.place else m.place? e' := by
    intro e'
    rw [place?, element?_insert hsound, ← he]
    by_cases hkey : e' = e
    · rw [if_pos hkey, if_pos hkey, Option.map_some]
    · rw [if_neg hkey, if_neg hkey, place?]
  rcases linkLast_eq_ok (m := grown) (h.elements.insert el) hlink with
    ⟨hshape, hexact, hlinked⟩
  -- the new element is not the one that it is linked to
  have hnotLast : st.chain.getLast? ≠ some e := by
    intro hlast
    rcases hchained.place_of_mem (List.mem_of_getLast? hlast) with ⟨p, hp, _⟩
    rw [hnew] at hp
    cases hp
  have hself : m₁.place? e = some (st.nextPlace s) := by
    rw [hlinked, if_neg hnotLast, hgrown, if_pos rfl, hplace]
  have hothers : ∀ e', e' ≠ e → m₁.place? e' =
      if st.chain.getLast? = some e' then (m.place? e').map fun p => { p with next := some e }
      else m.place? e' := by
    intro e' hne
    rw [hlinked, hgrown, if_neg hne]
  have hacquire : m.graph.acquire st.config = .ok graph := by
    rw [hshape] at hgraph
    exact hgraph
  have hacquired := (h.held s st hst).acquire hacquire
  have hstream : ∀ s', m₁.stream? s' = m.stream? s' := by
    intro s'
    rw [hshape]
    rfl
  refine h.update hst { st with chain := st.chain ++ [e], nextIdx := st.nextIdx + 1 }
    ?_ ?_ ?_ hexact rfl (hchained.append hnew hself hothers) ?_ ?_ ?_ ?_ hacquired.2
  · intro s'
    change (m₁.putStream s _).stream? s' = _
    rw [stream?_putStream, hstream]
  · change m₁.instances = m.instances
    rw [hshape]
  · change m₁.latest = m.latest
    rw [hshape]
  · intro e' hnot hnot'
    have hne : e' ≠ e := by
      rintro rfl
      exact hnot' (List.mem_append_right _ (List.mem_singleton_self e'))
    have hplaced := hothers e' hne
    rw [if_neg fun hlast => hnot (List.mem_of_getLast? hlast)] at hplaced
    exact hplaced
  · intro e' hmem hnot
    rw [(List.mem_singleton.1 ((List.mem_append.1 hmem).resolve_left hnot))]
    exact hnew
  · exact fun e' hmem hnot => absurd (List.mem_append_left _ hmem) hnot
  · simpa using hacquired.1

end Manager
end StreamEngine
