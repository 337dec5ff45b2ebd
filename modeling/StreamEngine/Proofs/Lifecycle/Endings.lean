import StreamEngine.Proofs.Lifecycle.Consistency

/-!
# Releases and ends that go through

Between two operations the head of every chain can be released, so any number of heads can, and a stream
can always end. The elements stepped over are a prefix of the chain, and this prefix is what goes.

- `Manager.Released` : what is left when a prefix of a chain is gone;
- `Connected.releaseMany_ok` : any prefix can go;
- `Connected.releaseStepped_ok`, `Connected.endStream_ok`, `Connected.avoids_release`.
-/

namespace StreamEngine
namespace Manager

variable {k n : Nat} {m m' : Manager} {e : ElementId} {s : StreamId} {st : LiveStream}

/-- The first `n` members of the chain of a stream are gone, and nothing else. -/
structure Released (m : Manager) (s : StreamId) (st : LiveStream) (n : Nat) (m' : Manager) : Prop where
  stream?_eq : ∀ s', m'.stream? s' =
    if s = s' then some { st with chain := st.chain.drop n } else m.stream? s'
  element?_eq : ∀ e, m'.element? e = if e ∈ st.chain.take n then none else m.element? e

/-- The members of a chain that were stepped over are the first `n`. -/
def SteppedTo (m : Manager) (chain : List ElementId) (n : Nat) : Prop :=
  ∀ i e el, chain[i]? = some e → m.element? e = some el → (el.stepped = true ↔ i < n)

theorem Chained.steppedTo (h : m.Chained s st) :
    ∃ n, n ≤ st.chain.length ∧ m.SteppedTo st.chain n := by
  rcases h.placed with ⟨n, hn, hplaced⟩
  refine ⟨n, hn, ?_⟩
  intro i e el hi hel
  have hplace := hplaced i e hi
  rw [place?_eq hel] at hplace
  have hstepped : el.stepped = decide (i < n) := congrArg Place.stepped (Option.some.inj hplace)
  rw [hstepped, decide_eq_true_eq]

/-! ## Prefixes -/

theorem released_zero (hst : m.stream? s = some st) : m.Released s st 0 m where
  stream?_eq := stream?_self hst
  element?_eq := fun _ => (if_neg List.not_mem_nil).symm

/-- The head goes first, then the rest of the prefix. -/
theorem Released.cons {m₁ : Manager} {rest : List ElementId} (hchain : st.chain = e :: rest)
    (hhead : m.Released s st 1 m₁) (hrest : m₁.Released s { st with chain := rest } n m') :
    m.Released s st (n + 1) m' where
  stream?_eq := by
    intro s'
    rw [hrest.stream?_eq, hchain, List.drop_succ_cons]
    by_cases hs : s = s'
    · rw [if_pos hs, if_pos hs]
    · rw [if_neg hs, if_neg hs, hhead.stream?_eq, if_neg hs]
  element?_eq := by
    intro e'
    rw [hrest.element?_eq, hhead.element?_eq, hchain, List.take_succ_cons]
    simp only [List.take_succ_cons, List.take_zero, List.mem_cons, List.not_mem_nil, or_false]
    by_cases he : e' = e <;> simp [he]

theorem releaseFront_released {rest : List ElementId} (hst : m.stream? s = some st)
    (hchain : st.chain = e :: rest) (hrelease : m.releaseFront s = .ok m') :
    m.Released s st 1 m' := by
  rcases releaseFront_eq_ok hrelease with
    ⟨st₀, e₀, rest₀, el, pool, freed, graph, hst₀, hchain₀, hel, _, _, rfl⟩
  rw [hst] at hst₀
  cases hst₀
  rw [hchain] at hchain₀
  cases hchain₀
  refine ⟨?_, ?_⟩
  · intro s'
    rw [hchain, List.drop_one, List.tail_cons]
    exact stream?_putStream m s s' _
  · intro e'
    rw [hchain, List.take_succ_cons, List.take_zero]
    refine (element?_erase hel e').trans ?_
    simp only [List.mem_singleton]

/-- Any prefix of a chain can go. -/
theorem Connected.releaseMany_ok (h : m.Connected k) (howned : m.Owned)
    (hst : m.stream? s = some st) (hn : n ≤ st.chain.length) :
    ∃ m', m.releaseMany s n = .ok m' ∧ m.Released s st n m' := by
  induction n generalizing m st with
  | zero => exact ⟨m, rfl, released_zero hst⟩
  | succ n ih =>
      cases hchain : st.chain with
      | nil =>
          rw [hchain] at hn
          cases hn
      | cons e rest =>
          rcases h.releaseFront_ok howned hst hchain with ⟨m₁, hfront⟩
          have hhead := releaseFront_released hst hchain hfront
          have hst₁ : m₁.stream? s = some { st with chain := rest } := by
            rw [hhead.stream?_eq, if_pos rfl, hchain, List.drop_one, List.tail_cons]
          rw [hchain] at hn
          rcases ih (h.releaseFront hfront) (howned.releaseFront hfront) hst₁
            (Nat.le_of_succ_le_succ hn) with ⟨m', hmany, hrest⟩
          exact ⟨m', bind_eq_ok.2 ⟨m₁, hfront, hmany⟩, hhead.cons hchain hrest⟩

/-- Of a chain, what was stepped over is released. -/
theorem releaseWhileStepped_eq (howned : m.Owned) (hst : m.stream? s = some st)
    (hn : n ≤ st.chain.length) (hstepped : m.SteppedTo st.chain n)
    (hmany : m.releaseMany s n = .ok m') : m.releaseWhileStepped s st.chain = .ok (n, m') := by
  induction n generalizing m st with
  | zero =>
      cases hmany
      cases hchain : st.chain with
      | nil => rfl
      | cons e rest =>
          have hmem : e ∈ st.chain := hchain ▸ List.mem_cons_self ..
          rcases (howned.chained s st hst).exists_element hmem with ⟨el, hel, _⟩
          have hnot : ¬ el.stepped = true :=
            fun htrue => Nat.not_lt_zero 0 ((hstepped 0 e el (by rw [hchain]; rfl) hel).1 htrue)
          refine bind_eq_ok.2 ⟨el, element_eq_ok.2 hel, ?_⟩
          rw [if_neg hnot]
          rfl
  | succ n ih =>
      have hnodup := (howned.chained s st hst).nodup
      cases hchain : st.chain with
      | nil =>
          rw [hchain] at hn
          cases hn
      | cons e rest =>
          have hmem : e ∈ st.chain := hchain ▸ List.mem_cons_self ..
          rcases (howned.chained s st hst).exists_element hmem with ⟨el, hel, _⟩
          have hhead : el.stepped = true :=
            (hstepped 0 e el (by rw [hchain]; rfl) hel).2 (Nat.succ_pos n)
          rcases bind_eq_ok.1 hmany with ⟨m₁, hfront, hmany⟩
          have hreleased := releaseFront_released hst hchain hfront
          rw [hchain] at hn hnodup
          have hst₁ : m₁.stream? s = some { st with chain := rest } := by
            rw [hreleased.stream?_eq, if_pos rfl, hchain, List.drop_one, List.tail_cons]
          -- the members left are the same elements, each one place further to the front
          have hstepped₁ : m₁.SteppedTo rest n := by
            intro i e' el' hi hel'
            have hne : e' ≠ e := by
              rintro rfl
              exact (List.nodup_cons.1 hnodup).1 (List.mem_of_getElem? hi)
            rw [hreleased.element?_eq, if_neg (by simp [hchain, hne])] at hel'
            rw [hstepped (i + 1) e' el' (by rw [hchain]; exact hi) hel', Nat.succ_lt_succ_iff]
          have hrest := ih (howned.releaseFront hfront) hst₁ (Nat.le_of_succ_le_succ hn) hstepped₁ hmany
          refine bind_eq_ok.2 ⟨el, element_eq_ok.2 hel, ?_⟩
          rw [if_pos hhead]
          exact bind_eq_ok.2 ⟨m₁, hfront, bind_eq_ok.2 ⟨_, hrest, rfl⟩⟩

/-! ## Operations -/

theorem Connected.releaseStepped_ok (h : m.Connected k) (howned : m.Owned)
    (hst : m.stream? s = some st) :
    ∃ n m', m.releaseStepped s = .ok (.ok n, m') ∧ n ≤ st.chain.length ∧ m.SteppedTo st.chain n ∧
      m.Released s st n m' := by
  rcases (howned.chained s st hst).steppedTo with ⟨n, hn, hstepped⟩
  rcases h.releaseMany_ok howned hst hn with ⟨m', hmany, hreleased⟩
  refine ⟨n, m', ?_, hn, hstepped, hreleased⟩
  rw [releaseStepped, hst]
  exact bind_eq_ok.2 ⟨_, releaseWhileStepped_eq howned hst hn hstepped hmany, rfl⟩

/-- A configured stream can always end, and its configuration is freed. -/
theorem Connected.endStream_ok (h : m.Connected k) (howned : m.Owned)
    (hst : m.stream? s = some st) :
    ∃ m', m.endStream s = .ok (.ok true, m') ∧ m'.stream? s = none ∧
      m'.graph.find? st.config = none := by
  rcases h.releaseMany_ok howned hst (Nat.le_refl _) with ⟨m₁, hmany, hreleased⟩
  have howned₁ := releaseMany_keeps (fun _ _ h => h.releaseFront) howned hmany
  have hst₁ := (hreleased.stream?_eq s).trans (if_pos rfl)
  rw [List.drop_length] at hst₁
  rcases (howned₁.held s _ hst₁).endStream with ⟨graph, hgraph, hfreed, _⟩
  refine ⟨{ m₁.dropStream s with graph }, ?_, ?_, hfreed⟩
  · rw [Manager.endStream, hst]
    exact bind_eq_ok.2 ⟨m₁, hmany, bind_eq_ok.2 ⟨_, hgraph, rfl⟩⟩
  · exact (Table.find?_erase m₁.streams s s).trans (if_pos rfl)

theorem Connected.avoids_release (h : m.Connected k) (howned : m.Owned) (e : ElementId) :
    Avoids Fault.Inconsistent (m.release e) := by
  refine (m.avoids_element e).bind fun el hget => ?_
  have hel := element_eq_ok.1 hget
  rcases howned.home e el.place (place?_eq hel) with ⟨st, hst, _⟩
  refine Avoids.bind (avoids_of_ok ⟨st, stream_eq_ok.2 hst⟩) fun st' hget' => ?_
  cases hget'.symm.trans (stream_eq_ok.2 hst)
  by_cases hhead : st.chain.head? ≠ some e
  · rw [if_pos hhead]
    exact avoids_error id
  rw [if_neg hhead]
  refine avoids_ite (avoids_error id) (avoids_of_ok ?_)
  rcases List.head?_eq_some_iff.1 (not_not.1 hhead) with ⟨rest, hchain⟩
  exact h.releaseFront_ok howned hst hchain

theorem Connected.avoids_releaseStepped (h : m.Connected k) (howned : m.Owned) (s : StreamId) :
    Avoids Fault.Inconsistent (m.releaseStepped s) := by
  cases hst : m.stream? s with
  | none =>
      rw [releaseStepped, hst]
      exact avoids_ok _
  | some st =>
      rcases h.releaseStepped_ok howned hst with ⟨n, m', hrelease, _⟩
      exact avoids_of_ok ⟨_, hrelease⟩

theorem Connected.avoids_endStream (h : m.Connected k) (howned : m.Owned) (s : StreamId) :
    Avoids Fault.Inconsistent (m.endStream s) := by
  cases hst : m.stream? s with
  | none =>
      rw [Manager.endStream, hst]
      exact avoids_ok _
  | some st =>
      rcases h.endStream_ok howned hst with ⟨m', hend, _⟩
      exact avoids_of_ok ⟨_, hend⟩

end Manager
end StreamEngine
