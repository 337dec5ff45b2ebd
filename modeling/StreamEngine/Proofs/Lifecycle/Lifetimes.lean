import StreamEngine.Proofs.Lifecycle.Endings

/-!
# Chains and references in every state

Whatever the operations were, every element stands in the chain of its stream, in the order of the indices,
and the configuration of the stream counts it. So what was stepped over can be released, and a stream that
ends leaves no configuration behind.

- `Manager.InOrder` : a chain, its elements and its configuration;
- `run_owned` : chains and references after every run.
-/

namespace StreamEngine
namespace Manager

variable {m : Manager} {s : StreamId} {st : LiveStream}

/-- The chain of a stream lists its elements in the order of their indices, which end before the next one.
Its configuration counts them. -/
structure InOrder (m : Manager) (s : StreamId) (st : LiveStream) : Prop where
  nodup : st.chain.Nodup
  length_le : st.chain.length ≤ st.nextIdx
  member : ∀ i e, st.chain[i]? = some e → ∃ el, m.element? e = some el ∧ el.stream = s ∧
    el.config = st.config ∧ el.idx = st.nextIdx - st.chain.length + i ∧ el.next = st.chain[i + 1]?
  stepped : ∃ n, n ≤ st.chain.length ∧ m.SteppedTo st.chain n
  counted : ∃ config, m.graph.find? st.config = some config ∧ config.ended = false ∧
    config.refs = st.chain.length

theorem Owned.inOrder (h : m.Owned) (hst : m.stream? s = some st) : m.InOrder s st := by
  have hchained := h.chained s st hst
  refine ⟨hchained.nodup, hchained.length_le, ?_, hchained.steppedTo, ?_⟩
  · intro i e hi
    rcases hchained.placed with ⟨n, _, hplaced⟩
    rcases place?_eq_some.1 (hplaced i e hi) with ⟨el, hel, hplace⟩
    exact ⟨el, hel, congrArg Place.stream hplace, congrArg Place.config hplace,
      congrArg Place.idx hplace, congrArg Place.next hplace⟩
  · rcases h.held s st hst with ⟨config, hfind, hended, hrefs, _⟩
    exact ⟨config, hfind, hended, hrefs⟩

/-- An element is a member of the chain of its stream, and of no other. -/
theorem Owned.existsUnique_chain (h : m.Owned) {e : ElementId} {el : Element}
    (hel : m.element? e = some el) : ∃! s, ∃ st, m.stream? s = some st ∧ e ∈ st.chain := by
  rcases h.home e el.place (place?_eq hel) with ⟨st, hst, hmem⟩
  refine ⟨el.stream, ⟨st, hst, hmem⟩, ?_⟩
  rintro s ⟨st', hst', hmem'⟩
  exact h.stream_eq_of_mem hst hmem hst' hmem'

/-- Whatever the operations and their order, every element stands in one chain, chains are in order and
counted, no slot is lost, and what is the latest instance is configured. With lines of a valid size exactly
what was stepped over is released, no request meets a broken chain, and a stream that ends frees its
configuration. -/
theorem run_owned {o : Options} {ops : List Operation}
    (hrun : Manager.run { options := o } ops = .ok m) :
    (∀ e el, m.element? e = some el → ∃! s, ∃ st, m.stream? s = some st ∧ e ∈ st.chain) ∧
      (∀ s st, m.stream? s = some st → m.InOrder s st) ∧
      m.elements.Exact ∧
      (∀ key s, m.latest.find? key = some s → ∃ st, m.stream? s = some st) ∧
      ∀ k, k < 64 → o.lineSize = 2 ^ k →
        (∀ s st, m.stream? s = some st → ∃ n m', m.releaseStepped s = .ok (.ok n, m') ∧
          n ≤ st.chain.length ∧ m.SteppedTo st.chain n ∧ m.Released s st n m') ∧
        (∀ e label prev, m.issue e ≠ .error (.element label (.brokenChain prev))) ∧
        ∀ s st, m.stream? s = some st → ∃ m', m.endStream s = .ok (.ok true, m') ∧
          m'.stream? s = none ∧ m'.graph.find? st.config = none := by
  have howned := owned_run hrun
  refine ⟨fun e el hel => howned.existsUnique_chain hel, fun s st hst => howned.inOrder hst,
    howned.elements, fun key s hlast => (howned.latest key s hlast).2, ?_⟩
  intro k hk hline
  have hconnected := (connected_run hk hline hrun).2
  refine ⟨fun s st hst => hconnected.releaseStepped_ok howned hst, ?_,
    fun s st hst => hconnected.endStream_ok howned hst⟩
  intro e label prev hissue
  exact hconnected.avoids_issue howned e _ hissue trivial

/-! ## A slot that is used again -/

/-- Three elements are allocated and two of them stepped over. The first one is released, and the fourth
element takes its slot. -/
def recycledRun : List Operation :=
  let s : StreamId := { core := 0, staticId := 1, instanceNo := 1 }
  [.configure { staticId := 1, role := .load, elemSize := 8, formal := Formal.ofWords [8, 0x1000] },
    .allocate s, .allocate s, .allocate s, .step s, .step s, .release { val := 0 }, .allocate s]

theorem run_owned_recycled :
    ∃ m st, Manager.run { options := {} } recycledRun = .ok m ∧
      m.stream? { core := 0, staticId := 1, instanceNo := 1 } = some st ∧
      st.chain = [{ val := 1 }, { val := 2 }, { val := 0 }] ∧
      (∃ el, m.element? { val := 0 } = some el ∧ el.idx = 3) ∧
      ∃ m', m.endStream { core := 0, staticId := 1, instanceNo := 1 } = .ok (.ok true, m') := by
  have hshape : (Manager.run { options := {} } recycledRun).toOption.bind (fun m =>
      (m.stream? { core := 0, staticId := 1, instanceNo := 1 }).map fun st => (st.chain, st.nextIdx)) =
      some ([{ val := 1 }, { val := 2 }, { val := 0 }], 4) := by
    decide +kernel
  cases hrun : Manager.run { options := {} } recycledRun with
  | error f =>
      rw [hrun] at hshape
      cases hshape
  | ok m =>
      rw [hrun] at hshape
      rcases Option.map_eq_some_iff.1 hshape with ⟨st, hst, heq⟩
      rcases Prod.mk.inj heq with ⟨hchain, hnext⟩
      have hholds := run_owned hrun
      refine ⟨m, st, rfl, hst, hchain, ?_, ?_⟩
      · rcases (hholds.2.1 _ st hst).member 2 { val := 0 } (by rw [hchain]; rfl) with
          ⟨el, hel, _, _, hidx, _⟩
        rw [hchain, hnext] at hidx
        exact ⟨el, hel, hidx⟩
      · rcases (hholds.2.2.2.2 6 (by decide) rfl).2.2 _ st hst with ⟨m', hend, _⟩
        exact ⟨m', hend⟩

end Manager
end StreamEngine
