import StreamEngine.Proofs.Lifecycle.Requesting

/-!
# Answers and what waited for them

An answer goes to the elements that were registered, each of which still waits for it with one block. So
every one of them can be told.

- `Linked.detach`, `Linked.detach_ok` : the next element can be told, and stops waiting;
- `Linked.deliver` : so do all of them;
- `Connected.answer`.
-/

namespace StreamEngine
namespace Manager

variable {k : Nat} {m m' : Manager} {p : AccessPool} {a : AccessId} {access : Access} {e : ElementId}
  {ws : List ElementId}

/-- An element that is told stops waiting for the answer. -/
theorem Linked.detach (h : m.Linked k (delivering p a access (e :: ws))) (hnot : e ∉ ws)
    (hel : m.element? e = some el) {i : Nat} {b : Block} (hb : el.blocks[i]? = some b)
    (ha : b.access = some a) : (m.putElement e (detached el i)).Linked k (delivering p a access ws) := by
  have htidy := h.tidy e el hel
  refine h.putElement hel rfl ?_ ?_ ?_
  · refine htidy.setBlock hb (fun _ => rfl) (fun _ => rfl) ?_
    intro a' ha' _
    cases ha'
  · intro a' s line
    rw [detached, htidy.waitsOn_setBlock (f := fun b => { b with access := none }) hb fun _ => rfl, ha]
    have hold : delivering p a access (e :: ws) a' e s line ↔ el.stream = s ∧ el.WaitsOn a' line :=
      h.serves_iff hel
    simp only [delivering, reduceCtorEq, false_and, false_or, ne_eq, Option.some.injEq] at hold ⊢
    by_cases ha' : a' = a
    · simp [ha', hnot]
    · have ha'' : ¬ a = a' := fun hsame => ha' hsame.symm
      simp only [ha', false_and, false_or, not_false_eq_true, true_and] at hold
      simp only [ha', ha'', hold, false_and, false_or, not_false_eq_true, true_and]
  · intro a' e' s line hne
    simp only [delivering, List.mem_cons, hne, false_or]

/-- The next element to be told waits for the answer with a block of the line. -/
theorem Linked.detach_ok (h : m.Linked k (delivering p a access (e :: ws))) (hnot : e ∉ ws) :
    ∃ el i, m.element? e = some el ∧ m.detach e a = .ok (i, m.putElement e (detached el i)) ∧
      (m.putElement e (detached el i)).Linked k (delivering p a access ws) := by
  have hserves : delivering p a access (e :: ws) a e access.stream access.line :=
    Or.inl ⟨rfl, List.mem_cons_self .., rfl, rfl⟩
  rcases (h.waits_iff ..).2 hserves with ⟨el, hel, _, b, hb, _, ha⟩
  -- the block is found by the access it waits on
  have hfind : ∃ i, el.blocks.findIdx? (fun b => b.access == some a) = some i := by
    cases hnone : el.blocks.findIdx? (fun b => b.access == some a) with
    | some i => exact ⟨i, rfl⟩
    | none =>
        have hno := List.findIdx?_eq_none_iff.1 hnone b hb
        simp [ha] at hno
  rcases hfind with ⟨i, hi⟩
  have hdetach : m.detach e a = .ok (i, m.putElement e (detached el i)) := by
    refine bind_eq_ok.2 ⟨el, element_eq_ok.2 hel, ?_⟩
    rw [hi]
    rfl
  rcases List.findIdx?_eq_some_iff_getElem.1 hi with ⟨hlt, haccess, _⟩
  exact ⟨el, i, hel, hdetach, h.detach hnot hel (List.getElem?_eq_getElem hlt) (beq_iff_eq.1 haccess)⟩

/-- Telling the elements one after another leaves nobody waiting for the answer. -/
theorem Linked.deliver {store : Bool} {settle : Element → Nat → Except Fault (Bool × Element)}
    (hsettle : SettlesBlocks settle) {ready : List ElementId} (hnodup : ws.Nodup)
    (h : m.Linked k (delivering p a access ws)) (hrest : m.Resting)
    (hdeliver : m.deliver a store settle ws = .ok (ready, m')) :
    m'.Linked k (delivering p a access []) ∧ m'.Resting ∧ m'.accesses = m.accesses := by
  induction ws generalizing m ready with
  | nil =>
      cases hdeliver
      exact ⟨h, hrest, rfl⟩
  | cons e ws ih =>
      rcases List.nodup_cons.1 hnodup with ⟨hnot, hnodup⟩
      rcases deliver_cons_eq_ok hdeliver with
        ⟨el, told, i, b, became, others, hel, hb, ha, hcase, hothers, _⟩
      have h₁ := h.detach hnot hel hb ha
      have hrest₁ := hrest.detach hel i
      rcases hcase with ⟨_, rfl, _⟩ | ⟨_, hsettled⟩
      · have hlast := ih hnodup h₁ hrest₁ hothers
        exact hlast
      have hself := element?_putElement_self hel (detached el i)
      have hadv := hsettle _ i became told hsettled
      have h₂ := h₁.advances hself hadv
      have hrest₂ := hrest₁.advances hself hadv rfl
      rw [putElement_putElement] at h₂ hrest₂
      have hlast := ih hnodup h₂ hrest₂ hothers
      exact hlast

/-- When an access is taken out of flight, those who were registered with it are still to be told. -/
theorem Connected.delivering (h : m.Connected k) (hfind : m.accesses.find? a = some access) :
    ({ m with accesses := { slab := m.accesses.slab.erase a.val } } : Manager).Linked k
      (delivering { slab := m.accesses.slab.erase a.val } a access access.receivers.drain.1) := by
  refine h.linked.congr (fun _ => rfl) ?_
  intro a' e s line
  rw [Manager.delivering, AccessPool.serves_erase hfind,
    Receivers.mem_drain_iff (h.pool.receivers a access hfind)]
  by_cases ha : a' = a
  · rw [ha, AccessPool.serves_iff hfind]
    tauto
  · simp only [ha, false_and, ne_eq, not_false_eq_true, true_and, false_or]

theorem Connected.answer (h : m.Connected k)
    {settle : Element → Nat → Except Fault (Bool × Element)} (hsettle : SettlesBlocks settle)
    {ready : List ElementId} (hanswer : m.answer a settle = .ok (ready, m')) : m'.Connected k := by
  have hoptions : m'.options = m.options := by rw [(exchanges_answer hsettle hanswer).shape]
  rcases answer_eq_ok hanswer with ⟨access, hfind, hdeliver⟩
  have hnodup := Receivers.nodup_drain (h.pool.receivers a access hfind)
  rcases (h.delivering hfind).deliver hsettle hnodup (fun e el hel => h.resting e el hel) hdeliver with
    ⟨hlinked, hrest, haccesses⟩
  refine ⟨hoptions ▸ h.size_eq, ?_, ?_, hrest⟩
  · rw [haccesses]
    refine hlinked.congr (fun _ => rfl) ?_
    intro a' e s line
    rw [Manager.delivering, AccessPool.serves_erase hfind]
    simp only [List.not_mem_nil, false_and, and_false, false_or, ne_eq, and_self_left]
  · rw [haccesses]
    exact h.pool.erase hfind

end Manager
end StreamEngine
