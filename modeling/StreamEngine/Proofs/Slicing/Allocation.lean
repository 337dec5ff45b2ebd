import StreamEngine.Proofs.Slicing.Lines

/-!
# Allocating elements

A slicer allocates an element only when its oldest slice may still grow. Then nothing else is queued than
the slices that reach the last element, so that the element goes on with the newest one or with none.

- `Follows` : the slices handed out and the queue are the runs up to the next element;
- `Follows.queue_eq` : what is queued when an element is allocated;
- `goesOn` : which slices go on with it;
- `cover_ok`, `cover_overlap`, `cover_end` : what allocating an element does.
-/

namespace StreamEngine
namespace Slicer

/-- A slicer that started as `start` and has handed out the slices of the runs `out`. -/
structure Follows (start : Slicer) (A : Nat → UInt64) (out : List Run) (s : Slicer) : Prop where
  shape : s = { start with tail := s.tail, head := s.head, queue := s.queue }
  listed : ∃ qs, s.queue = qs.map (Run.toSlice start.strand start.lineSize) ∧
    out ++ qs = (start.walk A).runsUpTo s.tail
  past : ∀ q ∈ out, q.rhs < s.tail
  apart : ∀ i < s.tail, ¬ (start.walk A).Overlaps i
  inside : ∀ i < s.tail, ((start.walk A).last i + 1) * start.lineSize < 2 ^ 64
  head_le : s.head ≤ s.tail
  open_head : ∀ q ∈ (start.walk A).runsUpTo s.tail, q.rhs = s.tail → s.head ≤ q.lhs

variable {start s : Slicer} {A : Nat → UInt64} {k limit : Nat} {out : List Run}

theorem follows_start (hfresh : start.tail = 0 ∧ start.head = 0 ∧ start.queue = []) :
    start.Follows A [] start where
  shape := rfl
  listed := ⟨[], hfresh.2.2, by rw [hfresh.1]; rfl⟩
  past := by simp
  apart := by
    intro i hi
    rw [hfresh.1] at hi
    cases hi
  inside := by
    intro i hi
    rw [hfresh.1] at hi
    cases hi
  head_le := by rw [hfresh.2.1]; exact Nat.zero_le _
  open_head := by
    intro q hq
    rw [hfresh.1] at hq
    cases hq

/-- Nothing is queued in front of the slices that reach the last element: it would be sealed. -/
theorem Follows.split_eq (h : start.Follows A out s) (hopen : s.sealedFront? = none) {m : Nat}
    {past reaching : List Run} (hm : s.tail = m + 1)
    (hfrontier : (start.walk A).Frontier m past reaching) :
    out = past ∧ s.queue = reaching.map (Run.toSlice start.strand start.lineSize) := by
  rcases h.listed with ⟨qs, hqueue, hlist⟩
  rw [hm, hfrontier.split] at hlist
  rcases List.append_eq_append_iff.1 hlist with ⟨more, hmore, hqs⟩ | ⟨more, hmore, hqs⟩
  · cases more with
    | nil =>
        rw [List.append_nil] at hmore
        rw [List.nil_append] at hqs
        exact ⟨hmore.symm, hqs ▸ hqueue⟩
    | cons q more =>
        have hle := hfrontier.past_rhs q (by simp [hmore])
        rw [hqs] at hqueue
        simp only [sealedFront?, hqueue, List.cons_append, List.map_cons, Run.toSlice] at hopen
        rw [if_neg (by omega)] at hopen
        cases hopen
  · cases more with
    | nil =>
        rw [List.append_nil] at hmore
        rw [List.nil_append] at hqs
        exact ⟨hmore, hqs ▸ hqueue⟩
    | cons q more =>
        -- nor is a slice handed out that reaches the last element
        have hlt := h.past q (by simp [hmore])
        have hrhs := hfrontier.reaching_rhs q (by simp [hqs])
        omega

/-- When an element is allocated, the queue holds the slices that reach the element before it, and all
others are handed out. -/
theorem Follows.queue_eq (h : start.Follows A out s) (hopen : s.sealedFront? = none) :
    s.tail = 0 ∧ s.queue = [] ∨
      ∃ m reaching, s.tail = m + 1 ∧ (start.walk A).Frontier m out reaching ∧
        s.queue = reaching.map (Run.toSlice start.strand start.lineSize) := by
  cases htail : s.tail with
  | zero =>
      rcases h.listed with ⟨qs, hqueue, hlist⟩
      rw [htail] at hlist
      have hnil : qs = [] := (List.append_eq_nil_iff.1 hlist).2
      exact Or.inl ⟨rfl, by rw [hqueue, hnil]; rfl⟩
  | succ m =>
      have hover : ∀ i ≤ m, ¬ (start.walk A).Overlaps i := fun i hi => h.apart i (by omega)
      rcases Walk.exists_frontier hover with ⟨past, reaching, hfrontier⟩
      rcases h.split_eq hopen htail hfrontier with ⟨rfl, hqueue⟩
      exact Or.inr ⟨m, reaching, rfl, hfrontier, hqueue⟩

theorem Follows.lineSize_eq (h : start.Follows A out s) : s.lineSize = start.lineSize := by
  rw [h.shape]

theorem Follows.strand_eq (h : start.Follows A out s) : s.strand = start.strand := by
  rw [h.shape]

theorem Follows.joins_eq (h : start.Follows A out s) :
    (s.coalesce && !s.pastEnd s.tail) = (start.walk A).joins s.tail := by
  have hcoalesce : s.coalesce = start.coalesce := by rw [h.shape]
  have htotal : s.totalTrip = start.totalTrip := by rw [h.shape]
  simp only [walk, pastEnd, hcoalesce, htotal]

/-! ## Going on with slices -/

/-- What is left of an element once it has gone on with slices: the queue holds the runs with the
element, and the lines from number `a` on are new. -/
structure Merged (start : Slicer) (A : Nat → UInt64) (out : List Run) (n : Nat) (queue : List Slice)
    (head a : Nat) : Prop where
  listed : ∃ qs, queue = (qs.map ((start.walk A).grow n)).map
      (Run.toSlice start.strand start.lineSize) ∧ out ++ qs = (start.walk A).runsUpTo n
  opened_eq : (start.walk A).openedAt n =
    (List.range' a ((start.walk A).last n + 1 - a)).map fun v =>
      { lhs := n, rhs := n + 1, line := v }
  le_last : a ≤ (start.walk A).last n + 1
  le_end : 2 ^ 64 ≤ ((start.walk A).last n + 1) * start.lineSize → a ≤ (start.walk A).last n
  head_le : head ≤ n
  open_head : ∀ q ∈ (start.walk A).runsUpTo n, q.rhs = n → (start.walk A).Continues n q.line →
    head ≤ q.lhs

/-- An element that goes on with no slice. -/
theorem Follows.merged_none (h : start.Follows A out s)
    (hnone : ∀ v, ¬ (start.walk A).Continues s.tail v) {head : Nat} (hhead : head ≤ s.tail) :
    start.Merged A out s.tail s.queue head ((start.walk A).first s.tail) where
  listed := by
    rcases h.listed with ⟨qs, hqueue, hlist⟩
    refine ⟨qs, ?_, hlist⟩
    rw [Walk.map_grow_eq_self, hqueue]
    intro q hq
    have hmem : q ∈ (start.walk A).runsUpTo s.tail := by
      rw [← hlist]
      exact List.mem_append_right _ hq
    have hrun := Walk.isRunUpTo_of_mem hmem
    rw [Walk.grow, if_neg]
    rintro ⟨hrhs, hjoins, htouch⟩
    have hne := hrun.nonempty
    exact hnone q.line ⟨by omega, hjoins, hrun.touches _ (by omega) (by omega), htouch⟩
  opened_eq := by
    rw [Walk.openedAt_eq_map hnone]
    rfl
  le_last := Nat.le_succ_of_le ((start.walk A).first_le s.tail)
  le_end := fun _ => (start.walk A).first_le s.tail
  head_le := hhead
  open_head := fun q _ _ hcont => absurd hcont (hnone q.line)

section Joined

variable {m : Nat} {reaching : List Run}

theorem vaddr_le_iff (hruns : start.RunsTo A k limit) (hfrontier : (start.walk A).Frontier m out reaching)
    (hm : m < limit) {n : Nat} (hn : n < limit) {q : Run} (hq : q ∈ reaching) :
    (q.toSlice start.strand start.lineSize).vaddr ≤
        lineStart start.lineSize ((start.walk A).last n) ↔ q.line ≤ (start.walk A).last n :=
  lineStart_le_iff hruns.line_pos (hruns.mul_lt hm (hfrontier.touches hq).2)
    (hruns.mul_lt hn (Nat.le_refl _))

theorem vaddr_ne_first (hruns : start.RunsTo A k limit) (hfrontier : (start.walk A).Frontier m out reaching)
    (hm : m < limit) {n : Nat} (hn : n < limit) {q : Run} (hq : q ∈ reaching)
    (hne : q.line ≠ (start.walk A).first n) :
    (q.toSlice start.strand start.lineSize).vaddr ≠
      lineStart start.lineSize ((start.walk A).first n) := by
  intro heq
  exact hne (lineStart_inj hruns.line_pos (hruns.mul_lt hm (hfrontier.touches hq).2)
    (hruns.mul_lt hn ((start.walk A).first_le n)) heq)

/-- The newest slice is that of the last line of the element before. -/
theorem getLast?_queue (hfrontier : (start.walk A).Frontier m out reaching)
    (hqueue : s.queue = reaching.map (Run.toSlice start.strand start.lineSize)) :
    ∃ newest, s.queue.getLast? = some newest ∧
      newest.vaddr = lineStart start.lineSize ((start.walk A).last m) := by
  rcases hfrontier.exists_newest with ⟨front, q, hsplit, hline, _⟩
  refine ⟨q.toSlice start.strand start.lineSize, ?_, by rw [Run.toSlice, hline]⟩
  rw [hqueue, hsplit, List.map_append, List.map_singleton, List.getLast?_concat]

/-- A decreasing element that reaches no queued line opens slices only. -/
theorem merge_down (hruns : start.RunsTo A k limit) (h : start.Follows A out s)
    (hjoins : (start.walk A).joins s.tail = true) (hm : s.tail = m + 1) (htail : s.tail < limit)
    (hfrontier : (start.walk A).Frontier m out reaching)
    (hqueue : s.queue = reaching.map (Run.toSlice start.strand start.lineSize))
    (hdown : (start.walk A).first s.tail < (start.walk A).last m) (addr : UInt64) :
    s.merge addr (lineStart start.lineSize ((start.walk A).first s.tail))
        (lineStart start.lineSize ((start.walk A).last s.tail)) =
      if (start.walk A).first m ≤ (start.walk A).last s.tail then
        .error (.slice (.overlap start.strand s.tail addr (s.queue.headD default)))
      else .ok (s.queue, s.tail, lineStart start.lineSize ((start.walk A).first s.tail)) := by
  have hmlt : m < limit := by omega
  rcases getLast?_queue hfrontier hqueue with ⟨newest, hlast, hvaddr⟩
  -- the newest slice lies behind the element, so no slice goes on
  have hbelow : lineStart start.lineSize ((start.walk A).first s.tail) < newest.vaddr := by
    rw [hvaddr]
    exact (lineStart_lt_iff hruns.line_pos (hruns.mul_lt htail ((start.walk A).first_le _))
      (hruns.mul_lt hmlt (Nat.le_refl _))).2 hdown
  have hj := h.joins_eq.trans hjoins
  simp only [merge, hj, if_true, hlast, if_pos hbelow]
  by_cases hreach : (start.walk A).first m ≤ (start.walk A).last s.tail
  · -- the oldest slice is on the first line of the element before
    rcases hfrontier.exists_oldest with ⟨q, rest, hsplit, hline⟩
    have hle : (q.toSlice start.strand start.lineSize).vaddr ≤
        lineStart start.lineSize ((start.walk A).last s.tail) :=
      (vaddr_le_iff hruns hfrontier hmlt htail (by simp [hsplit])).2 (by omega)
    rw [if_pos hreach, hqueue, hsplit, List.map_cons, List.find?_cons_of_pos (by simpa using hle),
      h.strand_eq]
    rfl
  · have hnone : s.queue.find? (fun r => r.vaddr ≤
        lineStart start.lineSize ((start.walk A).last s.tail)) = none := by
      rw [List.find?_eq_none, hqueue]
      intro r hr
      rcases List.mem_map.1 hr with ⟨q, hq, rfl⟩
      have hlow := (hfrontier.touches hq).1
      rw [decide_eq_true_eq, vaddr_le_iff hruns hfrontier hmlt htail hq]
      omega
    rw [if_neg hreach, hnone]

/-- An element that does not decrease goes on with the newest slice if it starts on its line. -/
theorem merge_up (hruns : start.RunsTo A k limit) (h : start.Follows A out s)
    (hjoins : (start.walk A).joins s.tail = true) (hm : s.tail = m + 1) (htail : s.tail < limit)
    (hfrontier : (start.walk A).Frontier m out reaching)
    (hqueue : s.queue = reaching.map (Run.toSlice start.strand start.lineSize))
    (hup : (start.walk A).last m ≤ (start.walk A).first s.tail) (addr : UInt64) :
    s.merge addr (lineStart start.lineSize ((start.walk A).first s.tail))
        (lineStart start.lineSize ((start.walk A).last s.tail)) = do
      let (left, queue) ← extend start.strand start.lineSize s.head s.tail
        (lineStart start.lineSize ((start.walk A).last s.tail))
        (lineStart start.lineSize ((start.walk A).first s.tail)) s.queue
      return (queue, s.head, left) := by
  have hmlt : m < limit := by omega
  rcases getLast?_queue hfrontier hqueue with ⟨newest, hlast, hvaddr⟩
  have hbelow : ¬ lineStart start.lineSize ((start.walk A).first s.tail) < newest.vaddr := by
    rw [hvaddr, lineStart_lt_iff hruns.line_pos (hruns.mul_lt htail ((start.walk A).first_le _))
      (hruns.mul_lt hmlt (Nat.le_refl _))]
    omega
  have hj := h.joins_eq.trans hjoins
  simp only [merge, hj, if_true, hlast, if_neg hbelow, h.lineSize_eq, h.strand_eq]

/-- The line of the newest slice is not the last one of memory. -/
theorem Follows.first_le_last_of_end (h : start.Follows A out s) (hm : s.tail = m + 1)
    (hover : ¬ (start.walk A).Overlaps (m + 1))
    (hcont : (start.walk A).Continues (m + 1) ((start.walk A).first (m + 1)))
    (hend : 2 ^ 64 ≤ ((start.walk A).last (m + 1) + 1) * start.lineSize) :
    (start.walk A).first (m + 1) + 1 ≤ (start.walk A).last (m + 1) := by
  have hlast := (Walk.eq_of_continues hover hcont).1
  have hinside := h.inside m (by omega)
  have hlt : (start.walk A).last m + 1 < (start.walk A).last (m + 1) + 1 := by
    by_contra hge
    have := Nat.mul_le_mul_right start.lineSize (Nat.le_of_not_lt hge)
    omega
  omega

/-- An element that goes on with the newest slice makes it longer, and leaves its other lines. -/
theorem extend_continues (hruns : start.RunsTo A k limit) (h : start.Follows A out s) (hm : s.tail = m + 1)
    (htail : s.tail < limit) (hfrontier : (start.walk A).Frontier m out reaching)
    (hqueue : s.queue = reaching.map (Run.toSlice start.strand start.lineSize))
    (hover : ¬ (start.walk A).Overlaps (m + 1))
    (hcont : (start.walk A).Continues (m + 1) ((start.walk A).first (m + 1))) (last : UInt64) :
    ∃ queue, extend start.strand start.lineSize s.head (m + 1) last
        (lineStart start.lineSize ((start.walk A).first (m + 1))) s.queue =
          .ok (lineStart start.lineSize ((start.walk A).first (m + 1) + 1), queue) ∧
      start.Merged A out (m + 1) queue s.head ((start.walk A).first (m + 1) + 1) := by
  rcases hfrontier.extend hover hcont with ⟨front, q, hsplit, hline, hbelow, _, hmap⟩
  have hlisted : (start.walk A).runsUpTo (m + 1) = out ++ reaching := hfrontier.split
  have hmem : q ∈ (start.walk A).runsUpTo s.tail := by
    rw [hm, hlisted, hsplit]
    simp
  have hrhs : q.rhs = m + 1 := hfrontier.reaching_rhs q (by simp [hsplit])
  have hhead : s.head ≤ q.lhs := h.open_head q hmem (hrhs.trans hm.symm)
  -- the slices before the newest one lie on lower lines
  have hfront : ∀ r ∈ front.map (Run.toSlice start.strand start.lineSize),
      r.vaddr ≠ lineStart start.lineSize ((start.walk A).first (m + 1)) := by
    intro r hr
    rcases List.mem_map.1 hr with ⟨q', hq', rfl⟩
    have hlt := hbelow q' hq'
    have hmem' : q' ∈ reaching := by
      rw [hsplit]
      exact List.mem_append_left _ hq'
    exact vaddr_ne_first hruns hfrontier (by omega) (by omega) hmem' (by omega)
  refine ⟨front.map (Run.toSlice start.strand start.lineSize) ++
    [Run.toSlice start.strand start.lineSize { q with rhs := q.rhs + 1 }], ?_, ?_, ?_, ?_, ?_, ?_, ?_⟩
  · have hgrown : extend start.strand start.lineSize s.head (m + 1) last _
        (_ ++ [q.toSlice start.strand start.lineSize]) = _ :=
      extend_of_last hfront (congrArg (lineStart start.lineSize) hline) hhead hrhs
    have hadd := lineStart_add start.lineSize ((start.walk A).first (m + 1)) 1
    rw [Nat.one_mul] at hadd
    rw [hqueue, hsplit, List.map_append, List.map_singleton, hgrown, hadd]
    rfl
  · refine ⟨reaching, ?_, hlisted.symm⟩
    rw [hmap, List.map_append, List.map_singleton, hrhs]
  · rw [Walk.openedAt_eq_map_of_continues hover hcont, Nat.add_sub_add_right]
  · exact Nat.succ_le_succ ((start.walk A).first_le _)
  · exact h.first_le_last_of_end hm hover hcont
  · rw [← hm]
    exact h.head_le
  · intro r hr hrrhs _
    exact h.open_head r (hm ▸ hr) (hrrhs.trans hm.symm)

end Joined

/-- The next element goes on with slices just as its runs say. -/
def GoesOn (start : Slicer) (A : Nat → UInt64) (out : List Run) (s : Slicer) (addr : UInt64) : Prop :=
  ∃ queue head a, s.merge addr (lineStart start.lineSize ((start.walk A).first s.tail))
      (lineStart start.lineSize ((start.walk A).last s.tail)) =
        .ok (queue, head, lineStart start.lineSize a) ∧
    start.Merged A out s.tail queue head a

/-- Without coalescing, and past the end, nothing is joined. -/
theorem Follows.goesOn_apart (h : start.Follows A out s)
    (hjoins : ¬ (start.walk A).joins s.tail = true) (addr : UInt64) : start.GoesOn A out s addr := by
  have hj : ¬ (s.coalesce && !s.pastEnd s.tail) = true := by
    rw [h.joins_eq]
    exact hjoins
  have hmerged : start.Merged A out s.tail s.queue s.tail ((start.walk A).first s.tail) :=
    h.merged_none (fun v hcont => hjoins hcont.2.1) (Nat.le_refl _)
  refine ⟨_, _, _, ?_, hmerged⟩
  rw [merge, if_neg hj]

/-- The first element has nothing to go on with. -/
theorem Follows.goesOn_first (h : start.Follows A out s)
    (hjoins : (start.walk A).joins s.tail = true) (hzero : s.tail = 0) (hnil : s.queue = [])
    (addr : UInt64) : start.GoesOn A out s addr := by
  have hmerged : start.Merged A out s.tail s.queue s.head ((start.walk A).first s.tail) := by
    refine h.merged_none ?_ h.head_le
    intro v hcont
    rw [hzero] at hcont
    exact Nat.lt_irrefl 0 hcont.1
  refine ⟨s.queue, s.head, _, ?_, hmerged⟩
  simp only [merge, h.joins_eq.trans hjoins, if_true, hnil, List.getLast?_nil]

section Later

variable {m : Nat} {reaching : List Run} (hruns : start.RunsTo A k limit) (h : start.Follows A out s)
  (hjoins : (start.walk A).joins s.tail = true) (hm : s.tail = m + 1) (htail : s.tail < limit)
  (hfrontier : (start.walk A).Frontier m out reaching)
  (hqueue : s.queue = reaching.map (Run.toSlice start.strand start.lineSize))
  (hover : ¬ (start.walk A).Overlaps s.tail)

include hm hover in
/-- An element that starts on another line than the last one before it goes on with no slice. -/
theorem not_continues_of_ne (hne : (start.walk A).first s.tail ≠ (start.walk A).last m) (v : Nat) :
    ¬ (start.walk A).Continues s.tail v := by
  intro hcont
  rw [hm] at hcont hne hover
  rcases Walk.eq_of_continues hover hcont with ⟨h1, h2⟩
  omega

include hruns h hjoins hm htail hfrontier hqueue hover

theorem goesOn_down (hdown : (start.walk A).first s.tail < (start.walk A).last m) (addr : UInt64) :
    start.GoesOn A out s addr := by
  -- an element that reached a queued line would overlap
  have hfar : ¬ (start.walk A).first m ≤ (start.walk A).last s.tail := by
    intro hreach
    refine hover ⟨by omega, hjoins, ?_, ?_⟩
    · rwa [hm, Nat.add_sub_cancel, ← hm]
    · rwa [hm, Nat.add_sub_cancel, ← hm]
  have hnone := not_continues_of_ne hm hover (by omega)
  refine ⟨_, _, _, ?_, h.merged_none hnone (Nat.le_refl _)⟩
  rw [merge_down hruns h hjoins hm htail hfrontier hqueue hdown, if_neg hfar]

theorem goesOn_same (hsame : (start.walk A).first s.tail = (start.walk A).last m) (addr : UInt64) :
    start.GoesOn A out s addr := by
  have hcont : (start.walk A).Continues (m + 1) ((start.walk A).first (m + 1)) := by
    rw [hm] at hsame hjoins
    refine ⟨Nat.succ_pos m, hjoins, ?_, Nat.le_refl _, (start.walk A).first_le _⟩
    rw [hsame, Nat.add_sub_cancel]
    exact ⟨(start.walk A).first_le m, Nat.le_refl _⟩
  have hover' : ¬ (start.walk A).Overlaps (m + 1) := by
    rwa [hm] at hover
  rcases extend_continues hruns h hm htail hfrontier hqueue hover' hcont
    (lineStart start.lineSize ((start.walk A).last s.tail)) with ⟨queue, hextend, hmerged⟩
  rw [← hm] at hextend hmerged
  refine ⟨queue, s.head, _, ?_, hmerged⟩
  rw [merge_up hruns h hjoins hm htail hfrontier hqueue (by omega), hextend]
  rfl

theorem goesOn_up (hup : (start.walk A).last m < (start.walk A).first s.tail) (addr : UInt64) :
    start.GoesOn A out s addr := by
  have hne : ∀ r ∈ s.queue,
      r.vaddr ≠ lineStart start.lineSize ((start.walk A).first s.tail) := by
    intro r hr
    rw [hqueue] at hr
    rcases List.mem_map.1 hr with ⟨q, hq, rfl⟩
    have hhigh := (hfrontier.touches hq).2
    exact vaddr_ne_first hruns hfrontier (by omega) htail hq (by omega)
  have hnone := not_continues_of_ne hm hover (by omega)
  refine ⟨_, _, _, ?_, h.merged_none hnone h.head_le⟩
  rw [merge_up hruns h hjoins hm htail hfrontier hqueue (by omega), extend_of_ne hne]
  rfl

end Later

/-- An element that does not overlap goes on with slices as its runs say. -/
theorem goesOn (hruns : start.RunsTo A k limit) (h : start.Follows A out s)
    (hopen : s.sealedFront? = none) (htail : s.tail < limit)
    (hover : ¬ (start.walk A).Overlaps s.tail) (addr : UInt64) : start.GoesOn A out s addr := by
  by_cases hjoins : (start.walk A).joins s.tail = true
  · rcases h.queue_eq hopen with ⟨hzero, hnil⟩ | ⟨m, reaching, hm, hfrontier, hqueue⟩
    · exact h.goesOn_first hjoins hzero hnil addr
    · rcases Nat.lt_trichotomy ((start.walk A).first s.tail) ((start.walk A).last m) with
        hdown | hsame | hup
      · exact goesOn_down hruns h hjoins hm htail hfrontier hqueue hover hdown addr
      · exact goesOn_same hruns h hjoins hm htail hfrontier hqueue hover hsame addr
      · exact goesOn_up hruns h hjoins hm htail hfrontier hqueue hover hup addr
  · exact h.goesOn_apart hjoins addr

/-! ## Allocating -/

section Cover

variable (hruns : start.RunsTo A k limit) (h : start.Follows A out s) (hopen : s.sealedFront? = none)
  (htail : s.tail < limit)

include hruns h htail in
theorem cover_eq :
    s.cover = do
      let (queue, head, left) ← s.merge (A s.tail)
        (lineStart start.lineSize ((start.walk A).first s.tail))
        (lineStart start.lineSize ((start.walk A).last s.tail))
      let fresh ← opened start.strand start.lineSize s.tail left
        (lineStart start.lineSize ((start.walk A).last s.tail))
      return { s with tail := s.tail + 1, head, queue := queue ++ fresh } := by
  have haddress : s.address s.tail = .ok (A s.tail) := by
    have hsame : s.address s.tail = start.address s.tail := by
      rw [h.shape]
      rfl
    rw [hsame, hruns.address s.tail htail]
  have hlines : s.linesFrom (A s.tail) = start.linesFrom (A s.tail) := by
    rw [h.shape]
    rfl
  rw [cover, haddress]
  simp only [bind, Except.bind, hlines, linesFrom_eq hruns htail, h.lineSize_eq, h.strand_eq]

include hruns h hopen htail

/-- An element that does not overlap is allocated, if the end of its last line is an address. -/
theorem cover_ok (hover : ¬ (start.walk A).Overlaps s.tail)
    (hend : ((start.walk A).last s.tail + 1) * start.lineSize < 2 ^ 64) :
    ∃ s', s.cover = .ok s' ∧ start.Follows A out s' ∧ s'.tail = s.tail + 1 := by
  rcases goesOn hruns h hopen htail hover (A s.tail) with ⟨queue, head, a, hmerge, hmerged⟩
  rcases hmerged.listed with ⟨qs, rfl, hlist⟩
  have hfresh := opened_eq start.strand s.tail hruns.line_pos hmerged.le_last hend
  rw [cover_eq hruns h htail, hmerge]
  simp only [bind, Except.bind, hfresh, pure, Except.pure]
  refine ⟨_, rfl, ?_, rfl⟩
  -- what is handed out already does not grow
  have hlisted : out ++ (qs.map ((start.walk A).grow s.tail) ++ (start.walk A).openedAt s.tail) =
      (start.walk A).runsUpTo (s.tail + 1) := by
    have hout : out.map ((start.walk A).grow s.tail) = out := by
      apply Walk.map_grow_eq_self
      intro q hq
      have hlt := h.past q hq
      exact Walk.grow_of_rhs_ne (by omega)
    rw [Walk.runsUpTo, ← hlist, List.map_append, hout, List.append_assoc]
  refine ⟨?_, ⟨_, ?_, hlisted⟩, ?_, ?_, ?_, ?_, ?_⟩
  · rw [h.shape]
  · rw [List.map_append, hmerged.opened_eq]
    simp only [List.map_map]
    rfl
  · intro q hq
    exact Nat.lt_succ_of_lt (h.past q hq)
  · intro i hi
    rcases Nat.lt_succ_iff_lt_or_eq.1 hi with hi | rfl
    · exact h.apart i hi
    · exact hover
  · intro i hi
    rcases Nat.lt_succ_iff_lt_or_eq.1 hi with hi | rfl
    · exact h.inside i hi
    · exact hend
  · exact Nat.le_succ_of_le hmerged.head_le
  · intro q hq hrhs
    rcases Walk.lhs_of_reaching hq hrhs with hlhs | ⟨q₀, hq₀, hrhs₀, hlhs₀, hcont⟩
    · simp only [hlhs]
      exact hmerged.head_le
    · rw [← hlhs₀]
      exact hmerged.open_head q₀ hq₀ hrhs₀ hcont

/-- An element that overlaps stops the slicer. It reports the oldest slice of the element before. -/
theorem cover_overlap (hover : (start.walk A).Overlaps s.tail) :
    ∃ q ∈ (start.walk A).runsUpTo s.tail, q.rhs = s.tail ∧
      q.line = (start.walk A).first (s.tail - 1) ∧
      s.cover = .error (.slice (.overlap start.strand s.tail (A s.tail)
        (q.toSlice start.strand start.lineSize))) := by
  rcases hover with ⟨hpos, hjoins, hdown, hreach⟩
  rcases h.queue_eq hopen with ⟨hzero, _⟩ | ⟨m, reaching, hm, hfrontier, hqueue⟩
  · omega
  have hbefore : s.tail - 1 = m := by omega
  rw [hbefore] at hdown hreach ⊢
  rcases hfrontier.exists_oldest with ⟨q, rest, hsplit, hline⟩
  have hmem : q ∈ reaching := by simp [hsplit]
  refine ⟨q, ?_, ?_, hline, ?_⟩
  · rw [hm, hfrontier.split]
    exact List.mem_append_right _ hmem
  · rw [hm]
    exact hfrontier.reaching_rhs q hmem
  · rw [cover_eq hruns h htail,
      merge_down hruns h hjoins hm htail hfrontier hqueue hdown, if_pos hreach, hqueue, hsplit]
    rfl

/-- An element on the last line of memory stops the slicer, because that line has no end. -/
theorem cover_end (hover : ¬ (start.walk A).Overlaps s.tail)
    (hend : 2 ^ 64 ≤ ((start.walk A).last s.tail + 1) * start.lineSize) :
    s.cover = .error .arithmetic := by
  rcases goesOn hruns h hopen htail hover (A s.tail) with ⟨queue, head, a, hmerge, hmerged⟩
  have hfresh := opened_eq_error start.strand s.tail hruns.line_pos (hmerged.le_end hend)
    (hruns.mul_lt htail (Nat.le_refl _)) hend
  rw [cover_eq hruns h htail, hmerge]
  simp only [bind, Except.bind, hfresh]

end Cover

end Slicer
end StreamEngine
