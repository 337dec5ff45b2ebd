import Mathlib.Data.List.Basic

/-!
# Runs of elements on a line

Elements touch cache lines, and consecutive elements that touch one line form a run on it. This file is
about runs alone, with lines and elements as numbers; what a slicer does with them comes later.

- `Walk` : the lines of every element, and which elements go on with the runs of the one before;
- `Walk.IsRun` : a run that can be extended on neither side;
- `Walk.runsUpTo` : the runs of the elements before some element, in order;
- `Walk.exists_frontier` : the runs that still reach the last element come last, one for each of its
  lines.
-/

namespace StreamEngine

/-- The lines that each element touches, from `first` to `last`. An element that joins goes on with the
runs of the one before. -/
structure Walk where
  first : Nat → Nat
  last : Nat → Nat
  joins : Nat → Bool
  first_le : ∀ i, first i ≤ last i

/-- The elements from `lhs` up to but not including `rhs`, on one line. -/
structure Run where
  lhs : Nat
  rhs : Nat
  line : Nat
  deriving DecidableEq, Repr

/-- Order of runs: by their first element, and then by their line. -/
def Run.Before (a b : Run) : Prop :=
  a.lhs < b.lhs ∨ a.lhs = b.lhs ∧ a.line < b.line

namespace Walk

variable (w : Walk)

def Touches (i v : Nat) : Prop :=
  w.first i ≤ v ∧ v ≤ w.last i

instance (i v : Nat) : Decidable (w.Touches i v) :=
  inferInstanceAs (Decidable (_ ∧ _))

/-- Element `i` goes on with a run of the element before it on line `v`. -/
def Continues (i v : Nat) : Prop :=
  0 < i ∧ w.joins i = true ∧ w.Touches (i - 1) v ∧ w.Touches i v

instance (i v : Nat) : Decidable (w.Continues i v) :=
  inferInstanceAs (Decidable (_ ∧ _))

/-- Element `i` joins the one before it, starts below its last line, and still reaches its lines. -/
def Overlaps (i : Nat) : Prop :=
  0 < i ∧ w.joins i = true ∧ w.first i < w.last (i - 1) ∧ w.first (i - 1) ≤ w.last i

instance (i : Nat) : Decidable (w.Overlaps i) :=
  inferInstanceAs (Decidable (_ ∧ _))

/-- A longest stretch of elements that touch a line and join one another. -/
structure IsRun (q : Run) : Prop where
  nonempty : q.lhs < q.rhs
  touches : ∀ i, q.lhs ≤ i → i < q.rhs → w.Touches i q.line
  joined : ∀ i, q.lhs < i → i < q.rhs → w.joins i = true
  starts : ¬ w.Continues q.lhs q.line
  stops : ¬ w.Continues q.rhs q.line

/-! ## Runs as far as they are known -/

def lines (i : Nat) : List Nat :=
  List.range' (w.first i) (w.last i + 1 - w.first i)

/-- The runs that start with element `i`. -/
def openedAt (i : Nat) : List Run :=
  ((w.lines i).filter fun v => ¬ w.Continues i v).map fun v => { lhs := i, rhs := i + 1, line := v }

/-- A run after element `i`. -/
def grow (i : Nat) (q : Run) : Run :=
  if q.rhs = i ∧ w.joins i = true ∧ w.Touches i q.line then { q with rhs := i + 1 } else q

/-- The runs of the elements before element `n`. -/
def runsUpTo : Nat → List Run
  | 0 => []
  | n + 1 => (runsUpTo n).map (w.grow n) ++ w.openedAt n

/-- A run as far as the elements before `n` show it. -/
structure IsRunUpTo (n : Nat) (q : Run) : Prop where
  nonempty : q.lhs < q.rhs
  touches : ∀ i, q.lhs ≤ i → i < q.rhs → w.Touches i q.line
  joined : ∀ i, q.lhs < i → i < q.rhs → w.joins i = true
  starts : ¬ w.Continues q.lhs q.line
  rhs_le : q.rhs ≤ n
  stops : q.rhs < n → ¬ w.Continues q.rhs q.line

variable {w}

theorem mem_lines {i v : Nat} : v ∈ w.lines i ↔ w.Touches i v := by
  have hle := w.first_le i
  rw [lines, List.mem_range'_1, Touches]
  omega

@[simp] theorem grow_lhs (i : Nat) (q : Run) : (w.grow i q).lhs = q.lhs := by
  unfold grow
  split <;> rfl

@[simp] theorem grow_line (i : Nat) (q : Run) : (w.grow i q).line = q.line := by
  unfold grow
  split <;> rfl

theorem IsRunUpTo.isRun {n : Nat} {q : Run} (h : w.IsRunUpTo n q) (hstop : q.rhs < n) :
    w.IsRun q :=
  ⟨h.nonempty, h.touches, h.joined, h.starts, h.stops hstop⟩

theorem IsRunUpTo.grow {n : Nat} {q : Run} (h : w.IsRunUpTo n q) :
    w.IsRunUpTo (n + 1) (w.grow n q) := by
  have hne := h.nonempty
  have hle := h.rhs_le
  by_cases hgrow : q.rhs = n ∧ w.joins n = true ∧ w.Touches n q.line
  · rcases hgrow with ⟨hrhs, hjoins, htouch⟩
    rw [Walk.grow, if_pos ⟨hrhs, hjoins, htouch⟩]
    refine ⟨?_, ?_, ?_, h.starts, Nat.le_refl _, ?_⟩
    · simp only
      omega
    · intro i hi hlt
      by_cases hin : i = n
      · rw [hin]
        exact htouch
      · exact h.touches i hi (by simp only at hlt; omega)
    · intro i hi hlt
      by_cases hin : i = n
      · rw [hin]
        exact hjoins
      · exact h.joined i hi (by simp only at hlt; omega)
    · intro hlt
      exact absurd hlt (Nat.lt_irrefl _)
  · rw [Walk.grow, if_neg hgrow]
    refine ⟨hne, h.touches, h.joined, h.starts, by omega, ?_⟩
    intro _ hcont
    -- a run that ends at `n` was not extended, because element `n` does not touch its line
    rcases Nat.lt_or_ge q.rhs n with hlt | hge
    · exact h.stops hlt hcont
    · have hrhs : q.rhs = n := by omega
      rcases hcont with ⟨_, hjoins, _, htouch⟩
      rw [hrhs] at hjoins htouch
      exact hgrow ⟨hrhs, hjoins, htouch⟩

theorem isRunUpTo_of_mem_openedAt {n : Nat} {q : Run} (h : q ∈ w.openedAt n) :
    w.IsRunUpTo (n + 1) q := by
  rcases List.mem_map.1 h with ⟨v, hv, rfl⟩
  simp only [List.mem_filter, mem_lines, decide_eq_true_eq] at hv
  refine ⟨Nat.lt_succ_self n, ?_, ?_, hv.2, Nat.le_refl _, ?_⟩
  · intro i hi hlt
    have hin : i = n := by
      simp only at hi hlt
      omega
    rw [hin]
    exact hv.1
  · intro i hi hlt
    simp only at hi hlt
    omega
  · intro hlt
    exact absurd hlt (Nat.lt_irrefl _)

/-- Every listed run is one, as far as it is known. -/
theorem isRunUpTo_of_mem {n : Nat} {q : Run} (h : q ∈ w.runsUpTo n) : w.IsRunUpTo n q := by
  induction n generalizing q with
  | zero => cases h
  | succ n ih =>
      rcases List.mem_append.1 h with h | h
      · rcases List.mem_map.1 h with ⟨q₀, hq₀, rfl⟩
        exact (ih hq₀).grow
      · exact isRunUpTo_of_mem_openedAt h

/-- Every start of a run is listed. -/
theorem exists_mem_runsUpTo {n l v : Nat} (hl : l < n) (htouch : w.Touches l v)
    (hstart : ¬ w.Continues l v) : ∃ q ∈ w.runsUpTo n, q.lhs = l ∧ q.line = v := by
  induction n with
  | zero => cases hl
  | succ n ih =>
      by_cases hn : l = n
      · subst hn
        refine ⟨{ lhs := l, rhs := l + 1, line := v }, List.mem_append_right _ ?_, rfl, rfl⟩
        refine List.mem_map.2 ⟨v, ?_, rfl⟩
        simp only [List.mem_filter, mem_lines, decide_eq_true_eq]
        exact ⟨htouch, hstart⟩
      · rcases ih (by omega) with ⟨q, hq, hlhs, hline⟩
        refine ⟨w.grow n q, List.mem_append_left _ (List.mem_map_of_mem hq), ?_, ?_⟩
        · rw [grow_lhs, hlhs]
        · rw [grow_line, hline]

/-- Runs are listed in order. -/
theorem pairwise_runsUpTo (w : Walk) (n : Nat) : (w.runsUpTo n).Pairwise Run.Before := by
  induction n with
  | zero => exact List.Pairwise.nil
  | succ n ih =>
      rw [runsUpTo, List.pairwise_append]
      refine ⟨?_, ?_, ?_⟩
      · rw [List.pairwise_map]
        refine ih.imp ?_
        intro a b hab
        simpa [Run.Before] using hab
      · rw [openedAt, List.pairwise_map]
        have hlines : (w.lines n).Pairwise (· < ·) := List.pairwise_lt_range'
        refine (hlines.filter _).imp ?_
        intro a b hab
        exact Or.inr ⟨rfl, hab⟩
      · intro a ha b hb
        rcases List.mem_map.1 ha with ⟨q, hq, rfl⟩
        rcases List.mem_map.1 hb with ⟨v, _, rfl⟩
        have hrun := isRunUpTo_of_mem hq
        have hlt := hrun.nonempty
        have hle := hrun.rhs_le
        refine Or.inl ?_
        simp only [grow_lhs]
        omega

/-! ## Runs that can still grow -/

/-- An element that does not overlap goes on with at most one run, that of the last line before it. -/
theorem eq_of_continues {n v : Nat} (hover : ¬ w.Overlaps (n + 1)) (h : w.Continues (n + 1) v) :
    v = w.last n ∧ v = w.first (n + 1) := by
  rcases h with ⟨_, hjoins, hbefore, hafter⟩
  simp only [Overlaps, hjoins, true_and, Nat.succ_pos, Nat.add_sub_cancel] at hover
  simp only [Touches, Nat.add_sub_cancel] at hbefore hafter
  omega

theorem grow_of_rhs_ne {n : Nat} {q : Run} (h : q.rhs ≠ n) : w.grow n q = q := by
  rw [grow, if_neg fun hgrow => h hgrow.1]

theorem map_grow_eq_self {n : Nat} {qs : List Run} (h : ∀ q ∈ qs, w.grow n q = q) :
    qs.map (w.grow n) = qs := by
  rw [List.map_congr_left h, List.map_id'']
  intro q
  rfl

theorem lines_eq_cons (w : Walk) (n : Nat) :
    w.lines n = w.first n :: List.range' (w.first n + 1) (w.last n - w.first n) := by
  have hle := w.first_le n
  have hlen : w.last n + 1 - w.first n = (w.last n - w.first n) + 1 := by omega
  rw [lines, hlen, List.range'_succ]

theorem lines_eq_append (w : Walk) (n : Nat) :
    w.lines n = List.range' (w.first n) (w.last n - w.first n) ++ [w.last n] := by
  have hle := w.first_le n
  have hlen : w.last n + 1 - w.first n = (w.last n - w.first n) + 1 := by omega
  rw [lines, hlen, List.range'_1_concat]
  congr 2
  omega

/-- An element that goes on with no run starts one on each of its lines. -/
theorem openedAt_eq_map {n : Nat} (h : ∀ v, ¬ w.Continues n v) :
    w.openedAt n = (w.lines n).map fun v => { lhs := n, rhs := n + 1, line := v } := by
  rw [openedAt, List.filter_eq_self.2]
  intro v _
  simpa using h v

/-- An element that goes on with a run starts runs on its other lines. -/
theorem openedAt_eq_map_of_continues {n : Nat} (hover : ¬ w.Overlaps (n + 1))
    (h : w.Continues (n + 1) (w.first (n + 1))) :
    w.openedAt (n + 1) =
      (List.range' (w.first (n + 1) + 1) (w.last (n + 1) - w.first (n + 1))).map fun v =>
        { lhs := n + 1, rhs := n + 2, line := v } := by
  rw [openedAt, lines_eq_cons, List.filter_cons_of_neg (by simpa using h), List.filter_eq_self.2]
  intro v hv
  rw [List.mem_range'_1] at hv
  simp only [decide_not, Bool.not_eq_true', decide_eq_false_iff_not]
  intro hcont
  have := (eq_of_continues hover hcont).2
  omega

/-- The runs of the elements up to `n`, cut in two: those that are over, and behind them those of
element `n`, one for each of its lines. -/
structure Frontier (w : Walk) (n : Nat) (past reaching : List Run) : Prop where
  split : w.runsUpTo (n + 1) = past ++ reaching
  past_rhs : ∀ q ∈ past, q.rhs ≤ n
  reaching_rhs : ∀ q ∈ reaching, q.rhs = n + 1
  reaching_lines : reaching.map Run.line = w.lines n

theorem Frontier.touches {n : Nat} {past reaching : List Run} (h : w.Frontier n past reaching)
    {q : Run} (hq : q ∈ reaching) : w.Touches n q.line := by
  rw [← mem_lines, ← h.reaching_lines]
  exact List.mem_map_of_mem hq

theorem map_line_openedAt {n : Nat} (h : ∀ v, ¬ w.Continues n v) :
    (w.openedAt n).map Run.line = w.lines n := by
  rw [openedAt_eq_map h, List.map_map]
  exact List.map_id _

theorem rhs_of_mem_openedAt {n : Nat} {q : Run} (h : q ∈ w.openedAt n) : q.rhs = n + 1 := by
  rcases List.mem_map.1 h with ⟨v, _, rfl⟩
  rfl

/-- Runs that are over do not grow. -/
theorem Frontier.map_grow_past {n : Nat} {past reaching : List Run}
    (h : w.Frontier n past reaching) : past.map (w.grow (n + 1)) = past := by
  apply map_grow_eq_self
  intro q hq
  have hle := h.past_rhs q hq
  exact grow_of_rhs_ne (by omega)

theorem Frontier.rhs_le {n : Nat} {past reaching : List Run} (h : w.Frontier n past reaching)
    {q : Run} (hq : q ∈ past ++ reaching) : q.rhs ≤ n + 1 := by
  rcases List.mem_append.1 hq with hq | hq
  · exact Nat.le_succ_of_le (h.past_rhs q hq)
  · exact Nat.le_of_eq (h.reaching_rhs q hq)

/-- The newest run is that of the last line of the element. -/
theorem Frontier.exists_newest {n : Nat} {past reaching : List Run}
    (h : w.Frontier n past reaching) :
    ∃ front q, reaching = front ++ [q] ∧ q.line = w.last n ∧ ∀ r ∈ front, r.line < w.last n := by
  have hlines := h.reaching_lines
  rw [lines_eq_append] at hlines
  rcases List.map_eq_append_iff.1 hlines with ⟨front, last, hsplit, hfront, hlast⟩
  rcases List.map_eq_singleton_iff.1 hlast with ⟨q, rfl, hline⟩
  refine ⟨front, q, hsplit, hline, ?_⟩
  intro r hr
  have hmem : r.line ∈ List.range' (w.first n) (w.last n - w.first n) := by
    rw [← hfront]
    exact List.mem_map_of_mem hr
  rw [List.mem_range'_1] at hmem
  omega

/-- The oldest run that still reaches the element is that of its first line. -/
theorem Frontier.exists_oldest {n : Nat} {past reaching : List Run}
    (h : w.Frontier n past reaching) : ∃ q rest, reaching = q :: rest ∧ q.line = w.first n := by
  have hlines := h.reaching_lines
  rw [lines_eq_cons] at hlines
  rcases List.map_eq_cons_iff.1 hlines with ⟨q, rest, hsplit, hline, _⟩
  exact ⟨q, rest, hsplit, hline⟩

/-- An element that goes on with no run leaves all runs behind. -/
theorem Frontier.restart {n : Nat} {past reaching : List Run} (h : w.Frontier n past reaching)
    (hnone : ∀ v, ¬ w.Continues (n + 1) v) :
    w.Frontier (n + 1) (past ++ reaching) (w.openedAt (n + 1)) ∧
      ∀ q ∈ reaching, w.grow (n + 1) q = q := by
  have hstay : ∀ q ∈ reaching, w.grow (n + 1) q = q := by
    intro q hq
    rw [grow, if_neg]
    rintro ⟨_, hjoins, htouch⟩
    exact hnone q.line ⟨Nat.succ_pos n, hjoins, h.touches hq, htouch⟩
  refine ⟨⟨?_, ?_, fun q hq => rhs_of_mem_openedAt hq, map_line_openedAt hnone⟩, hstay⟩
  · rw [runsUpTo, h.split, List.map_append, h.map_grow_past, map_grow_eq_self hstay]
  · intro q hq
    exact h.rhs_le hq

/-- Only the newest run grows with an element that goes on with it. -/
theorem Frontier.map_grow_reaching {n : Nat} {past front : List Run} {q : Run}
    (h : w.Frontier n past (front ++ [q])) (hcont : w.Continues (n + 1) (w.first (n + 1)))
    (hline : q.line = w.first (n + 1)) (hbelow : ∀ r ∈ front, r.line < w.first (n + 1)) :
    (front ++ [q]).map (w.grow (n + 1)) = front ++ [{ q with rhs := n + 2 }] := by
  have hstay : ∀ r ∈ front, w.grow (n + 1) r = r := by
    intro r hr
    have hlt := hbelow r hr
    rw [grow, if_neg]
    rintro ⟨_, _, htouch⟩
    exact absurd htouch.1 (by omega)
  have hgrow : w.grow (n + 1) q = { q with rhs := n + 2 } := by
    have hrhs : q.rhs = n + 1 := h.reaching_rhs q (by simp)
    rw [grow, if_pos ⟨hrhs, hcont.2.1, by rw [hline]; exact hcont.2.2.2⟩]
  rw [List.map_append, map_grow_eq_self hstay, List.map_singleton, hgrow]

/-- An element that goes on with a run goes on with the last one. -/
theorem Frontier.extend {n : Nat} {past reaching : List Run} (h : w.Frontier n past reaching)
    (hover : ¬ w.Overlaps (n + 1)) (hcont : w.Continues (n + 1) (w.first (n + 1))) :
    ∃ front q, reaching = front ++ [q] ∧ q.line = w.first (n + 1) ∧
      (∀ r ∈ front, r.line < w.first (n + 1)) ∧
      w.Frontier (n + 1) (past ++ front)
        ({ q with rhs := n + 2 } :: w.openedAt (n + 1)) ∧
      reaching.map (w.grow (n + 1)) = front ++ [{ q with rhs := n + 2 }] := by
  have hlast := (eq_of_continues hover hcont).1
  rcases h.exists_newest with ⟨front, q, rfl, hline, hbelow⟩
  rw [← hlast] at hline hbelow
  -- the runs before the newest one are on lower lines, and stop here
  have hmap := h.map_grow_reaching hcont hline hbelow
  refine ⟨front, q, rfl, hline, hbelow, ⟨?_, ?_, ?_, ?_⟩, hmap⟩
  · rw [runsUpTo, h.split, List.map_append, h.map_grow_past, hmap]
    simp
  · intro r hr
    apply h.rhs_le
    rw [← List.append_assoc]
    exact List.mem_append_left _ hr
  · intro r hr
    rcases List.mem_cons.1 hr with rfl | hr
    · rfl
    · exact rhs_of_mem_openedAt hr
  · rw [List.map_cons, hline, openedAt_eq_map_of_continues hover hcont, List.map_map, lines_eq_cons]
    exact congrArg _ (List.map_id _)

/-- As long as no element overlaps, the runs of the last element come last. -/
theorem exists_frontier {n : Nat} (h : ∀ i ≤ n, ¬ w.Overlaps i) :
    ∃ past reaching, w.Frontier n past reaching := by
  induction n with
  | zero =>
      have hnone : ∀ v, ¬ w.Continues 0 v := fun v hcont => Nat.lt_irrefl 0 hcont.1
      exact ⟨[], w.openedAt 0, rfl, by simp, fun q hq => rhs_of_mem_openedAt hq,
        map_line_openedAt hnone⟩
  | succ n ih =>
      rcases ih fun i hi => h i (Nat.le_succ_of_le hi) with ⟨past, reaching, hfrontier⟩
      have hover := h (n + 1) (Nat.le_refl _)
      by_cases hcont : w.Continues (n + 1) (w.first (n + 1))
      · rcases hfrontier.extend hover hcont with ⟨front, q, _, _, _, hnext, _⟩
        exact ⟨_, _, hnext⟩
      · refine ⟨_, _, (hfrontier.restart ?_).1⟩
        intro v hv
        rw [(eq_of_continues hover hv).2] at hv
        exact hcont hv

/-- A run that reaches element `n` starts there, or `n` goes on with it. -/
theorem lhs_of_reaching {n : Nat} {q : Run} (hq : q ∈ w.runsUpTo (n + 1)) (hrhs : q.rhs = n + 1) :
    q.lhs = n ∨ ∃ q₀ ∈ w.runsUpTo n, q₀.rhs = n ∧ q₀.lhs = q.lhs ∧ w.Continues n q₀.line := by
  rcases List.mem_append.1 hq with hq | hq
  · rcases List.mem_map.1 hq with ⟨q₀, hq₀, rfl⟩
    have hrun := isRunUpTo_of_mem hq₀
    by_cases hgrow : q₀.rhs = n ∧ w.joins n = true ∧ w.Touches n q₀.line
    · rcases hgrow with ⟨hend, hjoins, htouch⟩
      refine Or.inr ⟨q₀, hq₀, hend, (grow_lhs n q₀).symm, ?_⟩
      have hne := hrun.nonempty
      exact ⟨by omega, hjoins, hrun.touches (n - 1) (by omega) (by omega), htouch⟩
    · rw [grow, if_neg hgrow] at hrhs
      have hle := hrun.rhs_le
      omega
  · rcases List.mem_map.1 hq with ⟨v, _, rfl⟩
    exact Or.inl rfl

end Walk
end StreamEngine
