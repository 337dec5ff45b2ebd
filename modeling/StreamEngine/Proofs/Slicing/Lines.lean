import StreamEngine.Proofs.CacheLines
import StreamEngine.Proofs.Slicing.Runs

/-!
# Runs as slices

Lines are numbered by their position in memory. Under this numbering the lines of an element, the slices
it opens and the slices it extends are those of a `Walk`.

- `linesFrom_eq` : first and last line of an element, as numbers;
- `opened_eq`, `opened_eq_error` : the slices that an element opens;
- `extend_of_ne`, `extend_of_last` : what extending does to a queue.
-/

namespace StreamEngine

/-- The slice of a run. -/
def Run.toSlice (strand : StrandId) (size : Nat) (q : Run) : Slice :=
  { strand, lhs := q.lhs, rhs := q.rhs, vaddr := lineStart size q.line, size }

namespace Slicer

/-! ## The walk of a slicer -/

/-- The walk of a slicer over these addresses. An element joins the one before it if slices coalesce
and the stream has not ended. -/
def walk (s : Slicer) (A : Nat → UInt64) : Walk where
  first i := (A i).toNat / s.lineSize
  last i := ((A i).toNat + (s.elemSize - 1)) / s.lineSize
  joins i := s.coalesce && !s.pastEnd i
  first_le _ := Nat.div_le_div_right (Nat.le_add_right _ _)

/-- What a slicer requires of the elements before `limit`: addresses that need no base stream, lines of a
power of two, and no element that wraps around the end of memory. -/
structure RunsTo (s : Slicer) (A : Nat → UInt64) (k limit : Nat) : Prop where
  address : ∀ i < limit, s.address i = .ok (A i)
  line_eq : s.lineSize = 2 ^ k
  line_lt : k < 64
  elem_pos : 0 < s.elemSize
  fits : ∀ i < limit, (A i).toNat + s.elemSize ≤ 2 ^ 64

variable {s : Slicer} {A : Nat → UInt64} {k limit : Nat}

theorem RunsTo.line_pos (h : s.RunsTo A k limit) : 0 < s.lineSize := by
  rw [h.line_eq]
  exact Nat.two_pow_pos k

/-- Every line of an element starts inside memory. -/
theorem RunsTo.mul_lt (h : s.RunsTo A k limit) {i v : Nat} (hi : i < limit)
    (hv : v ≤ (s.walk A).last i) : v * s.lineSize < 2 ^ 64 := by
  have hfits := h.fits i hi
  have hpos := h.elem_pos
  have hle : v * s.lineSize ≤ (s.walk A).last i * s.lineSize := Nat.mul_le_mul_right _ hv
  have hdiv : (s.walk A).last i * s.lineSize ≤ (A i).toNat + (s.elemSize - 1) :=
    Nat.div_mul_le_self _ _
  omega

theorem linesFrom_eq (h : s.RunsTo A k limit) {i : Nat} (hi : i < limit) :
    s.linesFrom (A i) =
      (lineStart s.lineSize ((s.walk A).first i), lineStart s.lineSize ((s.walk A).last i)) := by
  have hfits := h.fits i hi
  have hpos := h.elem_pos
  have hlast : (A i + UInt64.ofNat s.elemSize - 1).toNat = (A i).toNat + (s.elemSize - 1) := by
    rw [UInt64.toNat_sub, UInt64.toNat_add, UInt64.toNat_ofNat', UInt64.toNat_one]
    omega
  rw [linesFrom, h.line_eq, lineOf_eq h.line_lt, lineOf_eq h.line_lt, hlast, ← h.line_eq]
  rfl

/-! ## Slices that an element opens -/

/-- As many lines in bytes as there are numbers from `a` to `b`. -/
theorem lines_between {size a b : Nat} (hsize : 0 < size) (hab : a ≤ b) :
    (b * size - a * size) / size + 1 = b + 1 - a := by
  rw [← Nat.sub_mul, Nat.mul_div_cancel _ hsize]
  omega

theorem end_of_lines {size a b : Nat} (hab : a ≤ b) :
    a * size + (b + 1 - a) * size = (b + 1) * size := by
  rw [← Nat.add_mul]
  congr 1
  omega

/-- New slices on the lines from `a` to `b`, by number. The end of the last one lies inside memory. -/
theorem opened_eq {size : Nat} (strand : StrandId) (idx : Nat) {a b : Nat} (hsize : 0 < size)
    (hab : a ≤ b + 1) (hend : (b + 1) * size < 2 ^ 64) :
    opened strand size idx (lineStart size a) (lineStart size b) =
      .ok ((List.range' a (b + 1 - a)).map fun v =>
        Run.toSlice strand size { lhs := idx, rhs := idx + 1, line := v }) := by
  have ha : a * size < 2 ^ 64 := Nat.lt_of_le_of_lt (Nat.mul_le_mul_right _ hab) hend
  have hb : b * size < 2 ^ 64 :=
    Nat.lt_of_le_of_lt (Nat.mul_le_mul_right _ (Nat.le_succ b)) hend
  unfold opened
  by_cases hlt : b < a
  · have hnone : b + 1 - a = 0 := by omega
    rw [if_pos ((lineStart_lt_iff hsize hb ha).2 hlt), hnone]
    rfl
  · rw [if_neg fun h => hlt ((lineStart_lt_iff hsize hb ha).1 h), toNat_lineStart ha,
      toNat_lineStart hb]
    simp only [lines_between hsize (Nat.not_lt.1 hlt), end_of_lines (Nat.not_lt.1 hlt)]
    rw [if_neg (by omega), List.range'_eq_map_range, List.map_map]
    congr 1
    refine List.map_congr_left ?_
    intro i _
    simp only [Function.comp_apply, Run.toSlice, lineStart_add]

/-- On the last line of memory no slice can be opened: its end is no address. -/
theorem opened_eq_error {size : Nat} (strand : StrandId) (idx : Nat) {a b : Nat} (hsize : 0 < size)
    (hab : a ≤ b) (hb : b * size < 2 ^ 64) (hend : 2 ^ 64 ≤ (b + 1) * size) :
    opened strand size idx (lineStart size a) (lineStart size b) = .error .arithmetic := by
  have ha : a * size < 2 ^ 64 := Nat.lt_of_le_of_lt (Nat.mul_le_mul_right _ hab) hb
  unfold opened
  rw [if_neg fun h => absurd ((lineStart_lt_iff hsize hb ha).1 h) (by omega), toNat_lineStart ha,
    toNat_lineStart hb]
  simp only [lines_between hsize hab, end_of_lines hab]
  rw [if_pos hend]

/-! ## Slices that an element extends -/

theorem extend_of_ne {strand : StrandId} {size head idx : Nat} {last line : UInt64} {qs : List Slice}
    (h : ∀ q ∈ qs, q.vaddr ≠ line) :
    extend strand size head idx last line qs = .ok (line, qs) := by
  induction qs with
  | nil => rfl
  | cons q qs ih =>
      have hq : q.lhs < head ∨ q.vaddr ≠ line := Or.inr (h q (by simp))
      rw [extend, if_pos hq, ih fun q' hq' => h q' (by simp [hq'])]
      rfl

/-- If only the newest slice is on the line, it grows, and the lines behind it are left. -/
theorem extend_of_last {strand : StrandId} {size head idx : Nat} {last line : UInt64}
    {front : List Slice} {q : Slice} (hfront : ∀ q ∈ front, q.vaddr ≠ line) (hline : q.vaddr = line)
    (hhead : head ≤ q.lhs) (hrhs : q.rhs = idx) :
    extend strand size head idx last line (front ++ [q]) =
      .ok (line + UInt64.ofNat size, front ++ [{ q with rhs := q.rhs + 1 }]) := by
  induction front with
  | nil =>
      have hgo : ¬ (q.lhs < head ∨ q.vaddr ≠ line) := by
        rintro (hlt | hne)
        · exact absurd hlt (by omega)
        · exact hne hline
      rw [List.nil_append, extend, if_neg hgo, if_neg (by simpa using hrhs)]
      by_cases hlt : last < line + UInt64.ofNat size
      · simp only [if_pos hlt, List.nil_append]
      · simp only [if_neg hlt, List.nil_append]
        rfl
  | cons p front ih =>
      have hp : p.lhs < head ∨ p.vaddr ≠ line := Or.inr (hfront p (by simp))
      rw [List.cons_append, extend, if_pos hp, ih fun q' hq' => hfront q' (by simp [hq'])]
      rfl

end Slicer
end StreamEngine
