import Mathlib.Data.List.Chain
import Mathlib.Data.List.Nodup
import Mathlib.Data.List.Range
import StreamEngine.Proofs.Affine.Coordinates

/-!
# Boxes of an array

The points of a box are listed with dimension 0 fastest, each once. In an array this is the order of their
indices.

* `Box.mem_points`, `Box.nodup_points` : the points of a box, each listed once;
* `Box.advance`, `Box.isChain_pointsOf` : the next point of a box, as the list has it;
* `Box.Inside` : a box in an array;
* `Box.Inside.pairwise_points` : points in the order of their indices.
-/

namespace StreamEngine

/-! ## Coordinates of a span -/

namespace Span

variable {s : Span} {x : Int}

theorem mem_toList : x ∈ s.toList ↔ s.lo ≤ x ∧ x < s.hi := by
  simp only [toList, extent, List.mem_map, List.mem_range]
  constructor
  · rintro ⟨i, hi, rfl⟩
    omega
  · rintro ⟨hlo, hhi⟩
    exact ⟨(x - s.lo).toNat, by omega, by omega⟩

theorem pairwise_toList (s : Span) : s.toList.Pairwise (· < ·) := by
  rw [toList, List.pairwise_map]
  refine List.pairwise_lt_range.imp fun {i j} hij => ?_
  omega

theorem nodup_toList (s : Span) : s.toList.Nodup :=
  s.pairwise_toList.imp Int.ne_of_lt

theorem isChain_toList (s : Span) : s.toList.IsChain fun x y => x + 1 < s.hi ∧ y = x + 1 := by
  rw [toList, List.isChain_map, List.isChain_range, extent]
  intro i hi
  omega

theorem extent_of_lt (h : s.lo < s.hi) : s.extent = s.hi - s.lo :=
  Int.max_eq_left (by omega)

theorem head?_toList (h : s.lo < s.hi) : s.toList.head? = some s.lo := by
  have hne : s.extent.toNat ≠ 0 := by
    rw [extent_of_lt h]
    omega
  rw [toList, List.head?_map, List.head?_range, if_neg hne, Option.map_some, Int.natCast_zero,
    Int.add_zero]

theorem getLast?_toList (h : s.lo < s.hi) : s.toList.getLast? = some (s.hi - 1) := by
  have hne : s.extent.toNat ≠ 0 := by
    rw [extent_of_lt h]
    omega
  rw [toList, List.getLast?_map, List.getLast?_range, if_neg hne, Option.map_some, extent_of_lt h]
  congr 1
  omega

end Span

/-! ## Points of a box -/

namespace Box

theorem mem_pointsOf {spans : List Span} {p : List Int} :
    p ∈ pointsOf spans ↔ List.Forall₂ (fun s x => s.lo ≤ x ∧ x < s.hi) spans p := by
  induction spans generalizing p with
  | nil => simp [pointsOf]
  | cons s spans ih =>
      simp only [pointsOf, List.mem_flatMap, List.mem_map]
      constructor
      · rintro ⟨tail, htail, x, hx, rfl⟩
        exact List.Forall₂.cons (Span.mem_toList.1 hx) (ih.1 htail)
      · rintro (_ | ⟨hx, htail⟩)
        exact ⟨_, ih.2 htail, _, Span.mem_toList.2 hx, rfl⟩

theorem nodup_pointsOf (spans : List Span) : (pointsOf spans).Nodup := by
  induction spans with
  | nil => exact List.nodup_singleton []
  | cons s spans ih =>
      refine List.nodup_flatMap.2 ⟨fun tail _ => ?_, ih.imp fun {a b} hne => ?_⟩
      · exact s.nodup_toList.map fun x y hxy => (List.cons.inj hxy).1
      · -- points with different tails are different
        intro p hp hq
        rcases List.mem_map.1 hp with ⟨x, _, rfl⟩
        rcases List.mem_map.1 hq with ⟨y, _, hy⟩
        exact hne (List.cons.inj hy).2.symm

theorem mem_points {b : Box} {p : List Int} :
    p ∈ b.points ↔ List.Forall₂ (fun s x => s.lo ≤ x ∧ x < s.hi) b.spans p :=
  mem_pointsOf

theorem nodup_points (b : Box) : b.points.Nodup :=
  nodup_pointsOf b.spans

/-- A box lists the points that it contains. -/
theorem mem_points_iff_contains {b : Box} {p : List Int} :
    p ∈ b.points ↔ p.length = b.dims ∧ b.contains p = true := by
  rw [mem_points, List.forall₂_iff_zip, eq_comm, contains, List.all_eq_true, Prod.forall, dims]
  simp only [Span.contains, Bool.and_eq_true, decide_eq_true_eq]

/-! ## One point after the other -/

/-- The point behind `p`: the first coordinate that has one goes on, and those before it start again. -/
def advance : List Span → List Int → Option (List Int)
  | s :: spans, x :: p =>
    if x + 1 < s.hi then some ((x + 1) :: p) else (advance spans p).map fun tail => s.lo :: tail
  | _, _ => none

variable {spans : List Span}

theorem head?_pointsOf (hne : ∀ s ∈ spans, s.lo < s.hi) :
    (pointsOf spans).head? = some (spans.map Span.lo) := by
  induction spans with
  | nil => rfl
  | cons s spans ih =>
      have htail := ih fun s hs => hne s (List.mem_cons_of_mem _ hs)
      rcases List.head?_eq_some_iff.1 htail with ⟨rest, hrest⟩
      rw [pointsOf, hrest, List.flatMap_cons, List.head?_append, List.head?_map,
        Span.head?_toList (hne s List.mem_cons_self)]
      rfl

theorem getLast?_pointsOf (hne : ∀ s ∈ spans, s.lo < s.hi) :
    (pointsOf spans).getLast? = some (spans.map fun s => s.hi - 1) := by
  induction spans with
  | nil => rfl
  | cons s spans ih =>
      have htail := ih fun s hs => hne s (List.mem_cons_of_mem _ hs)
      rcases List.getLast?_eq_some_iff.1 htail with ⟨before, hbefore⟩
      rw [pointsOf, hbefore, List.flatMap_append, List.flatMap_singleton, List.getLast?_append,
        List.getLast?_map, Span.getLast?_toList (hne s List.mem_cons_self)]
      rfl

theorem advance_last (spans : List Span) : advance spans (spans.map fun s => s.hi - 1) = none := by
  induction spans with
  | nil => rfl
  | cons s spans ih =>
      rw [List.map_cons, advance, if_neg (by omega), ih]
      rfl

/-- The list of points goes on as long as there is a next point. -/
theorem isChain_pointsOf (hne : ∀ s ∈ spans, s.lo < s.hi) :
    (pointsOf spans).IsChain fun p q => advance spans p = some q := by
  induction spans with
  | nil => exact List.IsChain.singleton []
  | cons s spans ih =>
      have hs : s.lo < s.hi := hne s List.mem_cons_self
      have hrow : [] ∉ (pointsOf spans).map fun tail => s.toList.map fun x => x :: tail := by
        intro hnil
        rcases List.mem_map.1 hnil with ⟨tail, _, hempty⟩
        have hhead := Span.head?_toList hs
        rw [List.map_eq_nil_iff.1 hempty] at hhead
        cases hhead
      rw [pointsOf, List.flatMap_def, List.isChain_flatten hrow]
      refine ⟨fun row hmem => ?_, ?_⟩
      · -- inside a row
        rcases List.mem_map.1 hmem with ⟨tail, _, rfl⟩
        rw [List.isChain_map]
        refine s.isChain_toList.imp fun x y hxy => ?_
        rw [advance, if_pos hxy.1, hxy.2]
      · -- from the last point of a row to the first of the next
        rw [List.isChain_map]
        refine (ih fun s hs => hne s (List.mem_cons_of_mem _ hs)).imp fun tail tail' hnext => ?_
        simp only [List.getLast?_map, List.head?_map, Span.getLast?_toList hs, Span.head?_toList hs,
          Option.map_some, Option.mem_some_iff, forall_eq']
        rw [advance, if_neg (by omega), hnext, Option.map_some]

/-! ## Boxes in an array -/

/-- The box has a span for each dimension of an array of these sizes, inside it. -/
def Inside (sizes : List Int) (b : Box) : Prop :=
  List.Forall₂ (fun s (span : Span) => 0 ≤ span.lo ∧ span.hi ≤ s) sizes b.spans

variable {sizes : List Int} {a b : Box} {p : List Int}

theorem Inside.length_eq (h : b.Inside sizes) : b.spans.length = sizes.length :=
  (List.Forall₂.length_eq h).symm

theorem inside_full (sizes : List Int) : (full sizes).Inside sizes := by
  rw [Inside, full, List.forall₂_map_right_iff]
  exact List.forall₂_same.2 fun s _ => ⟨Int.le_refl 0, Int.le_refl s⟩

theorem Inside.withDim (h : b.Inside sizes) {d : Nat} {span : Span}
    (hspan : ∀ s, sizes[d]? = some s → 0 ≤ span.lo ∧ span.hi ≤ s) : (b.withDim d span).Inside sizes := by
  rcases b with ⟨spans⟩
  simp only [Inside, Box.withDim] at h ⊢
  induction h generalizing d with
  | nil => exact List.Forall₂.nil
  | cons hhead htail ih =>
      cases d with
      | zero => exact List.Forall₂.cons (hspan _ rfl) htail
      | succ d => exact List.Forall₂.cons hhead (ih hspan)

theorem Inside.intersect (h : a.Inside sizes) (hlen : b.spans.length = sizes.length) :
    (a.intersect b).Inside sizes := by
  rcases a with ⟨as⟩
  rcases b with ⟨bs⟩
  simp only [Inside, Box.intersect] at h hlen ⊢
  induction h generalizing bs with
  | nil => exact List.Forall₂.nil
  | @cons s span sizes as hhead htail ih =>
      cases bs with
      | nil => cases hlen
      | cons other bs =>
          refine List.Forall₂.cons ?_ (ih bs (Nat.succ.inj hlen))
          simp only [Span.intersect]
          omega

/-- In an array points are listed in the order of their indices. -/
theorem Inside.pairwise_points (h : b.Inside sizes) :
    b.points.Pairwise fun p q => linearize p sizes < linearize q sizes := by
  rcases b with ⟨spans⟩
  simp only [Inside, Box.points] at h ⊢
  induction h with
  | nil => exact List.pairwise_singleton _ _
  | @cons size span sizes spans hhead htail ih =>
      refine List.pairwise_flatMap.2 ⟨fun tail _ => ?_, ih.imp fun {tail tail'} hlt => ?_⟩
      · rw [List.pairwise_map]
        refine span.pairwise_toList.imp fun hxy => ?_
        rw [linearize_cons, linearize_cons]
        omega
      · -- a step of the other dimensions is more than all of dimension 0
        simp only [List.mem_map, forall_exists_index, and_imp]
        rintro _ x hx rfl _ y hy rfl
        have hxs := Span.mem_toList.1 hx
        have hys := Span.mem_toList.1 hy
        have hstep := Int.mul_le_mul_of_nonneg_left (Int.add_one_le_of_lt hlt)
          (by omega : 0 ≤ size)
        rw [Int.mul_add, Int.mul_one] at hstep
        rw [linearize_cons, linearize_cons]
        omega

theorem Inside.inArray (h : b.Inside sizes) (hp : p ∈ b.points) : InArray sizes p := by
  rw [mem_points] at hp
  rcases b with ⟨spans⟩
  simp only [Inside] at h hp
  induction h generalizing p with
  | nil => cases hp; exact List.Forall₂.nil
  | cons hhead htail ih =>
      rcases hp with _ | ⟨hx, hp⟩
      exact List.Forall₂.cons ⟨by omega, by omega⟩ (ih hp)

end Box
end StreamEngine
