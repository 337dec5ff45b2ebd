import Mathlib.Data.List.Forall2
import Mathlib.Tactic.Ring
import StreamEngine.Affine.Pattern

/-!
# Coordinates

Linear indices and points name the same cells of an array. This file makes the correspondence explicit,
for every number of dimensions:

* `coordinates` — the point of an array with a linear index;
* `coordinates_linearize`, `linearize_coordinates` — the two directions are inverse inside the array;
* `linearize_modify` — a step along one dimension changes the index by its canonical stride;
* `walk_eq_sum` — what an affine pattern adds to its start, by the digits of the element's index.
-/

namespace StreamEngine

/-- The point of an array of these sizes with a linear index, dimension 0 fastest. -/
def coordinates : List Int → Int → List Int
  | [], _ => []
  | s :: sizes, i => i % s :: coordinates sizes (i / s)

/-- Each coordinate lies inside its dimension, and there is one for each dimension. -/
def InArray (sizes p : List Int) : Prop :=
  List.Forall₂ (fun s x => 0 ≤ x ∧ x < s) sizes p

/-! ## Canonical strides -/

theorem canonicalFrom_eq_map (u v : Int) (sizes : List Int) :
    canonicalFrom (u * v) sizes = (canonicalFrom v sizes).map (u * ·) := by
  induction sizes generalizing v with
  | nil => rfl
  | cons s sizes ih =>
      have htail := ih (v * s)
      simp only [canonicalFrom, List.map_cons, Int.mul_assoc, htail]

theorem length_canonicalFrom (unit : Int) (sizes : List Int) :
    (canonicalFrom unit sizes).length = sizes.length := by
  induction sizes generalizing unit with
  | nil => rfl
  | cons s sizes ih => rw [canonicalFrom, List.length_cons, List.length_cons, ih]

theorem sum_zipWith_mul_map (u : Int) (p cs : List Int) :
    (List.zipWith (· * ·) p (cs.map (u * ·))).sum = u * (List.zipWith (· * ·) p cs).sum := by
  induction p generalizing cs with
  | nil => simp
  | cons x p ih =>
      cases cs with
      | nil => simp
      | cons c cs =>
          have htail := ih cs
          simp only [List.map_cons, List.zipWith_cons_cons, List.sum_cons, htail]
          ring

@[simp] theorem linearize_nil (sizes : List Int) : linearize [] sizes = 0 := by
  simp [linearize]

@[simp] theorem linearize_cons (x s : Int) (p sizes : List Int) :
    linearize (x :: p) (s :: sizes) = x + s * linearize p sizes := by
  have hstrides : canonicalFrom (1 * s) sizes = (canonicalFrom 1 sizes).map (s * ·) := by
    rw [Int.one_mul]
    simpa using canonicalFrom_eq_map s 1 sizes
  simp only [linearize, canonicalStrides, canonicalFrom, hstrides, List.zipWith_cons_cons,
    List.sum_cons, sum_zipWith_mul_map, Int.mul_one]

/-! ## Points and indices -/

theorem InArray.length_eq {sizes p : List Int} (h : InArray sizes p) : p.length = sizes.length :=
  (List.Forall₂.length_eq h).symm

theorem inArray_coordinates {sizes : List Int} (hpos : ∀ s ∈ sizes, 0 < s) (i : Int) :
    InArray sizes (coordinates sizes i) := by
  induction sizes generalizing i with
  | nil => exact List.Forall₂.nil
  | cons s sizes ih =>
      have hs : 0 < s := hpos s (by simp)
      refine List.Forall₂.cons ⟨Int.emod_nonneg i (by omega), Int.emod_lt_of_pos i hs⟩ ?_
      exact ih (fun x hx => hpos x (by simp [hx])) (i / s)

theorem linearize_bounds {sizes p : List Int} (h : InArray sizes p) :
    0 ≤ linearize p sizes ∧ linearize p sizes < sizes.prod := by
  induction h with
  | nil => simp
  | @cons s x sizes p hx htail ih =>
      rcases hx with ⟨hx0, hxs⟩
      rcases ih with ⟨h0, h1⟩
      have hlow : 0 ≤ s * linearize p sizes := Int.mul_nonneg (by omega) h0
      have hhigh : s * (linearize p sizes + 1) ≤ s * sizes.prod :=
        Int.mul_le_mul_of_nonneg_left (by omega) (by omega)
      have hsplit : s * (linearize p sizes + 1) = s * linearize p sizes + s := by ring
      simp only [linearize_cons, List.prod_cons]
      omega

theorem coordinates_linearize {sizes p : List Int} (h : InArray sizes p) :
    coordinates sizes (linearize p sizes) = p := by
  induction h with
  | nil => rfl
  | @cons s x sizes p hx htail ih =>
      rcases hx with ⟨hx0, hxs⟩
      have hmod : (x + s * linearize p sizes) % s = x := by
        rw [Int.add_mul_emod_self_left]
        exact Int.emod_eq_of_lt hx0 hxs
      have hdiv : (x + s * linearize p sizes) / s = linearize p sizes := by
        rw [Int.add_mul_ediv_left x _ (by omega), Int.ediv_eq_zero_of_lt hx0 hxs, Int.zero_add]
      simp only [linearize_cons, coordinates, hmod, hdiv, ih]

theorem linearize_coordinates {sizes : List Int} (hpos : ∀ s ∈ sizes, 0 < s) {i : Int}
    (h0 : 0 ≤ i) (h1 : i < sizes.prod) : linearize (coordinates sizes i) sizes = i := by
  induction sizes generalizing i with
  | nil =>
      simp only [List.prod_nil] at h1
      simp only [coordinates, linearize_nil]
      omega
  | cons s sizes ih =>
      have hs : 0 < s := hpos s (by simp)
      have hdiv : i / s < sizes.prod := by
        apply Int.ediv_lt_of_lt_mul hs
        rw [Int.mul_comm]
        simpa using h1
      have htail := ih (fun x hx => hpos x (by simp [hx])) (Int.ediv_nonneg h0 hs.le) hdiv
      simp only [coordinates, linearize_cons, htail]
      exact Int.emod_add_mul_ediv i s

/-- Points of an array with one index are one point. -/
theorem linearize_injective {sizes p q : List Int} (hp : InArray sizes p) (hq : InArray sizes q)
    (h : linearize p sizes = linearize q sizes) : p = q := by
  rw [← coordinates_linearize hp, ← coordinates_linearize hq, h]

theorem linearize_modify {p sizes : List Int} (hlen : p.length = sizes.length) (d : Nat)
    (hd : d < p.length) (δ : Int) :
    linearize (p.modify d (· + δ)) sizes =
      linearize p sizes + δ * (canonicalStrides sizes).getD d 0 := by
  induction p generalizing sizes d with
  | nil => simp at hd
  | cons x p ih =>
      cases sizes with
      | nil => simp at hlen
      | cons s sizes =>
          cases d with
          | zero =>
              simp only [List.modify_zero_cons, linearize_cons, canonicalStrides, canonicalFrom,
                List.getD_cons_zero]
              ring
          | succ d =>
              have hstride : (canonicalFrom (1 * s) sizes).getD d 0 =
                  s * (canonicalStrides sizes).getD d 0 := by
                rw [Int.mul_comm 1 s, canonicalFrom_eq_map, canonicalStrides]
                simp only [List.getD_eq_getElem?_getD, List.getElem?_map]
                cases (canonicalFrom 1 sizes)[d]? <;> simp
              have hlen' : p.length = sizes.length := by simpa using hlen
              have htail := ih hlen' d (by simpa using hd)
              simp only [List.modify_succ_cons, linearize_cons, canonicalStrides, canonicalFrom,
                List.getD_cons_succ, hstride, htail]
              ring

theorem linearize_add (sizes : List Int) {p q : List Int} (hlen : p.length = q.length) :
    linearize (List.zipWith (· + ·) p q) sizes = linearize p sizes + linearize q sizes := by
  induction p generalizing q sizes with
  | nil =>
      cases q with
      | nil => simp
      | cons y q => simp at hlen
  | cons x p ih =>
      cases q with
      | nil => simp at hlen
      | cons y q =>
          cases sizes with
          | nil => simp [linearize, canonicalStrides, canonicalFrom]
          | cons s sizes =>
              have hlen' : p.length = q.length := by simpa using hlen
              have htail := ih sizes hlen'
              simp only [List.zipWith_cons_cons, linearize_cons, htail]
              ring

/-! ## Patterns -/

/-- The digits of an index under a list of trips are its coordinates in an array of these sizes. -/
theorem walk_eq_sum {axes : List Axis} (hpos : ∀ a ∈ axes, 0 < a.trip) (here : Int) {i : Int}
    (hi : 0 ≤ i) :
    AffinePattern.walk here i axes =
      here + (List.zipWith (fun a k => a.stride * k) axes
        (coordinates (axes.map Axis.trip) i)).sum := by
  induction axes generalizing here i with
  | nil => simp [AffinePattern.walk, coordinates]
  | cons a axes ih =>
      have ha : 0 < a.trip := hpos a (by simp)
      have hmod : i.tmod a.trip = i % a.trip := Int.tmod_eq_emod_of_nonneg hi
      have hdiv : i.tdiv a.trip = i / a.trip := Int.tdiv_eq_ediv_of_nonneg hi
      have htail := ih (fun x hx => hpos x (by simp [hx]))
        (here + a.stride * (i % a.trip)) (Int.ediv_nonneg hi ha.le)
      simp only [AffinePattern.walk, if_neg (by omega : ¬ a.trip = 0), hmod, hdiv, htail,
        List.map_cons, coordinates, List.zipWith_cons_cons, List.sum_cons]
      ring

theorem AffinePattern.coordinate_eq {start unit : Int} (hstart : 0 ≤ start) (hunit : 0 < unit)
    (size : Int) : coordinate start unit size = start / unit % size := by
  rw [coordinate, Int.tdiv_eq_ediv_of_nonneg hstart,
    Int.tmod_eq_emod_of_nonneg (Int.ediv_nonneg hstart hunit.le)]

theorem zipWith_coordinate {sizes : List Int} (hpos : ∀ s ∈ sizes, 0 < s) {start unit : Int}
    (hstart : 0 ≤ start) (hunit : 0 < unit) :
    List.zipWith (AffinePattern.coordinate start) (canonicalFrom unit sizes) sizes =
      coordinates sizes (start / unit) := by
  induction sizes generalizing unit with
  | nil => rfl
  | cons s sizes ih =>
      have hs : 0 < s := hpos s List.mem_cons_self
      have htail := ih (fun x hx => hpos x (List.mem_cons_of_mem _ hx)) (Int.mul_pos hunit hs)
      rw [canonicalFrom, List.zipWith_cons_cons, htail, AffinePattern.coordinate_eq hstart hunit,
        coordinates, Int.ediv_ediv_of_nonneg hunit.le]

/-- The corner of a pattern is the point of its start. -/
theorem corner_eq_coordinates {sizes : List Int} (hpos : ∀ s ∈ sizes, 0 < s) (p : AffinePattern)
    (h0 : 0 ≤ p.start) : p.corner sizes = coordinates sizes p.start := by
  have h := zipWith_coordinate hpos h0 Int.one_pos
  rwa [Int.ediv_one] at h

end StreamEngine
