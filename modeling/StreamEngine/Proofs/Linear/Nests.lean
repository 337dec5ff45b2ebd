import Mathlib.Algebra.BigOperators.Group.List.Basic
import StreamEngine.Compute
import StreamEngine.Proofs.Linear.Addresses

/-!
# Evaluation as nested loops

A parameter list stands for loops inside one another. An element of the nest is named by one digit for
each loop, the number of steps that the loop has taken, and its index counts the elements before it.

* `LoopNest` — loops inside one another, all but the outermost bounded;
* `LoopNest.count_lt`, `LoopNest.peel_levels` — what the digits below a loop count, and how peeling finds them;
* `LoopNest.address_index` — evaluation adds up the steps of all loops, and never reads a total trip.
-/

namespace StreamEngine
namespace Linear

open scoped UInt64.CommRing

/-- Loops inside one another, number 0 innermost and number `outer` outermost. The loops below number `d`
make `trip d` elements. What is said of loops above the outermost one means nothing. -/
structure LoopNest where
  start : UInt64
  outer : Nat
  stride : Nat → UInt64
  trip : Nat → Nat
  trip_zero : trip 0 = 1
  trip_pos : ∀ d < outer, 0 < trip (d + 1)
  trip_dvd : ∀ d < outer, trip d ∣ trip (d + 1)
  trip_lt : ∀ d < outer, trip (d + 1) < 2 ^ 64

namespace LoopNest

variable {nest : LoopNest} {digit : Nat → Nat} {n : Nat}

/-- The levels of the loops above the innermost one, up to number `n`. -/
def levels (nest : LoopNest) (n : Nat) : List (UInt64 × UInt64) :=
  (List.range n).map fun d => (UInt64.ofNat (nest.trip (d + 1)), nest.stride (d + 1))

/-- The parameter list of the nest, with a total trip or without. -/
def words (nest : LoopNest) (total : Option UInt64) : List UInt64 :=
  nest.stride 0 :: ((nest.levels nest.outer).flatMap fun l => [l.1, l.2]) ++ total.toList ++
    [nest.start]

/-- Every loop but the outermost stays within its own steps. -/
def Within (nest : LoopNest) (digit : Nat → Nat) : Prop :=
  ∀ d < nest.outer, digit d < nest.trip (d + 1) / nest.trip d

/-- The elements that the steps of the loops below number `n` have passed. -/
def count (nest : LoopNest) (digit : Nat → Nat) (n : Nat) : Nat :=
  ((List.range n).map fun d => digit d * nest.trip d).sum

/-- The distance that the steps of the loops below number `n` have gone. -/
def distance (nest : LoopNest) (digit : Nat → Nat) (n : Nat) : UInt64 :=
  ((List.range n).map fun d => nest.stride d * UInt64.ofNat (digit d)).sum

/-- The index of the element that the digits name. -/
def index (nest : LoopNest) (digit : Nat → Nat) : Nat :=
  nest.count digit (nest.outer + 1)

/-- The address that the steps of all loops lead to. -/
def position (nest : LoopNest) (digit : Nat → Nat) : UInt64 :=
  nest.start + nest.distance digit (nest.outer + 1)

theorem count_succ (nest : LoopNest) (digit : Nat → Nat) (n : Nat) :
    nest.count digit (n + 1) = nest.count digit n + digit n * nest.trip n := by
  rw [count, List.range_succ, List.map_append, List.sum_append, List.map_singleton,
    List.sum_singleton]
  rfl

theorem distance_succ (nest : LoopNest) (digit : Nat → Nat) (n : Nat) :
    nest.distance digit (n + 1) =
      nest.distance digit n + nest.stride n * UInt64.ofNat (digit n) := by
  rw [distance, List.range_succ, List.map_append, List.sum_append, List.map_singleton,
    List.sum_singleton]
  rfl

theorem levels_succ (nest : LoopNest) (n : Nat) :
    nest.levels (n + 1) =
      nest.levels n ++ [(UInt64.ofNat (nest.trip (n + 1)), nest.stride (n + 1))] := by
  rw [levels, List.range_succ, List.map_append]
  rfl

/-! ## Peeling digits -/

/-- The loops below number `n` count fewer elements than a step of that loop makes. -/
theorem count_lt (hdigit : nest.Within digit) (hn : n ≤ nest.outer) :
    nest.count digit n < nest.trip n := by
  induction n with
  | zero =>
      rw [nest.trip_zero]
      exact Nat.zero_lt_one
  | succ n ih =>
      calc nest.count digit (n + 1)
          = nest.count digit n + digit n * nest.trip n := nest.count_succ digit n
        _ < nest.trip n + digit n * nest.trip n :=
            Nat.add_lt_add_right (ih (Nat.le_of_succ_le hn)) _
        _ = (digit n + 1) * nest.trip n := by ring
        _ ≤ nest.trip (n + 1) / nest.trip n * nest.trip n :=
            Nat.mul_le_mul_right _ (hdigit n hn)
        _ ≤ nest.trip (n + 1) := Nat.div_mul_le_self _ _

theorem toNat_trip (hn : n < nest.outer) :
    (UInt64.ofNat (nest.trip (n + 1))).toNat = nest.trip (n + 1) := by
  rw [UInt64.toNat_ofNat', Nat.mod_eq_of_lt (nest.trip_lt n hn)]

/-- Peeling takes one digit after another off an index and goes the steps of its loop, until the innermost
digit is left. -/
theorem peel_levels (hdigit : nest.Within digit) (hn : n ≤ nest.outer) (start : UInt64) :
    ∃ reached, peel start (nest.count digit (n + 1)) (nest.levels n) = (reached, digit 0) ∧
      reached + nest.stride 0 * UInt64.ofNat (digit 0) = start + nest.distance digit (n + 1) := by
  induction n generalizing start with
  | zero =>
      have hcount : nest.count digit 1 = digit 0 := by
        rw [count_succ, nest.trip_zero, Nat.mul_one]
        exact Nat.zero_add _
      have hdistance : nest.distance digit 1 = nest.stride 0 * UInt64.ofNat (digit 0) := by
        rw [distance_succ]
        exact zero_add _
      refine ⟨start, ?_, by rw [hdistance]⟩
      rw [hcount]
      rfl
  | succ n ih =>
      have hlow := count_lt hdigit hn
      have htrip := nest.trip_pos n hn
      have hne : UInt64.ofNat (nest.trip (n + 1)) ≠ 0 := by
        intro hzero
        rw [← toNat_trip hn, hzero] at htrip
        exact Nat.lt_irrefl 0 htrip
      rcases ih (Nat.le_of_succ_le hn)
        (start + nest.stride (n + 1) * UInt64.ofNat (digit (n + 1))) with ⟨reached, hpeel, hreached⟩
      refine ⟨reached, ?_, ?_⟩
      · -- the outermost of the loops is peeled first
        rw [levels_succ, peel_concat hne, toNat_trip hn, count_succ, Nat.add_mul_div_right _ _ htrip,
          Nat.div_eq_of_lt hlow, Nat.zero_add, Nat.add_mul_mod_self_right, Nat.mod_eq_of_lt hlow,
          hpeel]
      · rw [hreached, distance_succ _ _ (n + 1)]
        ring

/-! ## Evaluation -/

theorem outerOf_flatMap (levels : List (UInt64 × UInt64)) (total : Option UInt64) :
    outerOf (levels.flatMap (fun l => [l.1, l.2]) ++ total.toList) = levels := by
  induction levels with
  | nil => cases total <;> rfl
  | cons l levels ih =>
      rw [List.flatMap_cons, List.append_assoc]
      exact congrArg (l :: ·) ih

/-- A total trip adds no level. -/
theorem outerLevels_words (nest : LoopNest) (total : Option UInt64) :
    outerLevels (nest.words total) = nest.levels nest.outer := by
  rw [outerLevels, words, List.dropLast_concat]
  exact outerOf_flatMap _ total

theorem startOf_words (nest : LoopNest) (total : Option UInt64) :
    startOf (nest.words total) = nest.start := by
  rw [startOf, words, List.getLastD_concat]

/-- An element is where the steps of its loops lead, modulo 2^64. The outermost loop may take any number
of steps, and the list may have any total trip or none. -/
theorem address_index (hdigit : nest.Within digit) (total : Option UInt64) :
    address? (nest.words total) (nest.index digit) = .ok (nest.position digit) := by
  have hlen : ¬ (nest.words total).length < 2 := by
    simp only [words, List.cons_append, List.length_cons, List.length_append, List.length_nil]
    omega
  rcases peel_levels hdigit (Nat.le_refl _) nest.start with ⟨reached, hpeel, hreached⟩
  rw [address?, if_neg hlen, address, outerLevels_words, startOf_words, index, hpeel, position,
    ← hreached]
  rfl

/-! ## Planes of rows -/

/-- Planes of three rows of four words, in which each row lies below the one before. -/
def planes : LoopNest where
  start := 0x1000
  outer := 2
  stride := fun d => [8, -64, 4096].getD d 0
  trip := fun d => [1, 4, 12].getD d 0
  trip_zero := rfl
  trip_pos := by decide
  trip_dvd := by decide
  trip_lt := by decide

/-- Word 3 of row 2 of plane 5, whether the list says that there is no plane or says nothing. -/
theorem address_index_planes :
    planes.Within (fun d => [3, 2, 5].getD d 0) ∧
      address? [8, 4, -64, 12, 4096, 0x1000] 71 = .ok 0x5f98 ∧
      address? [8, 4, -64, 12, 4096, 0, 0x1000] 71 = .ok 0x5f98 := by
  have hdigit : planes.Within (fun d => [3, 2, 5].getD d 0) := by
    unfold Within
    decide
  exact ⟨hdigit, address_index hdigit none, address_index hdigit (some 0)⟩

end LoopNest
end Linear
end StreamEngine
