import Mathlib.Data.Set.Function
import Mathlib.Order.Bounds.Basic
import StreamEngine.Graph.Basic

/-!
# Element indices along an edge

With reuse the dependent walks each group of `tile` base elements `count` times, so a dependent index has
three digits: group, round and place in the group. A base index has two of them, and conversion to the base
forgets the round. With a skip the dependent names every `skip`-th base element.

* `Reuse.depToBase_eq`, `Reuse.baseToDep_add` : the digits of both indices;
* `Reuse.depToBase_eq_iff` : the dependents of a base element, one for each round;
* `Reuse.isGreatest_div` : the last dependent at or before a base element;
* `Reuse.conversion_exact` : the two conversions along a legal edge.
-/

namespace StreamEngine
namespace Reuse

variable {r : Reuse} {b d k : Nat}

/-! ## Groups, rounds and places -/

/-- A dependent index without its round. -/
theorem depToBase_eq (r : Reuse) (d : Nat) :
    r.depToBase d = d / r.tile / r.count * r.tile + d % r.tile := by
  rw [depToBase, Nat.div_div_eq_div_mul]

/-- Round `k` of a base element. -/
theorem baseToDep_add (r : Reuse) (b k : Nat) :
    r.baseToDep b + k * r.tile = (b / r.tile * r.count + k) * r.tile + b % r.tile := by
  have hgroup : b / r.tile * (r.tile * r.count) = b / r.tile * r.count * r.tile := by
    rw [Nat.mul_comm r.tile, Nat.mul_assoc]
  rw [baseToDep, hgroup, Nat.add_mul]
  omega

/-- The digits of a number come back from it. -/
theorem digits_of_lt {q m n : Nat} (hm : m < n) : (q * n + m) / n = q ∧ (q * n + m) % n = m := by
  refine (Nat.div_mod_unique (Nat.zero_lt_of_lt hm)).2 ⟨?_, hm⟩
  rw [Nat.add_comm, Nat.mul_comm]

/-- Every round of a base element leads back to it. -/
theorem depToBase_baseToDep_add (hk : k < r.count) : r.depToBase (r.baseToDep b + k * r.tile) = b := by
  have hplace := digits_of_lt (q := b / r.tile * r.count + k) (Nat.mod_lt b r.tile_pos)
  have hround := digits_of_lt (q := b / r.tile) hk
  rw [depToBase_eq, baseToDep_add, hplace.1, hplace.2, hround.1]
  exact Nat.div_add_mod' b r.tile

/-- Every dependent is a round of its base element. -/
theorem eq_baseToDep_add (r : Reuse) (d : Nat) :
    d = r.baseToDep (r.depToBase d) + d / r.tile % r.count * r.tile := by
  have hplace := digits_of_lt (q := d / r.tile / r.count) (Nat.mod_lt d r.tile_pos)
  rw [baseToDep_add, depToBase_eq, hplace.1, hplace.2, Nat.div_add_mod', Nat.div_add_mod']

/-- The dependents of a base element, one for each round. -/
theorem depToBase_eq_iff (hcount : 0 < r.count) :
    r.depToBase d = b ↔ ∃ k < r.count, d = r.baseToDep b + k * r.tile := by
  constructor
  · rintro rfl
    exact ⟨_, Nat.mod_lt _ hcount, r.eq_baseToDep_add d⟩
  · rintro ⟨k, hk, rfl⟩
    exact depToBase_baseToDep_add hk

/-- Rounds of a base element are different dependents. -/
theorem bijOn_rounds (hcount : 0 < r.count) (b : Nat) :
    Set.BijOn (fun k => r.baseToDep b + k * r.tile) (Set.Iio r.count) {d | r.depToBase d = b} := by
  refine ⟨fun k hk => depToBase_baseToDep_add hk, fun i _ j _ hij => ?_, fun d hd => ?_⟩
  · have hsame : i * r.tile = j * r.tile := Nat.add_left_cancel hij
    exact Nat.eq_of_mul_eq_mul_right r.tile_pos hsame
  · rcases (depToBase_eq_iff hcount).1 hd with ⟨k, hk, rfl⟩
    exact ⟨k, hk, rfl⟩

/-! ## Both conversions -/

/-- Of the dependents that name every `skip`-th base element, the last one at or before base element `b`. -/
theorem isGreatest_div {skip : Nat} (hskip : 0 < skip) (b : Nat) :
    IsGreatest {d | d * skip ≤ b} (b / skip) :=
  ⟨Nat.div_mul_le_self b skip, fun _ hd => (Nat.le_div_iff_mul_le hskip).2 hd⟩

/-- Along a legal edge with reuse the dependents of a base element are `count` indices, a group apart from
each other, and the first of them is the one that the base element is converted to. Along an edge with a
skip every dependent comes back from its base element, and a base element is converted to the last dependent
whose base is at or before it. Along any other edge nothing is converted. -/
theorem conversion_exact (r : Reuse) (skip : Nat) (hlegal : Graph.isLegal r skip = true) :
    (1 < r.count → ∀ b,
      Set.BijOn (fun k => r.toDependent skip b + k * r.tile) (Set.Iio r.count)
        {d | r.toBase skip d = b} ∧
      r.toBase skip (r.toDependent skip b) = b) ∧
    (0 < skip →
      (∀ d, r.toDependent skip (r.toBase skip d) = d) ∧
      ∀ b, IsGreatest {d | r.toBase skip d ≤ b} (r.toDependent skip b)) ∧
    (r.count = 1 → skip = 0 → ∀ i, r.toDependent skip i = i ∧ r.toBase skip i = i) := by
  refine ⟨fun hmany b => ?_, fun hskip => ?_, fun hone hskip i => ?_⟩
  · have hreused : r.isReused = true := decide_eq_true hmany
    have hbase : r.toBase skip = r.depToBase := funext fun d => if_pos hreused
    have hdependent : r.toDependent skip b = r.baseToDep b := if_pos hreused
    have hfirst : r.depToBase (r.baseToDep b + 0 * r.tile) = b :=
      depToBase_baseToDep_add (Nat.zero_lt_of_lt hmany)
    rw [Nat.zero_mul, Nat.add_zero] at hfirst
    rw [hbase, hdependent]
    exact ⟨bijOn_rounds (Nat.zero_lt_of_lt hmany) b, hfirst⟩
  · have hplain : ¬ r.isReused = true := by
      intro hreused
      rw [Graph.isLegal, hreused, decide_eq_true (Int.natCast_pos.2 hskip)] at hlegal
      simp at hlegal
    have hbase : r.toBase skip = (· * skip) := funext fun d =>
      (if_neg hplain).trans (if_pos (Nat.ne_of_gt hskip))
    have hdependent : r.toDependent skip = (· / skip) := funext fun b =>
      (if_neg hplain).trans (if_pos (Nat.ne_of_gt hskip))
    rw [hbase, hdependent]
    exact ⟨fun d => Nat.mul_div_cancel d hskip, isGreatest_div hskip⟩
  · have hplain : r.isReused = false := decide_eq_false (by omega)
    simp [toDependent, toBase, hplain, hskip]

/-- Groups of four elements, walked twice. -/
def fourTwice : Reuse :=
  { count := 2, tile := 4 }

/-- Base element 5 is the second one of the second group: elements 9 and 13 depend on it and no others. -/
theorem conversion_exact_fourTwice :
    Graph.isLegal fourTwice (0 : Nat) = true ∧
      Set.BijOn (fun k => 9 + k * 4) (Set.Iio 2) {d | fourTwice.toBase 0 d = 5} ∧
      fourTwice.toBase 0 9 = 5 :=
  ⟨by decide, (conversion_exact fourTwice 0 (by decide)).1 (by decide) 5⟩

end Reuse
end StreamEngine
