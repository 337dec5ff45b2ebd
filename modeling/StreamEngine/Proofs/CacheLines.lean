import Mathlib.Algebra.Group.Nat.Defs
import Mathlib.Data.Nat.Basic
import StreamEngine.Slicer

/-!
# Cache lines by number

Lines are powers of two long, and numbered by their position in memory.

- `lineStart` : the start of a line by its number;
- `lineOf_eq` : the line of an address, by its number.
-/

namespace StreamEngine

theorem toNat_ofNat_of_lt {n : Nat} (h : n < 2 ^ 64) : (UInt64.ofNat n).toNat = n := by
  rw [UInt64.toNat_ofNat', Nat.mod_eq_of_lt h]

theorem toNat_add_ofNat_of_lt {addr : UInt64} {n : Nat} (h : addr.toNat + n < 2 ^ 64) :
    (addr + UInt64.ofNat n).toNat = addr.toNat + n := by
  rw [UInt64.toNat_add, toNat_ofNat_of_lt (by omega), Nat.mod_eq_of_lt h]

theorem toNat_lineOf {k : Nat} (hk : k < 64) (addr : UInt64) :
    (lineOf (2 ^ k) addr).toNat = addr.toNat / 2 ^ k * 2 ^ k := by
  have hsize : 2 ^ k < 2 ^ 64 := Nat.pow_lt_pow_right (by omega) hk
  have hpos : 0 < 2 ^ k := Nat.two_pow_pos k
  have hmask : (UInt64.ofNat (2 ^ k) - 1).toNat = 2 ^ k - 1 := by
    have hle : (1 : UInt64) ≤ UInt64.ofNat (2 ^ k) := by
      rw [UInt64.le_iff_toNat_le, toNat_ofNat_of_lt hsize]
      exact hpos
    rw [UInt64.toNat_sub_of_le _ _ hle, toNat_ofNat_of_lt hsize]
    rfl
  have hnot : UInt64.size - 1 - (2 ^ k - 1) = 2 ^ 64 - ((2 ^ k - 1) + 1) := by
    have hwords : UInt64.size = 2 ^ 64 := rfl
    rw [hwords, Nat.sub_sub, Nat.add_comm 1]
  rw [lineOf, UInt64.toNat_and, UInt64.toNat_not, hmask, hnot, ← Nat.shiftRight_eq_div_pow,
    ← Nat.shiftLeft_eq]
  -- bit by bit: the mask clears the bits below `k`, and so do the two shifts
  apply Nat.eq_of_testBit_eq
  intro i
  rw [Nat.testBit_and, Nat.testBit_two_pow_sub_succ (by omega), Nat.testBit_two_pow_sub_one,
    Nat.testBit_shiftLeft, Nat.testBit_shiftRight]
  by_cases hik : i < k
  · have hki : ¬ k ≤ i := by omega
    simp [hik, hki]
  · have hadd : k + (i - k) = i := by omega
    rw [hadd]
    by_cases hi : i < 64
    · have hki : k ≤ i := by omega
      simp [hki, hi]
    · have hbig : addr.toNat < 2 ^ i :=
        Nat.lt_of_lt_of_le addr.toNat_lt (Nat.pow_le_pow_right (by omega) (by omega))
      simp [Nat.testBit_lt_two_pow hbig]

/-- Start of a line by its number. -/
def lineStart (size v : Nat) : UInt64 :=
  UInt64.ofNat (v * size)

theorem toNat_lineStart {size v : Nat} (h : v * size < 2 ^ 64) :
    (lineStart size v).toNat = v * size :=
  toNat_ofNat_of_lt h

theorem lineStart_lt_iff {size u v : Nat} (hsize : 0 < size) (hu : u * size < 2 ^ 64)
    (hv : v * size < 2 ^ 64) : lineStart size u < lineStart size v ↔ u < v := by
  rw [UInt64.lt_iff_toNat_lt, toNat_lineStart hu, toNat_lineStart hv,
    Nat.mul_lt_mul_right hsize]

theorem lineStart_le_iff {size u v : Nat} (hsize : 0 < size) (hu : u * size < 2 ^ 64)
    (hv : v * size < 2 ^ 64) : lineStart size u ≤ lineStart size v ↔ u ≤ v := by
  rw [UInt64.le_iff_toNat_le, toNat_lineStart hu, toNat_lineStart hv,
    Nat.mul_le_mul_right_iff hsize]

theorem lineStart_inj {size u v : Nat} (hsize : 0 < size) (hu : u * size < 2 ^ 64)
    (hv : v * size < 2 ^ 64) (h : lineStart size u = lineStart size v) : u = v := by
  have htoNat := congrArg UInt64.toNat h
  rw [toNat_lineStart hu, toNat_lineStart hv] at htoNat
  exact Nat.eq_of_mul_eq_mul_right hsize htoNat

theorem lineStart_add (size v n : Nat) :
    lineStart size v + UInt64.ofNat (n * size) = lineStart size (v + n) := by
  rw [lineStart, lineStart, ← UInt64.ofNat_add, Nat.add_mul]

theorem lineOf_eq {k : Nat} (hk : k < 64) (addr : UInt64) :
    lineOf (2 ^ k) addr = lineStart (2 ^ k) (addr.toNat / 2 ^ k) := by
  apply UInt64.toNat_inj.1
  rw [toNat_lineOf hk, toNat_lineStart]
  exact Nat.lt_of_le_of_lt (Nat.div_mul_le_self _ _) addr.toNat_lt

end StreamEngine
