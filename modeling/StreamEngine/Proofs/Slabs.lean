import Mathlib.Data.List.Basic
import StreamEngine.Slab

/-!
# Slots of a slab

- `Slab.Sound` : the free slots are empty, and none of them is free twice;
- `Slab.Exact` : in addition, every empty slot is free;
- `get?_insert`, `get?_replace`, `get?_erase` : reading after writing;
- `Sound.insert`, `Sound.replace`, `Sound.erase` and the same for `Exact` : what every operation keeps.
-/

namespace StreamEngine
namespace Slab

variable {α : Type}

structure Sound (s : Slab α) : Prop where
  vacant : ∀ i ∈ s.free, i < s.slots.length ∧ s.get? i = none
  nodup : s.free.Nodup

variable {s : Slab α} {i j : Nat} {v w : α}

theorem sound_empty : (({} : Slab α)).Sound where
  vacant := by
    intro i hi
    cases hi
  nodup := List.nodup_nil

theorem lt_of_get? (h : s.get? i = some v) : i < s.slots.length := by
  by_contra hge
  rw [get?, List.getElem?_eq_none (Nat.le_of_not_lt hge)] at h
  cases h

theorem get?_set {slots : List (Option α)} {free : List Nat} {x : Option α}
    (hi : i < slots.length) :
    (Slab.mk (slots.set i x) free).get? j = if j = i then x else (Slab.mk slots free).get? j := by
  by_cases hj : j = i
  · rw [if_pos hj, hj, get?, List.getElem?_set_self hi]
    rfl
  · rw [if_neg hj, get?, List.getElem?_set_ne (Ne.symm hj)]
    rfl

/-- A slab is its values, its number of slots and its stack of free ones. -/
theorem eq_of_get? {t : Slab α} (hlength : s.slots.length = t.slots.length)
    (hfree : s.free = t.free) (hget : ∀ i, s.get? i = t.get? i) : s = t := by
  have hslots : s.slots = t.slots := by
    refine List.ext_getElem? fun i => ?_
    have hi := hget i
    rw [get?, get?] at hi
    by_cases hlt : i < s.slots.length
    · rw [List.getElem?_eq_getElem hlt, List.getElem?_eq_getElem (hlength ▸ hlt)] at hi ⊢
      exact congrArg some hi
    · rw [List.getElem?_eq_none (Nat.le_of_not_lt hlt),
        List.getElem?_eq_none (hlength ▸ Nat.le_of_not_lt hlt)]
  cases s
  cases t
  cases hslots
  cases hfree
  rfl

/-! ## Inserting -/

theorem get?_insert_self_eq_none (h : s.Sound) (v : α) : s.get? (s.insert v).1 = none := by
  rcases s with ⟨slots, free⟩
  cases free with
  | nil =>
      have hnone : slots[slots.length]? = none := List.getElem?_eq_none (Nat.le_refl _)
      rw [insert, get?, hnone]
      rfl
  | cons i rest => exact (h.vacant i (by simp)).2

theorem get?_insert (h : s.Sound) (v : α) (j : Nat) :
    (s.insert v).2.get? j = if j = (s.insert v).1 then some v else s.get? j := by
  rcases s with ⟨slots, free⟩
  cases free with
  | nil =>
      change ((slots ++ [some v])[j]?).join = if j = slots.length then some v else slots[j]?.join
      by_cases hj : j = slots.length
      · rw [if_pos hj, hj, List.getElem?_concat_length]
        rfl
      · rw [if_neg hj]
        by_cases hlt : j < slots.length
        · rw [List.getElem?_append_left hlt]
        · rw [List.getElem?_eq_none (by simp; omega), List.getElem?_eq_none (by omega)]
  | cons i rest => exact get?_set (h.vacant i (by simp)).1

theorem Sound.insert (h : s.Sound) (v : α) : (s.insert v).2.Sound := by
  refine ⟨?_, ?_⟩
  · intro i hi
    have hfree : i ∈ s.free ∧ i ≠ (s.insert v).1 := by
      rcases s with ⟨slots, free⟩
      cases free with
      | nil => cases hi
      | cons k rest =>
          have hnodup := List.nodup_cons.1 h.nodup
          refine ⟨List.mem_cons_of_mem k hi, ?_⟩
          rintro rfl
          exact hnodup.1 hi
    have hvacant := h.vacant i hfree.1
    refine ⟨?_, ?_⟩
    · rcases s with ⟨slots, free⟩
      cases free with
      | nil => cases hi
      | cons k rest => simpa [Slab.insert] using hvacant.1
    · rw [get?_insert h, if_neg hfree.2]
      exact hvacant.2
  · rcases s with ⟨slots, free⟩
    cases free with
    | nil => exact List.nodup_nil
    | cons k rest => exact (List.nodup_cons.1 h.nodup).2

/-- A value put in place of the one inserted last could have been inserted itself. -/
theorem replace_insert (s : Slab α) (v w : α) :
    (s.insert v).2.replace (s.insert v).1 w = (s.insert w).2 ∧ (s.insert v).1 = (s.insert w).1 := by
  rcases s with ⟨slots, free⟩
  cases free with
  | nil =>
      refine ⟨?_, rfl⟩
      simp only [insert, replace, List.set_append_right _ _ (Nat.le_refl _), Nat.sub_self,
        List.set_cons_zero]
  | cons i rest =>
      refine ⟨?_, rfl⟩
      simp only [insert, replace, List.set_set]

/-! ## Replacing and erasing -/

theorem get?_replace (hi : s.get? i = some w) (v : α) (j : Nat) :
    (s.replace i v).get? j = if j = i then some v else s.get? j :=
  get?_set (lt_of_get? hi)

theorem Sound.replace (h : s.Sound) (hi : s.get? i = some w) (v : α) : (s.replace i v).Sound := by
  refine ⟨?_, h.nodup⟩
  intro j hj
  have hvacant := h.vacant j hj
  refine ⟨by simpa [Slab.replace] using hvacant.1, ?_⟩
  rw [get?_replace hi]
  by_cases hji : j = i
  · rw [hji, hi] at hvacant
    cases hvacant.2
  · rw [if_neg hji]
    exact hvacant.2

theorem get?_erase (hi : s.get? i = some w) (j : Nat) :
    (s.erase i).get? j = if j = i then none else s.get? j :=
  get?_set (lt_of_get? hi)

theorem Sound.erase (h : s.Sound) (hi : s.get? i = some w) : (s.erase i).Sound := by
  refine ⟨?_, ?_⟩
  · intro j hj
    rw [get?_erase hi]
    rcases List.mem_cons.1 hj with rfl | hj
    · exact ⟨by simpa [Slab.erase] using lt_of_get? hi, if_pos rfl⟩
    · have hvacant := h.vacant j hj
      refine ⟨by simpa [Slab.erase] using hvacant.1, ?_⟩
      by_cases hji : j = i
      · rw [if_pos hji]
      · rw [if_neg hji]
        exact hvacant.2
  · -- the slot was taken, so it was not free before
    refine List.nodup_cons.2 ⟨?_, h.nodup⟩
    intro hmem
    have hnone := (h.vacant i hmem).2
    rw [hi] at hnone
    cases hnone

theorem replace_replace (s : Slab α) (i : Nat) (v w : α) :
    (s.replace i v).replace i w = s.replace i w := by
  rw [replace, replace, List.set_set]
  rfl

theorem erase_replace (s : Slab α) (i : Nat) (v : α) : (s.replace i v).erase i = s.erase i := by
  rw [erase, replace, List.set_set]
  rfl

/-! ## No slot is lost -/

/-- The free slots are the empty ones, each of them once. -/
structure Exact (s : Slab α) : Prop where
  mem_free : ∀ i, i ∈ s.free ↔ i < s.slots.length ∧ s.get? i = none
  nodup : s.free.Nodup

theorem Exact.sound (h : s.Exact) : s.Sound :=
  ⟨fun i => (h.mem_free i).1, h.nodup⟩

/-- A sound slab that does not forget an empty slot is exact. -/
theorem Sound.exact (h : s.Sound)
    (hempty : ∀ i, i < s.slots.length → s.get? i = none → i ∈ s.free) : s.Exact :=
  ⟨fun i => ⟨h.vacant i, fun hi => hempty i hi.1 hi.2⟩, h.nodup⟩

theorem exact_empty : (({} : Slab α)).Exact :=
  sound_empty.exact fun _ hi => absurd hi (Nat.not_lt_zero _)

theorem Exact.insert (h : s.Exact) (v : α) : (s.insert v).2.Exact := by
  refine (h.sound.insert v).exact ?_
  intro i hi hnone
  -- the slot is not the new one, so it was empty before
  rw [get?_insert h.sound] at hnone
  by_cases hnew : i = (s.insert v).1
  · rw [if_pos hnew] at hnone
    cases hnone
  rw [if_neg hnew] at hnone
  rcases s with ⟨slots, free⟩
  cases free with
  | nil =>
      have hlt : i < slots.length := by
        simp only [Slab.insert, List.length_append, List.length_singleton] at hi hnew
        omega
      cases (h.mem_free i).2 ⟨hlt, hnone⟩
  | cons k rest =>
      have hlt : i < slots.length := by simpa [Slab.insert] using hi
      exact ((List.mem_cons.1 ((h.mem_free i).2 ⟨hlt, hnone⟩)).resolve_left hnew)

theorem Exact.replace (h : s.Exact) (hi : s.get? i = some w) (v : α) : (s.replace i v).Exact := by
  refine (h.sound.replace hi v).exact ?_
  intro j hj hnone
  rw [get?_replace hi] at hnone
  by_cases hji : j = i
  · rw [if_pos hji] at hnone
    cases hnone
  · rw [if_neg hji] at hnone
    exact (h.mem_free j).2 ⟨by simpa [Slab.replace] using hj, hnone⟩

theorem Exact.erase (h : s.Exact) (hi : s.get? i = some w) : (s.erase i).Exact := by
  refine (h.sound.erase hi).exact ?_
  intro j hj hnone
  rw [get?_erase hi] at hnone
  by_cases hji : j = i
  · exact hji ▸ List.mem_cons_self ..
  · rw [if_neg hji] at hnone
    exact List.mem_cons_of_mem i ((h.mem_free j).2 ⟨by simpa [Slab.erase] using hj, hnone⟩)

end Slab
end StreamEngine
