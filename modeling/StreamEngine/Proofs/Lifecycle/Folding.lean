import StreamEngine.Lifecycle.Stream

/-!
# What a reduction is to compute

A reduction goes through its elements in inner loops. Each of them is the left fold, from the initial value
on, over one value for each of its elements. Element `i + 1` takes the value that is given for `i`, so the
last element of a loop stands where the next loop begins.

- `StreamValue.ofBytes_take` : a word goes through the bytes of an element;
- `Declaration.Reduces` : what is declared of a reduction;
- `Declaration.Folds` : the word of an element as a fold;
- `Accumulates` : the words of the elements, one from the other;
- `Accumulates.folds` : these are the folds.
-/

namespace StreamEngine

/-! ## Words -/

namespace StreamValue

theorem wordOfBytes_wordBytes (w : UInt64) : wordOfBytes (wordBytes w) = w := by
  have hlt := w.toNat_lt
  apply UInt64.toNat.inj
  simp [wordOfBytes, wordBytes, List.range_succ, UInt64.toNat_add, UInt64.toNat_mul, Nat.shiftRight_eq_div_pow]
  omega

theorem ofBytes_wordBytes (w : UInt64) : ofBytes (wordBytes w) = ofWord w := by
  have hlength : (wordBytes w).length = 8 := by simp [wordBytes]
  rw [ofBytes, ofWord, zero]
  congr 1
  ext i hi
  rw [Vector.getElem_ofFn, Vector.getElem_set]
  by_cases hzero : i = 0
  · subst hzero
    rw [if_pos rfl]
    simp only [Nat.mul_zero, List.drop_zero]
    rw [List.take_of_length_le (Nat.le_of_eq hlength), wordOfBytes_wordBytes]
  · rw [if_neg (Ne.symm hzero), Vector.getElem_replicate]
    simp only
    rw [List.drop_eq_nil_of_le (by omega)]
    rfl

/-- The first eight bytes of a value are its first lane. -/
theorem ofBytes_take (v : StreamValue) : ofBytes (v.toBytes.take 8) = ofWord v.front := by
  have hlanes : ∃ rest, v.lanes.toList = v.front :: rest := by
    have hpos : 0 < v.lanes.toList.length := by simp
    refine ⟨v.lanes.toList.drop 1, ?_⟩
    rw [front, ← Vector.getElem_toList hpos]
    exact (List.getElem_cons_drop hpos).symm
  rcases hlanes with ⟨rest, hlanes⟩
  have hlength : (wordBytes v.front).length = 8 := by simp [wordBytes]
  rw [toBytes, hlanes, List.flatMap_cons, List.take_left' hlength, ofBytes_wordBytes]

end StreamValue

/-! ## Folds -/

/-- The word after one value more. -/
def Kernel.step (f : Kernel) (acc : UInt64) (v : StreamValue) : UInt64 :=
  (f.run [.ofWord acc, v]).front

namespace Declaration

/-- A reduction by `f`, from `w` on, of the values of the static stream `b`, each of which serves `c`
elements. All elements get their values on the core. -/
structure Reduces (d : Declaration) (f : Kernel) (b : StaticId) (c : Nat) (w : UInt64) : Prop where
  role : d.role = .reduction
  size : d.elemSize = 8
  formal : d.formal = [.base d.staticId, .base b]
  generator : d.generator = .computed f
  bases : d.bases = [{ staticId := b, kind := .value, reuse := .times c }]
  count : 1 ≤ c
  initial : d.initialValue = .ofWord w
  normal : ∀ idx, d.terminal idx = .normal

/-- Elements `start + 1` to `start + j` begin an inner loop, which is endless without a trip. -/
def InLoop (d : Declaration) (start j : Nat) : Prop :=
  1 ≤ j ∧ match d.loopTrip with
    | some (trip + 1) => trip + 1 ∣ start ∧ j ≤ trip + 1
    | _ => start = 0

/-- The word of element `idx`: the initial value at first, and then the left fold over the values that the
inner loop has got so far. -/
structure Folds (d : Declaration) (f : Kernel) (w : UInt64) (gave : Nat → StreamValue → Prop) (idx : Nat)
    (word : UInt64) : Prop where
  first : idx = 0 → word = w
  loop : ∀ start j, d.InLoop start j → idx = start + j → ∃ vs : List StreamValue, vs.length = j ∧
    (∀ x v, vs[x]? = some v → gave (start + x) v) ∧ word = vs.foldl f.step w

end Declaration

variable {d : Declaration} {f : Kernel} {b : StaticId} {c : Nat} {w word : UInt64}
  {gave : Nat → StreamValue → Prop} {idx start j : Nat}

/-- The words that the elements of a reduction hold, where element `i + 1` takes a value that is given for
`i`. -/
inductive Accumulates (d : Declaration) (f : Kernel) (w : UInt64) (gave : Nat → StreamValue → Prop) :
    Nat → UInt64 → Prop
  | first : Accumulates d f w gave 0 w
  | restart {i : Nat} {v : StreamValue} : d.isInnerSecond (i + 1) = true → gave i v →
      Accumulates d f w gave (i + 1) (f.step w v)
  | next {i : Nat} {acc : UInt64} {v : StreamValue} : d.isInnerSecond (i + 1) = false →
      Accumulates d f w gave i acc → gave i v → Accumulates d f w gave (i + 1) (f.step acc v)

/-- An inner loop starts again with its first element. -/
theorem Declaration.InLoop.isInnerSecond_iff (h : d.InLoop start j) :
    d.isInnerSecond (start + j) = true ↔ j = 1 := by
  rcases h with ⟨hpos, htrip⟩
  rw [isInnerSecond]
  cases hcase : d.loopTrip with
  | none =>
      rw [hcase] at htrip
      simp only [beq_iff_eq]
      omega
  | some trip =>
      rw [hcase] at htrip
      cases trip with
      | zero =>
          simp only [beq_iff_eq]
          omega
      | succ trip =>
          rcases htrip with ⟨⟨n, rfl⟩, hle⟩
          -- the start is a multiple of the trip, so the place in the loop is what remains
          have hlast : (trip + 1) * n + j - 1 = (trip + 1) * n + (j - 1) := by omega
          simp only [Bool.and_eq_true, decide_eq_true_eq, beq_iff_eq]
          rw [hlast, Nat.mul_add_mod, Nat.mod_eq_of_lt (by omega)]
          omega

/-- The words of an inner loop are the left fold over its values. -/
theorem Accumulates.exists_foldl (h : Accumulates d f w gave (start + j) word) (hloop : d.InLoop start j) :
    ∃ vs : List StreamValue, vs.length = j ∧ (∀ x v, vs[x]? = some v → gave (start + x) v) ∧
      word = vs.foldl f.step w := by
  -- on the place in the loop: its first element restarts, any later one goes on from the one before
  induction j generalizing word with
  | zero => exact absurd hloop.1 (Nat.not_le.2 Nat.one_pos)
  | succ j ih =>
      cases h with
      | @restart _ v hsecond hv =>
          -- the loop begins here
          cases Nat.succ.inj (hloop.isInnerSecond_iff.1 hsecond)
          refine ⟨[v], rfl, ?_, rfl⟩
          intro x v₁ hx
          cases x with
          | zero =>
              cases hx
              exact hv
          | succ x => cases hx
      | @next _ acc v hnot hacc hv =>
          have hpos : 1 ≤ j := by
            refine Nat.one_le_iff_ne_zero.2 fun hzero => ?_
            have hsecond := hloop.isInnerSecond_iff.2 (congrArg Nat.succ hzero)
            exact Bool.false_ne_true (hnot.symm.trans hsecond)
          have hbefore : d.InLoop start j := by
            refine ⟨hpos, ?_⟩
            have htrip := hloop.2
            split at htrip
            · exact ⟨htrip.1, Nat.le_of_succ_le htrip.2⟩
            · exact htrip
          rcases ih hacc hbefore with ⟨vs, hlength, hgave, rfl⟩
          refine ⟨vs ++ [v], by simp [hlength], ?_, ?_⟩
          · intro x v₁ hx
            rcases Nat.lt_trichotomy x j with hlt | rfl | hgt
            · rw [List.getElem?_append_left (hlength ▸ hlt)] at hx
              exact hgave x v₁ hx
            · rw [List.getElem?_append_right (Nat.le_of_eq hlength), hlength, Nat.sub_self] at hx
              cases hx
              exact hv
            · rw [List.getElem?_eq_none (by simp [hlength]; omega)] at hx
              cases hx
          · rw [List.foldl_append, List.foldl_cons, List.foldl_nil]

theorem Accumulates.folds (h : Accumulates d f w gave idx word) : d.Folds f w gave idx word := by
  refine ⟨?_, ?_⟩
  · rintro rfl
    cases h
    rfl
  · rintro start j hloop rfl
    exact h.exists_foldl hloop

end StreamEngine
