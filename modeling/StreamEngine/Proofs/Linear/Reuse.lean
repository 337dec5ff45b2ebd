import Mathlib.Data.Finset.Card
import Mathlib.Data.Finset.Prod
import Mathlib.Tactic.LinearCombination
import StreamEngine.Proofs.Linear.Addresses

/-!
# Reuse inside a stream

A level that does not move makes the walk of the levels below it again with each of its steps. The estimate
reads the number of these walks and the size of one of them off the parameter list, at the first level whose
stride is zero.

* `stridesOf`, `stepTrip` — the strides of a list, and the elements of one step of a level;
* `address_of_still` — what is left of an index below a level that does not move;
* `card_touched` — how many bytes a flat walk touches;
* `estimateReuse_eq` — what the estimate reads;
* `estimateReuse_true` — and that it is true of the addresses.
-/

namespace StreamEngine
namespace Linear

open scoped UInt64.CommRing

/-! ## Levels of a list -/

/-- The strides among strides and trips in alternation. -/
def stridesOf : List UInt64 → List UInt64
  | [] => []
  | [s] => [s]
  | s :: _ :: rest => s :: stridesOf rest

/-- Elements of one step of level `k`, number 0 innermost: the cumulative trip below the level. -/
def stepTrip (words : List UInt64) (k : Nat) : Nat :=
  ((1 :: tripsOf words.dropLast).getD k 1).toNat

variable {words : List UInt64} {k idx : Nat}

theorem stepTrip_succ {t : UInt64} (ht : (tripsOf words.dropLast)[k]? = some t) :
    stepTrip words (k + 1) = t.toNat := by
  rw [stepTrip, List.getD_cons_succ, List.getD_eq_getElem?_getD, ht, Option.getD_some]

theorem exists_getElem?_of_mem_drop {l : List UInt64} {u : UInt64} (hu : u ∈ l.drop k) :
    ∃ t, l[k]? = some t := by
  cases hk : l[k]? with
  | some t => exact ⟨t, rfl⟩
  | none =>
      rw [List.drop_eq_nil_of_le (List.getElem?_eq_none_iff.1 hk)] at hu
      cases hu

theorem outerOf_tail : ∀ ws : List UInt64, outerOf ws.tail = (tripsOf ws).zip (stridesOf ws).tail
  | [] => rfl
  | [_] => rfl
  | [_, _] => rfl
  | [_, _, _] => rfl
  | _ :: t :: s :: u :: rest => congrArg ((t, s) :: ·) (outerOf_tail (s :: u :: rest))

theorem length_stridesOf_le : ∀ ws : List UInt64, (stridesOf ws).length ≤ (tripsOf ws).length + 1
  | [] => Nat.zero_le 1
  | [_] => Nat.le_refl 1
  | _ :: _ :: rest => Nat.succ_le_succ (length_stridesOf_le rest)

theorem head?_stridesOf (ws : List UInt64) : (stridesOf ws)[0]? = ws.head? := by
  match ws with
  | [] => rfl
  | [_] => rfl
  | _ :: _ :: _ => rfl

/-- The trips that bound the levels from number `k + 1` on. -/
theorem fst_mem_of_mem_drop {l : UInt64 × UInt64} (hl : l ∈ (outerLevels words).drop k) :
    l.1 ∈ (tripsOf words.dropLast).drop k := by
  rw [outerLevels, outerOf_tail, List.zip, List.drop_zipWith] at hl
  exact (List.of_mem_zip hl).1

/-- The level above number `k`, and the levels on both sides of it. -/
theorem outerLevels_split {s : UInt64} (hs : (stridesOf words.dropLast)[k + 1]? = some s) :
    ∃ t, (tripsOf words.dropLast)[k]? = some t ∧
      outerLevels words =
        (outerLevels words).take k ++ (t, s) :: (outerLevels words).drop (k + 1) := by
  rcases List.getElem?_eq_some_iff.1 hs with ⟨hk, _⟩
  have hlen := length_stridesOf_le words.dropLast
  have ht : k < (tripsOf words.dropLast).length := by omega
  refine ⟨_, List.getElem?_eq_getElem ht, ?_⟩
  have hlevel : (outerLevels words)[k]? = some ((tripsOf words.dropLast)[k], s) := by
    rw [outerLevels, outerOf_tail, List.getElem?_zip_eq_some, List.getElem?_tail]
    exact ⟨List.getElem?_eq_getElem ht, hs⟩
  rcases List.getElem?_eq_some_iff.1 hlevel with ⟨hk, hlevel⟩
  rw [← hlevel, ← List.drop_eq_getElem_cons, List.take_append_drop]

/-! ## Peeling a level that does not move -/

/-- Levels above the index are not entered. -/
theorem peel_of_lt {outer : List (UInt64 × UInt64)} (h : ∀ l ∈ outer, idx < l.1.toNat)
    (start : UInt64) : peel start idx outer = (start, idx) := by
  induction outer with
  | nil => rfl
  | cons l outer ih =>
      rcases l with ⟨trip, stride⟩
      have hidx : idx < trip.toNat := h (trip, stride) List.mem_cons_self
      have hne : trip ≠ 0 := by
        rintro rfl
        exact Nat.not_lt_zero idx hidx
      simp only [peel, ih fun l hl => h l (List.mem_cons_of_mem _ hl), if_neg hne,
        Nat.div_eq_of_lt hidx, Nat.mod_eq_of_lt hidx, add_mul_ofNat_zero]

/-- The levels below number `k`, without the ones from there on, lead to this address. -/
def addressBelow (words : List UInt64) (k idx : Nat) : UInt64 :=
  let (addr, rest) := peel (startOf words) idx ((outerLevels words).take (k - 1))
  addr + innerStrideOf words * UInt64.ofNat rest

/-- A level that does not move takes its steps off the index and leaves the address alone. -/
theorem address_of_still (hlen : 2 ≤ words.length) (hpos : ∀ t ∈ tripsOf words.dropLast, 0 < t)
    (hstill : (stridesOf words.dropLast)[k]? = some 0)
    (hwithin : ∀ t ∈ (tripsOf words.dropLast).drop k, idx < t.toNat) :
    address words idx = addressBelow words k (idx % stepTrip words k) := by
  have habove : ∀ l ∈ (outerLevels words).drop k, idx < l.1.toNat := fun l hl =>
    hwithin l.1 (fst_mem_of_mem_drop hl)
  cases k with
  | zero =>
      have hinner : innerStrideOf words = 0 := by
        rw [head?_stridesOf] at hstill
        match words, hlen with
        | _ :: _ :: _, _ => exact Option.some.inj hstill
      rw [List.drop_zero] at habove
      simp only [address, peel_of_lt habove, addressBelow, Nat.zero_sub, List.take_zero, peel, hinner,
        zero_mul]
  | succ m =>
      rcases outerLevels_split hstill with ⟨t, ht, hlevels⟩
      have hne : t ≠ 0 := (UInt64.ne_of_lt (hpos t (List.mem_of_getElem? ht))).symm
      have hpeel : peel (startOf words) idx (outerLevels words) =
          peel (startOf words) (idx % t.toNat) ((outerLevels words).take m) := by
        -- the levels above are not entered, and the level itself only leaves the remainder
        conv_lhs => rw [hlevels, List.append_cons, peel_append, peel_of_lt habove, peel_concat hne]
        rw [zero_mul, add_zero]
      rw [address, hpeel, stepTrip_succ ht]
      rfl

/-! ## Walks over the same elements -/

section Again

variable (hpos : ∀ t ∈ tripsOf words.dropLast, 0 < t)
  (hgrows : (tripsOf words.dropLast).Pairwise (· ≤ ·))

include hpos

theorem stepTrip_pos (k : Nat) : 0 < stepTrip words k := by
  cases k with
  | zero => exact Nat.zero_lt_one
  | succ m =>
      cases ht : (tripsOf words.dropLast)[m]? with
      | none =>
          rw [stepTrip, List.getD_cons_succ, List.getD_eq_getElem?_getD, ht]
          exact Nat.zero_lt_one
      | some t =>
          rw [stepTrip_succ ht]
          exact UInt64.lt_iff_toNat_lt.1 (hpos t (List.mem_of_getElem? ht))

omit hpos in
include hgrows in
/-- No trip from a level on is smaller than the trip of the level. -/
theorem le_of_mem_drop {t u : UInt64} (ht : (tripsOf words.dropLast)[k]? = some t)
    (hu : u ∈ (tripsOf words.dropLast).drop k) : t.toNat ≤ u.toNat := by
  rcases List.getElem?_eq_some_iff.1 ht with ⟨hk, rfl⟩
  have hdrop : ((tripsOf words.dropLast).drop k).Pairwise (· ≤ ·) := hgrows.drop
  rw [List.drop_eq_getElem_cons hk] at hu hdrop
  rcases List.mem_cons.1 hu with rfl | hu
  · exact Nat.le_refl _
  · exact UInt64.le_iff_toNat_le.1 ((List.pairwise_cons.1 hdrop).1 u hu)

include hgrows

/-- Nor is it smaller than a step of the level. -/
theorem stepTrip_le {u : UInt64} (hu : u ∈ (tripsOf words.dropLast).drop k) :
    stepTrip words k ≤ u.toNat := by
  cases k with
  | zero => exact UInt64.lt_iff_toNat_lt.1 (hpos u (List.mem_of_mem_drop hu))
  | succ m =>
      rw [← List.drop_drop] at hu
      have hu := List.mem_of_mem_drop hu
      rcases exists_getElem?_of_mem_drop hu with ⟨t, ht⟩
      rw [stepTrip_succ ht]
      exact le_of_mem_drop hgrows ht hu

/-- The elements of the first walk over the levels below a level that does not move. -/
theorem address_first (hlen : 2 ≤ words.length) (hstill : (stridesOf words.dropLast)[k]? = some 0)
    (hidx : idx < stepTrip words k) : address words idx = addressBelow words k idx := by
  rw [address_of_still hlen hpos hstill, Nat.mod_eq_of_lt hidx]
  exact fun u hu => Nat.lt_of_lt_of_le hidx (stepTrip_le hpos hgrows hu)

/-- The elements of any further walk that the trip of the level has room for. -/
theorem address_again (hlen : 2 ≤ words.length) (hstill : (stridesOf words.dropLast)[k]? = some 0)
    (hidx : idx < stepTrip words k) {j count : Nat} (hj : j < count)
    (hroom : ∀ t, (tripsOf words.dropLast)[k]? = some t → count * stepTrip words k ≤ t.toNat) :
    address words (idx + j * stepTrip words k) = address words idx := by
  rw [address_first hpos hgrows hlen hstill hidx, address_of_still hlen hpos hstill,
    Nat.add_mul_mod_self_right, Nat.mod_eq_of_lt hidx]
  intro u hu
  rcases exists_getElem?_of_mem_drop hu with ⟨t, ht⟩
  calc idx + j * stepTrip words k
      < stepTrip words k + j * stepTrip words k := Nat.add_lt_add_right hidx _
    _ = (j + 1) * stepTrip words k := by ring
    _ ≤ count * stepTrip words k := Nat.mul_le_mul_right _ hj
    _ ≤ t.toNat := hroom t ht
    _ ≤ u.toNat := le_of_mem_drop hgrows ht hu

end Again

/-! ## Bytes -/

/-- The bytes that the first `n` elements touch. Behind the last byte of the address space comes the
first. -/
def touched (words : List UInt64) (elemSize n : Nat) : Finset UInt64 :=
  (Finset.range n ×ˢ Finset.range elemSize).image fun x => address words x.1 + UInt64.ofNat x.2

/-- Byte `b` of element `i` of a gapless row, whichever way the row is walked. -/
theorem ofNat_digits_inj {n size i i' b b' : Nat} (hfits : n * size ≤ 2 ^ 64) (hi : i < n) (hi' : i' < n)
    (hb : b < size) (hb' : b' < size)
    (h : UInt64.ofNat (size * i + b) = UInt64.ofNat (size * i' + b')) : i = i' ∧ b = b' := by
  have hlt : ∀ {i b}, i < n → b < size → size * i + b < 2 ^ 64 := by
    intro i b hi hb
    calc size * i + b < size * i + size := Nat.add_lt_add_left hb _
      _ = (i + 1) * size := by ring
      _ ≤ n * size := Nat.mul_le_mul_right _ hi
      _ ≤ 2 ^ 64 := hfits
  have hnat := congrArg UInt64.toNat h
  rw [UInt64.toNat_ofNat', UInt64.toNat_ofNat', Nat.mod_eq_of_lt (hlt hi hb),
    Nat.mod_eq_of_lt (hlt hi' hb')] at hnat
  have hsize : 0 < size := Nat.zero_lt_of_lt hb
  have hdiv := congrArg (· / size) hnat
  have hmod := congrArg (· % size) hnat
  simp only [Nat.mul_add_div hsize, Nat.div_eq_of_lt hb, Nat.div_eq_of_lt hb', Nat.add_zero] at hdiv
  simp only [Nat.mul_add_mod, Nat.mod_eq_of_lt hb, Nat.mod_eq_of_lt hb'] at hmod
  exact ⟨hdiv, hmod⟩

/-- A flat walk that steps by the size of an element, in either direction, touches every byte of its
elements once, as long as they fit into the address space. -/
theorem card_touched {start stride : UInt64} {elemSize n : Nat}
    (haddr : ∀ i < n, address words i = start + stride * UInt64.ofNat i)
    (hstride : stride = UInt64.ofNat elemSize ∨ stride = -UInt64.ofNat elemSize)
    (hfits : n * elemSize ≤ 2 ^ 64) : (touched words elemSize n).card = n * elemSize := by
  rw [touched, Finset.card_image_of_injOn, Finset.card_product, Finset.card_range, Finset.card_range]
  rintro ⟨i, b⟩ hx ⟨i', b'⟩ hx' h
  simp only [Finset.coe_product, Finset.coe_range, Set.mem_prod, Set.mem_Iio] at hx hx'
  simp only [haddr i hx.1, haddr i' hx'.1, add_assoc, add_right_inj] at h
  rcases hstride with rfl | rfl
  · rw [← UInt64.ofNat_mul, ← UInt64.ofNat_mul, ← UInt64.ofNat_add, ← UInt64.ofNat_add] at h
    rcases ofNat_digits_inj hfits hx.1 hx'.1 hx.2 hx'.2 h with ⟨rfl, rfl⟩
    rfl
  · -- backward, the two elements change places
    have hswap : UInt64.ofNat elemSize * UInt64.ofNat i' + UInt64.ofNat b =
        UInt64.ofNat elemSize * UInt64.ofNat i + UInt64.ofNat b' := by
      linear_combination h
    rw [← UInt64.ofNat_mul, ← UInt64.ofNat_mul, ← UInt64.ofNat_add, ← UInt64.ofNat_add] at hswap
    rcases ofNat_digits_inj hfits hx'.1 hx.1 hx.2 hx'.2 hswap with ⟨rfl, rfl⟩
    rfl

/-! ## The estimate -/

/-- The search finds the first stride that is zero, with the trips on both sides of it. -/
theorem stationaryLevel?_eq (below : Option UInt64) : ∀ ws : List UInt64,
    stationaryLevel? below ws = ((stridesOf ws).idxOf? 0).map fun k =>
      ((below :: (tripsOf ws).map some).getD k none, (tripsOf ws)[k]?)
  | [] => rfl
  | [s] => by
      by_cases hs : s = 0
      · subst hs
        rfl
      · simp [stationaryLevel?, stridesOf, List.idxOf?_cons, hs]
  | s :: t :: rest => by
      by_cases hs : s = 0
      · subst hs
        rfl
      · have hne : (s == 0) = false := beq_eq_false_iff_ne.2 hs
        rw [stationaryLevel?, if_neg hs, stationaryLevel?_eq (some t) rest, stridesOf,
          List.idxOf?_cons, hne, if_neg Bool.false_ne_true, Option.map_map]
        rfl

theorem getElem?_of_idxOf? {l : List UInt64} {a : UInt64} (h : l.idxOf? a = some k) :
    l[k]? = some a := by
  rcases List.idxOf?_eq_some_iff.1 h with ⟨hk, ha, _⟩
  rw [List.getElem?_eq_getElem hk, ha]

/-- What the estimate says about level `k`. -/
def estimateAt (words : List UInt64) (elemSize k : Nat) : ReuseEstimate where
  footprint := stepTrip words k *
    if k = 0 then elemSize else min elemSize (innerStrideOf words).toInt64.toInt.natAbs
  count := match (tripsOf words.dropLast)[k]? with
    | none => 1
    | some t => t.toNat / stepTrip words k

theorem estimateReuse_eq {ps : Formal} (hwords : ps.words? = some words) (hlen : 2 ≤ words.length)
    (hpos : ∀ t ∈ tripsOf words.dropLast, 0 < t) (elemSize : Nat) :
    estimateReuse ps elemSize =
      .ok (((stridesOf words.dropLast).idxOf? 0).map (estimateAt words elemSize)) := by
  simp only [estimateReuse, invariantWords_eq hwords, bind, Except.bind, if_neg (Nat.not_lt.2 hlen),
    stationaryLevel?_eq]
  cases hk : (stridesOf words.dropLast).idxOf? 0 with
  | none => rfl
  | some k =>
      cases k with
      | zero =>
          cases hown : (tripsOf words.dropLast)[0]? <;>
            simp only [Option.map_some, estimateAt, hown] <;> rfl
      | succ m =>
          rcases outerLevels_split (getElem?_of_idxOf? hk) with ⟨t, ht, _⟩
          have hbelow : (none :: (tripsOf words.dropLast).map some).getD (m + 1) none = some t := by
            rw [List.getD_cons_succ, List.getD_eq_getElem?_getD, List.getElem?_map, ht]
            rfl
          have hstep := stepTrip_pos hpos (m + 1)
          rw [stepTrip_succ ht] at hstep
          cases hown : (tripsOf words.dropLast)[m + 1]? <;>
            simp only [Option.map_some, estimateAt, hbelow, hown, Option.getD_some, stepTrip_succ ht,
              if_neg (Nat.ne_of_gt hstep), if_neg (Nat.succ_ne_zero m)]

/-- The first `count` walks over the levels below level `k` are alike, and the trip of the level, if it is in
the list, has room for as many and for no more. -/
structure Revisits (words : List UInt64) (k : Nat) (r : ReuseEstimate) : Prop where
  again : ∀ i < stepTrip words k, ∀ j < r.count,
    address? words (i + j * stepTrip words k) = .ok (address words i)
  room : ∀ t, (tripsOf words.dropLast)[k]? = some t →
    r.count * stepTrip words k ≤ t.toNat ∧ t.toNat < (r.count + 1) * stepTrip words k

/-- The levels below level `k` walk without gaps in steps of one element, forward or backward. -/
def FlatBelow (words : List UInt64) (elemSize k : Nat) : Prop :=
  (innerStrideOf words).toInt64.toInt.natAbs = elemSize ∧
    ∀ l ∈ (outerLevels words).take (k - 1), innerStrideOf words * l.1 = l.2

theorem revisits_estimateAt (hlen : 2 ≤ words.length) (hpos : ∀ t ∈ tripsOf words.dropLast, 0 < t)
    (hgrows : (tripsOf words.dropLast).Pairwise (· ≤ ·)) (hstill : (stridesOf words.dropLast)[k]? = some 0)
    (elemSize : Nat) : Revisits words k (estimateAt words elemSize k) := by
  have hstep := stepTrip_pos hpos k
  have hroom : ∀ t, (tripsOf words.dropLast)[k]? = some t →
      (estimateAt words elemSize k).count * stepTrip words k ≤ t.toNat ∧
        t.toNat < ((estimateAt words elemSize k).count + 1) * stepTrip words k := by
    intro t ht
    have hcount : (estimateAt words elemSize k).count = t.toNat / stepTrip words k := by
      simp only [estimateAt, ht]
    rw [hcount]
    refine ⟨Nat.div_mul_le_self _ _, ?_⟩
    rw [Nat.mul_comm]
    exact Nat.lt_mul_div_succ _ hstep
  refine ⟨fun i hi j hj => ?_, hroom⟩
  rw [address?, if_neg (Nat.not_lt.2 hlen),
    address_again hpos hgrows hlen hstill hi hj fun t ht => (hroom t ht).1]

theorem ofNat_or_neg_of_natAbs {stride : UInt64} {elemSize : Nat}
    (h : stride.toInt64.toInt.natAbs = elemSize) :
    stride = UInt64.ofNat elemSize ∨ stride = -UInt64.ofNat elemSize := by
  have hread : stride = (Int64.ofInt stride.toInt64.toInt).toUInt64 := by
    rw [Int64.ofInt_toInt, UInt64.toUInt64_toInt64]
  rcases Int.natAbs_eq stride.toInt64.toInt with hsign | hsign
  · rw [hsign, h, Int64.ofInt_eq_ofNat, Int64.toUInt64_ofNat'] at hread
    exact Or.inl hread
  · rw [hsign, h, Int64.ofInt_neg, Int64.toUInt64_neg, Int64.ofInt_eq_ofNat,
      Int64.toUInt64_ofNat'] at hread
    exact Or.inr hread

/-- One walk over flat levels, or over no levels at all, touches the bytes that the estimate says. -/
theorem footprint_estimateAt (hlen : 2 ≤ words.length) (hpos : ∀ t ∈ tripsOf words.dropLast, 0 < t)
    (hgrows : (tripsOf words.dropLast).Pairwise (· ≤ ·)) (hstill : (stridesOf words.dropLast)[k]? = some 0)
    {elemSize : Nat} (hflat : k = 0 ∨ FlatBelow words elemSize k)
    (hfits : stepTrip words k * elemSize ≤ 2 ^ 64) :
    (estimateAt words elemSize k).footprint = (touched words elemSize (stepTrip words k)).card := by
  rcases hflat with rfl | ⟨hstride, hlevels⟩
  · -- a single element, which the size of a step does not matter to
    have hwalk : ∀ i < stepTrip words 0,
        address words i = address words 0 + UInt64.ofNat elemSize * UInt64.ofNat i := by
      intro i hi
      have hone : stepTrip words 0 = 1 := rfl
      rw [hone, Nat.lt_one_iff] at hi
      rw [hi, add_mul_ofNat_zero]
    rw [card_touched hwalk (Or.inl rfl) hfits]
    simp only [estimateAt, if_pos]
  · have hwalk : ∀ i < stepTrip words k,
        address words i = startOf words + innerStrideOf words * UInt64.ofNat i := by
      intro i hi
      rw [address_first hpos hgrows hlen hstill hi]
      exact peel_of_continuous hlevels (startOf words) i
    rw [card_touched hwalk (ofNat_or_neg_of_natAbs hstride) hfits]
    simp only [estimateAt, hstride, Nat.min_self, ite_self]

/-- The estimate is true of the addresses. There is none just if no stride is zero. Otherwise it is about the
first level that does not move: its walks are as many as the estimate says, and if the levels below walk
without gaps or there are none, then one walk touches so many bytes, as long as there are no more bytes than
addresses. -/
theorem estimateReuse_true {ps : Formal} (hwords : ps.words? = some words) (hlen : 2 ≤ words.length)
    (hpos : ∀ t ∈ tripsOf words.dropLast, 0 < t) (hgrows : (tripsOf words.dropLast).Pairwise (· ≤ ·))
    (elemSize : Nat) :
    (estimateReuse ps elemSize = .ok none ↔ 0 ∉ stridesOf words.dropLast) ∧
      ∀ k, (stridesOf words.dropLast).idxOf? 0 = some k →
        ∃ r, estimateReuse ps elemSize = .ok (some r) ∧ Revisits words k r ∧
          (k = 0 ∨ FlatBelow words elemSize k → stepTrip words k * elemSize ≤ 2 ^ 64 →
            r.footprint = (touched words elemSize (stepTrip words k)).card) := by
  rw [estimateReuse_eq hwords hlen hpos]
  constructor
  · rw [Except.ok.injEq, Option.map_eq_none_iff, List.idxOf?_eq_none_iff]
  · intro k hk
    have hstill := getElem?_of_idxOf? hk
    refine ⟨estimateAt words elemSize k, by rw [hk]; rfl, ?_, fun hflat hfits => ?_⟩
    · exact revisits_estimateAt hlen hpos hgrows hstill elemSize
    · exact footprint_estimateAt hlen hpos hgrows hstill hflat hfits

/-- Three rows of four words are walked again and again, and the next planes begin after the second word of
the fourth walk. -/
theorem estimateReuse_true_planes :
    ∃ r, estimateReuse (Formal.ofWords [8, 4, 32, 12, 0, 38, 4096, 76, 0x1000]) 8 = .ok (some r) ∧
      r.count = 3 ∧ address? [8, 4, 32, 12, 0, 38, 4096, 76, 0x1000] (7 + 2 * 12) = .ok 0x1038 ∧
      (touched [8, 4, 32, 12, 0, 38, 4096, 76, 0x1000] 8 12).card = 96 := by
  have hwords := Formal.words?_ofWords [8, 4, 32, 12, 0, 38, 4096, 76, 0x1000]
  have hpos : ∀ t ∈ [4, 12, 38, 76], (0 : UInt64) < t := by simp
  rcases (estimateReuse_true hwords (by decide) hpos (by decide) 8).2 2 rfl with
    ⟨r, hr, ⟨hagain, _⟩, hfootprint⟩
  have hrows : ∀ l ∈ [((4 : UInt64), (32 : UInt64))], 8 * l.1 = l.2 := by simp
  have hflat : FlatBelow [8, 4, 32, 12, 0, 38, 4096, 76, 0x1000] 8 2 := ⟨by decide, hrows⟩
  have hcount := hfootprint (Or.inr hflat) (by decide)
  cases Option.some.inj (Except.ok.inj (hr.symm.trans rfl))
  exact ⟨_, hr, rfl, hagain 7 (by decide) 2 (by decide), hcount.symm⟩

end Linear
end StreamEngine
