import Mathlib.Algebra.BigOperators.Ring.Finset
import Mathlib.Algebra.Order.BigOperators.GroupWithZero.List
import Mathlib.Algebra.Order.Ring.Int
import StreamEngine.Proofs.Affine.Coordinates
import StreamEngine.Proofs.Linear.Dealing

/-!
# Linear patterns as affine patterns

Both kinds of pattern walk loops inside one another. A linear pattern keeps the cumulative trip of every loop
and peels the steps of the outermost loop off an index first; an affine pattern keeps the extent of every
loop and begins with the innermost one. Where each cumulative trip is a multiple of the one below it, the
extents lose nothing, and both read the same digits off an index.

* `AffinePattern.walk_cons`, `AffinePattern.walk_concat` — the digits of the first and of the last axis;
* `AffinePattern.walkable_of_reach`, `AffinePattern.reach_of_walkable` — when every step on the way to every
  element is a signed word;
* `AffinePattern.reach_iff_value?`, `AffinePattern.allValues?_iff_value?` — when all elements have answers;
* `AffinePattern.axes_concat`, `AffinePattern.totalTrip_ofLinear` — the axes of a nest, and how many elements
  they make;
* `AffinePattern.value_concat` — the digit that the outermost loop adds;
* `AffinePattern.toInt64_addr_mod` — the two evaluations agree modulo 2^64;
* `AffinePattern.ofLinear_agrees` — and exactly where the indices and the reach of every loop are signed
  words;
* `AffinePattern.linear_affine_disagree` — a pattern without loops, and one that reaches too far.
-/

namespace StreamEngine

open Linear LinearPattern

theorem signedWord_of_lt {n : Nat} (h : n < 2 ^ 63) : signedWord n = n :=
  Int64.toInt_ofNat'.symm.trans (Int64.toInt_ofNat_of_lt h)

theorem fitsWord_iff {n : Int} : fitsWord n = true ↔ -2 ^ 63 ≤ n ∧ n < 2 ^ 63 := by
  rw [fitsWord, Bool.and_eq_true, decide_eq_true_eq, decide_eq_true_eq]
  rfl

/-- How far the last step along an axis lies from the first one. -/
def Axis.reach (a : Axis) : Int :=
  a.stride * (a.trip - 1)

/-- A step along an axis lies between no step and the last one. -/
theorem fitsWord_step {a : Axis} (hreach : fitsWord a.reach = true) {k : Int} (hk : 0 ≤ k)
    (hlt : k < a.trip) : fitsWord (a.stride * k) = true := by
  rw [fitsWord_iff, Axis.reach] at *
  -- the step and the reach have one sign, that of the stride
  rcases Int.le_total 0 a.stride with hup | hdown
  · have hnonneg := Int.mul_nonneg hup hk
    have hle := Int.mul_le_mul_of_nonneg_left (Int.le_sub_one_of_lt hlt) hup
    omega
  · have hnonpos := Int.mul_nonpos_of_nonpos_of_nonneg hdown hk
    have hle := Int.mul_le_mul_of_nonpos_left hdown (Int.le_sub_one_of_lt hlt)
    omega

namespace AffinePattern

/-! ## Axes in order -/

theorem walk_cons {axes : List Axis} {a : Axis} {here i : Int} (ha : 0 < a.trip) (hi : 0 ≤ i) :
    walk here i (a :: axes) = walk (here + a.stride * (i % a.trip)) (i / a.trip) axes := by
  rw [walk, if_neg (Int.ne_of_gt ha), Int.tmod_eq_emod_of_nonneg hi, Int.tdiv_eq_ediv_of_nonneg hi]

theorem walk_zero {axes : List Axis} (here : Int) : walk here 0 axes = here := by
  induction axes generalizing here with
  | nil => rfl
  | cons a axes ih =>
      rw [walk, Int.zero_tmod, Int.zero_tdiv, Int.mul_zero, Int.add_zero, ih, ite_self]

/-- The last axis adds its own digit, and the axes before it do not see it. -/
theorem walk_concat {axes : List Axis} (hpos : ∀ a ∈ axes, 0 < a.trip) {a : Axis} (ha : 0 < a.trip)
    (here : Int) {i : Int} (hi : 0 ≤ i) :
    walk here i (axes ++ [a]) =
      walk here i axes + a.stride * (i / (axes.map Axis.trip).prod % a.trip) := by
  induction axes generalizing here i with
  | nil =>
      rw [List.nil_append, walk_cons ha hi, List.map_nil, List.prod_nil, Int.ediv_one]
      rfl
  | cons b axes ih =>
      have hb : 0 < b.trip := hpos b List.mem_cons_self
      have htail := ih (fun c hc => hpos c (List.mem_cons_of_mem b hc))
        (here + b.stride * (i % b.trip)) (Int.ediv_nonneg hi hb.le)
      rw [List.cons_append, walk_cons hb hi, walk_cons hb hi, htail, List.map_cons, List.prod_cons,
        Int.ediv_ediv_of_nonneg hb.le]

/-! ## Words on the way -/

theorem prod_trips_pos {axes : List Axis} (hpos : ∀ a ∈ axes, 0 < a.trip) :
    0 < (axes.map Axis.trip).prod := by
  refine List.prod_pos fun t ht => ?_
  rcases List.mem_map.1 ht with ⟨a, ha, rfl⟩
  exact hpos a ha

section Walkable

variable {axes : List Axis} {a : Axis} {here i : Int}

theorem walkable_cons (ha : 0 < a.trip) (hi : 0 ≤ i) :
    walkable here i (a :: axes) = true ↔
      (fitsWord (a.stride * (i % a.trip)) = true ∧
        fitsWord (here + a.stride * (i % a.trip)) = true) ∧
        walkable (here + a.stride * (i % a.trip)) (i / a.trip) axes = true := by
  have hdivides : divides i a.trip = true := by
    have hleast : (i == leastIndex) = false := by
      refine beq_eq_false_iff_ne.2 fun h => ?_
      rw [h] at hi
      exact absurd hi (by decide)
    rw [divides, hleast, bne_iff_ne.2 (Int.ne_of_gt ha)]
    rfl
  rw [walkable, beq_eq_false_iff_ne.2 (Int.ne_of_gt ha), hdivides, Int.tmod_eq_emod_of_nonneg hi,
    Int.tdiv_eq_ediv_of_nonneg hi]
  simp only [Bool.false_or, Bool.true_and, Bool.and_eq_true]

/-- Below the product of the trips no step leaves the words, where no index and no reach does. The indices
that are passed on the way are elements themselves, those whose further digits are zero. -/
theorem walkable_of_reach (hpos : ∀ a ∈ axes, 0 < a.trip) (hreach : ∀ a ∈ axes, fitsWord a.reach = true)
    (hvalues : ∀ j, 0 ≤ j → j < (axes.map Axis.trip).prod → fitsWord (walk here j axes) = true)
    (hi : 0 ≤ i) : walkable here i axes = true := by
  induction axes generalizing here i with
  | nil => rfl
  | cons a axes ih =>
      have ha : 0 < a.trip := hpos a List.mem_cons_self
      have htail : ∀ b ∈ axes, 0 < b.trip := fun b hb => hpos b (List.mem_cons_of_mem a hb)
      have hprod : 0 < (axes.map Axis.trip).prod := prod_trips_pos htail
      have hk := Int.emod_nonneg i (Int.ne_of_gt ha)
      have hlt := Int.emod_lt_of_pos i ha
      -- the index with the digit `i % a.trip` in front of the digits of `j`
      have hfront : ∀ j, 0 ≤ j → j < (axes.map Axis.trip).prod →
          fitsWord (walk (here + a.stride * (i % a.trip)) j axes) = true := by
        intro j hj hjlt
        have hindex : 0 ≤ i % a.trip + a.trip * j := Int.add_nonneg hk (Int.mul_nonneg ha.le hj)
        have hword := hvalues (i % a.trip + a.trip * j) hindex ?_
        · rwa [walk_cons ha hindex, Int.add_mul_emod_self_left, Int.emod_emod,
            Int.add_mul_ediv_left _ _ (Int.ne_of_gt ha), Int.ediv_eq_zero_of_lt hk hlt, Int.zero_add]
            at hword
        · have hle := Int.mul_le_mul_of_nonneg_left (Int.add_one_le_of_lt hjlt) ha.le
          rw [List.map_cons, List.prod_cons]
          rw [Int.mul_add, Int.mul_one] at hle
          omega
      have hhere := hfront 0 (Int.le_refl 0) hprod
      rw [walk_zero] at hhere
      exact (walkable_cons ha hi).2 ⟨⟨fitsWord_step (hreach a List.mem_cons_self) hk hlt, hhere⟩,
        ih htail (fun b hb => hreach b (List.mem_cons_of_mem a hb)) hfront (Int.ediv_nonneg hi ha.le)⟩

/-- An index with a single digit, the last one of an axis, takes the whole reach of it. -/
theorem reach_of_walkable (hpos : ∀ a ∈ axes, 0 < a.trip)
    (hwalkable : ∀ j, 0 ≤ j → j < (axes.map Axis.trip).prod → walkable here j axes = true) :
    ∀ a ∈ axes, fitsWord a.reach = true := by
  induction axes with
  | nil => simp
  | cons b axes ih =>
      have hb : 0 < b.trip := hpos b List.mem_cons_self
      have htail : ∀ c ∈ axes, 0 < c.trip := fun c hc => hpos c (List.mem_cons_of_mem b hc)
      have hprod : 1 ≤ (axes.map Axis.trip).prod := prod_trips_pos htail
      rw [List.map_cons, List.prod_cons] at hwalkable
      intro a ha
      rcases List.mem_cons.1 ha with rfl | ha
      · -- the index `trip - 1` has only a last digit
        have hle := Int.mul_le_mul_of_nonneg_left hprod hb.le
        have hlast := hwalkable (a.trip - 1) (by omega) (by omega)
        have hword := ((walkable_cons hb (by omega)).1 hlast).1.1
        rwa [Int.emod_eq_of_lt (by omega) (by omega)] at hword
      · -- a multiple of the first trip has no last digit
        refine ih htail (fun j hj hjlt => ?_) a ha
        have hindex : 0 ≤ b.trip * j := Int.mul_nonneg hb.le hj
        have hshift := hwalkable (b.trip * j) hindex (Int.mul_lt_mul_of_pos_left hjlt hb)
        have hrest := ((walkable_cons hb hindex).1 hshift).2
        rwa [Int.mul_emod_right, Int.mul_zero, Int.add_zero, Int.mul_ediv_cancel_left _ (Int.ne_of_gt hb)]
          at hrest

end Walkable

/-- Trips that stay below a word all together do so one after the other. -/
theorem multiply?_eq_ok {n : Int} {trips : List Int} (hn : 0 < n) (hpos : ∀ t ∈ trips, 0 < t)
    (hlt : n * trips.prod < 2 ^ 63) : multiply? n trips = .ok (n * trips.prod) := by
  induction trips generalizing n with
  | nil => rw [multiply?, List.prod_nil, Int.mul_one]
  | cons t trips ih =>
      have ht : 0 < t := hpos t List.mem_cons_self
      have htail : ∀ u ∈ trips, 0 < u := fun u hu => hpos u (List.mem_cons_of_mem t hu)
      have hnt : 0 < n * t := Int.mul_pos hn ht
      have hprod : 1 ≤ trips.prod := List.prod_pos htail
      rw [List.prod_cons, ← Int.mul_assoc] at hlt ⊢
      have hle := Int.mul_le_mul_of_nonneg_left hprod hnt.le
      have hword : fitsWord (n * t) = true := fitsWord_iff.2 (by omega)
      rw [multiply?, if_pos hword, ih hnt htail hlt]

section Pattern

variable {p : AffinePattern}

theorem totalTrip?_eq_ok (hpos : ∀ a ∈ p.axes, 0 < a.trip) (hlt : p.totalTrip < 2 ^ 63) :
    p.totalTrip? = .ok p.totalTrip := by
  have htrips : ∀ t ∈ p.trips, 0 < t := List.forall_mem_map.2 hpos
  have hone : 1 * p.trips.prod < 2 ^ 63 := by rwa [Int.one_mul]
  rw [totalTrip?, multiply?_eq_ok Int.one_pos htrips hone, Int.one_mul, totalTrip]

/-- Where all elements are words, the checks on the way to them succeed exactly if no axis reaches further
than a word. -/
theorem reach_iff_value? (hpos : ∀ a ∈ p.axes, 0 < a.trip)
    (hvalues : ∀ i : Nat, (i : Int) < p.totalTrip → fitsWord (p.value i) = true) :
    (∀ a ∈ p.axes, fitsWord a.reach = true) ↔
      ∀ i : Nat, (i : Int) < p.totalTrip → p.value? i = .ok (p.value i) := by
  constructor
  · intro hreach i _
    have hwords : ∀ j, 0 ≤ j → j < (p.axes.map Axis.trip).prod →
        fitsWord (walk p.start j p.axes) = true := by
      intro j hj hlt
      rcases Int.eq_ofNat_of_zero_le hj with ⟨j, rfl⟩
      exact hvalues j hlt
    exact if_pos (walkable_of_reach hpos hreach hwords (Int.natCast_nonneg i))
  · intro hanswers
    have hwalkable : ∀ j, 0 ≤ j → j < (p.axes.map Axis.trip).prod →
        walkable p.start j p.axes = true := by
      intro j hj hlt
      rcases Int.eq_ofNat_of_zero_le hj with ⟨j, rfl⟩
      by_contra hstuck
      have hvalue := hanswers j hlt
      rw [value?, if_neg hstuck] at hvalue
      cases hvalue
    exact reach_of_walkable hpos hwalkable

theorem value?_eq_ok {i v : Int} (h : p.value? i = .ok v) : p.value i = v := by
  rw [value?] at h
  split at h
  · exact Except.ok.inj h
  · cases h

/-- All elements have an answer exactly if each of them has. -/
theorem allValues?_iff_value? (htotal : p.totalTrip? = .ok p.totalTrip) :
    p.allValues? = .ok p.allValues ↔
      ∀ i : Nat, (i : Int) < p.totalTrip → p.value? i = .ok (p.value i) := by
  have hrange : ∀ i : Nat, i ∈ List.range p.totalTrip.toNat ↔ (i : Int) < p.totalTrip := fun i => by
    rw [List.mem_range, Int.lt_toNat]
  have hall : p.allValues? = (List.range p.totalTrip.toNat).mapM fun (i : Nat) => p.value? i := by
    rw [allValues?, htotal]
    rfl
  rw [hall]
  constructor
  · intro hmembers i hi
    have hget := List.getElem?_range (List.mem_range.1 ((hrange i).2 hi))
    rcases (mapM_eq_ok hmembers).2 i i hget with ⟨v, _, hv⟩
    rw [hv, value?_eq_ok hv]
  · exact fun hvalues => mapM_eq_map fun i hi => hvalues i ((hrange i).1 hi)

end Pattern

/-! ## Axes of a nest -/

section Nest

variable {start : UInt64} {levels : List Level} {l : Level}

theorem trips_ofLinear (p : LinearPattern) : (ofLinear p).trips = p.extents.map signedWord := by
  have hlen : p.extents.length ≤ p.levels.length := Nat.le_of_eq (length_extents p)
  conv_rhs => rw [← List.map_snd_zip hlen]
  rw [trips, ofLinear, List.map_zipWith, List.zip_eq_zipWith, List.map_zipWith, List.map_zipWith]

/-- One more loop on top is one more axis at the end. -/
theorem axes_concat (start : UInt64) (l : Level) (hpos : 0 < tripBelow levels) :
    (ofLinear { start, levels := levels ++ [l] }).axes =
      (ofLinear { start, levels }).axes ++
        [{ stride := l.stride.toInt, trip := signedWord (l.trip / tripBelow levels) }] := by
  have hextents := extents_split start l [] hpos
  have hlen := length_extents { start, levels }
  rw [ofLinear, hextents]
  exact List.zipWith_append hlen.symm

/-- No extent of a nest is zero, and none is larger than the nest. -/
theorem extent_bounds (hnest : Nested (levels.map Level.trip)) {e : Nat}
    (he : e ∈ extents { start, levels }) : 0 < e ∧ e ≤ tripBelow levels := by
  have hdvd := List.dvd_prod he
  rw [prod_extents_below hnest] at hdvd
  have hpos := tripBelow_pos hnest
  exact ⟨Nat.pos_of_dvd_of_pos hdvd hpos, Nat.le_of_dvd hpos hdvd⟩

variable (hnest : Nested (levels.map Level.trip)) (hlt : tripBelow levels < 2 ^ 63)

include hnest hlt

theorem trips_of_nested (start : UInt64) :
    (ofLinear { start, levels }).trips =
      (extents { start, levels }).map fun (e : Nat) => (e : Int) := by
  rw [trips_ofLinear]
  exact List.map_congr_left fun e he =>
    signedWord_of_lt (Nat.lt_of_le_of_lt (extent_bounds hnest he).2 hlt)

/-- The digits of a nest never meet a zero trip. -/
theorem trip_pos {a : Axis} (ha : a ∈ (ofLinear { start, levels }).axes) : 0 < a.trip := by
  have hmem : a.trip ∈ (ofLinear { start, levels }).trips := List.mem_map_of_mem ha
  rw [trips_of_nested hnest hlt] at hmem
  rcases List.mem_map.1 hmem with ⟨e, he, htrip⟩
  have hpos := (extent_bounds hnest he).1
  omega

/-- The axes of a nest make as many elements as the nest has; without loops that is one. -/
theorem totalTrip_ofLinear (start : UInt64) :
    (ofLinear { start, levels }).totalTrip = tripBelow levels := by
  rw [totalTrip, trips_of_nested hnest hlt, ← prod_extents_below hnest start, Nat.cast_list_prod]

end Nest

/-! ## Both evaluations -/

section Evaluation

variable {start : UInt64} {levels : List Level} {l : Level}

/-- The outermost loop adds its own digit, as a step of it adds its stride to an address. -/
theorem value_concat (hnest : Nested ((levels ++ [l]).map Level.trip)) (hlt : l.trip < 2 ^ 63)
    (start : UInt64) (idx : Nat) :
    (ofLinear { start, levels := levels ++ [l] }).value idx =
      (ofLinear { start, levels }).value idx +
        l.stride.toInt * (idx / tripBelow levels % (l.trip / tripBelow levels) : Nat) := by
  rcases nested_split hnest with ⟨hbelow, hpos, htrip, hdvd, -⟩
  have hbelowLt : tripBelow levels < 2 ^ 63 := Nat.lt_of_le_of_lt (Nat.le_of_dvd htrip hdvd) hlt
  have hextent : signedWord (l.trip / tripBelow levels) = (l.trip / tripBelow levels : Nat) :=
    signedWord_of_lt (Nat.lt_of_le_of_lt (Nat.div_le_self _ _) hlt)
  have hextentPos : (0 : Int) < (l.trip / tripBelow levels : Nat) :=
    Int.natCast_pos.2 (Nat.div_pos (Nat.le_of_dvd htrip hdvd) hpos)
  have htotal : ((ofLinear { start, levels }).axes.map Axis.trip).prod = tripBelow levels :=
    totalTrip_ofLinear hbelow hbelowLt start
  rw [value, axes_concat start l hpos, hextent,
    walk_concat (fun a ha => trip_pos hbelow hbelowLt ha) hextentPos _ (Int.natCast_nonneg idx), htotal,
    Int.natCast_emod, Int.natCast_ediv]
  rfl

/-- The two evaluations agree modulo 2^64. The affine pattern begins again where the nest has no more
elements. -/
theorem toInt64_addr_mod (hnest : Nested (levels.map Level.trip)) (hlt : tripBelow levels < 2 ^ 63)
    (start : UInt64) (idx : Nat) :
    (addr { start, levels } (idx % tripBelow levels)).toInt64 =
      Int64.ofInt ((ofLinear { start, levels }).value idx) := by
  -- an index comes apart from its outermost digit on, and the axes are read from the other end: the
  -- induction takes the last axis and the outermost loop off together
  induction levels using List.reverseRecOn generalizing idx with
  | nil =>
      have hone : idx % tripBelow [] = 0 := Nat.mod_one idx
      rw [hone]
      exact (congrArg UInt64.toInt64 (add_mul_ofNat_zero start start)).trans (Int64.ofInt_toInt _).symm
  | append_singleton levels l ih =>
      rw [tripBelow_concat] at hlt ⊢
      rcases nested_split hnest with ⟨hbelow, hpos, htrip, hdvd, -⟩
      have hbelowLt : tripBelow levels < 2 ^ 63 := Nat.lt_of_le_of_lt (Nat.le_of_dvd htrip hdvd) hlt
      have hword : tripBelow levels < 2 ^ 64 := Nat.lt_trans hbelowLt (by decide)
      let k := idx / tripBelow levels % (l.trip / tripBelow levels)
      have hsplit : idx % l.trip = idx % tripBelow levels + tripBelow levels * k := by
        conv_lhs => rw [← Nat.mul_div_cancel' hdvd]
        rw [Nat.mod_mul]
      have hstep : addr { start, levels := levels ++ [l] } (idx % l.trip) =
          addr { start, levels } (idx % tripBelow levels) + l.stride.toUInt64 * UInt64.ofNat k := by
        rw [hsplit, addr_step hpos hword, addr_below hword (Nat.mod_lt _ hpos)]
      calc (addr { start, levels := levels ++ [l] } (idx % l.trip)).toInt64
          = (addr { start, levels } (idx % tripBelow levels)).toInt64 + l.stride * Int64.ofNat k := by
            rw [hstep, UInt64.toInt64_add, UInt64.toInt64_mul, Int64.toInt64_toUInt64 l.stride,
              UInt64.toInt64_ofNat']
        _ = Int64.ofInt ((ofLinear { start, levels }).value idx) +
              Int64.ofInt l.stride.toInt * Int64.ofInt k := by
            rw [ih hbelow hbelowLt, Int64.ofInt_toInt, Int64.ofInt_eq_ofNat]
        _ = Int64.ofInt ((ofLinear { start, levels := levels ++ [l] }).value idx) := by
            rw [value_concat hnest hlt, Int64.ofInt_add, Int64.ofInt_mul]

end Evaluation

/-- A nest of at least one loop and its affine pattern have as many elements. They have the same ones, the
addresses read as signed words, exactly if no axis reaches further than a word: the steps along an axis are
words of their own, and those of two axes may cancel each other out. -/
theorem ofLinear_agrees {p : LinearPattern} (hdims : 0 < p.dims) (hnest : Nested p.trips)
    (htotal : p.totalTrip < 2 ^ 63)
    (hvalues : ∀ i < p.totalTrip, -2 ^ 63 ≤ (ofLinear p).value i ∧ (ofLinear p).value i < 2 ^ 63) :
    (ofLinear p).totalTrip? = .ok p.totalTrip ∧
      ((∀ a ∈ (ofLinear p).axes, fitsWord a.reach = true) ↔
        ∀ i < p.totalTrip, ∃ a, address? p.words i = .ok a ∧
          (ofLinear p).value? i = .ok a.toInt64.toInt) ∧
      ((∀ a ∈ (ofLinear p).axes, fitsWord a.reach = true) ↔
        (ofLinear p).allValues? = .ok (p.addresses.map fun a => a.toInt64.toInt)) := by
  have hbelow : tripBelow p.levels = p.totalTrip := getLastD_trips (List.getElem?_eq_getElem hdims)
  have hlt : tripBelow p.levels < 2 ^ 63 := hbelow ▸ htotal
  have hpos : ∀ a ∈ (ofLinear p).axes, 0 < a.trip := fun a ha => trip_pos hnest hlt ha
  have hsame : (ofLinear p).totalTrip = p.totalTrip :=
    (totalTrip_ofLinear hnest hlt p.start).trans (congrArg Nat.cast hbelow)
  have hchecked : (ofLinear p).totalTrip? = .ok (ofLinear p).totalTrip :=
    totalTrip?_eq_ok hpos (by omega)
  have hvalue : ∀ i < p.totalTrip, (ofLinear p).value i = (p.addr i).toInt64.toInt := by
    intro i hi
    have hmod := toInt64_addr_mod hnest hlt p.start i
    rw [hbelow, Nat.mod_eq_of_lt hi] at hmod
    rw [hmod, Int64.toInt_ofInt_of_le (hvalues i hi).1 (hvalues i hi).2]
  have haddresses : (ofLinear p).allValues = p.addresses.map fun a => a.toInt64.toInt := by
    rw [allValues, hsame, Int.toNat_natCast, addresses, List.map_map]
    exact List.map_congr_left fun i hi => hvalue i (List.mem_range.1 hi)
  have hreach := reach_iff_value? hpos fun i hi => fitsWord_iff.2 (hvalues i (by omega))
  refine ⟨hsame ▸ hchecked, ⟨fun hwithin i hi => ⟨p.addr i, ?_, ?_⟩, fun hagree => ?_⟩, ?_⟩
  · exact if_neg (Nat.not_lt.2 (two_le_length_words (List.ne_nil_of_length_pos hdims)))
  · rw [hreach.1 hwithin i (by omega), hvalue i hi]
  · refine hreach.2 fun i hi => ?_
    rcases hagree i (by omega) with ⟨a, _, hv⟩
    rw [hv, value?_eq_ok hv]
  · rw [hreach, ← allValues?_iff_value? hchecked, haddresses]

/-- Three rows of four words, each row read downward, the first one across index 0. -/
def downward : LinearPattern :=
  { start := 8, levels := [{ stride := -8, trip := 4 }, { stride := 64, trip := 12 }] }

theorem ofLinear_agrees_downward :
    (ofLinear downward).totalTrip? = .ok 12 ∧ address? downward.words 3 = .ok (-16) ∧
      (ofLinear downward).value? 3 = .ok (-16) ∧
      downward.addresses.map (fun a => a.toInt64.toInt) =
        [8, 0, -8, -16, 72, 64, 56, 48, 136, 128, 120, 112] ∧
      (ofLinear downward).allValues? = .ok (downward.addresses.map fun a => a.toInt64.toInt) := by
  rcases ofLinear_agrees (p := downward) (by decide) (by decide) (by decide) (by decide) with
    ⟨htotal, hvalue, hall⟩
  rcases hvalue.1 (by decide) 3 (by decide) with ⟨a, ha, hsame⟩
  obtain rfl : -16 = a := Except.ok.inj ha
  exact ⟨htotal, ha, hsame, rfl, hall.1 (by decide)⟩

/-- Four steps of 2 ^ 62, from the least word on: every element is a word, but twice the stride is none. -/
def farApart : LinearPattern :=
  { start := 0x8000000000000000, levels := [{ stride := 0x4000000000000000, trip := 4 }] }

/-- A pattern of no loops has no elements, but an affine pattern of no axes is a point. And elements that are
words all of them may lie too far apart for the steps between them. -/
theorem linear_affine_disagree :
    (∃ p : LinearPattern, p.dims = 0 ∧ Nested p.trips ∧ p.totalTrip < 2 ^ 63 ∧
      (∀ i < p.totalTrip, -2 ^ 63 ≤ (ofLinear p).value i ∧ (ofLinear p).value i < 2 ^ 63) ∧
      p.totalTrip = 0 ∧ (ofLinear p).totalTrip? = .ok 1) ∧
    (0 < farApart.dims ∧ Nested farApart.trips ∧ farApart.totalTrip = 4 ∧
      (∀ i < farApart.totalTrip,
        -2 ^ 63 ≤ (ofLinear farApart).value i ∧ (ofLinear farApart).value i < 2 ^ 63) ∧
      address? farApart.words 2 = .ok 0 ∧ (ofLinear farApart).value? 2 = .error .arithmetic) :=
  ⟨⟨{ start := 16, levels := [] }, by decide⟩, by decide⟩

end AffinePattern
end StreamEngine
