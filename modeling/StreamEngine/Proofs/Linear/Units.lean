import StreamEngine.Linear.Split
import StreamEngine.Proofs.Linear.Addresses
import StreamEngine.Proofs.Strands

/-!
# Units of one loop

A split of one loop of a nest reads the extents of the nest, and deals the steps of the loop in units. The
strand gets one level for the steps inside a unit and one over the rounds, and the levels above are raised
on top of them.

* `prod_extentsAbove`, `nested_at` — what the extents of a nest say of its levels;
* `dealUnits_eq` — the units of a strand, whole or short;
* `splitDim_eq_ok` — when a split is not refused, and the share that it gives.
-/

namespace StreamEngine
namespace LinearPattern

open Linear

variable {below : List Level} {l : Level} {i : Interleave} {s extent : Nat} {p q : LinearPattern}

/-! ## Extents -/

/-- Each trip is a positive multiple of the one before it, and the first one of `below`. -/
def NestedAbove (below : Nat) (trips : List Nat) : Prop :=
  List.IsChain (fun below trip => 0 < trip ∧ below ∣ trip) (below :: trips)

theorem nestedAbove_cons {below t : Nat} {trips : List Nat} :
    NestedAbove below (t :: trips) ↔ (0 < t ∧ below ∣ t) ∧ NestedAbove t trips :=
  List.isChain_cons_cons

/-- The trips of a nest are the products of its extents. -/
theorem prod_extentsAbove {below : Nat} {trips : List Nat} (hpos : 0 < below)
    (h : NestedAbove below trips) :
    below * (extentsAbove below trips).prod = trips.getLastD below := by
  induction trips generalizing below with
  | nil => exact Nat.mul_one below
  | cons t trips ih =>
      rcases nestedAbove_cons.1 h with ⟨⟨ht, hdvd⟩, h⟩
      rw [extentsAbove, if_neg (Nat.ne_of_gt hpos), List.prod_cons, ← Nat.mul_assoc,
        Nat.mul_div_cancel' hdvd, ih ht h, List.getLastD_cons]

theorem extentsAbove_append (below : Nat) (trips above : List Nat) :
    extentsAbove below (trips ++ above) =
      extentsAbove below trips ++ extentsAbove (trips.getLastD below) above := by
  induction trips generalizing below with
  | nil => rfl
  | cons u trips ih => simp only [List.cons_append, extentsAbove, ih, List.getLastD_cons]

theorem length_extentsAbove (below : Nat) (trips : List Nat) :
    (extentsAbove below trips).length = trips.length := by
  induction trips generalizing below with
  | nil => rfl
  | cons t trips ih => rw [extentsAbove, List.length_cons, List.length_cons, ih]

theorem length_extents (p : LinearPattern) : p.extents.length = p.levels.length := by
  rw [extents, length_extentsAbove, trips, List.length_map]

/-- Elements of one step of loop `d`. -/
def inner (p : LinearPattern) (d : Nat) : Nat :=
  (p.extents.take d).prod

/-- Steps of loop `d`. -/
def extentAt (p : LinearPattern) (d : Nat) : Nat :=
  p.extents.getD d 0

theorem getElem?_extents {d : Nat} (hl : p.levels[d]? = some l) :
    p.extents[d]? = some (p.extentAt d) := by
  have hd := (List.getElem?_eq_some_iff.1 hl).1
  rw [← length_extents] at hd
  rw [extentAt, List.getD_eq_getElem?_getD, List.getElem?_eq_getElem hd, Option.getD_some]

theorem prod_extents {d : Nat} (hl : p.levels[d]? = some l) :
    p.inner d * p.extentAt d * (p.extents.drop (d + 1)).prod = p.extents.prod := by
  rcases List.getElem?_eq_some_iff.1 (getElem?_extents hl) with ⟨hd, hextent⟩
  conv_rhs => rw [← List.take_append_drop d p.extents]
  rw [List.prod_append, List.drop_eq_getElem_cons hd, hextent, List.prod_cons, ← Nat.mul_assoc]
  rfl

theorem getLastD_trips {d : Nat} (hl : p.levels[d]? = some l) : p.trips.getLastD 1 = p.totalTrip := by
  have hne : p.trips ≠ [] := by
    rw [trips, Ne, List.map_eq_nil_iff]
    rintro hnil
    rw [hnil] at hl
    cases hl
  rw [totalTrip, List.getLastD_eq_getLast?, List.getLastD_eq_getLast?,
    List.getLast?_eq_getLast_of_ne_nil hne]
  rfl

/-- A nest has as many elements as the product of its extents. -/
theorem prod_extents_of_nested {d : Nat} (hnest : Nested p.trips) (hl : p.levels[d]? = some l) :
    p.extents.prod = p.totalTrip := by
  rw [extents, ← Nat.one_mul (List.prod _), prod_extentsAbove Nat.zero_lt_one hnest,
    getLastD_trips hl]

/-- The levels above a nest are raised to where they are from its trip and their extents. -/
theorem raiseTrips_zip {trip : Nat} {above : List Level} (hpos : 0 < trip)
    (h : NestedAbove trip (above.map Level.trip)) :
    raiseTrips trip (above.zip (extentsAbove trip (above.map Level.trip))) = above := by
  induction above generalizing trip with
  | nil => rfl
  | cons l above ih =>
      rcases nestedAbove_cons.1 h with ⟨⟨hl, hdvd⟩, h⟩
      rw [List.map_cons, extentsAbove, if_neg (Nat.ne_of_gt hpos), List.zip_cons_cons, raiseTrips,
        Nat.mul_div_cancel' hdvd, ih hl h]

/-- A level of a nest has whole turns of what is below it, and stands below whole turns. -/
theorem nested_split {above : List Level} (h : Nested ((below ++ l :: above).map Level.trip)) :
    Nested (below.map Level.trip) ∧ 0 < tripBelow below ∧ 0 < l.trip ∧ tripBelow below ∣ l.trip ∧
      NestedAbove l.trip (above.map Level.trip) := by
  rw [List.map_append, List.map_cons, Nested, ← List.cons_append, List.isChain_append] at h
  rcases h with ⟨hbelow, habove, hlast⟩
  have hend : tripBelow below ∈ (1 :: below.map Level.trip).getLast? := by
    simp [tripBelow, List.getLastD_eq_getLast?, List.getLast?_cons]
  rcases hlast (tripBelow below) hend l.trip (by simp) with ⟨hpos, hdvd⟩
  exact ⟨hbelow, Nat.pos_of_dvd_of_pos hdvd hpos, hpos, hdvd, habove⟩

/-- The product of the extents of some levels is the trip that they leave to a level above them. -/
theorem prod_extents_below (hnest : Nested (below.map Level.trip)) (start : UInt64) :
    (extents { start, levels := below }).prod = tripBelow below := by
  rw [← Nat.one_mul (List.prod _)]
  exact prod_extentsAbove Nat.zero_lt_one hnest

theorem tripBelow_pos (hnest : Nested (below.map Level.trip)) : 0 < tripBelow below := by
  rcases List.eq_nil_or_concat below with rfl | ⟨levels, l, rfl⟩
  · exact Nat.zero_lt_one
  · rw [List.concat_eq_append] at hnest ⊢
    rw [tripBelow_concat]
    exact (nested_split hnest).2.2.1

theorem extents_split (start : UInt64) (l : Level) (above : List Level) (hpos : 0 < tripBelow below) :
    extents { start, levels := below ++ l :: above } =
      extentsAbove 1 (below.map Level.trip) ++
        (l.trip / tripBelow below) :: extentsAbove l.trip (above.map Level.trip) := by
  have hne : (below.map Level.trip).getLastD 1 ≠ 0 := Nat.ne_of_gt hpos
  rw [extents, trips, List.map_append, List.map_cons, extentsAbove_append, extentsAbove, if_neg hne]
  rfl

/-- What the extents say of a nest below, at and above loop `d`. -/
structure NestedAt (p : LinearPattern) (d : Nat) (l : Level) : Prop where
  inner_eq : p.inner d = tripBelow (p.levels.take d)
  trip_eq : l.trip = p.inner d * p.extentAt d
  raise_eq : raiseTrips l.trip ((p.levels.zip p.extents).drop (d + 1)) = p.levels.drop (d + 1)

theorem nested_at {d : Nat} (hnest : Nested p.trips) (hl : p.levels[d]? = some l) :
    p.NestedAt d l := by
  rcases p with ⟨start, levels⟩
  rcases List.getElem?_eq_some_iff.1 hl with ⟨hd, rfl⟩
  have hsplit : levels = levels.take d ++ levels[d] :: levels.drop (d + 1) := by
    rw [← List.drop_eq_getElem_cons, List.take_append_drop]
  rw [trips, hsplit] at hnest
  rcases nested_split hnest with ⟨hbelow, hpos, htrip, hdvd, habove⟩
  have hextents := extents_split start levels[d] (levels.drop (d + 1)) hpos
  rw [← hsplit] at hextents
  have hlen : (extentsAbove 1 ((levels.take d).map Level.trip)).length = d := by
    rw [length_extentsAbove, List.length_map, List.length_take_of_le (Nat.le_of_lt hd)]
  have hinner : inner { start, levels } d = tripBelow (levels.take d) := by
    rw [inner, hextents, List.take_left' hlen, ← Nat.one_mul (List.prod _)]
    exact prod_extentsAbove Nat.zero_lt_one hbelow
  refine ⟨hinner, ?_, ?_⟩
  · rw [hinner, extentAt, hextents, List.getD_eq_getElem?_getD, List.getElem?_append_right hlen.le,
      hlen, Nat.sub_self, List.getElem?_cons_zero, Option.getD_some, Nat.mul_div_cancel' hdvd]
  · have hdrop : (extents { start, levels }).drop (d + 1) =
        extentsAbove levels[d].trip ((levels.drop (d + 1)).map Level.trip) := by
      rw [hextents, ← List.drop_drop, List.drop_left' hlen, List.drop_one, List.tail_cons]
    rw [List.zip, List.drop_zipWith, hdrop]
    exact raiseTrips_zip htrip habove

/-! ## Units of one loop -/

theorem dealUnits_of_le {outermost : Bool} (p : LinearPattern) (hs : s < i.strands)
    (hround : i.period ≤ extent) (hwhole : outermost = false → i.run ∣ extent % i.period) :
    dealUnits p extent i.run i.strands s outermost =
      .ok (i.firstRun extent s,
        extent / i.period + if s < (extent % i.period + i.run - 1) / i.run then 1 else 0) := by
  have hperiod : i.run * i.strands = i.period := rfl
  have hpos : i.period ≠ 0 := Nat.ne_of_gt (Nat.mul_pos i.run_pos i.strands_pos)
  have heven : ¬ (extent % i.period % i.run ≠ 0 ∧ outermost = false) := by
    rintro ⟨huneven, hout⟩
    exact huneven (Nat.mod_eq_zero_of_dvd (hwhole hout))
  simp only [dealUnits, hperiod, if_pos hround, if_neg hpos, if_neg heven,
    Interleave.firstRun_of_le hs hround]

theorem dealUnits_of_lt (p : LinearPattern) (outermost : Bool) (hround : extent < i.period) :
    dealUnits p extent i.run i.strands s outermost = .ok (i.firstRun extent s, 1) := by
  have hperiod : i.run * i.strands = i.period := rfl
  have hdiv := Nat.div_add_mod' extent i.run
  have hmod := Nat.mod_lt extent i.run_pos
  simp only [dealUnits, hperiod, if_neg (Nat.not_le.2 hround), Interleave.firstRun, Except.ok.injEq,
    Prod.mk.injEq, and_true]
  -- the last strand with any steps has what is left
  rcases Nat.lt_trichotomy s (extent / i.run) with hlt | heq | hgt
  · have hmul := mul_add_le_mul hlt i.run
    rw [if_neg (Nat.ne_of_lt hlt), if_neg (Nat.lt_asymm hlt)]
    omega
  · rw [if_pos heq, heq]
    omega
  · have hmul := mul_add_le_mul hgt i.run
    rw [if_neg (Nat.ne_of_gt hgt), if_pos hgt]
    omega

/-- What dealing units gives a strand: the steps of its first run, and below the outermost loop a number
of units that makes up all its steps. -/
theorem dealUnits_eq {outermost : Bool} (p : LinearPattern) (hs : s < i.strands)
    (hwhole : i.period ≤ extent → outermost = false → i.run ∣ extent % i.period) :
    ∃ units, dealUnits p extent i.run i.strands s outermost = .ok (i.firstRun extent s, units) ∧
      (outermost = false → units * i.firstRun extent s = i.tripCount extent s) := by
  by_cases hround : i.period ≤ extent
  · refine ⟨_, dealUnits_of_le p hs hround (hwhole hround), fun hout => ?_⟩
    rw [i.tripCount_of_dvd (hwhole hround hout), Interleave.firstRun_of_le hs hround]
  · rw [Nat.not_le] at hround
    refine ⟨1, dealUnits_of_lt p outermost hround, fun _ => ?_⟩
    rw [Nat.one_mul, i.tripCount_of_lt hround]

/-- A last round that ends inside a unit is refused below the outermost loop. -/
theorem whole_of_dealUnits {outermost : Bool} {r : Nat × Nat}
    (h : dealUnits p extent i.run i.strands s outermost = .ok r) (hround : i.period ≤ extent)
    (hout : outermost = false) : i.run ∣ extent % i.period := by
  have hperiod : i.run * i.strands = i.period := rfl
  have hpos : i.period ≠ 0 := Nat.ne_of_gt (Nat.mul_pos i.run_pos i.strands_pos)
  by_contra huneven
  have hrefused : extent % i.period % i.run ≠ 0 ∧ outermost = false :=
    ⟨fun hzero => huneven (Nat.dvd_of_mod_eq_zero hzero), hout⟩
  simp only [dealUnits, hperiod, if_pos hround, if_neg hpos, if_pos hrefused] at h
  cases h

/-! ## Splitting one loop -/

/-- A pattern of a strand that takes a loop apart: `first` elements before the first gap, and `trip` in all
up to the level of the rounds. -/
def sharing (p : LinearPattern) (d : Nat) (l : Level) (i : Interleave) (s first trip : Nat) :
    LinearPattern :=
  { start := advance p.start l.stride (s * i.run)
    levels := p.levels.take d ++
      { stride := l.stride, trip := first } ::
      { stride := l.stride * Int64.ofNat (i.run * i.strands), trip } ::
      raiseTrips trip ((p.levels.zip p.extents).drop (d + 1)) }

/-- The share of strand `s` when the steps of loop `d` are dealt. -/
def share (p : LinearPattern) (d : Nat) (l : Level) (i : Interleave) (s : Nat) : LinearPattern :=
  p.sharing d l i s (i.firstRun (p.extentAt d) s * p.inner d)
    (i.tripCount (p.extentAt d) s * p.inner d)

@[simp] theorem totalTrip_concat (start : UInt64) (levels : List Level) (l : Level) :
    totalTrip { start, levels := levels ++ [l] } = l.trip := by
  simp [totalTrip, trips]

@[simp] theorem totalTrip_concat_pair (start : UInt64) (levels : List Level) (l l' : Level) :
    totalTrip { start, levels := levels ++ [l, l'] } = l'.trip := by
  simp [totalTrip, trips]

theorem totalTrip_raiseTrips (start : UInt64) (levels : List Level) (l : Level)
    (above : List (Level × Nat)) :
    totalTrip { start, levels := levels ++ l :: raiseTrips l.trip above } =
      l.trip * (above.map Prod.snd).prod := by
  induction above generalizing levels l with
  | nil => simp [raiseTrips]
  | cons k above ih =>
      rw [raiseTrips, List.append_cons, ih, List.map_cons, List.prod_cons, Nat.mul_assoc]

/-- A share has as many elements as its loop has steps for it, at every turn of the levels above. -/
theorem totalTrip_share (p : LinearPattern) (d : Nat) (l : Level) (i : Interleave) (s : Nat) :
    (p.share d l i s).totalTrip =
      i.tripCount (p.extentAt d) s * p.inner d * (p.extents.drop (d + 1)).prod := by
  have habove : ((p.levels.zip p.extents).drop (d + 1)).map Prod.snd = p.extents.drop (d + 1) := by
    rw [List.zip, List.drop_zipWith]
    refine List.map_snd_zip ?_
    rw [List.length_drop, List.length_drop, length_extents]
  rw [share, sharing, List.append_cons, totalTrip_raiseTrips, habove]

/-- The steps of loop `d` come in units of `interleave` elements, which `i` deals to `n` strands. -/
structure UnitsAt (p : LinearPattern) (d interleave n : Nat) (l : Level) (i : Interleave) : Prop where
  level : p.levels[d]? = some l
  trips_pos : ∀ t ∈ p.trips, 0 < t
  inner_pos : 0 < p.inner d
  run_eq : p.inner d * i.run = interleave
  strands_eq : i.strands = n

/-- Loop `d` can be split: only the outermost loop may end inside a unit. -/
structure SplitsAt (p : LinearPattern) (d interleave n : Nat) (l : Level) (i : Interleave) : Prop
    extends p.UnitsAt d interleave n l i where
  whole : i.period ≤ p.extentAt d → d + 1 ≠ p.dims → i.run ∣ p.extentAt d % i.period

section SplitDim

variable {d interleave n : Nat}

theorem any_zero_iff (p : LinearPattern) :
    p.trips.any (· == 0) = true ↔ ¬ ∀ t ∈ p.trips, 0 < t := by
  simp only [List.any_eq_true, beq_iff_eq, not_forall, Nat.not_lt, Nat.le_zero, exists_prop]

/-- What a split refuses before it deals any units. -/
theorem exists_unitsAt (hs : s < n) (h : p.splitDim d interleave s n = .ok q) :
    ∃ l i, p.UnitsAt d interleave n l i := by
  have hinner : (p.extents.take d).prod = p.inner d := rfl
  cases hl : p.levels[d]? with
  | none =>
      simp only [splitDim, hl] at h
      cases h
  | some l =>
      simp only [splitDim, hl, getElem?_extents hl, hinner] at h
      by_cases hpos : p.trips.any (· == 0) = true
      · simp only [if_pos hpos] at h
        cases h
      by_cases hzero : interleave = 0
      · simp only [if_neg hpos, if_pos hzero] at h
        cases h
      by_cases hstep : p.inner d = 0
      · simp only [if_neg hpos, if_neg hzero, if_pos hstep] at h
        cases h
      by_cases huneven : interleave % p.inner d ≠ 0
      · simp only [if_neg hpos, if_neg hzero, if_neg hstep, if_pos huneven] at h
        cases h
      rw [any_zero_iff, Decidable.not_not] at hpos
      have hinterleave := Nat.pos_of_ne_zero hzero
      have hstep := Nat.pos_of_ne_zero hstep
      have hdvd := Nat.dvd_of_mod_eq_zero (Decidable.not_not.1 huneven)
      let i : Interleave :=
        { run := interleave / p.inner d, strands := n
          run_pos := Nat.div_pos (Nat.le_of_dvd hinterleave hdvd) hstep
          strands_pos := Nat.zero_lt_of_lt hs }
      exact ⟨l, i, hl, hpos, hstep, Nat.mul_div_cancel' hdvd, rfl⟩

theorem UnitsAt.splitDim_eq {i : Interleave} (h : p.UnitsAt d interleave n l i) (s : Nat) :
    p.splitDim d interleave s n =
      (dealUnits p (p.extentAt d) i.run i.strands s (d + 1 == p.dims)).map fun r =>
        p.sharing d l i s (r.1 * p.inner d)
          (if d + 1 == p.dims then i.tripCount (p.extentAt d) s * p.inner d
            else r.2 * r.1 * p.inner d) := by
  rcases h with ⟨hl, hpos, hstep, rfl, rfl⟩
  have hinner : (p.extents.take d).prod = p.inner d := rfl
  have hnone : ¬ p.trips.any (· == 0) = true := by
    rw [any_zero_iff, Decidable.not_not]
    exact hpos
  have hzero : p.inner d * i.run ≠ 0 := Nat.ne_of_gt (Nat.mul_pos hstep i.run_pos)
  have heven : ¬ p.inner d * i.run % p.inner d ≠ 0 := by
    rw [Nat.mul_mod_right]
    exact fun h => h rfl
  simp only [splitDim, hl, getElem?_extents hl, hinner, if_neg hnone, if_neg hzero,
    if_neg (Nat.ne_of_gt hstep), if_neg heven, Nat.mul_div_cancel_left _ hstep,
    Interleave.checked_self]
  cases dealUnits p (p.extentAt d) i.run i.strands s (d + 1 == p.dims) with
  | error err => rfl
  | ok r => rfl

/-- When a split of a loop is not refused, and what it gives. -/
theorem splitDim_eq_ok (hs : s < n) :
    p.splitDim d interleave s n = .ok q ↔
      ∃ l i, p.SplitsAt d interleave n l i ∧ q = p.share d l i s := by
  -- where units are dealt at all, a strand gets its share
  have hshare : ∀ l i, p.SplitsAt d interleave n l i →
      p.splitDim d interleave s n = .ok (p.share d l i s) := by
    intro l i hsplit
    rw [← hsplit.strands_eq] at hs
    have hwhole : i.period ≤ p.extentAt d → (d + 1 == p.dims) = false →
        i.run ∣ p.extentAt d % i.period :=
      fun hround hout => hsplit.whole hround (beq_eq_false_iff_ne.1 hout)
    rcases dealUnits_eq p hs hwhole with ⟨units, hdeal, htrip⟩
    rw [hsplit.toUnitsAt.splitDim_eq, hdeal, share]
    by_cases hout : (d + 1 == p.dims) = true
    · simp only [Except.map, if_pos hout]
    · simp only [Except.map, if_neg hout, htrip (eq_false_of_ne_true hout)]
  constructor
  · intro h
    rcases exists_unitsAt hs h with ⟨l, i, hunits⟩
    have hsplit : p.SplitsAt d interleave n l i := by
      refine ⟨hunits, fun hround hout => ?_⟩
      rw [hunits.splitDim_eq] at h
      cases hdeal : dealUnits p (p.extentAt d) i.run i.strands s (d + 1 == p.dims) with
      | error err =>
          rw [hdeal] at h
          cases h
      | ok r => exact whole_of_dealUnits hdeal hround (beq_eq_false_iff_ne.2 hout)
    refine ⟨l, i, hsplit, ?_⟩
    rw [hshare l i hsplit] at h
    exact (Except.ok.inj h).symm
  · rintro ⟨l, i, hsplit, rfl⟩
    exact hshare l i hsplit

end SplitDim

end LinearPattern
end StreamEngine
