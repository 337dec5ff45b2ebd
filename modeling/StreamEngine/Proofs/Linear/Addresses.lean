import Mathlib.Data.List.Chain
import Mathlib.Data.UInt
import Mathlib.Tactic.Ring
import StreamEngine.Arithmetic
import StreamEngine.Compute
import StreamEngine.Linear.Analysis
import StreamEngine.Proofs.Outcome

/-!
# Addresses of linear patterns

What one loop level contributes to an address. All arithmetic on addresses is modulo 2^64, and so none
of these facts needs a bound on strides or indices.

* `peel_append`, `peel_concat`, `peel_add` — the outer levels of a nest, and another start;
* `LinearPattern.addr_concat` — an element of a nest is an element of the nest below the outermost level;
* `LinearPattern.addr_step` — a step of the outermost level adds its stride;
* `address_of_isContinuous` — a walk without gaps steps by its innermost stride;
* `LinearPattern.words_decoded` — decoding loses nothing.
-/

namespace StreamEngine

open scoped UInt64.CommRing

namespace Linear

/-! ## Peeling levels -/

/-- No step of a level leaves the address where it is. -/
theorem add_mul_ofNat_zero (addr stride : UInt64) : addr + stride * UInt64.ofNat 0 = addr := by
  have hzero : UInt64.ofNat 0 = 0 := rfl
  rw [hzero, UInt64.mul_zero, UInt64.add_zero]

/-- A nest that starts `delta` further on is walked `delta` further on. -/
theorem peel_add (start delta : UInt64) (idx : Nat) (outer : List (UInt64 × UInt64)) :
    peel (start + delta) idx outer = ((peel start idx outer).1 + delta, (peel start idx outer).2) := by
  induction outer with
  | nil => rfl
  | cons l outer ih =>
      rcases l with ⟨trip, stride⟩
      simp only [peel, ih]
      by_cases hzero : trip = 0
      · simp only [if_pos hzero]
      · simp only [if_neg hzero, Prod.mk.injEq, and_true]
        ring

/-- Outer levels are peeled before inner ones. -/
theorem peel_append (start : UInt64) (idx : Nat) (inner outer : List (UInt64 × UInt64)) :
    peel start idx (inner ++ outer) =
      peel (peel start idx outer).1 (peel start idx outer).2 inner := by
  induction inner with
  | nil => rfl
  | cons l inner ih => simp only [List.cons_append, peel, ih]

/-- The outermost level is peeled first. -/
theorem peel_concat {trip : UInt64} (htrip : trip ≠ 0) (start stride : UInt64) (idx : Nat)
    (outer : List (UInt64 × UInt64)) :
    peel start idx (outer ++ [(trip, stride)]) =
      peel (start + stride * UInt64.ofNat (idx / trip.toNat)) (idx % trip.toNat) outer := by
  rw [peel_append]
  simp only [peel, if_neg htrip]

/-- Where every stride continues what is below it, an index counts along the innermost stride. -/
theorem peel_of_continuous {inner : UInt64} {outer : List (UInt64 × UInt64)}
    (h : ∀ l ∈ outer, inner * l.1 = l.2) (start : UInt64) (idx : Nat) :
    (peel start idx outer).1 + inner * UInt64.ofNat (peel start idx outer).2 =
      start + inner * UInt64.ofNat idx := by
  induction outer with
  | nil => rfl
  | cons l outer ih =>
      rcases l with ⟨trip, stride⟩
      have htail := ih fun l hl => h l (List.mem_cons_of_mem _ hl)
      have hstride : inner * trip = stride := h (trip, stride) List.mem_cons_self
      by_cases hzero : trip = 0
      · simp only [peel, if_pos hzero]
        exact htail
      · simp only [peel, if_neg hzero]
        generalize peel start idx outer = reached at htail ⊢
        have hrest : UInt64.ofNat reached.2 =
            trip * UInt64.ofNat (reached.2 / trip.toNat) + UInt64.ofNat (reached.2 % trip.toNat) := by
          conv_lhs => rw [← Nat.div_add_mod reached.2 trip.toNat]
          rw [UInt64.ofNat_add, UInt64.ofNat_mul, UInt64.ofNat_toNat]
        rw [← htail, hrest, ← hstride]
        ring

/-! ## Documented lists -/

/-- Each cumulative trip is a positive multiple of the one below it. -/
def Nested (trips : List Nat) : Prop :=
  List.IsChain (fun below trip => 0 < trip ∧ below ∣ trip) (1 :: trips)

instance (trips : List Nat) : Decidable (Nested trips) :=
  inferInstanceAs (Decidable (List.IsChain _ _))

/-- The total trip of a list: its last cumulative trip. -/
def totalOf (words : List UInt64) : Nat :=
  ((tripsOf words.dropLast).getLastD 0).toNat

end Linear

/-! ## Lists without references -/

namespace Formal

@[simp] theorem words?_map (vs : List StreamValue) :
    words? (vs.map Param.invariant) = some (vs.map StreamValue.front) := by
  induction vs with
  | nil => rfl
  | cons v vs ih =>
      rw [words?, List.map_cons, List.mapM_cons, ← words?, ih]
      rfl

/-- A list has words exactly when it consists of values. -/
theorem exists_of_words? {ps : Formal} {words : List UInt64} (h : ps.words? = some words) :
    ∃ vs : List StreamValue, ps = vs.map Param.invariant ∧ words = vs.map StreamValue.front := by
  induction ps generalizing words with
  | nil =>
      cases h
      exact ⟨[], rfl, rfl⟩
  | cons p ps ih =>
      rw [words?, List.mapM_cons, ← words?] at h
      cases p with
      | base id => cases h
      | invariant v =>
          rcases Option.bind_eq_some_iff.1 h with ⟨w, hw, h⟩
          rcases Option.bind_eq_some_iff.1 h with ⟨ws, hws, h⟩
          cases hw
          cases h
          rcases ih hws with ⟨vs, rfl, rfl⟩
          exact ⟨v :: vs, rfl, rfl⟩

theorem words?_ofWords (words : List UInt64) : (ofWords words).words? = some words := by
  have hvalues : ofWords words = (words.map StreamValue.ofWord).map Param.invariant := by
    rw [List.map_map]
    rfl
  have hfront : (words.map StreamValue.ofWord).map StreamValue.front = words := by
    rw [List.map_map]
    exact List.map_id words
  rw [hvalues, words?_map, hfront]

/-- Values resolve to themselves, whoever is asked for base streams. -/
theorem resolve_map {ε : Type} (vs : List StreamValue) (fetch : StaticId → Except ε StreamValue) :
    resolve (vs.map Param.invariant) fetch = .ok vs := by
  induction vs with
  | nil => rfl
  | cons v vs ih =>
      rw [resolve, List.map_cons, List.mapM_cons, ← resolve, ih]
      rfl

end Formal

/-- An address that cannot be generated is a fault of its pattern. -/
theorem Generator.avoids_invariantAddress {bad : Fault → Prop} (hbad : ∀ f, ¬ bad (.pattern f))
    (g : Generator) (ps : Formal) (idx : Nat) : Avoids bad (g.invariantAddress ps idx) := by
  have hresolve : Avoids bad (ps.resolve noBase) := by
    refine Avoids.mapM (fun p => ?_) ps
    cases p with
    | invariant v => exact avoids_ok v
    | base s => exact avoids_error (hbad _)
  have hvalue : ∀ params, Avoids bad (g.value idx params) := by
    intro params
    cases g with
    | linear =>
        have hlinear : Avoids bad (Linear.address? (params.map StreamValue.front) idx) :=
          avoids_ite (avoids_error (hbad _)) (avoids_ok _)
        exact hlinear.bind fun _ _ => avoids_ok _
    | computed kernel => exact avoids_ok _
  exact (hresolve.bind fun params _ => hvalue params).bind fun _ _ => avoids_ok _

namespace Linear

theorem invariantWords_eq {ps : Formal} {words : List UInt64} (h : ps.words? = some words) :
    invariantWords ps = .ok words := by
  rcases Formal.exists_of_words? h with ⟨vs, rfl, rfl⟩
  have hnone : Formal.firstBase? (vs.map Param.invariant) = none := by
    rw [Formal.firstBase?, List.findIdx?_eq_none_iff]
    rintro p hp
    rcases List.mem_map.1 hp with ⟨v, _, rfl⟩
    rfl
  rw [invariantWords, hnone, List.filterMap_map]
  exact congrArg Except.ok (congrFun List.filterMap_eq_map vs)

/-- A walk without gaps steps by its innermost stride. -/
theorem address_of_isContinuous {ps : Formal} {words : List UInt64} {elemSize : Nat}
    (hwords : ps.words? = some words) (h : isContinuous ps elemSize = true) (idx : Nat) :
    address words idx = startOf words + innerStrideOf words * UInt64.ofNat idx := by
  rw [isContinuous, invariantWords_eq hwords] at h
  simp only [Bool.and_eq_true, List.all_eq_true, beq_iff_eq] at h
  exact peel_of_continuous h.2 (startOf words) idx

end Linear

/-! ## Nests -/

namespace LinearPattern

open Linear

/-- The address of element `idx`. -/
def addr (p : LinearPattern) (idx : Nat) : UInt64 :=
  address p.words idx

/-- The strides and trips of some levels in alternation. -/
def levelWords (levels : List Level) : List UInt64 :=
  levels.flatMap fun l => [l.stride.toUInt64, UInt64.ofNat l.trip]

/-- The trip below a level that stands on these. -/
def tripBelow (levels : List Level) : Nat :=
  (levels.map Level.trip).getLastD 1

variable {start : UInt64} {levels : List Level} {l l' : Level} {words : List UInt64}

@[simp] theorem words_mk (start : UInt64) (levels : List Level) :
    ({ start, levels } : LinearPattern).words = levelWords levels ++ [start] :=
  rfl

theorem two_le_length_words {p : LinearPattern} (h : p.levels ≠ []) : 2 ≤ p.words.length := by
  rcases p with ⟨start, levels⟩
  cases levels with
  | nil => exact absurd rfl h
  | cons l levels => simp [words]

@[simp] theorem levelWords_nil : levelWords [] = [] :=
  rfl

@[simp] theorem levelWords_cons (l : Level) (levels : List Level) :
    levelWords (l :: levels) = l.stride.toUInt64 :: UInt64.ofNat l.trip :: levelWords levels :=
  rfl

@[simp] theorem tripBelow_concat (levels : List Level) (l : Level) :
    tripBelow (levels ++ [l]) = l.trip := by
  simp [tripBelow]

/-- Two more levels: the trip of the lower one bounds the upper one. -/
theorem outerOf_concat (levels : List Level) (l l' : Level) :
    outerOf (levelWords (levels ++ [l, l'])).tail =
      outerOf (levelWords (levels ++ [l])).tail ++ [(UInt64.ofNat l.trip, l'.stride.toUInt64)] := by
  induction levels with
  | nil => rfl
  | cons k levels ih =>
      cases levels with
      | nil => rfl
      | cons k' levels =>
          simp only [List.cons_append, levelWords_cons, List.tail_cons, outerOf] at ih ⊢
          rw [ih]

/-- The trip of the outermost level bounds nothing. -/
theorem outerOf_last (h : l.stride = l'.stride) (levels : List Level) :
    outerOf (levelWords (levels ++ [l])).tail = outerOf (levelWords (levels ++ [l'])).tail := by
  induction levels with
  | nil => rfl
  | cons k levels ih =>
      cases levels with
      | nil =>
          simp only [List.cons_append, List.nil_append, levelWords_cons, levelWords_nil,
            List.tail_cons, outerOf, h]
      | cons k' levels =>
          simp only [List.cons_append, levelWords_cons, List.tail_cons, outerOf] at ih ⊢
          rw [ih]

theorem addr_eq (start : UInt64) (levels : List Level) (idx : Nat) :
    addr { start, levels } idx =
      (peel start idx (outerOf (levelWords levels).tail)).1 +
        innerStrideOf (levelWords levels ++ [start]) *
          UInt64.ofNat (peel start idx (outerOf (levelWords levels).tail)).2 := by
  have hstart : startOf (levelWords levels ++ [start]) = start := by
    simp [startOf]
  simp only [addr, address, words_mk, hstart, outerLevels, List.dropLast_concat]

/-- The same nest from another start. -/
theorem addr_add (start delta : UInt64) (levels : List Level) (idx : Nat) (h : levels ≠ []) :
    addr { start := start + delta, levels } idx = addr { start, levels } idx + delta := by
  have hinner : innerStrideOf (levelWords levels ++ [start + delta]) =
      innerStrideOf (levelWords levels ++ [start]) := by
    cases levels with
    | nil => exact absurd rfl h
    | cons l levels => rfl
  rw [addr_eq, addr_eq, peel_add, hinner]
  ring

theorem addr_single (start : UInt64) (l : Level) (idx : Nat) :
    addr { start, levels := [l] } idx = start + l.stride.toUInt64 * UInt64.ofNat idx :=
  rfl

theorem addr_last (h : l.stride = l'.stride) (start : UInt64) (levels : List Level) (idx : Nat) :
    addr { start, levels := levels ++ [l] } idx = addr { start, levels := levels ++ [l'] } idx := by
  have hinner : innerStrideOf (levelWords (levels ++ [l]) ++ [start]) =
      innerStrideOf (levelWords (levels ++ [l']) ++ [start]) := by
    cases levels with
    | nil => exact congrArg Int64.toUInt64 h
    | cons k levels => rfl
  rw [addr_eq, addr_eq, hinner, outerOf_last h]

/-- An element of a nest is an element of the nest below its outermost level, which starts where that
level has got to. -/
theorem addr_concat (hpos : 0 < l.trip) (hlt : l.trip < 2 ^ 64) (idx : Nat) :
    addr { start, levels := levels ++ [l, l'] } idx =
      addr { start := start + l'.stride.toUInt64 * UInt64.ofNat (idx / l.trip),
             levels := levels ++ [l] } (idx % l.trip) := by
  have hnat : (UInt64.ofNat l.trip).toNat = l.trip := by
    rw [UInt64.toNat_ofNat', Nat.mod_eq_of_lt hlt]
  have hne : UInt64.ofNat l.trip ≠ 0 := by
    intro hzero
    rw [hzero] at hnat
    exact absurd hnat (Nat.ne_of_lt hpos)
  have hinner : ∀ start' : UInt64, innerStrideOf (levelWords (levels ++ [l, l']) ++ [start]) =
      innerStrideOf (levelWords (levels ++ [l]) ++ [start']) := by
    intro start'
    cases levels <;> rfl
  rw [addr_eq, addr_eq, outerOf_concat, peel_concat hne, hnat, ← hinner]

/-- A step of the outermost level is as many elements as the levels below it have, and adds the stride
of the level. -/
theorem addr_step (hpos : 0 < tripBelow levels) (hlt : tripBelow levels < 2 ^ 64) (r k : Nat) :
    addr { start, levels := levels ++ [l] } (r + tripBelow levels * k) =
      addr { start, levels := levels ++ [l] } r + l.stride.toUInt64 * UInt64.ofNat k := by
  rcases List.eq_nil_or_concat levels with rfl | ⟨below, b, rfl⟩
  · have hone : tripBelow [] = 1 := rfl
    rw [hone, Nat.one_mul, List.nil_append, addr_single, addr_single, UInt64.ofNat_add]
    ring
  · rw [List.concat_eq_append, tripBelow_concat] at hpos hlt ⊢
    rw [List.append_assoc, List.singleton_append, addr_concat hpos hlt, addr_concat hpos hlt,
      Nat.add_mul_div_left r k hpos, Nat.add_mul_mod_self_left, UInt64.ofNat_add,
      addr_add _ _ _ _ (by simp), addr_add _ _ _ _ (by simp)]
    ring

/-- Before the first step of the outermost loop only the loops below it have moved. -/
theorem addr_below {r : Nat} (hlt : tripBelow levels < 2 ^ 64) (hr : r < tripBelow levels) :
    addr { start, levels := levels ++ [l] } r = addr { start, levels } r := by
  rcases List.eq_nil_or_concat levels with rfl | ⟨below, b, rfl⟩
  · obtain rfl : r = 0 := Nat.lt_one_iff.1 hr
    exact (add_mul_ofNat_zero start _).trans (add_mul_ofNat_zero start start).symm
  · rw [List.concat_eq_append, tripBelow_concat] at hlt hr
    rw [List.concat_eq_append, List.append_assoc, List.singleton_append,
      addr_concat (Nat.zero_lt_of_lt hr) hlt, Nat.div_eq_of_lt hr, Nat.mod_eq_of_lt hr,
      add_mul_ofNat_zero]

/-! ## Decoding -/

theorem levelWords_levelsOf : ∀ {ws : List UInt64}, ws.length % 2 = 0 → levelWords (levelsOf ws) = ws
  | [], _ => rfl
  | [_], h => absurd h (Nat.succ_ne_zero 0)
  | s :: t :: rest, h => by
      have hrest : rest.length % 2 = 0 := by
        simp only [List.length_cons] at h
        omega
      rw [levelsOf, levelWords_cons, levelWords_levelsOf hrest, UInt64.toUInt64_toInt64,
        UInt64.ofNat_toNat]

theorem map_trip_levelsOf : ∀ ws : List UInt64,
    (levelsOf ws).map Level.trip = (tripsOf ws).map UInt64.toNat
  | [] => rfl
  | [_] => rfl
  | s :: t :: rest => by
      rw [levelsOf, tripsOf, List.map_cons, List.map_cons, map_trip_levelsOf rest]

/-- Decoding loses nothing. -/
theorem words_decoded (hodd : words.length % 2 = 1) :
    ({ start := startOf words, levels := levelsOf words.dropLast } : LinearPattern).words = words := by
  have hne : words ≠ [] := by
    rintro rfl
    cases hodd
  have heven : words.dropLast.length % 2 = 0 := by
    rw [List.length_dropLast]
    omega
  rw [words_mk, levelWords_levelsOf heven, startOf, List.getLastD_eq_getLast?,
    List.getLast?_eq_getLast_of_ne_nil hne, Option.getD_some, List.dropLast_append_getLast hne]

/-- What has been read of a list that is decoded. -/
theorem exists_words_of_decode {ps : Formal} {p : LinearPattern} (h : decode ps = .ok p) :
    (ps.length % 2 = 1 ∧ 3 ≤ ps.length) ∧ ∃ words, invariantWords ps = .ok words ∧
      p = { start := startOf words, levels := levelsOf words.dropLast } := by
  by_cases hcount : ps.length < 3 ∨ ps.length % 2 = 0
  · simp only [decode, if_pos hcount] at h
    cases h
  simp only [decode, if_neg hcount] at h
  rcases bind_eq_ok.1 h with ⟨_, _, h⟩
  rcases bind_eq_ok.1 h with ⟨words, hwords, h⟩
  cases h
  exact ⟨by omega, words, hwords, rfl⟩

/-- A list that is decoded has an odd number of words. -/
theorem decode_eq_ok {ps : Formal} {p : LinearPattern} (hwords : ps.words? = some words)
    (h : decode ps = .ok p) :
    words.length % 2 = 1 ∧ 3 ≤ words.length ∧
      p = { start := startOf words, levels := levelsOf words.dropLast } := by
  have hlen : ps.length = words.length := by
    rcases Formal.exists_of_words? hwords with ⟨vs, rfl, rfl⟩
    rw [List.length_map, List.length_map]
  rcases exists_words_of_decode h with ⟨⟨hodd, hthree⟩, ws, hws, hp⟩
  rw [invariantWords_eq hwords] at hws
  cases hws
  exact ⟨hlen ▸ hodd, hlen ▸ hthree, hp⟩

/-- The address of an element of a single loop does not depend on how many there are. -/
theorem addr_oneDim (start stride : UInt64) (total idx : Nat) :
    addr (oneDim start stride.toInt64 total) idx = start + stride * UInt64.ofNat idx := by
  rw [oneDim, addr_single, UInt64.toUInt64_toInt64]

/-- The flat form of a decoded list keeps its start, its innermost stride and its total trip. -/
theorem flatten?_of_decode {ps : Formal} {p : LinearPattern} (hwords : ps.words? = some words)
    (h : decode ps = .ok p) :
    p.flatten? = some (oneDim (startOf words) (innerStrideOf words).toInt64 p.totalTrip) := by
  rcases decode_eq_ok hwords h with ⟨_, hthree, rfl⟩
  match words, hthree with
  | _ :: _ :: _ :: _, _ => rfl

end LinearPattern
end StreamEngine
