import Mathlib.Data.Set.List
import StreamEngine.Proofs.Linear.Addresses

/-!
# Lists that are decoded

A list without references consists of words. It is decoded unless there is no total trip in it or a trip
shrinks.

* `words?_of_invariantWords`, `exists_words_of_isContinuous` — lists without references;
* `Formal.Counted` — the list has its total trip in it, and no trip shrinks;
* `LinearPattern.decode_of_words`, `LinearPattern.exists_decode_iff` — these lists are decoded;
* `LinearPattern.decode_encoding` — the lists that are decoded, spelled out, and that decoding keeps their
  meaning;
* `LinearPattern.vanishing_trip_decoded` — a trip that falls to zero.
-/

namespace StreamEngine

open Linear

/-- A list of an odd number of at least three words, in which no cumulative trip is smaller than the one
below it. A zero trip compares with neither neighbour. -/
structure Formal.Counted (ps : Formal) (words : List UInt64) : Prop where
  words? : ps.words? = some words
  length : ∃ levels, 1 ≤ levels ∧ words.length = 2 * levels + 1
  grows : (1 :: tripsOf words.dropLast).IsChain fun below trip => below = 0 ∨ trip = 0 ∨ below ≤ trip

namespace Linear

/-- A list without references consists of words. -/
theorem words?_of_invariantWords {ps : Formal} {words : List UInt64}
    (h : invariantWords ps = .ok words) : ps.words? = some words := by
  cases hbase : ps.firstBase? with
  | some i =>
      rw [invariantWords, hbase] at h
      cases h
  | none =>
      have hvalues : ∀ p ∈ ps, p ∈ Set.range Param.invariant := by
        intro p hp
        have hinvariant := List.findIdx?_eq_none_iff.1 hbase p hp
        cases p with
        | invariant v => exact ⟨v, rfl⟩
        | base id => cases hinvariant
      have hps : ps ∈ Set.range (List.map Param.invariant) := by
        rw [Set.range_list_map]
        exact hvalues
      rcases hps with ⟨vs, rfl⟩
      rw [invariantWords_eq (Formal.words?_map vs)] at h
      rw [Formal.words?_map, Except.ok.inj h]

/-- A walk without gaps is one over words. -/
theorem exists_words_of_isContinuous {ps : Formal} {elemSize : Nat}
    (h : isContinuous ps elemSize = true) : ∃ words, ps.words? = some words := by
  cases hwords : invariantWords ps with
  | error e =>
      rw [isContinuous, hwords] at h
      cases h
  | ok words => exact ⟨words, words?_of_invariantWords hwords⟩

theorem shrinksAbove_eq_false {below : UInt64} {trips : List UInt64} :
    shrinksAbove below trips = false ↔
      (below :: trips).IsChain fun below trip => below = 0 ∨ trip = 0 ∨ below ≤ trip := by
  induction trips generalizing below with
  | nil => simp [shrinksAbove]
  | cons t trips ih =>
      rw [shrinksAbove, Bool.or_eq_false_iff, ih, List.isChain_cons_cons]
      refine and_congr_left fun _ => ?_
      simp only [Bool.and_eq_false_iff, bne_eq_false_iff_eq, decide_eq_false_iff_not, UInt64.not_lt, or_assoc]

end Linear

namespace LinearPattern

variable {ps : Formal} {words : List UInt64}

theorem describe_of_words (hwords : ps.words? = some words) (hne : words ≠ []) :
    describe ps =
      if shrinks words then .error (.nonMonotonicTrip words) else .ok (ratioForm words) := by
  have hempty : words.isEmpty = false := Bool.eq_false_of_not_eq_true (mt List.isEmpty_iff.1 hne)
  rw [describe, invariantWords_eq hwords]
  exact if_neg (Bool.eq_false_iff.1 hempty)

/-- All that can be wrong with a list of words: how many there are, and a trip that shrinks. -/
theorem decode_of_words (hwords : ps.words? = some words) :
    decode ps =
      if words.length < 3 ∨ words.length % 2 = 0 then .error (.paramCount ps)
      else if shrinks words then .error (.nonMonotonicTrip words)
      else .ok { start := startOf words, levels := levelsOf words.dropLast } := by
  have hlen : ps.length = words.length := by
    rcases Formal.exists_of_words? hwords with ⟨vs, rfl, rfl⟩
    rw [List.length_map, List.length_map]
  rw [decode, hlen]
  by_cases hcount : words.length < 3 ∨ words.length % 2 = 0
  · rw [if_pos hcount, if_pos hcount]
  have hne : words ≠ [] := by
    rintro rfl
    exact hcount (Or.inl (Nat.succ_pos 2))
  rw [if_neg hcount, if_neg hcount, describe_of_words hwords hne]
  by_cases hshrinks : shrinks words = true
  · rw [if_pos hshrinks, if_pos hshrinks]
    rfl
  · rw [if_neg hshrinks, if_neg hshrinks, invariantWords_eq hwords]
    rfl

/-- A list of words is decoded just if it has its total trip in it and no trip shrinks. -/
theorem exists_decode_iff (hwords : ps.words? = some words) :
    (∃ p, decode ps = .ok p) ↔ ∃ words, ps.Counted words := by
  rw [decode_of_words hwords]
  constructor
  · rintro ⟨p, hp⟩
    by_cases hcount : words.length < 3 ∨ words.length % 2 = 0
    · rw [if_pos hcount] at hp
      cases hp
    rw [if_neg hcount] at hp
    by_cases hshrinks : shrinks words = true
    · rw [if_pos hshrinks] at hp
      cases hp
    exact ⟨words, hwords, ⟨words.length / 2, by omega, by omega⟩,
      shrinksAbove_eq_false.1 (Bool.eq_false_of_not_eq_true hshrinks)⟩
  · rintro ⟨words', hwords', ⟨levels, hpos, hlength⟩, hgrows⟩
    rw [hwords] at hwords'
    cases hwords'
    have hcount : ¬ (words.length < 3 ∨ words.length % 2 = 0) := by omega
    have hshrinks : shrinks words = false := shrinksAbove_eq_false.2 hgrows
    rw [if_neg hcount, hshrinks]
    exact ⟨_, rfl⟩

/-! ## Lists of loops -/

/-- Strides and trips in alternation come in pairs. -/
theorem exists_loops : ∀ {ws : List UInt64}, ws.length % 2 = 0 →
    ∃ loops : List (UInt64 × UInt64), ws = loops.flatMap fun l => [l.1, l.2]
  | [], _ => ⟨[], rfl⟩
  | [_], h => absurd h (Nat.succ_ne_zero 0)
  | s :: t :: rest, h => by
      have hrest : rest.length % 2 = 0 := by
        simp only [List.length_cons] at h
        omega
      rcases exists_loops hrest with ⟨loops, rfl⟩
      exact ⟨(s, t) :: loops, rfl⟩

theorem tripsOf_loops (loops : List (UInt64 × UInt64)) :
    tripsOf (loops.flatMap fun l => [l.1, l.2]) = loops.map Prod.snd := by
  induction loops with
  | nil => rfl
  | cons l loops ih => exact congrArg (l.2 :: ·) ih

theorem length_loops (loops : List (UInt64 × UInt64)) :
    (loops.flatMap fun l => [l.1, l.2]).length = 2 * loops.length := by
  induction loops with
  | nil => rfl
  | cons l loops ih =>
      simp only [List.flatMap_cons, List.length_append, List.length_cons, List.length_nil, ih]
      omega

/-- The first trip stands above a single element and never shrinks. -/
theorem grows_from_one {trips : List UInt64} :
    ((1 :: trips).IsChain fun below trip => below = 0 ∨ trip = 0 ∨ below ≤ trip) ↔
      trips.IsChain fun below trip => below = 0 ∨ trip = 0 ∨ below ≤ trip := by
  cases trips with
  | nil => simp
  | cons t trips =>
      rw [List.isChain_cons_cons, and_iff_right_iff_imp]
      intro _
      by_cases hzero : t = 0
      · exact Or.inr (Or.inl hzero)
      · have hpos : 0 < t.toNat := Nat.pos_of_ne_zero fun h => hzero (UInt64.toNat_inj.1 h)
        exact Or.inr (Or.inr (UInt64.le_iff_toNat_le.2 hpos))

/-- A list is counted if it spells out at least one loop and ends in the start. -/
theorem exists_counted_iff :
    (∃ words, ps.Counted words) ↔
      ∃ (loops : List (UInt64 × UInt64)) (start : UInt64), loops ≠ [] ∧
        ps.words? = some (loops.flatMap (fun l => [l.1, l.2]) ++ [start]) ∧
        (loops.map Prod.snd).IsChain fun below trip => below = 0 ∨ trip = 0 ∨ below ≤ trip := by
  constructor
  · rintro ⟨words, hwords, ⟨levels, hpos, hlength⟩, hgrows⟩
    have hne : words ≠ [] := by
      rintro rfl
      cases hlength
    have heven : words.dropLast.length % 2 = 0 := by
      rw [List.length_dropLast]
      omega
    rcases exists_loops heven with ⟨loops, hloops⟩
    have hsplit := List.dropLast_append_getLast hne
    rw [hloops] at hsplit hgrows
    rw [tripsOf_loops, grows_from_one] at hgrows
    refine ⟨loops, words.getLast hne, ?_, by rw [hsplit, hwords], hgrows⟩
    rintro rfl
    have hnone := congrArg List.length hloops
    rw [List.length_dropLast, hlength] at hnone
    simp only [List.flatMap_nil, List.length_nil] at hnone
    omega
  · rintro ⟨loops, start, hne, hwords, hgrows⟩
    have hpos := List.length_pos_of_ne_nil hne
    refine ⟨_, hwords, ⟨loops.length, hpos, ?_⟩, ?_⟩
    · rw [List.length_append, length_loops, List.length_singleton]
    · rw [List.dropLast_concat, tripsOf_loops]
      exact grows_from_one.2 hgrows

/-! ## The encoding of a nest -/

/-- A list is decoded if and only if it has no references and consists of at least one loop, each with its
stride and its cumulative trip, and the start, where no trip is smaller than the one directly below it
unless one of the two is zero. What is decoded has the words of the list, and so their addresses. -/
theorem decode_encoding (ps : Formal) :
    ((∃ p, decode ps = .ok p) ↔
      ∃ (loops : List (UInt64 × UInt64)) (start : UInt64), loops ≠ [] ∧
        ps.words? = some (loops.flatMap (fun l => [l.1, l.2]) ++ [start]) ∧
        (loops.map Prod.snd).IsChain fun below trip => below = 0 ∨ trip = 0 ∨ below ≤ trip) ∧
      ∀ p, decode ps = .ok p → ∃ words, ps.words? = some words ∧ p.toFormal.words? = some words ∧
        ∀ idx, ∃ a, address? words idx = .ok a ∧ address? p.words idx = .ok a := by
  have hwords : ∀ {p}, decode ps = .ok p → ∃ words, ps.words? = some words := by
    intro p h
    rcases exists_words_of_decode h with ⟨_, words, hwords, _⟩
    exact ⟨words, words?_of_invariantWords hwords⟩
  constructor
  · rw [← exists_counted_iff]
    constructor
    · rintro ⟨p, h⟩
      rcases hwords h with ⟨words, hps⟩
      exact (exists_decode_iff hps).1 ⟨p, h⟩
    · rintro ⟨words, hcounted⟩
      exact (exists_decode_iff hcounted.words?).2 ⟨words, hcounted⟩
  · intro p h
    rcases hwords h with ⟨words, hps⟩
    rcases decode_eq_ok hps h with ⟨hodd, hthree, rfl⟩
    have hlen : ¬ words.length < 2 := by omega
    have haddress : ∀ idx, address? words idx = .ok (address words idx) := fun _ => if_neg hlen
    rw [LinearPattern.toFormal, Formal.words?_ofWords, words_decoded hodd]
    exact ⟨words, hps, rfl, fun idx => ⟨_, haddress idx, haddress idx⟩⟩

/-- Planes of rows of which there are none: the zero trip compares neither with the trip below it nor with
the one above it. -/
theorem decode_encoding_planes :
    ∃ p, decode (Formal.ofWords [8, 4, 64, 0, 512, 2, 0x40]) = .ok p ∧
      p.toFormal.words? = some [8, 4, 64, 0, 512, 2, 0x40] ∧ address? p.words 3 = .ok 0x58 := by
  have hwords := Formal.words?_ofWords [8, 4, 64, 0, 512, 2, 0x40]
  have hgrows : [(4 : UInt64), 0, 2].IsChain fun below trip => below = 0 ∨ trip = 0 ∨ below ≤ trip := by
    decide
  rcases (decode_encoding (Formal.ofWords [8, 4, 64, 0, 512, 2, 0x40])).1.2
    ⟨[(8, 4), (64, 0), (512, 2)], 0x40, by decide, hwords, hgrows⟩ with ⟨p, hp⟩
  rcases (decode_encoding _).2 p hp with ⟨words, hps, hformal, haddress⟩
  rw [hwords] at hps
  cases hps
  rcases haddress 3 with ⟨a, ha, hpa⟩
  refine ⟨p, hp, hformal, ?_⟩
  rw [hpa, ← ha]
  rfl

/-- Rows of four words and no row at all: the trip falls from four to zero, and the list is decoded. -/
theorem vanishing_trip_decoded :
    ∃ p, decode (Formal.ofWords [8, 4, 64, 0, 0x40]) = .ok p ∧ p.trips = [4, 0] ∧
      ¬ p.trips.IsChain (· ≤ ·) :=
  ⟨_, rfl, rfl, by decide⟩

end LinearPattern
end StreamEngine
