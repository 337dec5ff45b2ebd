import Mathlib.Algebra.BigOperators.Ring.List
import StreamEngine.Proofs.Linear.Dealing

/-!
# Splitting a loop of a ragged pattern

A decoded pattern may have a cumulative trip that is no multiple of the one below it. A split of one of its
loops rounds every extent down, so the strands together have as many elements as the product of the extents
says, and the tail of the pattern belongs to none of them. They have the elements of the pattern exactly if
there is no tail.

* `prod_extentsAbove_le`, `nested_of_prod` — extents rounded down, and what it means if nothing is lost;
* `sum_totalTrip` — how many elements the shares have together;
* `splitDim_complete_iff` — when they are the elements of the pattern;
* `split_loses_tail` — a tail that no strand walks.
-/

namespace StreamEngine
namespace LinearPattern

open Linear

variable {l : Level} {i : Interleave} {d interleave n : Nat} {p : LinearPattern}

/-! ## Extents rounded down -/

theorem prod_extentsAbove_le (below : Nat) (trips : List Nat) :
    below * (extentsAbove below trips).prod ≤ trips.getLastD below := by
  induction trips generalizing below with
  | nil => exact Nat.le_of_eq (Nat.mul_one below)
  | cons t trips ih =>
      rw [extentsAbove, List.prod_cons, ← Nat.mul_assoc, List.getLastD_cons]
      refine Nat.le_trans (Nat.mul_le_mul_right _ ?_) (ih t)
      by_cases hzero : below = 0
      · rw [if_pos hzero]
        exact Nat.zero_le t
      · rw [if_neg hzero]
        exact Nat.mul_div_le t below

theorem getLastD_pos {below : Nat} {trips : List Nat} (hbelow : 0 < below) (h : ∀ t ∈ trips, 0 < t) :
    0 < trips.getLastD below := by
  induction trips generalizing below with
  | nil => exact hbelow
  | cons t trips ih =>
      rw [List.getLastD_cons]
      exact ih (h t List.mem_cons_self) fun u hu => h u (List.mem_cons_of_mem t hu)

/-- If rounding loses nothing, every trip is a multiple of the one below it. -/
theorem nested_of_prod {below : Nat} {trips : List Nat} (hbelow : 0 < below) (hpos : ∀ t ∈ trips, 0 < t)
    (h : below * (extentsAbove below trips).prod = trips.getLastD below) :
    NestedAbove below trips := by
  induction trips generalizing below with
  | nil => exact List.isChain_singleton below
  | cons t trips ih =>
      have ht := hpos t List.mem_cons_self
      have htail : ∀ u ∈ trips, 0 < u := fun u hu => hpos u (List.mem_cons_of_mem t hu)
      rw [extentsAbove, if_neg (Nat.ne_of_gt hbelow), List.prod_cons, ← Nat.mul_assoc,
        List.getLastD_cons] at h
      -- what is above `t` rounds down to the last trip at most, so `t` itself is not rounded
      have hle := prod_extentsAbove_le t trips
      have hround : below * (t / below) ≤ t := Nat.mul_div_le t below
      have hprod : 0 < (extentsAbove t trips).prod := by
        refine Nat.pos_of_ne_zero fun hzero => ?_
        rw [hzero, Nat.mul_zero] at h
        exact Nat.ne_of_lt (getLastD_pos ht htail) h
      have hexact : below * (t / below) = t := by
        refine Nat.le_antisymm hround (Nat.le_of_mul_le_mul_right ?_ hprod)
        rw [h]
        exact hle
      rw [hexact] at h
      exact nestedAbove_cons.2 ⟨⟨ht, Dvd.intro _ hexact⟩, ih ht htail h⟩

/-- A pattern has no fewer elements than its extents say. -/
theorem prod_extents_le (hl : p.levels[d]? = some l) : p.extents.prod ≤ p.totalTrip := by
  rw [← getLastD_trips hl, extents, ← Nat.one_mul (List.prod _)]
  exact prod_extentsAbove_le 1 p.trips

/-- A pattern without zero trips is a nest if it has no more elements than its extents say. -/
theorem nested_iff (hpos : ∀ t ∈ p.trips, 0 < t) (hl : p.levels[d]? = some l) :
    Nested p.trips ↔ p.extents.prod = p.totalTrip := by
  refine ⟨fun hnest => prod_extents_of_nested hnest hl, fun h => ?_⟩
  refine nested_of_prod Nat.zero_lt_one hpos ?_
  rw [Nat.one_mul, getLastD_trips hl]
  exact h

/-! ## What the shares have together -/

theorem sum_totalTrip (h : p.SplitsAt d interleave n l i) :
    ((List.range n).map fun s => (p.share d l i s).totalTrip).sum = p.extents.prod := by
  obtain rfl := h.strands_eq
  simp only [totalTrip_share, Nat.mul_assoc]
  rw [List.sum_map_mul_right, i.sum_tripCount, ← prod_extents h.level]
  ring

/-- The shares of all strands are the elements of the pattern if and only if every cumulative trip is a
multiple of the one below it. -/
theorem perm_shares_iff (hwords : ∀ k ∈ p.levels, k.trip < 2 ^ 64)
    (h : p.SplitsAt d interleave n l i) (hn : 0 < n) :
    ((List.range n).flatMap fun s => (p.share d l i s).addresses).Perm p.addresses ↔
      Nested p.trips := by
  constructor
  · intro hperm
    have hlen := hperm.length_eq
    rw [List.length_flatMap] at hlen
    simp only [addresses, List.length_map, List.length_range] at hlen
    rw [sum_totalTrip h] at hlen
    exact (nested_iff h.trips_pos h.level).2 hlen
  · intro hnest
    have hshares : ((List.range n).flatMap fun s => (p.share d l i s).addresses) =
        ((List.range n).flatMap (p.dealt d interleave n)).map p.addr := by
      rw [List.map_flatMap]
      exact List.flatMap_congr fun s hs => addresses_share hwords hnest h (List.mem_range.1 hs)
    rw [hshares]
    exact (perm_dealt p d interleave hn).map p.addr

/-! ## Decoded patterns -/

/-- The trips of a decoded pattern are words. -/
theorem trip_lt_of_decode {ps : Formal} (h : decode ps = .ok p) : ∀ k ∈ p.levels, k.trip < 2 ^ 64 := by
  rcases exists_words_of_decode h with ⟨_, words, _, rfl⟩
  intro k hk
  have hmem : k.trip ∈ (levelsOf words.dropLast).map Level.trip := List.mem_map_of_mem hk
  rw [map_trip_levelsOf] at hmem
  rcases List.mem_map.1 hmem with ⟨w, _, hw⟩
  rw [← hw]
  exact w.toNat_lt

/-- The shares of all strands together have as many elements as the extents of the pattern say, which may be
fewer than the pattern has. They are the elements of the pattern if and only if every cumulative trip is a
multiple of the one below it. -/
theorem splitDim_complete_iff {ps : Formal} {shares : Nat → LinearPattern} (hdecode : decode ps = .ok p)
    (hn : 0 < n) (hshares : ∀ s < n, p.splitDim d interleave s n = .ok (shares s)) :
    (((List.range n).map fun s => (shares s).totalTrip).sum = p.extents.prod ∧
        p.extents.prod ≤ p.totalTrip) ∧
      (((List.range n).flatMap fun s => (shares s).addresses).Perm p.addresses ↔ Nested p.trips) := by
  rcases (splitDim_eq_ok hn).1 (hshares 0 hn) with ⟨l, i, hsplit, _⟩
  have hshare : ∀ s ∈ List.range n, shares s = p.share d l i s := by
    intro s hs
    have hs := List.mem_range.1 hs
    have hok := (splitDim_eq_ok hs).2 ⟨l, i, hsplit, rfl⟩
    rw [hshares s hs] at hok
    exact Except.ok.inj hok
  rw [List.map_congr_left fun s hs => congrArg totalTrip (hshare s hs),
    List.flatMap_congr fun s hs => congrArg addresses (hshare s hs)]
  exact ⟨⟨sum_totalTrip hsplit, prod_extents_le hsplit.level⟩,
    perm_shares_iff (trip_lt_of_decode hdecode) hsplit hn⟩

/-- Rows of four columns, of which the last one ends after two. -/
def raggedRows : LinearPattern :=
  { start := 0, levels := [{ stride := 1, trip := 4 }, { stride := 100, trip := 10 }] }

/-- The two strands get four elements of the pattern each, and the last two elements go to neither. -/
theorem split_loses_tail :
    ∃ q q', decode (Formal.ofWords [1, 4, 100, 10, 0]) = .ok raggedRows ∧
      (∀ t ∈ raggedRows.trips, 0 < t) ∧ ¬ Nested raggedRows.trips ∧
      raggedRows.splitDim 1 4 0 2 = .ok q ∧ raggedRows.splitDim 1 4 1 2 = .ok q' ∧
      ¬ (q.addresses ++ q'.addresses).Perm raggedRows.addresses := by
  refine ⟨_, _, rfl, by decide, by decide, rfl, rfl, ?_⟩
  decide +kernel

/-- Where the ragged pattern is split, eight of its ten elements are left. -/
theorem splitDim_complete_iff_rows :
    ∃ shares : Nat → LinearPattern, (∀ s < 2, raggedRows.splitDim 1 4 s 2 = .ok (shares s)) ∧
      ((List.range 2).map fun s => (shares s).totalTrip).sum = 8 ∧
      ¬ ((List.range 2).flatMap fun s => (shares s).addresses).Perm raggedRows.addresses := by
  have hdecode : decode (Formal.ofWords [1, 4, 100, 10, 0]) = .ok raggedRows := rfl
  have hshares : ∃ shares : Nat → LinearPattern,
      ∀ s < 2, raggedRows.splitDim 1 4 s 2 = .ok (shares s) := by
    refine ⟨fun s => raggedRows.share 1 { stride := 100, trip := 10 }
      { run := 1, strands := 2, run_pos := Nat.one_pos, strands_pos := Nat.two_pos } s, ?_⟩
    intro s hs
    have hcases : s = 0 ∨ s = 1 := by omega
    rcases hcases with rfl | rfl <;> rfl
  rcases hshares with ⟨shares, hshares⟩
  rcases splitDim_complete_iff hdecode Nat.two_pos hshares with ⟨⟨hsum, _⟩, hperm⟩
  exact ⟨shares, hshares, hsum, fun h => absurd (hperm.1 h) (by decide)⟩

end LinearPattern
end StreamEngine
