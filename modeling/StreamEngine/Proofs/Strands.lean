import Mathlib.Data.List.Sort
import Mathlib.Data.List.TakeWhile
import Mathlib.Tactic.Ring
import StreamEngine.Strand

/-!
# Partitions among strands

A partition gives every element of a stream to exactly one element of a strand, whether it deals runs
or ranges.

* `StrandSplit.Deals` — the maps between stream and strands are inverse on the elements there are;
* `Interleave.deals` — dealing runs, for every length of the stream, whole rounds or not;
* `Interleave.map_toStream`, `Interleave.scale_tripCount` — the elements of a strand in order, and runs of
  another length;
* `StrandSplit.deals_evenBounds` — even ranges, where later ones may be empty;
* `StrandSplit.Deals.existsUnique` — the one strand element of a stream element;
* `StrandSplit.Bijective`, `StrandSplit.made_bijective` — the maps are inverse on every index, beyond the
  end of the stream too, and keep the order.
-/

namespace StreamEngine

/-- The split divides the first `total` elements of a stream among `n` strands, and strand `s` has
`trip s` of them. -/
structure StrandSplit.Deals (split : StrandSplit) (total n : Nat) (trip : Nat → Nat) : Prop where
  totalStrands : split.totalStrands = n
  tripCount : ∀ s < n, split.tripCount total s = .ok (trip s)
  sum_trip : ((List.range n).map trip).sum = total
  /-- Every strand element is a stream element, which leads back to it. -/
  toStream : ∀ s < n, ∀ e < trip s, ∃ i < total,
    split.toStream ⟨s, e⟩ = .ok i ∧ split.toStrand i = .ok ⟨s, e⟩
  /-- No stream element is left out. -/
  covers : ∀ i < total, ∃ s < n, ∃ e < trip s, split.toStream ⟨s, e⟩ = .ok i

/-- Every stream element belongs to exactly one strand element. -/
theorem StrandSplit.Deals.existsUnique {split : StrandSplit} {total n : Nat} {trip : Nat → Nat}
    (h : split.Deals total n trip) {i : Nat} (hi : i < total) :
    ∃! x : StrandElem, x.strand < n ∧ x.elem < trip x.strand ∧ split.toStream x = .ok i := by
  rcases h.covers i hi with ⟨s, hs, e, he, hstream⟩
  refine ⟨⟨s, e⟩, ⟨hs, he, hstream⟩, ?_⟩
  -- both lead to element `i`, and from there back to themselves
  have hback : ∀ x : StrandElem, x.strand < n → x.elem < trip x.strand →
      split.toStream x = .ok i → split.toStrand i = .ok x := by
    intro x hx hxe hxi
    rcases h.toStream x.strand hx x.elem hxe with ⟨j, _, hj, hj'⟩
    have hij : (.ok i : Except Fault Nat) = .ok j := hxi.symm.trans hj
    cases hij
    exact hj'
  rintro y ⟨hy, hye, hyi⟩
  have hsame : (.ok y : Except Fault StrandElem) = .ok ⟨s, e⟩ :=
    (hback y hy hye hyi).symm.trans (hback ⟨s, e⟩ hs he hstream)
  cases hsame
  rfl

/-! ## Digits -/

/-- A smaller high digit leaves room for a whole low one. -/
theorem mul_add_le_mul {a c : Nat} (h : a < c) (b : Nat) : a * b + b ≤ c * b := by
  rw [← Nat.succ_mul]
  exact Nat.mul_le_mul_right b h

/-- Numbers of two digits compare like their high digits first. The low digit on the right may be a
full digit. -/
theorem digits_lt_iff {a c x y b : Nat} (hx : x < b) (hy : y ≤ b) :
    a * b + x < c * b + y ↔ a < c ∨ a = c ∧ x < y := by
  rcases Nat.lt_trichotomy a c with hac | rfl | hac
  · have hmul := mul_add_le_mul hac b
    constructor
    · exact fun _ => Or.inl hac
    · intro _
      omega
  · constructor
    · intro h
      exact Or.inr ⟨rfl, by omega⟩
    · rintro (h | ⟨_, h⟩)
      · exact absurd h (Nat.lt_irrefl a)
      · omega
  · have hmul := mul_add_le_mul hac b
    constructor
    · intro h
      omega
    · rintro (h | ⟨h, _⟩) <;> omega

/-- Filling `r` elements into runs one after the other uses up no more than there are. -/
theorem sum_range_min (r run n : Nat) :
    ((List.range n).map fun s => min (r - s * run) run).sum = min r (n * run) := by
  induction n with
  | zero => simp
  | succ n ih =>
      rw [List.range_succ, List.map_append, List.sum_append, ih]
      simp only [List.map_cons, List.map_nil, List.sum_cons, List.sum_nil, Nat.add_mul, Nat.one_mul]
      omega

theorem sum_range_const_add (c n : Nat) (f : Nat → Nat) :
    ((List.range n).map fun s => c + f s).sum = n * c + ((List.range n).map f).sum := by
  induction n with
  | zero => simp
  | succ n ih =>
      rw [List.range_succ, List.map_append, List.sum_append, ih]
      simp only [List.map_append, List.sum_append, List.map_cons, List.map_nil, List.sum_cons,
        List.sum_nil, Nat.add_mul, Nat.one_mul]
      omega

/-! ## Dealing runs -/

namespace Interleave

variable {i : Interleave} {s e idx total : Nat}

/-- The runs of the stream in order: in round `e / run` it is the strand's turn after `s` others. -/
theorem toStream_eq (i : Interleave) (s e : Nat) :
    i.toStream ⟨s, e⟩ = (e / i.run * i.strands + s) * i.run + e % i.run := by
  simp only [toStream, period]
  ring

theorem toStream_div (i : Interleave) (s e : Nat) :
    i.toStream ⟨s, e⟩ / i.run = e / i.run * i.strands + s := by
  have hr : e % i.run < i.run := Nat.mod_lt e i.run_pos
  rw [toStream_eq, Nat.mul_comm, Nat.mul_add_div i.run_pos, Nat.div_eq_of_lt hr, Nat.add_zero]

theorem toStream_mod (i : Interleave) (s e : Nat) : i.toStream ⟨s, e⟩ % i.run = e % i.run := by
  rw [toStream_eq, Nat.mul_comm, Nat.mul_add_mod, Nat.mod_mod]

theorem toStrand_toStream (hs : s < i.strands) : i.toStrand (i.toStream ⟨s, e⟩) = ⟨s, e⟩ := by
  have hround : i.toStream ⟨s, e⟩ / i.period = e / i.run := by
    rw [period, ← Nat.div_div_eq_div_mul, toStream_div, Nat.mul_comm,
      Nat.mul_add_div i.strands_pos, Nat.div_eq_of_lt hs, Nat.add_zero]
  have hstrand : i.toStream ⟨s, e⟩ / i.run % i.strands = s := by
    rw [toStream_div, Nat.mul_comm, Nat.mul_add_mod, Nat.mod_eq_of_lt hs]
  rw [toStrand, hround, hstrand, toStream_mod, Nat.mul_comm, Nat.div_add_mod]

theorem toStrand_lt (i : Interleave) (idx : Nat) : (i.toStrand idx).strand < i.strands :=
  Nat.mod_lt _ i.strands_pos

theorem toStream_toStrand (i : Interleave) (idx : Nat) : i.toStream (i.toStrand idx) = idx := by
  have hr : idx % i.run < i.run := Nat.mod_lt idx i.run_pos
  have hround : (idx / i.period * i.run + idx % i.run) / i.run = idx / i.run / i.strands := by
    rw [Nat.mul_comm, Nat.mul_add_div i.run_pos, Nat.div_eq_of_lt hr, Nat.add_zero, period,
      Nat.div_div_eq_div_mul]
  have hrest : (idx / i.period * i.run + idx % i.run) % i.run = idx % i.run := by
    rw [Nat.mul_comm, Nat.mul_add_mod, Nat.mod_mod]
  calc i.toStream (i.toStrand idx)
      = (idx / i.run / i.strands * i.strands + idx / i.run % i.strands) * i.run + idx % i.run := by
        rw [toStrand, toStream_eq, hround, hrest]
    _ = idx / i.run * i.run + idx % i.run := by
        rw [Nat.div_add_mod']
    _ = idx := Nat.div_add_mod' idx i.run

/-- Inside its round an element lies behind the runs of the strands before. -/
theorem offset_lt_period (hs : s < i.strands) (e : Nat) : s * i.run + e % i.run < i.period := by
  have hr : e % i.run < i.run := Nat.mod_lt e i.run_pos
  have hmul := mul_add_le_mul hs i.run
  rw [period, Nat.mul_comm i.run]
  omega

/-- A strand has its elements in the order of the stream. -/
theorem toStream_lt (hs : s < i.strands) {e e' : Nat} (h : e < e') :
    i.toStream ⟨s, e⟩ < i.toStream ⟨s, e'⟩ := by
  have hr : e % i.run < i.run := Nat.mod_lt e i.run_pos
  have hr' : e' % i.run ≤ i.run := Nat.le_of_lt (Nat.mod_lt e' i.run_pos)
  -- a later round, or a later place in the run of one round
  have hdigits : e / i.run < e' / i.run ∨ e / i.run = e' / i.run ∧ e % i.run < e' % i.run := by
    rw [← digits_lt_iff hr hr', Nat.div_add_mod', Nat.div_add_mod']
    exact h
  rw [toStream, toStream, Nat.add_assoc, Nat.add_assoc,
    digits_lt_iff (offset_lt_period hs e) (Nat.le_of_lt (offset_lt_period hs e'))]
  exact hdigits.imp_right fun hsame => ⟨hsame.1, Nat.add_lt_add_left hsame.2 _⟩

/-- The elements of a strand are those that the stream has. -/
theorem lt_tripCount_iff (hs : s < i.strands) :
    e < i.tripCount total s ↔ i.toStream ⟨s, e⟩ < total := by
  have hr : e % i.run < i.run := Nat.mod_lt e i.run_pos
  have hlow := offset_lt_period hs e
  have hrest : total % i.period ≤ i.period :=
    Nat.le_of_lt (Nat.mod_lt total (Nat.mul_pos i.run_pos i.strands_pos))
  calc e < i.tripCount total s
      ↔ e / i.run * i.run + e % i.run <
          total / i.period * i.run + min (total % i.period - s * i.run) i.run := by
        rw [Nat.div_add_mod', tripCount]
    _ ↔ e / i.run < total / i.period ∨
          e / i.run = total / i.period ∧ e % i.run < min (total % i.period - s * i.run) i.run :=
        digits_lt_iff hr (Nat.min_le_right _ _)
    _ ↔ e / i.run < total / i.period ∨
          e / i.run = total / i.period ∧ s * i.run + e % i.run < total % i.period := by
        refine or_congr_right (and_congr_right fun _ => ?_)
        omega
    _ ↔ e / i.run * i.period + (s * i.run + e % i.run) <
          total / i.period * i.period + total % i.period := (digits_lt_iff hlow hrest).symm
    _ ↔ i.toStream ⟨s, e⟩ < total := by
        rw [Nat.div_add_mod', toStream, Nat.add_assoc]

theorem tripCount_le (i : Interleave) (total s : Nat) : i.tripCount total s ≤ total := by
  have hrun : i.run ≤ i.period := Nat.le_mul_of_pos_right i.run i.strands_pos
  calc i.tripCount total s
      ≤ total / i.period * i.period + total % i.period := by
        refine Nat.add_le_add (Nat.mul_le_mul_left _ hrun) ?_
        exact Nat.le_trans (Nat.min_le_left _ _) (Nat.sub_le _ _)
    _ = total := Nat.div_add_mod' total i.period

/-- The elements of a strand are those of the stream that are its own, in the same order. -/
theorem map_toStream (hs : s < i.strands) (total : Nat) :
    ((List.range (i.tripCount total s)).map fun e => i.toStream ⟨s, e⟩) =
      (List.range total).filter fun idx => idx / i.run % i.strands = s := by
  refine List.Pairwise.eq_of_mem_iff (r := (· < ·)) ?_ (List.pairwise_lt_range.filter _) ?_
  · rw [List.pairwise_map]
    exact List.pairwise_lt_range.imp (toStream_lt hs)
  intro idx
  simp only [List.mem_map, List.mem_filter, List.mem_range, decide_eq_true_eq]
  constructor
  · rintro ⟨e, he, rfl⟩
    refine ⟨(lt_tripCount_iff hs).1 he, ?_⟩
    rw [toStream_div, Nat.mul_comm, Nat.mul_add_mod, Nat.mod_eq_of_lt hs]
  · rintro ⟨hidx, hstrand⟩
    have hback : i.toStream ⟨s, (i.toStrand idx).elem⟩ = idx := by
      rw [← hstrand]
      exact i.toStream_toStrand idx
    refine ⟨(i.toStrand idx).elem, ?_, hback⟩
    rw [lt_tripCount_iff hs, hback]
    exact hidx

/-- Elements of strand `s` in the first round. -/
def firstRun (i : Interleave) (total s : Nat) : Nat :=
  min (total - s * i.run) i.run

theorem firstRun_of_le (hs : s < i.strands) (hround : i.period ≤ total) :
    i.firstRun total s = i.run := by
  have hfirst := offset_lt_period hs (i.run - 1)
  rw [Nat.mod_eq_of_lt (Nat.sub_lt i.run_pos Nat.zero_lt_one)] at hfirst
  rw [firstRun]
  omega

/-- In a stream of less than one round the first runs are all there is. -/
theorem tripCount_of_lt (hround : total < i.period) (s : Nat) :
    i.tripCount total s = i.firstRun total s := by
  rw [tripCount, Nat.div_eq_of_lt hround, Nat.mod_eq_of_lt hround, Nat.zero_mul, Nat.zero_add]
  rfl

/-- A first run is whole, or it is all that the strand has. -/
theorem firstRun_eq (hs : s < i.strands) (total : Nat) :
    i.firstRun total s = i.run ∨ i.tripCount total s = i.firstRun total s := by
  by_cases hround : i.period ≤ total
  · exact Or.inl (firstRun_of_le hs hround)
  · exact Or.inr (tripCount_of_lt (Nat.not_le.1 hround) s)

/-- Where the last round leaves whole runs, the first strands have one more each. -/
theorem tripCount_of_dvd (h : i.run ∣ total % i.period) (s : Nat) :
    i.tripCount total s =
      (total / i.period + if s < (total % i.period + i.run - 1) / i.run then 1 else 0) * i.run := by
  rcases h with ⟨m, hm⟩
  have hdiv : (i.run * m + i.run - 1) / i.run = m := by
    rw [Nat.add_sub_assoc i.run_pos, Nat.mul_add_div i.run_pos,
      Nat.div_eq_of_lt (Nat.sub_lt i.run_pos Nat.zero_lt_one), Nat.add_zero]
  rw [tripCount, hm, hdiv, Nat.add_mul, Nat.mul_comm s, ← Nat.mul_sub]
  congr 1
  by_cases hleft : s < m
  · rw [if_pos hleft, Nat.one_mul, Nat.min_eq_right]
    exact Nat.le_mul_of_pos_right i.run (Nat.sub_pos_of_lt hleft)
  · rw [if_neg hleft, Nat.sub_eq_zero_of_le (Nat.not_lt.1 hleft), Nat.mul_zero, Nat.zero_mul,
      Nat.zero_min]

/-- Runs that are `k` times as long. -/
def scale (i : Interleave) (k : Nat) (hk : 0 < k) : Interleave :=
  { run := k * i.run, strands := i.strands,
    run_pos := Nat.mul_pos hk i.run_pos, strands_pos := i.strands_pos }

theorem scale_firstRun {k : Nat} (hk : 0 < k) (total s : Nat) :
    (i.scale k hk).firstRun (k * total) s = k * i.firstRun total s := by
  rw [firstRun, firstRun, scale, Nat.mul_left_comm s, ← Nat.mul_sub, Nat.mul_min_mul_left]

theorem scale_tripCount {k : Nat} (hk : 0 < k) (total s : Nat) :
    (i.scale k hk).tripCount (k * total) s = k * i.tripCount total s := by
  have hperiod : (i.scale k hk).period = k * i.period := Nat.mul_assoc k i.run i.strands
  have hrest := scale_firstRun (i := i) hk (total % i.period) s
  rw [firstRun, firstRun] at hrest
  rw [tripCount, hperiod, Nat.mul_div_mul_left _ _ hk, Nat.mul_mod_mul_left, hrest, tripCount,
    Nat.mul_add]
  simp only [scale, Nat.mul_left_comm]

theorem checked_self (i : Interleave) : Interleave.checked i.run i.strands = .ok i := by
  rw [checked, dif_pos i.run_pos, dif_pos i.strands_pos]

theorem sum_tripCount (i : Interleave) (total : Nat) :
    ((List.range i.strands).map (i.tripCount total)).sum = total := by
  have hrest : total % i.period < i.strands * i.run := by
    rw [Nat.mul_comm]
    exact Nat.mod_lt total (Nat.mul_pos i.run_pos i.strands_pos)
  calc ((List.range i.strands).map (i.tripCount total)).sum
      = i.strands * (total / i.period * i.run) + min (total % i.period) (i.strands * i.run) := by
        rw [← sum_range_min, ← sum_range_const_add]
        rfl
    _ = total / i.period * i.period + total % i.period := by
        rw [Nat.min_eq_left (Nat.le_of_lt hrest)]
        simp only [period]
        ring
    _ = total := Nat.div_add_mod' total i.period

theorem deals (i : Interleave) (total : Nat) :
    (StrandSplit.interleave i).Deals total i.strands (i.tripCount total) where
  totalStrands := rfl
  tripCount _ _ := rfl
  sum_trip := i.sum_tripCount total
  toStream s hs e he :=
    ⟨i.toStream ⟨s, e⟩, (lt_tripCount_iff hs).1 he, rfl, congrArg Except.ok (toStrand_toStream hs)⟩
  covers idx hidx := by
    have hback : i.toStream ⟨(i.toStrand idx).strand, (i.toStrand idx).elem⟩ = idx :=
      i.toStream_toStrand idx
    refine ⟨(i.toStrand idx).strand, i.toStrand_lt idx, (i.toStrand idx).elem, ?_,
      congrArg Except.ok hback⟩
    rw [lt_tripCount_iff (i.toStrand_lt idx), hback]
    exact hidx

end Interleave

/-! ## Ranges -/

/-- Bounds that rise from 0 to beyond an index have a range that holds it. -/
theorem exists_between {f : Nat → Nat} {n idx : Nat} (h0 : f 0 ≤ idx) (hn : idx < f n) :
    ∃ s < n, f s ≤ idx ∧ idx < f (s + 1) := by
  induction n with
  | zero => exact absurd hn (Nat.not_lt.2 h0)
  | succ n ih =>
      by_cases hlast : idx < f n
      · rcases ih hlast with ⟨s, hs, hfit⟩
        exact ⟨s, Nat.lt_succ_of_lt hs, hfit⟩
      · exact ⟨n, Nat.lt_succ_self n, Nat.not_lt.1 hlast, hn⟩

theorem sum_range_sub {f : Nat → Nat} (hmono : Monotone f) (n : Nat) :
    ((List.range n).map fun s => f (s + 1) - f s).sum = f n - f 0 := by
  induction n with
  | zero => simp
  | succ n ih =>
      have h0 : f 0 ≤ f n := hmono (Nat.zero_le n)
      have h1 : f n ≤ f (n + 1) := hmono (Nat.le_succ n)
      rw [List.range_succ, List.map_append, List.sum_append, ih]
      simp only [List.map_cons, List.map_nil, List.sum_cons, List.sum_nil]
      omega

namespace StrandSplit

/-- Bound `s` of an even division. -/
def evenBound (total n s : Nat) : Nat :=
  s * (total / n) + min s (total % n)

variable {total n s idx : Nat}

theorem evenBound_mono (total n : Nat) : Monotone (evenBound total n) := by
  refine monotone_nat_of_le_succ fun s => ?_
  rw [evenBound, evenBound, Nat.add_mul, Nat.one_mul]
  have hshort : min s (total % n) ≤ min (s + 1) (total % n) := by omega
  exact Nat.add_le_add (Nat.le_add_right _ _) hshort

theorem evenBound_zero (total n : Nat) : evenBound total n 0 = 0 := by
  simp [evenBound]

theorem evenBound_last (hn : 0 < n) (total : Nat) : evenBound total n n = total := by
  rw [evenBound, Nat.min_eq_right (Nat.le_of_lt (Nat.mod_lt total hn)), Nat.div_add_mod]

theorem length_evenBounds (total n : Nat) : (evenBounds total n).length = n + 1 := by
  rw [evenBounds, List.length_map, List.length_range]

theorem evenBounds_getElem? (h : s ≤ n) : (evenBounds total n)[s]? = some (evenBound total n s) := by
  rw [evenBounds, List.getElem?_map, List.getElem?_range (Nat.lt_succ_of_le h)]
  rfl

/-- An index lies in the range whose bounds enclose it. -/
theorem rangeOf_evenBounds (hs : s < n) (hlo : evenBound total n s ≤ idx)
    (hhi : idx < evenBound total n (s + 1)) : rangeOf (evenBounds total n) idx = s := by
  have hlen := length_evenBounds total n
  have hget : ∀ (k : Nat) (hk : k < (evenBounds total n).length),
      (evenBounds total n)[k] = evenBound total n k := by
    intro k hk
    have hget? : (evenBounds total n)[k]? = some (evenBound total n k) :=
      evenBounds_getElem? (by omega)
    rw [List.getElem?_eq_getElem hk] at hget?
    exact Option.some.inj hget?
  have hfirst : (evenBounds total n).findIdx (fun b => !decide (b ≤ idx)) = s + 1 := by
    refine (List.findIdx_eq (by omega)).2 ⟨?_, ?_⟩
    · rw [hget]
      simpa using hhi
    · intro k hk
      rw [hget]
      have hle : evenBound total n k ≤ idx :=
        Nat.le_trans (evenBound_mono total n (Nat.le_of_lt_succ hk)) hlo
      simpa using hle
  rw [rangeOf, List.takeWhile_eq_take_findIdx_not, hfirst, List.length_take, hlen]
  omega

theorem deals_evenBounds (hn : 0 < n) (total : Nat) :
    (StrandSplit.ranges (evenBounds total n)).Deals total n
      (fun s => evenBound total n (s + 1) - evenBound total n s) where
  totalStrands := by
    rw [totalStrands, length_evenBounds, Nat.add_sub_cancel]
  tripCount s hs := by
    have hmono := evenBound_mono total n (Nat.le_succ s)
    simp only [tripCount, evenBounds_getElem? (Nat.le_of_lt hs), evenBounds_getElem? hs,
      if_neg (Nat.not_lt.2 hmono)]
  sum_trip := by
    rw [sum_range_sub (evenBound_mono total n), evenBound_zero, evenBound_last hn, Nat.sub_zero]
  toStream s hs e he := by
    have hhi : evenBound total n s + e < evenBound total n (s + 1) := by omega
    have hlast : evenBound total n (s + 1) ≤ total :=
      Nat.le_trans (evenBound_mono total n hs) (Nat.le_of_eq (evenBound_last hn total))
    refine ⟨evenBound total n s + e, by omega, ?_, ?_⟩
    · simp only [StrandSplit.toStream, evenBounds_getElem? (Nat.le_of_lt hs)]
    · have hrange := rangeOf_evenBounds hs (Nat.le_add_right _ e) hhi
      have hwell : ¬ ((evenBounds total n).length < 2 ∨
          evenBound total n s + e < evenBound total n s) := by
        rw [length_evenBounds]
        omega
      simp only [toStrand, hrange, evenBounds_getElem? (Nat.le_of_lt hs), if_neg hwell,
        Nat.add_sub_cancel_left]
  covers idx hidx := by
    have hbelow : idx < evenBound total n n := by
      rw [evenBound_last hn]
      exact hidx
    have hfrom : evenBound total n 0 ≤ idx := by
      rw [evenBound_zero]
      exact Nat.zero_le idx
    rcases exists_between hfrom hbelow with ⟨s, hs, hlo, hhi⟩
    refine ⟨s, hs, idx - evenBound total n s, by omega, ?_⟩
    simp only [StrandSplit.toStream, evenBounds_getElem? (Nat.le_of_lt hs),
      Nat.add_sub_cancel' hlo]

theorem interleaved_of_pos {run : Nat} (hrun : 0 < run) (hn : 0 < n) :
    interleaved run n =
      .ok (.interleave { run, strands := n, run_pos := hrun, strands_pos := hn }) := by
  rw [interleaved, Interleave.checked, dif_pos hrun, dif_pos hn]
  rfl

/-- Both ways to make a split divide every stream. -/
theorem exists_deals {split : StrandSplit} (hn : 2 ≤ n)
    (h : (∃ run, interleaved run n = .ok split) ∨ byElem total n = .ok split) :
    ∃ trip, split.Deals total n trip := by
  rcases h with ⟨run, hruns⟩ | hbounds
  · by_cases hrun : 0 < run
    · rw [interleaved_of_pos hrun (by omega)] at hruns
      cases hruns
      exact ⟨_, Interleave.deals _ total⟩
    · rw [interleaved, Interleave.checked, dif_neg hrun] at hruns
      cases hruns
  · have hstrands : n ≠ 0 := by omega
    rw [byElem, if_neg hstrands] at hbounds
    cases hbounds
    exact ⟨_, deals_evenBounds (by omega) total⟩

/-- The maps between a stream of `total` elements and its `n` strands are inverse to each other. Indices
beyond the end have a strand element too, and the elements that there are land among those that their
strands have. -/
structure Bijective (split : StrandSplit) (total n : Nat) (trip : Nat → Nat) : Prop
    extends split.Deals total n trip where
  roundTrip : ∀ idx, ∃ x, split.toStrand idx = .ok x ∧ x.strand < n ∧ split.toStream x = .ok idx
  lands : ∀ idx < total, ∃ x, split.toStrand idx = .ok x ∧ x.elem < trip x.strand
  /-- A strand has its elements in the order of the stream. -/
  increasing : ∀ s < n, ∀ e e', e < e' →
    ∃ idx idx', split.toStream ⟨s, e⟩ = .ok idx ∧ split.toStream ⟨s, e'⟩ = .ok idx' ∧ idx < idx'

/-- An element of the stream lands where it came from. -/
theorem Deals.lands {split : StrandSplit} {trip : Nat → Nat} (h : split.Deals total n trip)
    (hidx : idx < total) : ∃ x, split.toStrand idx = .ok x ∧ x.elem < trip x.strand := by
  rcases h.covers idx hidx with ⟨s, hs, e, he, hstream⟩
  rcases h.toStream s hs e he with ⟨idx', _, hstream', hstrand⟩
  have hsame : (.ok idx : Except Fault Nat) = .ok idx' := hstream.symm.trans hstream'
  cases hsame
  exact ⟨⟨s, e⟩, hstrand, he⟩

theorem bijective_interleave (i : Interleave) (total : Nat) :
    (StrandSplit.interleave i).Bijective total i.strands (i.tripCount total) where
  toDeals := i.deals total
  roundTrip idx :=
    ⟨i.toStrand idx, rfl, i.toStrand_lt idx, congrArg Except.ok (i.toStream_toStrand idx)⟩
  lands _ hidx := (i.deals total).lands hidx
  increasing _ hs _ _ h := ⟨_, _, rfl, rfl, i.toStream_lt hs h⟩

/-- The range of an index starts at or below it. There is one for every index if the first range starts
at zero. -/
theorem rangeOf_spec {bounds : List Nat} (hlen : 2 ≤ bounds.length) (hzero : bounds[0]? = some 0)
    (idx : Nat) :
    ∃ lo, bounds[rangeOf bounds idx]? = some lo ∧ lo ≤ idx ∧
      rangeOf bounds idx < bounds.length - 1 := by
  rcases bounds with _ | ⟨first, rest⟩
  · cases hzero
  cases hzero
  have hfirst : ((0 :: rest).takeWhile (· ≤ idx)).length =
      (rest.takeWhile (· ≤ idx)).length + 1 := by
    rw [List.takeWhile_cons_of_pos (by simp), List.length_cons]
  have hat : rangeOf (0 :: rest) idx < ((0 :: rest).takeWhile (· ≤ idx)).length := by
    rw [rangeOf, hfirst]
    omega
  have hlo := List.getElem?_eq_getElem hat
  have hle := List.mem_takeWhile_imp (List.mem_of_getElem? hlo)
  refine ⟨_, ?_, of_decide_eq_true hle, ?_⟩
  · -- what is taken is the beginning of the bounds
    rw [← hlo, ← List.getElem?_append_left hat, List.takeWhile_append_dropWhile]
  · rw [rangeOf]
    omega

/-- Length of range `s` of an even division: the remainder goes to the first ranges. -/
theorem evenBound_succ_sub (total n s : Nat) :
    evenBound total n (s + 1) - evenBound total n s = total / n + if s < total % n then 1 else 0 := by
  rw [evenBound, evenBound, Nat.add_mul, Nat.one_mul]
  generalize s * (total / n) = whole
  generalize total / n = length
  by_cases h : s < total % n
  · rw [if_pos h]
    omega
  · rw [if_neg h]
    omega

theorem bijective_evenBounds (hn : 0 < n) (total : Nat) :
    (StrandSplit.ranges (evenBounds total n)).Bijective total n
      (fun s => evenBound total n (s + 1) - evenBound total n s) where
  toDeals := deals_evenBounds hn total
  roundTrip idx := by
    have hlen := length_evenBounds total n
    have hzero : (evenBounds total n)[0]? = some 0 := by
      rw [evenBounds_getElem? (Nat.zero_le n), evenBound_zero]
    rcases rangeOf_spec (by omega) hzero idx with ⟨lo, hlo, hle, hrange⟩
    have hwell : ¬ ((evenBounds total n).length < 2 ∨ idx < lo) := by omega
    refine ⟨⟨rangeOf (evenBounds total n) idx, idx - lo⟩, ?_, ?_, ?_⟩
    · simp only [toStrand, hlo, if_neg hwell]
    · rw [hlen] at hrange
      exact hrange
    · simp only [StrandSplit.toStream, hlo, Nat.add_sub_cancel' hle]
  lands _ hidx := (deals_evenBounds hn total).lands hidx
  increasing s hs e e' h := by
    refine ⟨evenBound total n s + e, evenBound total n s + e', ?_, ?_, Nat.add_lt_add_left h _⟩
    · simp only [StrandSplit.toStream, evenBounds_getElem? (Nat.le_of_lt hs)]
    · simp only [StrandSplit.toStream, evenBounds_getElem? (Nat.le_of_lt hs)]

/-- Both ways to make a split give a bijection between a stream and its strands: runs for a stream of any
length, and ranges for the length that they were made for. The lengths of ranges differ by at most one, and
the longer ones come first. -/
theorem made_bijective (hn : 0 < n) :
    (∀ run, 0 < run → ∃ split, interleaved run n = .ok split ∧
      ∀ total, ∃ trip, split.Bijective total n trip) ∧
    ∀ total, ∃ split trip, byElem total n = .ok split ∧ split.Bijective total n trip ∧
      ∀ s s', s ≤ s' → s' < n → trip s' ≤ trip s ∧ trip s ≤ trip s' + 1 := by
  refine ⟨fun run hrun => ?_, fun total => ?_⟩
  · refine ⟨.interleave { run, strands := n, run_pos := hrun, strands_pos := hn }, ?_, fun total => ?_⟩
    · rw [interleaved, Interleave.checked, dif_pos hrun, dif_pos hn]
      rfl
    · exact ⟨_, bijective_interleave _ total⟩
  · refine ⟨.ranges (evenBounds total n), _, ?_, bijective_evenBounds hn total, fun s s' h _ => ?_⟩
    · rw [byElem, if_neg (Nat.ne_of_gt hn)]
    · simp only [evenBound_succ_sub]
      by_cases hlong : s' < total % n
      · rw [if_pos hlong, if_pos (Nat.lt_of_le_of_lt h hlong)]
        omega
      · rw [if_neg hlong]
        split <;> omega

/-- Runs of three for four strands, and two elements for four strands, of which the last two get none. -/
theorem made_bijective_four :
    (∃ split, interleaved 3 4 = .ok split ∧ ∃ trip, split.Bijective 14 4 trip) ∧
    ∃ split trip, byElem 2 4 = .ok split ∧ split.Bijective 2 4 trip ∧
      (List.range 4).map trip = [1, 1, 0, 0] := by
  have hfour : 0 < 4 := by decide
  rcases (made_bijective hfour).1 3 (by decide) with ⟨split, hsplit, htrip⟩
  rcases (made_bijective hfour).2 2 with ⟨ranges, trip, hranges, hbijective, _⟩
  refine ⟨⟨split, hsplit, htrip 14⟩, ranges, trip, hranges, hbijective, ?_⟩
  cases hranges
  have htrips : ∀ s < 4, ∀ k,
      tripCount (.ranges (evenBounds 2 4)) 2 s = .ok k → trip s = k := by
    intro s hs k hk
    exact Except.ok.inj ((hbijective.tripCount s hs).symm.trans hk)
  have h0 : trip 0 = 1 := htrips 0 (by decide) 1 rfl
  have h1 : trip 1 = 1 := htrips 1 (by decide) 1 rfl
  have h2 : trip 2 = 0 := htrips 2 (by decide) 0 rfl
  have h3 : trip 3 = 0 := htrips 3 (by decide) 0 rfl
  simp [List.range_succ, h0, h1, h2, h3]

end StrandSplit
end StreamEngine
