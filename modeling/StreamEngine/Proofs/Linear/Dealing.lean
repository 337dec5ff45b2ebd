import StreamEngine.Proofs.Linear.Shares

/-!
# Splitting a loop deals out a nest

When one loop of a nest is split, a strand walks those elements of the nest that its units of the loop
hold, in the order of the nest. This holds for every loop of the nest, for a last round with whole or short
units, and for loops with fewer steps than strands.

* `LinearPattern.dealt` — the elements of a strand, by the digit of the loop;
* `map_range_mul` — elements chosen block by block;
* `addresses_share` — what the share of a strand walks;
* `perm_dealt` — the strands have every element once;
* `splitDim_deals` — all of it for every split that is not refused.
-/

namespace StreamEngine

/-! ## Lists of indices -/

/-- Members with a key below `n`, sorted by their keys. -/
theorem perm_flatMap_filter (xs : List Nat) (key : Nat → Nat) (n : Nat) :
    ((List.range n).flatMap fun k => xs.filter fun x => key x = k).Perm
      (xs.filter fun x => key x < n) := by
  induction n with
  | zero => simp
  | succ n ih =>
      have hlow : (xs.filter fun x => key x < n + 1).filter (fun x => key x < n) =
          xs.filter fun x => key x < n := by
        rw [List.filter_filter]
        refine List.filter_congr fun x _ => ?_
        simp only [← Bool.decide_and, decide_eq_decide]
        omega
      have hhigh : (xs.filter fun x => key x < n + 1).filter (fun x => !decide (key x < n)) =
          xs.filter fun x => key x = n := by
        rw [List.filter_filter]
        refine List.filter_congr fun x _ => ?_
        rw [← decide_not, ← Bool.decide_and, decide_eq_decide]
        omega
      rw [List.range_succ, List.flatMap_append, List.flatMap_cons, List.flatMap_nil, List.append_nil]
      refine (ih.append_right _).trans ?_
      rw [← hlow, ← hhigh]
      exact List.filter_append_perm _ _

/-- What is chosen of one block is chosen of every block. -/
theorem map_range_mul {b size : Nat} {f : Nat → Nat} {P : Nat → Bool}
    (h : (List.range b).map f = (List.range size).filter P) (blocks : Nat) :
    ((List.range (b * blocks)).map fun e => f (e % b) + size * (e / b)) =
      (List.range (size * blocks)).filter fun idx => P (idx % size) := by
  induction blocks with
  | zero => rfl
  | succ blocks ih =>
      have hmap : ((List.range b).map (b * blocks + ·)).map (fun e => f (e % b) + size * (e / b)) =
          ((List.range b).map f).map (size * blocks + ·) := by
        rw [List.map_map, List.map_map]
        refine List.map_congr_left fun r hr => ?_
        have hlt : r < b := List.mem_range.1 hr
        have hb : 0 < b := Nat.zero_lt_of_lt hlt
        simp only [Function.comp_apply]
        rw [Nat.mul_add_mod, Nat.mod_eq_of_lt hlt, Nat.mul_add_div hb, Nat.div_eq_of_lt hlt,
          Nat.add_zero, Nat.add_comm]
      have hfilter : ((List.range size).map (size * blocks + ·)).filter (fun idx => P (idx % size)) =
          ((List.range size).filter P).map (size * blocks + ·) := by
        rw [List.filter_map]
        congr 1
        refine List.filter_congr fun r hr => ?_
        simp only [Function.comp_apply]
        rw [Nat.mul_add_mod, Nat.mod_eq_of_lt (List.mem_range.1 hr)]
      rw [Nat.mul_succ, Nat.mul_succ, List.range_add, List.range_add, List.map_append,
        List.filter_append, ih, hmap, hfilter, h]

namespace LinearPattern

open Linear

variable {l : Level} {i : Interleave} {d interleave n s : Nat} {p q : LinearPattern}

/-- The addresses of all elements, in order. -/
def addresses (p : LinearPattern) : List UInt64 :=
  (List.range p.totalTrip).map p.addr

/-- The elements that strand `s` of `n` gets when loop `d` is dealt in units of `interleave` elements: those
whose step of the loop lies in a unit of the strand. -/
def dealt (p : LinearPattern) (d interleave n s : Nat) : List Nat :=
  (List.range p.totalTrip).filter fun idx =>
    idx / p.inner d % p.extentAt d / (interleave / p.inner d) % n = s

theorem Walks.addresses_eq {f : Nat → Nat} (h : Walks q p f) :
    q.addresses = ((List.range q.totalTrip).map f).map p.addr := by
  rw [addresses, List.map_map]
  exact List.map_congr_left fun e he => h.addr_eq e (List.mem_range.1 he)

/-- The strands have every element once. -/
theorem perm_dealt (p : LinearPattern) (d interleave : Nat) (hn : 0 < n) :
    ((List.range n).flatMap (p.dealt d interleave n)).Perm (List.range p.totalTrip) := by
  refine (perm_flatMap_filter (List.range p.totalTrip)
    (fun idx => idx / p.inner d % p.extentAt d / (interleave / p.inner d) % n) n).trans ?_
  rw [List.filter_eq_self.2 fun idx _ => decide_eq_true (Nat.mod_lt _ hn)]

/-- The share of a strand walks the elements that are dealt to it. -/
theorem addresses_share (hwords : ∀ k ∈ p.levels, k.trip < 2 ^ 64) (hnest : Nested p.trips)
    (h : p.SplitsAt d interleave n l i) (hs : s < n) :
    (p.share d l i s).addresses = (p.dealt d interleave n s).map p.addr := by
  obtain rfl := h.strands_eq
  have hwalks := walks_share (fun k hk => hwords k (List.mem_of_mem_drop hk)) hnest h hs
  have htrip := (nested_at hnest h.level).trip_eq
  have hblocks : p.totalTrip = l.trip * (p.extents.drop (d + 1)).prod := by
    rw [← prod_extents_of_nested hnest h.level, ← prod_extents h.level, htrip]
  -- in one turn of the levels above, the strand has what the runs deal to it
  have hcount := Interleave.scale_tripCount (i := i) h.inner_pos (p.extentAt d) s
  rw [← htrip, Nat.mul_comm] at hcount
  have hturn := Interleave.map_toStream (i := i.scale (p.inner d) h.inner_pos) hs l.trip
  rw [hcount] at hturn
  rw [hwalks.addresses_eq, totalTrip_share, map_range_mul hturn, dealt, hblocks]
  congr 1
  refine List.filter_congr fun idx _ => ?_
  have hunit : interleave / p.inner d = i.run := by
    rw [← h.run_eq, Nat.mul_div_cancel_left _ h.inner_pos]
  have hstep : idx % l.trip / (p.inner d * i.run) = idx / p.inner d % p.extentAt d / i.run := by
    rw [htrip, ← Nat.div_div_eq_div_mul, Nat.mod_mul_right_div_self]
  rw [hunit, ← hstep]
  rfl

/-- Splitting loop `d` of a nest gives strand `s` the elements whose step of the loop lies in one of its
units, in the order of the nest. If one strand gets a share then all do, and together they have every
element once. -/
theorem splitDim_deals (hwords : ∀ k ∈ p.levels, k.trip < 2 ^ 64) (hnest : Nested p.trips) (hs : s < n)
    (h : p.splitDim d interleave s n = .ok q) :
    q.addresses = (p.dealt d interleave n s).map p.addr ∧
      (∀ k < n, ∃ share, p.splitDim d interleave k n = .ok share ∧
        share.addresses = (p.dealt d interleave n k).map p.addr) ∧
      ((List.range n).flatMap (p.dealt d interleave n)).Perm (List.range p.totalTrip) := by
  rcases (splitDim_eq_ok hs).1 h with ⟨l, i, hsplit, rfl⟩
  refine ⟨addresses_share hwords hnest hsplit hs, fun k hk => ?_,
    perm_dealt p d interleave (Nat.zero_lt_of_lt hs)⟩
  exact ⟨_, (splitDim_eq_ok hk).2 ⟨l, i, hsplit, rfl⟩, addresses_share hwords hnest hsplit hk⟩

/-- Three rows of ten columns. -/
def threeRows : LinearPattern :=
  { start := 0, levels := [{ stride := 1, trip := 10 }, { stride := 100, trip := 30 }] }

/-- Two columns at a time for two strands: the last two of every row go to the first strand. -/
theorem splitDim_deals_columns :
    ∃ q, threeRows.splitDim 0 2 1 2 = .ok q ∧
      q.addresses = [2, 3, 6, 7, 102, 103, 106, 107, 202, 203, 206, 207] ∧
      ((List.range 2).flatMap (threeRows.dealt 0 2 2)).Perm (List.range 30) := by
  have hsplit : threeRows.splitDim 0 2 1 2 = .ok _ := rfl
  have hdeals := splitDim_deals (by decide) (by decide) (by decide) hsplit
  refine ⟨_, hsplit, hdeals.1.trans ?_, hdeals.2.2⟩
  decide +kernel

end LinearPattern
end StreamEngine
