import StreamEngine.Proofs.Linear.Units

/-!
# Shares of linear patterns

The pattern of a strand walks the elements of the stream that the strand has. There are three ways to
make one, and two of them build the same shape: on top of the levels below, one level for the steps
inside a unit and one for the rounds. The level inside a unit may be short, but then there is only one
round.

* `addr_share` — an element of the shape, whole or short;
* `addr_dealRuns`, `addr_range` — the two ways for a single loop;
* `Walks`, `Walks.raise` — a pattern that walks elements of another one, also under further levels;
* `walks_share`, `addr_splitDim` — the units of one loop of a nest, and of its outermost loop.
-/

namespace StreamEngine

open scoped UInt64.CommRing

namespace LinearPattern

open Linear

variable {start : UInt64} {below : List Level} {l l₁ l₂ : Level} {i : Interleave}
  {s e unit extent : Nat} {p q : LinearPattern}

theorem advance_eq (start : UInt64) (stride : Int64) (steps : Nat) :
    advance start stride steps = start + stride.toUInt64 * UInt64.ofNat steps := by
  rw [advance, Int64.toUInt64_mul, Int64.toUInt64_ofNat']

/-! ## Units and rounds -/

/-- A short level serves for a whole one while the index stays in it. -/
theorem div_mod_of_short {e t run : Nat} (h : t = run ∨ e < t ∧ t ≤ run) :
    e / t = e / run ∧ e % t = e % run := by
  rcases h with rfl | ⟨he, hle⟩
  · exact ⟨rfl, rfl⟩
  · have herun : e < run := Nat.lt_of_lt_of_le he hle
    rw [Nat.div_eq_of_lt he, Nat.div_eq_of_lt herun, Nat.mod_eq_of_lt he, Nat.mod_eq_of_lt herun]
    exact ⟨rfl, rfl⟩

/-- A nest whose outermost level is replaced by one inside a unit and one over the rounds, from the
strand's first unit on. -/
theorem addr_share (below : List Level) (unit : Nat) (hpos : 0 < tripBelow below)
    (hbelow : tripBelow below < 2 ^ 64) (hrun : i.run = tripBelow below * unit)
    (hinner : l₁.stride = l.stride)
    (houter : l₂.stride = l.stride * Int64.ofNat (unit * i.strands)) (hlt : l₁.trip < 2 ^ 64)
    (hshort : l₁.trip = i.run ∨ e < l₁.trip ∧ l₁.trip ≤ i.run) :
    addr { start := advance start l.stride (s * unit), levels := below ++ [l₁, l₂] } e =
      addr { start, levels := below ++ [l] } (i.toStream ⟨s, e⟩) := by
  -- a short level never starts a second round
  rcases div_mod_of_short hshort with ⟨hdiv, hmod⟩
  have htrip : 0 < l₁.trip := by
    have hi := i.run_pos
    omega
  have hindex : e % i.run + tripBelow below * (s * unit + unit * i.strands * (e / i.run)) =
      i.toStream ⟨s, e⟩ := by
    rw [Interleave.toStream_eq]
    generalize e / i.run = round
    generalize e % i.run = rest
    rw [hrun]
    ring
  calc addr { start := advance start l.stride (s * unit), levels := below ++ [l₁, l₂] } e
      = addr { start := advance start l.stride (s * unit) +
                 l₂.stride.toUInt64 * UInt64.ofNat (e / i.run),
               levels := below ++ [l] } (e % i.run) := by
        rw [addr_concat htrip hlt, hdiv, hmod, addr_last hinner]
    _ = addr { start := start +
                 l.stride.toUInt64 * UInt64.ofNat (s * unit + unit * i.strands * (e / i.run)),
               levels := below ++ [l] } (e % i.run) := by
        rw [advance_eq, houter, Int64.toUInt64_mul, Int64.toUInt64_ofNat', UInt64.ofNat_add,
          UInt64.ofNat_mul (unit * i.strands), mul_add, mul_assoc, add_assoc]
    _ = addr { start, levels := below ++ [l] }
          (e % i.run + tripBelow below * (s * unit + unit * i.strands * (e / i.run))) := by
        rw [addr_add _ _ _ _ (by simp), addr_step hpos hbelow]
    _ = addr { start, levels := below ++ [l] } (i.toStream ⟨s, e⟩) := by
        rw [hindex]

/-! ## Runs of a single loop -/

theorem addr_dealRuns (hlt : l.trip < 2 ^ 64) (he : e < i.tripCount l.trip s) :
    (dealRuns start l i s).addr e = addr { start, levels := [l] } (i.toStream ⟨s, e⟩) := by
  have hle := i.tripCount_le l.trip s
  have hone : tripBelow [] = 1 := rfl
  -- there is no level below, and a step is an element
  have hrun : i.run = tripBelow [] * i.run := by
    rw [hone, Nat.one_mul]
  refine addr_share [] i.run Nat.zero_lt_one (by decide) hrun rfl ?_ ?_ ?_
  · rw [Nat.mul_comm]
  · simp only
    omega
  · simp only
    omega

theorem splitRuns_eq_ok (h : splitRuns { start, levels := [l] } i.run i.strands s = .ok q) :
    q = dealRuns start l i s := by
  simp only [splitRuns, Interleave.checked_self] at h
  cases h
  rfl

/-! ## Ranges of a single loop -/

theorem splitRange_eq_ok {lo hi : Nat} (h : splitRange { start, levels := [l] } lo hi = .ok q) :
    q = oneDim (advance start l.stride lo) l.stride (hi - lo) := by
  simp only [splitRange] at h
  by_cases hbad : hi ≤ lo ∨ totalTrip { start, levels := [l] } < hi
  · rw [if_pos hbad] at h
    cases h
  · rw [if_neg hbad] at h
    cases h
    rfl

theorem addr_range (start : UInt64) (l : Level) (lo trip e : Nat) :
    (oneDim (advance start l.stride lo) l.stride trip).addr e =
      addr { start, levels := [l] } (lo + e) := by
  rw [oneDim, addr_single, addr_single, advance_eq, UInt64.ofNat_add]
  ring

/-! ## Units of one loop -/

/-- Every element of `q` is an element of `p`: element `e` there is element `f e` here. -/
structure Walks (q p : LinearPattern) (f : Nat → Nat) : Prop where
  lands : ∀ e < q.totalTrip, f e < p.totalTrip
  addr_eq : ∀ e < q.totalTrip, q.addr e = p.addr (f e)

/-- Element `r` of turn `k` of the outermost loop. -/
theorem addr_turn {r : Nat} (hr : r < l.trip) (hlt : l.trip < 2 ^ 64) (start : UInt64)
    (levels : List Level) (l' : Level) (k : Nat) :
    addr { start, levels := levels ++ [l, l'] } (r + l.trip * k) =
      addr { start, levels := levels ++ [l] } r + l'.stride.toUInt64 * UInt64.ofNat k := by
  have hpos : 0 < l.trip := Nat.zero_lt_of_lt hr
  rw [addr_concat hpos hlt, Nat.add_mul_div_left r k hpos, Nat.div_eq_of_lt hr, Nat.zero_add,
    Nat.add_mul_mod_self_left, Nat.mod_eq_of_lt hr, addr_add _ _ _ _ (by simp)]

/-- The shape of `addr_share` walks the elements that its strand has. -/
theorem walks_units (start : UInt64) {step : Nat} (hstep : tripBelow below = step) (hpos : 0 < step)
    (htrip : step * extent = l.trip) (hlt : l.trip < 2 ^ 64) (hs : s < i.strands) :
    Walks
      { start := advance start l.stride (s * i.run)
        levels := below ++
          [{ stride := l.stride, trip := i.firstRun extent s * step },
            { stride := l.stride * Int64.ofNat (i.run * i.strands),
              trip := i.tripCount extent s * step }] }
      { start, levels := below ++ [l] }
      fun e => (i.scale step hpos).toStream ⟨s, e⟩ := by
  subst hstep
  have hfirst := Interleave.scale_firstRun (i := i) hpos extent s
  have hcount := Interleave.scale_tripCount (i := i) hpos extent s
  rw [htrip, Nat.mul_comm] at hfirst hcount
  rw [← hfirst, ← hcount]
  -- in units of the loops below, a run of the interleave is a whole number of them
  generalize hscale : i.scale (tripBelow below) hpos = runs at hfirst hcount ⊢
  have hstrands : s < runs.strands := by
    rw [← hscale]
    exact hs
  constructor
  · intro e he
    rw [totalTrip_concat_pair] at he
    rw [totalTrip_concat]
    exact (Interleave.lt_tripCount_iff hstrands).1 he
  · intro e he
    rw [totalTrip_concat_pair] at he
    have hle := Nat.lt_of_lt_of_le he (runs.tripCount_le l.trip s)
    have hinner : tripBelow below ≤ l.trip := by
      refine Nat.le_of_dvd (Nat.zero_lt_of_lt hle) ?_
      rw [← htrip]
      exact Nat.dvd_mul_right _ _
    have hsteps : runs.firstRun l.trip s ≤ l.trip :=
      Nat.le_trans (Nat.min_le_left _ _) (Nat.sub_le _ _)
    refine addr_share below i.run hpos (Nat.lt_of_le_of_lt hinner hlt) ?_ rfl ?_
      (Nat.lt_of_le_of_lt hsteps hlt) ?_
    · rw [← hscale]
      rfl
    · rw [← hscale]
      rfl
    · rcases Interleave.firstRun_eq hstrands l.trip with hwhole | hall
      · exact Or.inl hwhole
      · exact Or.inr ⟨hall ▸ he, Nat.min_le_right _ _⟩

section Raise

variable {start' : UInt64} {lo lo' : List Level} {a a' : Level} {f : Nat → Nat}

/-- One more level on top of both patterns. -/
theorem Walks.raise (h : Walks { start, levels := lo ++ [a] } { start := start', levels := lo' ++ [a'] } f)
    (hlt : a.trip < 2 ^ 64) (hlt' : a'.trip < 2 ^ 64) (stride : Int64) (extent : Nat) :
    Walks { start, levels := lo ++ [a, { stride, trip := a.trip * extent }] }
      { start := start', levels := lo' ++ [a', { stride, trip := a'.trip * extent }] }
      fun e => f (e % a.trip) + a'.trip * (e / a.trip) := by
  rcases h with ⟨hlands, haddr⟩
  simp only [totalTrip_concat] at hlands haddr
  have hrest : ∀ e < a.trip * extent, e % a.trip < a.trip := fun e he =>
    Nat.mod_lt e (Nat.pos_of_mul_pos_right (Nat.zero_lt_of_lt he))
  constructor
  · intro e he
    rw [totalTrip_concat_pair] at he ⊢
    have hturn : e / a.trip + 1 ≤ extent := Nat.div_lt_of_lt_mul he
    calc f (e % a.trip) + a'.trip * (e / a.trip)
        < a'.trip + a'.trip * (e / a.trip) := Nat.add_lt_add_right (hlands _ (hrest e he)) _
      _ = a'.trip * (e / a.trip + 1) := by ring
      _ ≤ a'.trip * extent := Nat.mul_le_mul_left _ hturn
  · intro e he
    rw [totalTrip_concat_pair] at he
    -- the new level turns in both patterns alike, and its stride is the same
    have hbelow := haddr _ (hrest e he)
    conv_lhs => rw [← Nat.mod_add_div e a.trip]
    rw [addr_turn (hrest e he) hlt, addr_turn (hlands _ (hrest e he)) hlt', hbelow]

theorem Walks.congr {g : Nat → Nat} (h : Walks q p f) (hfg : ∀ e < q.totalTrip, f e = g e) :
    Walks q p g :=
  ⟨fun e he => hfg e he ▸ h.lands e he, fun e he => hfg e he ▸ h.addr_eq e he⟩

/-- The same levels on top of both patterns. -/
theorem Walks.raiseTrips (above : List (Level × Nat))
    (h : Walks { start, levels := lo ++ [a] } { start := start', levels := lo' ++ [a'] } f)
    (hle : a.trip ≤ a'.trip)
    (hlt : ∀ k ∈ a' :: LinearPattern.raiseTrips a'.trip above, k.trip < 2 ^ 64) :
    Walks { start, levels := lo ++ a :: LinearPattern.raiseTrips a.trip above }
      { start := start', levels := lo' ++ a' :: LinearPattern.raiseTrips a'.trip above }
      fun e => f (e % a.trip) + a'.trip * (e / a.trip) := by
  have hlow : a'.trip < 2 ^ 64 := hlt a' List.mem_cons_self
  -- the innermost of the levels is raised first, and then counts as the level below the others
  induction above generalizing lo lo' a a' f with
  | nil =>
      refine h.congr fun e he => ?_
      rw [totalTrip_concat] at he
      rw [Nat.mod_eq_of_lt he, Nat.div_eq_of_lt he, Nat.mul_zero, Nat.add_zero]
  | cons k above ih =>
      rcases k with ⟨k, extent⟩
      simp only [LinearPattern.raiseTrips] at hlt ⊢
      have hhigh := hlt _ (List.mem_cons_of_mem _ List.mem_cons_self)
      have hup := h.raise (Nat.lt_of_le_of_lt hle hlow) hlow k.stride extent
      rw [List.append_cons, List.append_cons lo'] at hup ⊢
      refine (ih hup (Nat.mul_le_mul_right extent hle) (List.forall_mem_cons.1 hlt).2 hhigh).congr ?_
      -- a turn of the new level is so many turns of the one below
      intro e _
      simp only
      rw [Nat.mod_mul_right_mod, Nat.mod_mul_right_div_self, ← Nat.div_div_eq_div_mul, Nat.add_assoc,
        Nat.mul_assoc, ← Nat.mul_add, Nat.mod_add_div]

end Raise

/-- The share of a strand walks elements of a nest, if the trips from its loop up are words. -/
theorem walks_share {d interleave n : Nat} (hwords : ∀ k ∈ p.levels.drop d, k.trip < 2 ^ 64)
    (hnest : Nested p.trips) (h : p.SplitsAt d interleave n l i) (hs : s < n) :
    Walks (p.share d l i s) p fun e =>
      (i.scale (p.inner d) h.inner_pos).toStream
          ⟨s, e % (i.tripCount (p.extentAt d) s * p.inner d)⟩ +
        l.trip * (e / (i.tripCount (p.extentAt d) s * p.inner d)) := by
  rcases p with ⟨start, levels⟩
  rcases nested_at hnest h.level with ⟨hinner, htrip, habove⟩
  have hdrop : levels.drop d = l :: levels.drop (d + 1) := by
    rcases List.getElem?_eq_some_iff.1 h.level with ⟨hd, rfl⟩
    exact List.drop_eq_getElem_cons hd
  have hlevels : levels.take d ++ l :: levels.drop (d + 1) = levels := by
    rw [← hdrop, List.take_append_drop]
  simp only [hdrop] at hwords
  rw [← h.strands_eq] at hs
  have hbase := walks_units start hinner.symm h.inner_pos htrip.symm
    (hwords l List.mem_cons_self) hs
  rw [List.append_cons] at hbase
  have hle : i.tripCount (extentAt { start, levels } d) s * inner { start, levels } d ≤ l.trip := by
    rw [htrip, Nat.mul_comm]
    exact Nat.mul_le_mul_left _ (i.tripCount_le _ s)
  -- above the level that is taken apart both patterns have the same extents
  have hwalks := Walks.raiseTrips ((levels.zip (extents { start, levels })).drop (d + 1)) hbase hle
    (habove.symm ▸ hwords)
  rw [habove, hlevels, ← List.append_cons] at hwalks
  exact hwalks

/-- Splitting the outermost loop. -/
theorem addr_splitDim (hlt : l.trip < 2 ^ 64) (hnest : Nested ((below ++ [l]).map Level.trip))
    (h : splitDim { start, levels := below ++ [l] } below.length i.run s i.strands = .ok q)
    (hs : s < i.strands) (he : e < i.tripCount l.trip s) :
    q.addr e = addr { start, levels := below ++ [l] } (i.toStream ⟨s, e⟩) := by
  rcases (splitDim_eq_ok hs).1 h with ⟨l', units, hsplit, rfl⟩
  have hl : l = l' := by
    have hlevel := hsplit.level
    rw [List.getElem?_concat_length] at hlevel
    exact Option.some.inj hlevel
  subst hl
  have htrip := (nested_at (p := { start, levels := below ++ [l] }) hnest hsplit.level).trip_eq
  -- the units deal what the runs deal
  have hruns : units.scale _ hsplit.inner_pos = i := Interleave.ext hsplit.run_eq hsplit.strands_eq
  have hcount := Interleave.scale_tripCount (i := units) hsplit.inner_pos
    (extentAt { start, levels := below ++ [l] } below.length) s
  rw [hruns, ← htrip, Nat.mul_comm] at hcount
  have hwalks := walks_share (p := { start, levels := below ++ [l] }) ?_ hnest hsplit hs
  · rw [hruns, ← hcount] at hwalks
    have htotal : (share { start, levels := below ++ [l] } below.length l units s).totalTrip =
        i.tripCount l.trip s := by
      rw [totalTrip_share, ← hcount, List.drop_eq_nil_of_le, List.prod_nil, Nat.mul_one]
      rw [length_extents, List.length_append]
      exact Nat.le_refl _
    rw [hwalks.addr_eq e (htotal ▸ he), Nat.mod_eq_of_lt he, Nat.div_eq_of_lt he, Nat.mul_zero,
      Nat.add_zero]
  · rw [List.drop_left]
    simpa using hlt

end LinearPattern
end StreamEngine
