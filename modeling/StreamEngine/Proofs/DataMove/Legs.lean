import StreamEngine.Proofs.DataMove.Copying
import StreamEngine.Proofs.Outcome

/-!
# Legs of a move

A move that is compiled goes along every dimension of the array on its own. What it does there is its
*leg*: where the elements lie before and after, how far apart, and whether one of them serves all.

* `Leg`, `Tiling.legs` — the legs of a source and a destination;
* `Leg.Fits` — a leg stays inside its dimension, and its step divides the tile;
* `Planned`, `planned_of_compileMove` — what the compilation of a move has checked;
* `source_value`, `target_value` — elements are at the points that the legs say.
-/

namespace StreamEngine

/-- A move along one dimension. The elements start at `corner` and go to `target`, `step` apart. If the
leg is fixed, one element at the corner goes to all places. -/
structure Leg where
  corner : Int
  target : Int
  step : Int
  trip : Int
  isFixed : Bool
  deriving DecidableEq, Repr

namespace Leg

/-- The leg of an axis of the source in a dimension with canonical stride `unit`. -/
def ofAxis (start goal unit : Int) (dim : TiledDim) (a : Axis) : Leg :=
  { corner := AffinePattern.coordinate start unit dim.size
    target := AffinePattern.coordinate goal unit dim.size
    step := if a.trip = 1 ∨ a.stride = 0 then 1 else a.stride / unit
    trip := a.trip
    isFixed := a.trip ≠ 1 ∧ a.stride = 0 }

def distance (g : Leg) : Int :=
  g.target - g.corner

/-- Number of coordinates from the first element to the last. -/
def extent (g : Leg) : Int :=
  (g.trip - 1) * g.step + 1

/-- The coordinates that the source covers. -/
def span (g : Leg) : Span :=
  { lo := g.corner, hi := g.corner + if g.isFixed then 1 else g.extent }

/-- Coordinate of an element before the move. -/
def sourceAt (g : Leg) (k : Int) : Int :=
  g.corner + if g.isFixed then 0 else g.step * k

/-- Coordinate of an element after the move. -/
def targetAt (g : Leg) (k : Int) : Int :=
  g.target + g.step * k

/-- The leg stays inside its dimension before and after, and its step divides the tile. -/
structure Fits (dim : TiledDim) (g : Leg) : Prop where
  trip_pos : 0 < g.trip
  step_pos : 0 < g.step
  step_dvd : g.step ∣ dim.tile
  fixed : g.isFixed = true → g.step = 1 ∧ 1 < g.trip
  corner_nonneg : 0 ≤ g.corner
  span_le : g.span.hi ≤ dim.size
  target_nonneg : 0 ≤ g.target
  target_le : g.target + g.extent ≤ dim.size

/-- Only a leg that moves skips coordinates. -/
theorem Fits.not_isFixed {dim : TiledDim} {g : Leg} (h : g.Fits dim) (hstep : g.step ≠ 1) :
    ¬ g.isFixed = true :=
  fun hfixed => hstep (h.fixed hfixed).1

/-- An element of a leg that is not fixed goes over the distance of the leg. -/
theorem sourceAt_add_distance {g : Leg} (hmoves : ¬ g.isFixed = true) (k : Int) :
    g.sourceAt k + g.distance = g.targetAt k := by
  rw [sourceAt, targetAt, distance, if_neg hmoves]
  omega

/-- The step of a leg reaches its last element. -/
theorem Fits.step_mul_lt {dim : TiledDim} {g : Leg} (h : g.Fits dim) {k : Int} (h1 : k < g.trip) :
    g.step * k < g.extent := by
  have hle := Int.mul_le_mul_of_nonneg_left (by omega : k ≤ g.trip - 1) h.step_pos.le
  rw [Leg.extent, Int.mul_comm (g.trip - 1)]
  omega

theorem Fits.sourceAt_mem {dim : TiledDim} {g : Leg} (h : g.Fits dim) {k : Int} (h0 : 0 ≤ k)
    (h1 : k < g.trip) : g.span.contains (g.sourceAt k) = true := by
  have hlow := Int.mul_nonneg h.step_pos.le h0
  have hhigh := h.step_mul_lt h1
  rw [Tiling.contains_iff]
  by_cases hfixed : g.isFixed = true
  · simp only [span, sourceAt, if_pos hfixed]
    omega
  · simp only [span, sourceAt, if_neg hfixed]
    omega

theorem Fits.targetAt_bounds {dim : TiledDim} {g : Leg} (h : g.Fits dim) {k : Int} (h0 : 0 ≤ k)
    (h1 : k < g.trip) : 0 ≤ g.targetAt k ∧ g.targetAt k < dim.size := by
  have hlow := Int.mul_nonneg h.step_pos.le h0
  have hhigh := h.step_mul_lt h1
  have hgoal := h.target_nonneg
  have hle := h.target_le
  rw [targetAt]
  omega

/-- The axis of the source once its step has become a mask. -/
def sourceAxis (unit : Int) (g : Leg) : Axis :=
  if g.isFixed then { stride := 0, trip := g.trip } else { stride := unit, trip := g.extent }

/-- The mask of a leg that skips coordinates. -/
def mask (d : Nat) (g : Leg) : Option StrideMask :=
  if g.step = 1 then none else some { dim := d, stride := g.step, modulo := g.corner % g.step }

end Leg

namespace Tiling

/-- The legs of the dimensions from one with canonical stride `unit` on. -/
def legsFrom (start goal unit : Int) : List TiledDim → List Axis → List Leg
  | dim :: dims, a :: axes =>
    Leg.ofAxis start goal unit dim a :: legsFrom start goal (unit * dim.size) dims axes
  | _, _ => []

/-- The legs of a move. -/
def legs (t : Tiling) (source target : AffinePattern) : List Leg :=
  legsFrom source.start target.start 1 t.dims source.axes

/-- The masks of the legs from dimension `d` on. -/
def masksFrom (d : Nat) : List Leg → List StrideMask
  | [] => []
  | g :: gs => (g.mask d).toList ++ masksFrom (d + 1) gs

/-! ## What compilation checks -/

/-- The dimensions of a move from dimension `d` on, with the axes of its source, those of its
destination, and those of the source once steps have become masks. -/
inductive Planned (start goal : Int) :
    Nat → Int → List TiledDim → List Axis → List Axis → List Axis → List StrideMask → Prop where
  | nil (d : Nat) (unit : Int) : Planned start goal d unit [] [] [] [] []
  | cons {d : Nat} {unit : Int} {dim : TiledDim} {dims : List TiledDim} {a b : Axis}
      {as bs axes : List Axis} {masks : List StrideMask} {g : Leg} (hunit : 0 < unit)
      (hleg : Leg.ofAxis start goal unit dim a = g) (hfits : g.Fits dim)
      (hsource : a.trip = 1 ∨ a.stride = if g.isFixed then 0 else unit * g.step)
      (htrip : b.trip = g.trip) (htarget : b.trip = 1 ∨ b.stride = unit * g.step)
      (rest : Planned start goal (d + 1) (unit * dim.size) dims as bs axes masks) :
      Planned start goal d unit (dim :: dims) (a :: as) (b :: bs) (g.sourceAxis unit :: axes)
        ((g.mask d).toList ++ masks)

theorem maskAxis_eq_ok {start unit : Int} {d : Nat} {dim : TiledDim} {a a' : Axis}
    {m : Option StrideMask} (hunit : 0 < unit) (h : maskAxis start d unit dim a = .ok (a', m)) :
    a.trip = 1 ∧ a' = { stride := unit, trip := 1 } ∧ m = none ∨
      a.trip ≠ 1 ∧ a' = a ∧ m = none ∨
      a.trip ≠ 1 ∧ ∃ step, 1 < step ∧ step ∣ dim.tile ∧ a.stride = unit * step ∧
        a' = { stride := unit, trip := (a.trip - 1) * step + 1 } ∧
        m = some
          { dim := d, stride := step,
            modulo := (AffinePattern.coordinate start unit dim.size).tmod step } := by
  unfold maskAxis at h
  by_cases hone : a.trip = 1
  · rw [if_pos hone, Except.ok.injEq, Prod.mk.injEq] at h
    exact Or.inl ⟨hone, h.1.symm, h.2.symm⟩
  · rw [if_neg hone] at h
    by_cases hkeep : a.stride ≤ 0 ∨ a.stride = unit ∨ a.stride.tmod unit ≠ 0
    · rw [if_pos hkeep, Except.ok.injEq, Prod.mk.injEq] at h
      exact Or.inr (Or.inl ⟨hone, h.1.symm, h.2.symm⟩)
    · -- a stride of several units: the step becomes a mask
      rw [if_neg hkeep] at h
      simp only [not_or, not_not, Int.not_le] at hkeep
      rcases hkeep with ⟨hpositive, hdense, hmod⟩
      rw [Int.tmod_eq_emod_of_nonneg hpositive.le] at hmod
      rw [Int.tdiv_eq_ediv_of_nonneg hpositive.le] at h
      have hdvd : unit ∣ a.stride := Int.dvd_of_emod_eq_zero hmod
      have hstride : a.stride = unit * (a.stride / unit) := (Int.mul_ediv_cancel' hdvd).symm
      have hstep : 0 < a.stride / unit := Int.ediv_pos_of_pos_of_dvd hpositive hunit.le hdvd
      have hne : a.stride / unit ≠ 1 := by
        intro hsame
        rw [hsame, Int.mul_one] at hstride
        exact hdense hstride
      by_cases htile : dim.tile.tmod (a.stride / unit) = 0
      · rw [if_neg (not_not.2 htile), Except.ok.injEq, Prod.mk.injEq] at h
        exact Or.inr (Or.inr ⟨hone, a.stride / unit, by omega, Int.dvd_of_tmod_eq_zero htile,
          hstride, h.1.symm, h.2.symm⟩)
      · rw [if_pos htile] at h
        cases h

/-- The mask of steps of a dimension, if they skip coordinates at all. -/
def stepMask (d : Nat) (step corner : Int) : Option StrideMask :=
  if step = 1 then none else some { dim := d, stride := step, modulo := corner % step }

/-- What compilation accepts as one axis of a pattern: it goes in steps of some whole number of
coordinates that divides the tile. -/
structure Steps (unit corner : Int) (d : Nat) (dim : TiledDim) (a a' : Axis) (m : Option StrideMask)
    (step : Int) : Prop where
  step_pos : 0 < step
  step_dvd : step ∣ dim.tile
  step_one : a.trip = 1 → step = 1
  stride_eq : a.trip ≠ 1 → a.stride = unit * step
  axis_eq : a' = { stride := unit, trip := (a.trip - 1) * step + 1 }
  mask_eq : m = stepMask d step corner
  le_size : corner + ((a.trip - 1) * step + 1) ≤ dim.size

/-- An axis that compilation accepts goes in steps. Only a source may stay where it is. -/
theorem maskAxis_cases {start unit : Int} {d : Nat} {dim : TiledDim} {a a' : Axis}
    {m : Option StrideMask} {reuse : Bool} (hunit : 0 < unit) {corner : Int}
    (hcorner : AffinePattern.coordinate start unit dim.size = corner) (h0 : 0 ≤ corner)
    (h : maskAxis start d unit dim a = .ok (a', m))
    (hfit : AffinePattern.axisFits reuse corner unit dim.size a' = true) :
    0 < a.trip ∧ ((∃ step, Steps unit corner d dim a a' m step) ∨
      reuse = true ∧ a.trip ≠ 1 ∧ a.stride = 0 ∧ a' = a ∧ m = none ∧ corner < dim.size) := by
  unfold AffinePattern.axisFits at hfit
  -- an axis of one step, one that is kept as it is, and one that skips coordinates
  rcases maskAxis_eq_ok hunit h with
    ⟨hone, rfl, rfl⟩ | ⟨hone, rfl, rfl⟩ | ⟨hone, step, hstep, hdvd, hstride, rfl, rfl⟩
  · simp only [Bool.and_eq_true, decide_eq_true_eq, if_true] at hfit
    refine ⟨by omega, Or.inl ⟨1, Int.one_pos, Int.one_dvd _, fun _ => rfl,
      fun hmany => absurd hone hmany, ?_, rfl, ?_⟩⟩
    · rw [hone]
      rfl
    · rw [hone]
      exact hfit.2
  · simp only [Bool.and_eq_true, decide_eq_true_eq] at hfit
    refine ⟨hfit.1, ?_⟩
    by_cases hdense : a'.stride = unit
    · have hle := hfit.2
      rw [if_pos hdense, decide_eq_true_eq] at hle
      refine Or.inl ⟨1, Int.one_pos, Int.one_dvd _, fun _ => rfl, fun _ => by omega, ?_, rfl,
        by omega⟩
      rcases a' with ⟨stride, trip⟩
      simp only at hdense
      simp [hdense]
    · have hstay := hfit.2
      simp only [if_neg hdense, Bool.and_eq_true, beq_iff_eq, decide_eq_true_eq] at hstay
      exact Or.inr ⟨hstay.1.1, hone, hstay.1.2, rfl, rfl, hstay.2⟩
  · simp only [Bool.and_eq_true, decide_eq_true_eq, if_true] at hfit
    have htrip : 0 < a.trip := by
      by_contra hle
      have hmul := Int.mul_le_mul_of_nonneg_right (by omega : a.trip - 1 ≤ -1)
        (by omega : 0 ≤ step)
      omega
    refine ⟨htrip, Or.inl ⟨step, by omega, hdvd, fun h => absurd h hone, fun _ => hstride, rfl, ?_,
      hfit.2⟩⟩
    rw [stepMask, if_neg (by omega), hcorner, Int.tmod_eq_emod_of_nonneg h0]

theorem maskAxes_cons {start unit : Int} {d : Nat} {dim : TiledDim} {dims : List TiledDim} {a : Axis}
    {as axes : List Axis} {masks : List StrideMask}
    (h : maskAxes start d unit (dim :: dims) (a :: as) = .ok (axes, masks)) :
    ∃ a' m axes' masks', maskAxis start d unit dim a = .ok (a', m) ∧
      maskAxes start (d + 1) (unit * dim.size) dims as = .ok (axes', masks') ∧
      axes = a' :: axes' ∧ masks = m.toList ++ masks' := by
  rcases bind_eq_ok.1 h with ⟨⟨a', m⟩, hhead, h⟩
  rcases bind_eq_ok.1 h with ⟨⟨axes', masks'⟩, hrest, h⟩
  cases h
  exact ⟨a', m, axes', masks', hhead, hrest, rfl, rfl⟩

theorem dim_of_maskAxis {start unit : Int} {d : Nat} {dim : TiledDim} {a a' : Axis}
    {m : Option StrideMask} (h : maskAxis start d unit dim a = .ok (a', m)) :
    ∀ x ∈ m, x.dim = d := by
  unfold maskAxis at h
  split at h
  · cases h
    simp
  · split at h
    · cases h
      simp
    · simp only at h
      split at h
      · cases h
      · cases h
        simp

/-- Masks are listed in the order of their dimensions. -/
theorem le_dim_of_maskAxes {start unit : Int} {d : Nat} {dims : List TiledDim} {as axes : List Axis}
    {masks : List StrideMask} (h : maskAxes start d unit dims as = .ok (axes, masks)) :
    ∀ m ∈ masks, d ≤ m.dim := by
  induction dims generalizing d unit as axes masks with
  | nil =>
      cases h
      simp
  | cons dim dims ih =>
      cases as with
      | nil =>
          cases h
          simp
      | cons a as =>
          rcases maskAxes_cons h with ⟨a', m, axes', masks', hhead, hrest, rfl, rfl⟩
          intro m' hm'
          rcases List.mem_append.1 hm' with hm' | hm'
          · exact (dim_of_maskAxis hhead m' (Option.mem_toList.1 hm')).ge
          · exact Nat.le_of_succ_le (ih hrest m' hm')

/-- Lists of shapes in the order of their dimensions agree dimension by dimension. -/
theorem shapes_cons {d : Nat} {m n : Option StrideMask} {ms ns : List StrideMask}
    (hm : ∀ x ∈ m, x.dim = d) (hn : ∀ x ∈ n, x.dim = d) (hms : ∀ x ∈ ms, d < x.dim)
    (hns : ∀ x ∈ ns, d < x.dim)
    (h : (m.toList ++ ms).map maskShape = (n.toList ++ ns).map maskShape) :
    m.map maskShape = n.map maskShape ∧ ms.map maskShape = ns.map maskShape := by
  -- a mask of dimension `d` cannot match one of a later dimension
  cases m with
  | none =>
      cases n with
      | none => exact ⟨rfl, h⟩
      | some y =>
          cases ms with
          | nil => simp at h
          | cons x ms =>
              have hx := hms x (by simp)
              have hy := hn y rfl
              simp only [maskShape, Option.toList_none, List.nil_append, List.map_cons,
                Option.toList_some, List.cons_append, List.cons.injEq, Prod.mk.injEq] at h
              omega
  | some x =>
      cases n with
      | none =>
          cases ns with
          | nil => simp at h
          | cons y ns =>
              have hx := hm x rfl
              have hy := hns y (by simp)
              simp only [maskShape, Option.toList_none, List.nil_append, List.map_cons,
                Option.toList_some, List.cons_append, List.cons.injEq, Prod.mk.injEq] at h
              omega
      | some y => simpa using h

theorem coordinate_bounds {start unit : Int} (hstart : 0 ≤ start) (hunit : 0 < unit)
    (dim : TiledDim) : 0 ≤ AffinePattern.coordinate start unit dim.size ∧
      AffinePattern.coordinate start unit dim.size < dim.size := by
  have hsize : 0 < dim.size := Int.mul_pos dim.tile_pos dim.count_pos
  have hdiv : 0 ≤ start / unit := Int.ediv_nonneg hstart hunit.le
  rw [AffinePattern.coordinate, Int.tdiv_eq_ediv_of_nonneg hstart, Int.tmod_eq_emod_of_nonneg hdiv]
  exact ⟨Int.emod_nonneg _ (by omega), Int.emod_lt_of_pos _ hsize⟩

/-- Masks of one shape come from the same step. -/
theorem step_eq_of_maskShape {d : Nat} {step step' corner corner' : Int}
    (h : (stepMask d step corner).map maskShape = (stepMask d step' corner').map maskShape) :
    step = step' := by
  unfold stepMask at h
  by_cases hone : step = 1
  · by_cases hone' : step' = 1
    · rw [hone, hone']
    · simp [hone, hone'] at h
  · by_cases hone' : step' = 1
    · simp [hone, hone'] at h
    · simpa [hone, hone', maskShape] using h

section Leg

variable {start goal unit : Int} {d : Nat} {dim : TiledDim} {a b a' b' : Axis}
  {m n : Option StrideMask}

/-- What an axis of the source and one of the destination have to do with a leg. -/
structure Goes (start goal unit : Int) (d : Nat) (dim : TiledDim) (a b a' : Axis)
    (m : Option StrideMask) (g : Leg) : Prop where
  leg_eq : Leg.ofAxis start goal unit dim a = g
  fits : g.Fits dim
  source : a.trip = 1 ∨ a.stride = if g.isFixed then 0 else unit * g.step
  trip_eq : b.trip = g.trip
  target : b.trip = 1 ∨ b.stride = unit * g.step
  axis_eq : a' = g.sourceAxis unit
  mask_eq : m = g.mask d

/-- Where both go in the same steps, the leg does so too. -/
theorem exists_moving_leg {step : Int} (hunit : 0 < unit) (hatrip : 0 < a.trip)
    (hc : 0 ≤ AffinePattern.coordinate start unit dim.size)
    (ht : 0 ≤ AffinePattern.coordinate goal unit dim.size)
    (hs : Steps unit (AffinePattern.coordinate start unit dim.size) d dim a a' m step)
    (hd : Steps unit (AffinePattern.coordinate goal unit dim.size) d dim b b' n step)
    (htrip : b.trip = a.trip) : ∃ g, Goes start goal unit d dim a b a' m g := by
  have hnotfixed : ¬ (a.trip ≠ 1 ∧ a.stride = 0) := by
    rintro ⟨hmany, hzero⟩
    have hstride := hs.stride_eq hmany
    have hpos := Int.mul_pos hunit hs.step_pos
    omega
  have hleg : (if a.trip = 1 ∨ a.stride = 0 then 1 else a.stride / unit) = step := by
    by_cases hone : a.trip = 1
    · rw [if_pos (Or.inl hone), hs.step_one hone]
    · rw [if_neg (by tauto), hs.stride_eq hone, Int.mul_ediv_cancel_left _ hunit.ne']
  let g : Leg :=
    { corner := AffinePattern.coordinate start unit dim.size
      target := AffinePattern.coordinate goal unit dim.size
      step, trip := a.trip, isFixed := false }
  refine ⟨g, ?_, ?_, ?_, htrip, ?_, hs.axis_eq, hs.mask_eq⟩
  · simp only [Leg.ofAxis, hleg, hnotfixed, decide_false, g]
  · have hle := hd.le_size
    rw [htrip] at hle
    refine ⟨hatrip, hs.step_pos, hs.step_dvd, ?_, hc, hs.le_size, ht, hle⟩
    intro hfixed
    cases hfixed
  · exact (em (a.trip = 1)).imp_right hs.stride_eq
  · exact (em (b.trip = 1)).imp_right hd.stride_eq

/-- Where the source stays and the destination goes step by step, one element serves all. -/
theorem exists_fixed_leg (hatrip : 0 < a.trip) (hmany : a.trip ≠ 1) (hzero : a.stride = 0)
    (hc : 0 ≤ AffinePattern.coordinate start unit dim.size)
    (hlt : AffinePattern.coordinate start unit dim.size < dim.size)
    (ht : 0 ≤ AffinePattern.coordinate goal unit dim.size)
    (hd : Steps unit (AffinePattern.coordinate goal unit dim.size) d dim b b' n 1)
    (htrip : b.trip = a.trip) : ∃ g, Goes start goal unit d dim a b a none g := by
  let g : Leg :=
    { corner := AffinePattern.coordinate start unit dim.size
      target := AffinePattern.coordinate goal unit dim.size
      step := 1, trip := a.trip, isFixed := true }
  refine ⟨g, ?_, ?_, Or.inr hzero, htrip, ?_, ?_, rfl⟩
  · simp only [Leg.ofAxis, hzero, hmany, or_true, if_true, ne_eq, not_false_eq_true, and_self,
      decide_true, g]
  · have hle := hd.le_size
    rw [htrip] at hle
    refine ⟨hatrip, Int.one_pos, Int.one_dvd _, fun _ => ⟨rfl, ?_⟩, hc, ?_, ht, hle⟩
    · change 1 < a.trip
      omega
    · change AffinePattern.coordinate start unit dim.size + 1 ≤ dim.size
      omega
  · exact (em (b.trip = 1)).imp_right hd.stride_eq
  · rcases a with ⟨stride, trip⟩
    simp only at hzero
    simp [Leg.sourceAxis, hzero, g]

/-- An axis of the source and one of the destination that compilation accepts together make a leg. -/
theorem exists_leg (hunit : 0 < unit) (hstart : 0 ≤ start) (hgoal : 0 ≤ goal)
    (hs : maskAxis start d unit dim a = .ok (a', m)) (hd : maskAxis goal d unit dim b = .ok (b', n))
    (hsfit : AffinePattern.axisFits true (AffinePattern.coordinate start unit dim.size) unit dim.size
      a' = true)
    (hdfit : AffinePattern.axisFits false (AffinePattern.coordinate goal unit dim.size) unit dim.size
      b' = true)
    (hshape : m.map maskShape = n.map maskShape) (htrip : a'.trip = b'.trip) :
    ∃ g, Goes start goal unit d dim a b a' m g := by
  rcases coordinate_bounds hstart hunit dim with ⟨hc, _⟩
  rcases coordinate_bounds hgoal hunit dim with ⟨ht, _⟩
  rcases maskAxis_cases hunit rfl ht hd hdfit with ⟨_, ⟨step', hd'⟩ | ⟨hfalse, _⟩⟩
  · rw [hd'.mask_eq] at hshape
    rw [hd'.axis_eq] at htrip
    rcases maskAxis_cases hunit rfl hc hs hsfit with
      ⟨hatrip, ⟨step, hs'⟩ | ⟨_, hmany, hzero, rfl, rfl, hlt⟩⟩
    · rw [hs'.mask_eq] at hshape
      have hstep := step_eq_of_maskShape hshape
      subst hstep
      refine exists_moving_leg hunit hatrip hc ht hs' hd' ?_
      rw [hs'.axis_eq] at htrip
      have hmul : (a.trip - 1) * step = (b.trip - 1) * step := by
        simpa using htrip
      have hsame := Int.eq_of_mul_eq_mul_right hs'.step_pos.ne' hmul
      omega
    · -- a source that stays has no mask, so the destination has none either
      have hone : step' = 1 := by
        by_contra hne
        simp [stepMask, hne] at hshape
      subst hone
      refine exists_fixed_leg hatrip hmany hzero hc hlt ht hd' ?_
      simp only at htrip
      omega
  · cases hfalse

end Leg

theorem planned_of_maskAxes {start goal unit : Int} {d : Nat} {dims : List TiledDim}
    {as bs axes baxes : List Axis} {masks bmasks : List StrideMask} (hunit : 0 < unit)
    (hstart : 0 ≤ start) (hgoal : 0 ≤ goal) (hslen : as.length = dims.length)
    (hdlen : bs.length = dims.length) (hs : maskAxes start d unit dims as = .ok (axes, masks))
    (hd : maskAxes goal d unit dims bs = .ok (baxes, bmasks))
    (hsfit : AffinePattern.axesFit true start unit (dims.map TiledDim.size) axes = true)
    (hdfit : AffinePattern.axesFit false goal unit (dims.map TiledDim.size) baxes = true)
    (hshape : masks.map maskShape = bmasks.map maskShape)
    (htrip : axes.map Axis.trip = baxes.map Axis.trip) :
    Planned start goal d unit dims as bs axes masks := by
  -- dimension by dimension, with the stride of one coordinate in each
  induction dims generalizing d unit as bs axes baxes masks bmasks with
  | nil =>
      rw [List.length_nil, List.length_eq_zero_iff] at hslen hdlen
      subst hslen
      subst hdlen
      cases hs
      exact Planned.nil d unit
  | cons dim dims ih =>
      cases as with
      | nil => simp at hslen
      | cons a as =>
          cases bs with
          | nil => simp at hdlen
          | cons b bs =>
              rcases maskAxes_cons hs with ⟨a', m, axes', masks', hhead, hrest, rfl, rfl⟩
              rcases maskAxes_cons hd with ⟨b', n, baxes', bmasks', hbhead, hbrest, rfl, rfl⟩
              simp only [List.map_cons, AffinePattern.axesFit, Bool.and_eq_true] at hsfit hdfit
              simp only [List.map_cons, List.cons.injEq] at htrip
              rcases shapes_cons (dim_of_maskAxis hhead) (dim_of_maskAxis hbhead)
                (le_dim_of_maskAxes hrest) (le_dim_of_maskAxes hbrest) hshape with ⟨hm, hms⟩
              rcases exists_leg hunit hstart hgoal hhead hbhead hsfit.1 hdfit.1 hm htrip.1 with
                ⟨g, hleg, hfits, hsource, hbtrip, htarget, rfl, rfl⟩
              have hsize : 0 < dim.size := Int.mul_pos dim.tile_pos dim.count_pos
              refine Planned.cons hunit hleg hfits hsource hbtrip htarget ?_
              exact ih (Int.mul_pos hunit hsize) (by simpa using hslen) (by simpa using hdlen) hrest
                hbrest hsfit.2 hdfit.2 hms htrip.2

theorem strideMasks_cases {t : Tiling} {p : AffinePattern} {s : Masked}
    (h : t.strideMasks p = .ok s) :
    p.axes.length = t.dims.length ∧
      maskAxes p.start 0 1 t.dims p.axes = .ok (s.pattern.axes, s.masks) ∧
      s.pattern.start = p.start := by
  rcases bind_eq_ok.1 h with ⟨_, hcheck, h⟩
  rcases bind_eq_ok.1 h with ⟨⟨axes, masks⟩, hmask, h⟩
  cases h
  refine ⟨?_, hmask, rfl⟩
  by_contra hdims
  have hdims' : ¬ p.dims = t.dims.length := hdims
  rw [checkDims, if_neg hdims'] at hcheck
  cases hcheck

theorem isSubRegion_of_check {t : Tiling} {role : RegionRole} {given p : AffinePattern}
    {reuse : Bool} {u : Unit} (h : t.checkSubRegion role given p reuse = .ok u) :
    p.isSubRegion t.arraySizes reuse = true := by
  by_contra hsub
  rw [checkSubRegion, isSubRegion, if_neg hsub] at h
  cases h

theorem compileMove_eq_ok {t : Tiling} {source target : AffinePattern} {cs : List Command}
    (h : t.compileMove source target = .ok cs) :
    ∃ s d : Masked, t.strideMasks source = .ok s ∧ t.strideMasks target = .ok d ∧
      s.masks.map maskShape = d.masks.map maskShape ∧
      d.pattern.isSubRegion t.arraySizes false = true ∧
      s.pattern.isSubRegion t.arraySizes true = true ∧ s.pattern.trips = d.pattern.trips ∧
      cs = t.finish s.masks (t.moveDense s.pattern d.pattern) := by
  rcases bind_eq_ok.1 h with ⟨_, _, h⟩
  rcases bind_eq_ok.1 h with ⟨_, _, h⟩
  rcases bind_eq_ok.1 h with ⟨s, hs, h⟩
  rcases bind_eq_ok.1 h with ⟨d, hd, h⟩
  by_cases hshape : s.masks.map maskShape ≠ d.masks.map maskShape
  · simp only [if_pos hshape] at h
    cases h
  · simp only [if_neg hshape] at h
    rcases bind_eq_ok.1 h with ⟨_, hdsub, h⟩
    rcases bind_eq_ok.1 h with ⟨_, hssub, h⟩
    by_cases htrips : s.pattern.trips ≠ d.pattern.trips
    · simp only [if_pos htrips] at h
      cases h
    · simp only [if_neg htrips] at h
      cases h
      exact ⟨s, d, hs, hd, not_not.1 hshape, isSubRegion_of_check hdsub, isSubRegion_of_check hssub,
        not_not.1 htrips, rfl⟩

/-- What a compiled move is, and what has been checked of its source and its destination. -/
theorem planned_of_compileMove {t : Tiling} {source target : AffinePattern} {cs : List Command}
    (h : t.compileMove source target = .ok cs) :
    ∃ s : Masked, t.strideMasks source = .ok s ∧ s.pattern.start = source.start ∧
      Planned source.start target.start 0 1 t.dims source.axes target.axes s.pattern.axes s.masks ∧
      (0 ≤ source.start ∧ source.start < t.arraySizes.prod) ∧
      (0 ≤ target.start ∧ target.start < t.arraySizes.prod) ∧
      cs = t.finish s.masks (t.moveDense s.pattern target) := by
  rcases compileMove_eq_ok h with ⟨s, d, hs, hd, hshape, hdsub, hssub, htrips, rfl⟩
  rcases strideMasks_cases hs with ⟨hslen, hsaxes, hsstart⟩
  rcases strideMasks_cases hd with ⟨hdlen, hdaxes, hdstart⟩
  simp only [AffinePattern.isSubRegion, Bool.and_eq_true, decide_eq_true_eq, hsstart, hdstart]
    at hssub hdsub
  refine ⟨s, hs, hsstart, ?_, hssub.1, hdsub.1, ?_⟩
  · exact planned_of_maskAxes Int.one_pos hssub.1.1 hdsub.1.1 hslen hdlen hsaxes hdaxes hssub.2
      hdsub.2 hshape htrips
  · have hcorner : d.pattern.corner t.arraySizes = target.corner t.arraySizes := by
      rw [AffinePattern.corner, AffinePattern.corner, hdstart]
    unfold moveDense
    rw [hcorner]

/-! ## Legs and axes -/

/-- The dimensions of fixed legs from dimension `d` on, with their number of places. -/
def fixedFrom (d : Nat) : List Leg → List Multicast
  | [] => []
  | g :: gs =>
    if g.isFixed then { dim := d, count := g.trip } :: fixedFrom (d + 1) gs else fixedFrom (d + 1) gs

/-- The point of an element before a move. -/
def sourcePoint (gs : List Leg) (ks : List Int) : List Int :=
  List.zipWith Leg.sourceAt gs ks

/-- The point of an element after a move. -/
def targetPoint (gs : List Leg) (ks : List Int) : List Int :=
  List.zipWith Leg.targetAt gs ks

section Planned

variable {start goal unit : Int} {d : Nat} {dims : List TiledDim} {as bs axes : List Axis}
  {masks : List StrideMask}

theorem Planned.fits (h : Planned start goal d unit dims as bs axes masks) :
    List.Forall₂ Leg.Fits dims (legsFrom start goal unit dims as) := by
  induction h with
  | nil d unit => exact List.Forall₂.nil
  | cons hunit hleg hfits hsource htrip htarget rest ih =>
      rw [legsFrom, hleg]
      exact List.Forall₂.cons hfits ih

theorem Planned.masks_eq (h : Planned start goal d unit dims as bs axes masks) :
    masks = masksFrom d (legsFrom start goal unit dims as) := by
  induction h with
  | nil d unit => rfl
  | cons hunit hleg hfits hsource htrip htarget rest ih => rw [legsFrom, hleg, masksFrom, ← ih]

theorem Planned.trips_eq (h : Planned start goal d unit dims as bs axes masks) :
    as.map Axis.trip = (legsFrom start goal unit dims as).map Leg.trip ∧
      bs.map Axis.trip = (legsFrom start goal unit dims as).map Leg.trip := by
  induction h with
  | nil d unit => exact ⟨rfl, rfl⟩
  | cons hunit hleg hfits hsource htrip htarget rest ih =>
      rw [legsFrom, hleg, List.map_cons, List.map_cons, List.map_cons, htrip, ih.1, ih.2, ← hleg]
      exact ⟨rfl, rfl⟩

theorem Planned.reuses_eq (h : Planned start goal d unit dims as bs axes masks) :
    reusesFrom d axes = fixedFrom d (legsFrom start goal unit dims as) := by
  induction h with
  | nil d unit => rfl
  | @cons d unit dim dims a b as bs axes masks g hunit hleg hfits hsource htrip htarget rest ih =>
      rw [legsFrom, hleg, reusesFrom, fixedFrom, ih]
      cases hfixed : g.isFixed with
      | true => simp [Leg.sourceAxis, hfixed, (hfits.fixed hfixed).2]
      | false => simp [Leg.sourceAxis, hfixed, hunit.ne']

/-- The box of the source, with one place for each dimension that does not move. -/
theorem Planned.spans_eq (h : Planned start goal d unit dims as bs axes masks) :
    List.zipWith AffinePattern.spanAt
        (List.zipWith (AffinePattern.coordinate start) (canonicalFrom unit (dims.map TiledDim.size))
          (dims.map TiledDim.size))
        (List.zipWith (fun unit a => if a.stride = 0 then { stride := unit, trip := 1 } else a)
          (canonicalFrom unit (dims.map TiledDim.size)) axes) =
      (legsFrom start goal unit dims as).map Leg.span := by
  induction h with
  | nil d unit => rfl
  | @cons d unit dim dims a b as bs axes masks g hunit hleg hfits hsource htrip htarget rest ih =>
      have hcorner : AffinePattern.coordinate start unit dim.size = g.corner := by
        rw [← hleg]
        rfl
      simp only [List.map_cons, canonicalFrom, List.zipWith_cons_cons, ih, legsFrom, hleg, hcorner]
      congr 1
      cases hfixed : g.isFixed with
      | true => simp [Leg.sourceAxis, Leg.span, AffinePattern.spanAt, hfixed, hunit.ne']
      | false => simp [Leg.sourceAxis, Leg.span, AffinePattern.spanAt, hfixed, hunit.ne']

theorem legsFrom_corner (h : Planned start goal d unit dims as bs axes masks) :
    List.zipWith (AffinePattern.coordinate start) (canonicalFrom unit (dims.map TiledDim.size))
        (dims.map TiledDim.size) = (legsFrom start goal unit dims as).map Leg.corner ∧
      List.zipWith (AffinePattern.coordinate goal) (canonicalFrom unit (dims.map TiledDim.size))
        (dims.map TiledDim.size) = (legsFrom start goal unit dims as).map Leg.target := by
  induction h with
  | nil d unit => exact ⟨rfl, rfl⟩
  | cons hunit hleg hfits hsource htrip htarget rest ih =>
      simp only [List.map_cons, canonicalFrom, List.zipWith_cons_cons, legsFrom, ih.1, ih.2]
      exact ⟨rfl, rfl⟩

/-- What the axes of the source and of the destination add to their starts. -/
theorem Planned.sums_eq (h : Planned start goal d unit dims as bs axes masks) {ks : List Int}
    (hks : InArray ((legsFrom start goal unit dims as).map Leg.trip) ks) :
    (List.zipWith (fun a k => a.stride * k) as ks).sum =
        (List.zipWith (· * ·) (List.zipWith (fun g k => g.sourceAt k - g.corner)
          (legsFrom start goal unit dims as) ks) (canonicalFrom unit (dims.map TiledDim.size))).sum ∧
      (List.zipWith (fun a k => a.stride * k) bs ks).sum =
        (List.zipWith (· * ·) (List.zipWith (fun g k => g.targetAt k - g.target)
          (legsFrom start goal unit dims as) ks) (canonicalFrom unit (dims.map TiledDim.size))).sum := by
  induction h generalizing ks with
  | nil d unit => simp [legsFrom]
  | @cons d unit dim dims a b as bs axes masks g hunit hleg hfits hsource htrip htarget rest ih =>
      rw [legsFrom, hleg] at hks ⊢
      rw [List.map_cons] at hks
      rcases hks with _ | ⟨hk, hks⟩
      rename_i k ks
      rcases ih hks with ⟨hs, ht⟩
      have hatrip : a.trip = g.trip := by
        rw [← hleg]
        rfl
      -- an axis of one step may have any stride, but its only digit is zero
      have hdigit : g.trip = 1 → k = 0 := by omega
      have hsource' : a.stride * k = (g.sourceAt k - g.corner) * unit := by
        rcases hsource with hone | hstride
        · rw [hdigit (hatrip ▸ hone)]
          simp [Leg.sourceAt]
        · rw [hstride, Leg.sourceAt]
          cases g.isFixed with
          | true => simp
          | false =>
              simp only [Bool.false_eq_true, if_false]
              ring
      have htarget' : b.stride * k = (g.targetAt k - g.target) * unit := by
        rcases htarget with hone | hstride
        · rw [hdigit (htrip ▸ hone)]
          simp [Leg.targetAt]
        · rw [hstride, Leg.targetAt]
          ring
      simp only [List.map_cons, canonicalFrom, List.zipWith_cons_cons, List.sum_cons, hs, ht,
        hsource', htarget', and_self]

end Planned

/-! ## Where the elements are -/

theorem linearize_point {gs : List Leg} {ks sizes : List Int} (base : Leg → Int)
    (point : Leg → Int → Int) (hlen : ks.length = gs.length) :
    linearize (List.zipWith point gs ks) sizes =
      linearize (gs.map base) sizes +
        linearize (List.zipWith (fun g k => point g k - base g) gs ks) sizes := by
  rw [← linearize_add sizes (by simp [hlen])]
  congr 1
  apply List.ext_getElem?
  intro e
  simp only [List.getElem?_zipWith, List.getElem?_map]
  cases gs[e]? with
  | none => rfl
  | some g =>
      cases ks[e]? with
      | none => rfl
      | some k => simp

section Values

variable {t : Tiling} {source target : AffinePattern} {axes : List Axis} {masks : List StrideMask}

/-- Digits of an element along the legs of a move. -/
def digits (gs : List Leg) (i : Nat) : List Int :=
  coordinates (gs.map Leg.trip) i

theorem Planned.fits_legs
    (h : Planned source.start target.start 0 1 t.dims source.axes target.axes axes masks) :
    List.Forall₂ Leg.Fits t.dims (t.legs source target) :=
  h.fits

theorem Planned.trips_pos
    (h : Planned source.start target.start 0 1 t.dims source.axes target.axes axes masks) :
    ∀ n ∈ (t.legs source target).map Leg.trip, 0 < n := by
  have hfits := h.fits_legs
  intro n hn
  rcases List.mem_map.1 hn with ⟨g, hg, rfl⟩
  rcases List.getElem_of_mem hg with ⟨e, he, rfl⟩
  exact ((List.forall₂_iff_get.1 hfits).2 e (hfits.length_eq ▸ he) he).trip_pos

theorem Planned.inArray_digits
    (h : Planned source.start target.start 0 1 t.dims source.axes target.axes axes masks) (i : Nat) :
    InArray ((t.legs source target).map Leg.trip) (digits (t.legs source target) i) :=
  inArray_coordinates h.trips_pos i

/-- An element of the source is at the point that the legs say. -/
theorem source_value
    (h : Planned source.start target.start 0 1 t.dims source.axes target.axes axes masks)
    (hstart : 0 ≤ source.start ∧ source.start < t.arraySizes.prod) (i : Nat) :
    source.value i = linearize
      (sourcePoint (t.legs source target) (digits (t.legs source target) i)) t.arraySizes := by
  have hdigits := h.inArray_digits i
  have htrips : source.axes.map Axis.trip = (t.legs source target).map Leg.trip := h.trips_eq.1
  have hpos : ∀ a ∈ source.axes, 0 < a.trip := by
    intro a ha
    exact h.trips_pos _ (htrips ▸ List.mem_map_of_mem ha)
  have hcorner : (t.legs source target).map Leg.corner = coordinates t.arraySizes source.start := by
    rw [← corner_eq_coordinates t.arraySizes_pos source hstart.1]
    exact (legsFrom_corner h).1.symm
  have hlen : (digits (t.legs source target) i).length = (t.legs source target).length := by
    simpa using hdigits.length_eq
  rw [sourcePoint, linearize_point Leg.corner Leg.sourceAt hlen, hcorner,
    linearize_coordinates t.arraySizes_pos hstart.1 hstart.2, AffinePattern.value,
    walk_eq_sum hpos source.start (Int.natCast_nonneg i), htrips]
  exact congrArg (source.start + ·) (h.sums_eq hdigits).1

/-- An element of the destination is at the point that the legs say. -/
theorem target_value
    (h : Planned source.start target.start 0 1 t.dims source.axes target.axes axes masks)
    (hgoal : 0 ≤ target.start ∧ target.start < t.arraySizes.prod) (i : Nat) :
    target.value i = linearize
      (targetPoint (t.legs source target) (digits (t.legs source target) i)) t.arraySizes := by
  have hdigits := h.inArray_digits i
  have htrips : target.axes.map Axis.trip = (t.legs source target).map Leg.trip := h.trips_eq.2
  have hpos : ∀ a ∈ target.axes, 0 < a.trip := by
    intro a ha
    exact h.trips_pos _ (htrips ▸ List.mem_map_of_mem ha)
  have hcorner : (t.legs source target).map Leg.target = coordinates t.arraySizes target.start := by
    rw [← corner_eq_coordinates t.arraySizes_pos target hgoal.1]
    exact (legsFrom_corner h).2.symm
  have hlen : (digits (t.legs source target) i).length = (t.legs source target).length := by
    simpa using hdigits.length_eq
  rw [targetPoint, linearize_point Leg.target Leg.targetAt hlen, hcorner,
    linearize_coordinates t.arraySizes_pos hgoal.1 hgoal.2, AffinePattern.value,
    walk_eq_sum hpos target.start (Int.natCast_nonneg i), htrips]
  exact congrArg (target.start + ·) (h.sums_eq hdigits).2

end Values

section Points

variable {t : Tiling} {gs : List Leg} {ks : List Int}

theorem within_sourcePoint (hfits : List.Forall₂ Leg.Fits t.dims gs)
    (hks : InArray (gs.map Leg.trip) ks) : t.Within (sourcePoint gs ks) := by
  rw [within_iff_forall₂, sourcePoint]
  generalize t.dims = dims at hfits
  induction hfits generalizing ks with
  | nil => exact List.Forall₂.nil
  | @cons dim g dims gs hfit hfits ih =>
      rcases hks with _ | ⟨hk, hks⟩
      have hmem := contains_iff.1 (hfit.sourceAt_mem hk.1 hk.2)
      have hlow : g.span.lo = g.corner := rfl
      have hcorner := hfit.corner_nonneg
      have hle := hfit.span_le
      exact List.Forall₂.cons ⟨by omega, by omega⟩ (ih hks)

theorem within_targetPoint (hfits : List.Forall₂ Leg.Fits t.dims gs)
    (hks : InArray (gs.map Leg.trip) ks) : t.Within (targetPoint gs ks) := by
  rw [within_iff_forall₂, targetPoint]
  generalize t.dims = dims at hfits
  induction hfits generalizing ks with
  | nil => exact List.Forall₂.nil
  | @cons dim g dims gs hfit hfits ih =>
      rcases hks with _ | ⟨hk, hks⟩
      exact List.Forall₂.cons (hfit.targetAt_bounds hk.1 hk.2) (ih hks)

/-- The points of the source lie in its box. -/
theorem contains_sourcePoint (hfits : List.Forall₂ Leg.Fits t.dims gs)
    (hks : InArray (gs.map Leg.trip) ks) :
    Box.contains { spans := gs.map Leg.span } (sourcePoint gs ks) = true := by
  rw [sourcePoint, Box.contains]
  generalize t.dims = dims at hfits
  induction hfits generalizing ks with
  | nil => rfl
  | @cons dim g dims gs hfit hfits ih =>
      rcases hks with _ | ⟨hk, hks⟩
      simp only [List.map_cons, List.zipWith_cons_cons, List.zip_cons_cons, List.all_cons,
        Bool.and_eq_true]
      exact ⟨hfit.sourceAt_mem hk.1 hk.2, ih hks⟩

end Points

end Tiling
end StreamEngine
