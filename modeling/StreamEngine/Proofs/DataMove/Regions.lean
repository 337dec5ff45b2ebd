import StreamEngine.Proofs.DataMove.DenseRouting

/-!
# Computations touch each element of their region once

A computation compiles to parts of one command that covers the whole array. They cut the dense box around
the region into pieces that do not overlap, and the stride masks leave of it what the region steps on. So
every element of the region is read by just one command, strided or not, and nothing else is read.

* `planned_of_compileCompute` — what the compilation of a computation has checked;
* `compute_selects_once` — what the commands of a computation read.
-/

namespace StreamEngine

theorem AffinePattern.axisFits_of_moving {corner unit size : Int} {a : Axis}
    (h : axisFits false corner unit size a = true) : axisFits true corner unit size a = true := by
  unfold axisFits at h ⊢
  by_cases hdense : a.stride = unit
  · simpa only [if_pos hdense] using h
  · simp [if_neg hdense] at h

/-- What fits without dimensions that stay where they are fits where such are allowed. -/
theorem AffinePattern.axesFit_of_moving {start unit : Int} {sizes : List Int} {axes : List Axis}
    (h : axesFit false start unit sizes axes = true) : axesFit true start unit sizes axes = true := by
  induction sizes generalizing unit axes with
  | nil => cases axes <;> exact h
  | cons size sizes ih =>
      cases axes with
      | nil => exact h
      | cons a axes =>
          simp only [axesFit, Bool.and_eq_true] at h ⊢
          exact ⟨axisFits_of_moving h.1, ih h.2⟩

namespace Tiling

variable {t : Tiling} {gs : List Leg} {p : List Int}

/-! ## What compilation checks -/

/-- The command of a computation on the whole array. -/
def everywhere (t : Tiling) (op : ComputeOp) (reduce : Bool) : Command :=
  { kind := .compute op reduce, bitlineMask := Box.full t.tileSizes, tileMask := Box.full t.tileCounts }

section Planned

variable {start goal unit : Int} {d : Nat} {dims : List TiledDim} {as bs axes : List Axis}
  {masks : List StrideMask}

/-- A region that is a source and a destination at once stays in no dimension where it is. -/
theorem Planned.moving (h : Planned start goal d unit dims as bs axes masks) (hsame : as = bs) :
    ∀ g ∈ legsFrom start goal unit dims as, ¬ g.isFixed = true := by
  induction h with
  | nil d unit =>
      intro g hg
      cases hg
  | @cons d unit dim dims a b as bs axes masks g hunit hleg hfits hsource htrip htarget rest ih =>
      cases hsame
      intro g' hg'
      rw [legsFrom, List.mem_cons] at hg'
      rcases hg' with rfl | hg'
      · rw [hleg]
        intro hfixed
        have hmany : g.trip ≠ 1 := by
          have := (hfits.fixed hfixed).2
          omega
        have hstride : a.stride = unit * g.step := htarget.resolve_left fun hone => hmany (htrip ▸ hone)
        have hpos := Int.mul_pos hunit hfits.step_pos
        rcases hsource with hone | hzero
        · exact hmany (htrip ▸ hone)
        · rw [if_pos hfixed] at hzero
          omega
      · exact ih rfl g' hg'

/-- The box of a region. -/
theorem Planned.spans_of_moving (h : Planned start goal d unit dims as bs axes masks)
    (hmoves : ∀ g ∈ legsFrom start goal unit dims as, ¬ g.isFixed = true) :
    List.zipWith AffinePattern.spanAt
        (List.zipWith (AffinePattern.coordinate start) (canonicalFrom unit (dims.map TiledDim.size))
          (dims.map TiledDim.size)) axes =
      (legsFrom start goal unit dims as).map Leg.span := by
  induction h with
  | nil d unit => rfl
  | @cons d unit dim dims a b as bs axes masks g hunit hleg hfits hsource htrip htarget rest ih =>
      rw [legsFrom, hleg] at hmoves
      have hmoving : ¬ g.isFixed = true := hmoves g List.mem_cons_self
      have hcorner : AffinePattern.coordinate start unit dim.size = g.corner := by
        rw [← hleg]
        rfl
      have htail := ih fun g' hg' => hmoves g' (List.mem_cons_of_mem _ hg')
      simp only [List.map_cons, canonicalFrom, List.zipWith_cons_cons, htail, legsFrom, hleg, hcorner]
      congr 1
      simp [Leg.sourceAxis, Leg.span, AffinePattern.spanAt, hmoving, hunit.ne']

end Planned

/-- What a compiled computation is, and what has been checked of its region. -/
theorem planned_of_compileCompute {op : ComputeOp} {region : AffinePattern} {reduce : Bool}
    {cs : List Command} (h : t.compileCompute op region reduce = .ok cs) :
    ∃ axes masks, Planned region.start region.start 0 1 t.dims region.axes region.axes axes masks ∧
      (0 ≤ region.start ∧ region.start < t.arraySizes.prod) ∧
      cs = t.finish masks (t.maskByRegion (t.everywhere op reduce) (boxOf (t.legs region region))) := by
  rcases bind_eq_ok.1 h with ⟨_, _, h⟩
  rcases bind_eq_ok.1 h with ⟨r, hr, h⟩
  rcases bind_eq_ok.1 h with ⟨_, hsub, h⟩
  cases h
  rcases strideMasks_cases hr with ⟨hlen, haxes, hstart⟩
  have hregion := isSubRegion_of_check hsub
  simp only [AffinePattern.isSubRegion, Bool.and_eq_true, decide_eq_true_eq, hstart] at hregion
  have hplan := planned_of_maskAxes Int.one_pos hregion.1.1 hregion.1.1 hlen hlen haxes haxes
    (AffinePattern.axesFit_of_moving hregion.2) hregion.2 rfl rfl
  refine ⟨r.pattern.axes, r.masks, hplan, hregion.1, ?_⟩
  have hbox : r.pattern.toBox t.arraySizes = boxOf (t.legs region region) := by
    rw [AffinePattern.toBox, AffinePattern.corner, hstart]
    exact congrArg Box.mk (hplan.spans_of_moving (hplan.moving rfl))
  rw [hbox]
  rfl

/-! ## Elements of a region -/

theorem shaped_everywhere (op : ComputeOp) (reduce : Bool) : t.Shaped (t.everywhere op reduce) := by
  simp [Shaped, everywhere, Box.full, tileCounts, tileSizes]

theorem covers_everywhere (op : ComputeOp) (reduce : Bool) (hp : t.Within p) :
    t.Covers (t.everywhere op reduce) p :=
  ⟨box_contains_full (inArray_tilePoint hp), box_contains_full (inArray_linePoint hp)⟩

/-- Every element of the region of a computation lies in the array and is read by just one of its commands,
and the commands read nothing else. -/
theorem compute_selects_once {op : ComputeOp} {region : AffinePattern} {reduce : Bool}
    {cs : List Command} (h : t.compileCompute op region reduce = .ok cs) :
    (∀ v ∈ region.allValues, (0 ≤ v ∧ v < t.arraySizes.prod) ∧
      cs.countP (fun c => t.Selects c (t.locate v)) = 1) ∧
    ∀ c ∈ cs, ∀ l, t.Selects c l → ∃ v ∈ region.allValues, t.locate v = l := by
  rcases planned_of_compileCompute h with ⟨axes, masks, hplan, hstart, hcs⟩
  have hfits := hplan.fits_legs
  have hregion : (boxOf (t.legs region region)).spans.length = t.dims.length := by
    rw [boxOf, List.length_map]
    exact hfits.length_eq.symm
  have hmasks : masks = masksFrom 0 (t.legs region region) := hplan.masks_eq
  rw [hmasks, finish_eq_map fun c hc => not_isEmpty_of_mem_maskByRegion hc] at hcs
  subst hcs
  constructor
  · intro v hv
    rcases List.mem_map.1 hv with ⟨i, _, rfl⟩
    have hdigits := hplan.inArray_digits i
    have hp := within_sourcePoint hfits hdigits
    rw [source_value hplan hstart, locate_linearize hp]
    refine ⟨linearize_bounds hp, ?_⟩
    -- the element is on the masks, and one part of the command covers it
    have hmask := onStrides_sourcePoint hfits hdigits
    have hcount := countP_maskByRegion (shaped_everywhere op reduce) hregion hp
    rw [if_pos ⟨covers_everywhere op reduce hp, contains_sourcePoint hfits hdigits⟩] at hcount
    rw [List.countP_map, ← hcount]
    refine List.countP_congr fun c _ => ?_
    simp [selects_dressed hp, hmask]
  · intro c hc l hl
    rcases List.mem_map.1 hc with ⟨c₀, hc₀, rfl⟩
    rcases exists_point hl.1 with ⟨p, hp, rfl⟩
    rcases (selects_dressed hp).1 hl with ⟨hcov, hmask⟩
    have hcovers := exists_covers_maskByRegion (shaped_everywhere op reduce) hregion hp
    rcases hcovers.1 ⟨c₀, hc₀, hcov⟩ with ⟨_, hin⟩
    rcases exists_digits_of_onStrides hfits hp hin hmask with ⟨ks, hks, rfl⟩
    rcases exists_element hplan hks with ⟨i, hi, rfl⟩
    refine ⟨region.value i, List.mem_map.2 ⟨i, List.mem_range.2 hi, rfl⟩, ?_⟩
    rw [source_value hplan hstart, locate_linearize hp]

/-- Every other column of two rows, in tiles of two columns: the first tile of a row has its second column
read, and the next one too. -/
theorem compute_selects_once_columns :
    ∃ cs, sixByFour.compileCompute .add { start := 1, axes := [⟨2, 2⟩, ⟨6, 2⟩] } false = .ok cs ∧
      (∀ v ∈ [1, 3, 7, 9], (0 ≤ v ∧ v < 24) ∧
        cs.countP (fun c => sixByFour.Selects c (sixByFour.locate v)) = 1) ∧
      ∀ c ∈ cs, ∀ l, sixByFour.Selects c l → ∃ v ∈ [1, 3, 7, 9], sixByFour.locate v = l := by
  have hcompiled : sixByFour.compileCompute .add { start := 1, axes := [⟨2, 2⟩, ⟨6, 2⟩] } false =
      .ok _ := rfl
  exact ⟨_, hcompiled, compute_selects_once hcompiled⟩

end Tiling
end StreamEngine
