import StreamEngine.Proofs.DataMove.Routing

/-!
# Dense moves reach their places

A move whose source skips no elements is exact: every element arrives, and no command ever reads a place
that holds no element.

* `exists_digits` — the elements of a dense source fill its box;
* `routes_dense` — what the commands of a dense move do.
-/

namespace StreamEngine
namespace Tiling

variable {t : Tiling} {gs : List Leg}

theorem step_eq_one_of_masksFrom {d : Nat} (h : masksFrom d gs = []) : ∀ g ∈ gs, g.step = 1 := by
  induction gs generalizing d with
  | nil => simp
  | cons g gs ih =>
      rw [masksFrom, List.append_eq_nil_iff] at h
      intro g' hg'
      rcases List.mem_cons.1 hg' with rfl | hg'
      · by_contra hstep
        simp [Leg.mask, hstep] at h
      · exact ih h.2 g' hg'

theorem masksFrom_eq_nil {d : Nat} (h : ∀ g ∈ gs, g.step = 1) : masksFrom d gs = [] := by
  induction gs generalizing d with
  | nil => rfl
  | cons g gs ih =>
      rw [masksFrom, ih fun g' hg' => h g' (List.mem_cons_of_mem _ hg'), Leg.mask,
        if_pos (h g List.mem_cons_self)]
      rfl

/-- Every point of the box of a dense source is that of an element. -/
theorem exists_digits (hfits : List.Forall₂ Leg.Fits t.dims gs) (hstep : ∀ g ∈ gs, g.step = 1)
    {p : List Int} (hp : t.Within p) (hin : (boxOf gs).contains p = true) :
    ∃ ks, InArray (gs.map Leg.trip) ks ∧ sourcePoint gs ks = p := by
  refine exists_digits_of_onStrides hfits hp hin ?_
  rw [masksFrom_eq_nil hstep]
  exact onStrides_nil p

section Elements

variable {source target : AffinePattern} {axes : List Axis} {masks : List StrideMask}

/-- The elements of the source stand at the points that the legs say. -/
theorem mem_tokensOf
    (h : Planned source.start target.start 0 1 t.dims source.axes target.axes axes masks)
    (hstart : 0 ≤ source.start ∧ source.start < t.arraySizes.prod) {i : Nat}
    (hi : i < source.totalTrip.toNat) :
    t.tokenAt i (sourcePoint (t.legs source target) (digits (t.legs source target) i)) ∈
      t.tokensOf source := by
  refine List.mem_map.2 ⟨i, List.mem_range.2 hi, ?_⟩
  rw [source_value h hstart, locate_linearize (within_sourcePoint h.fits_legs (h.inArray_digits i))]
  rfl

/-- Digits along the legs of a move are those of one of its elements. -/
theorem exists_element
    (h : Planned source.start target.start 0 1 t.dims source.axes target.axes axes masks)
    {ks : List Int} (hks : InArray ((t.legs source target).map Leg.trip) ks) :
    ∃ i < source.totalTrip.toNat, digits (t.legs source target) i = ks := by
  have hbounds := linearize_bounds hks
  have htotal : source.totalTrip = ((t.legs source target).map Leg.trip).prod :=
    congrArg List.prod h.trips_eq.1
  refine ⟨(linearize ks ((t.legs source target).map Leg.trip)).toNat, by omega, ?_⟩
  rw [digits, Int.toNat_of_nonneg hbounds.1, coordinates_linearize hks]

end Elements

/-- The commands of a dense move bring every element of the source to its place in the destination, and
they only ever read elements and move them inside the memory arrays. -/
theorem routes_dense {source target : AffinePattern} {cs : List Command} {s : Masked}
    (h : t.compileMove source target = .ok cs) (hs : t.strideMasks source = .ok s)
    (hdense : s.masks = []) :
    (∀ i < source.totalTrip.toNat,
      { element := i, place := t.locate (target.value i) } ∈ t.run (t.tokensOf source) cs) ∧
      t.ReadsTokens (t.tokensOf source) cs := by
  rcases planned_of_compileMove h with ⟨s', hs', hstart, hplan, hsource, htarget, hcs⟩
  rw [hs, Except.ok.injEq] at hs'
  subst hs'
  rw [moveDense_eq hstart hplan, hdense, finish_moveLegs] at hcs
  subst hcs
  have hfits := hplan.fits_legs
  constructor
  · intro i hi
    have hdigits := hplan.inArray_digits i
    rw [target_value hplan htarget, locate_linearize (within_targetPoint hfits hdigits)]
    refine mem_drive_moveLegs hfits hdigits (onStrides_nil _) ?_ ?_ (mem_tokensOf hplan hsource hi)
    · intro δs _ j δ dim x _ _ _ _
      refine Or.inl ?_
      intro m hm
      cases hm
    · intro r _ δs _ m hm
      cases hm
  · refine readsTokens_moveLegs hfits ?_
    -- without masks no leg skips coordinates, and the box of the source has no gaps
    have hsteps : ∀ g ∈ t.legs source target, g.step = 1 := by
      apply step_eq_one_of_masksFrom (d := 0)
      rw [← hdense]
      exact hplan.masks_eq.symm
    intro p hp hin
    rcases exists_digits hfits hsteps hp hin with ⟨ks, hks, rfl⟩
    rcases exists_element hplan hks with ⟨i, hi, rfl⟩
    exact ⟨i, mem_tokensOf hplan hsource hi⟩

/-- An array of six columns and four rows, in tiles of two columns and one row. -/
def sixByFour : Tiling :=
  { hardware := {}
    dims := [{ tile := 2, count := 3, tile_pos := by decide, count_pos := by decide },
      { tile := 1, count := 4, tile_pos := by decide, count_pos := by decide }] }

/-- Four elements of the first row, to be copied to three rows. -/
def firstRow : AffinePattern :=
  { start := 1, axes := [⟨1, 4⟩, ⟨0, 3⟩] }

/-- Four columns of the other rows. -/
def otherRows : AffinePattern :=
  { start := 8, axes := [⟨1, 4⟩, ⟨6, 3⟩] }

theorem routes_dense_rows :
    ∃ cs, sixByFour.compileMove firstRow otherRows = .ok cs ∧
      (∀ i < firstRow.totalTrip.toNat,
        { element := i, place := sixByFour.locate (otherRows.value i) } ∈
          sixByFour.run (sixByFour.tokensOf firstRow) cs) ∧
      sixByFour.ReadsTokens (sixByFour.tokensOf firstRow) cs := by
  have hcompiled : sixByFour.compileMove firstRow otherRows = .ok _ := rfl
  have hmasked : sixByFour.strideMasks firstRow = .ok _ := rfl
  exact ⟨_, hcompiled, routes_dense hcompiled hmasked rfl⟩

end Tiling
end StreamEngine
