import StreamEngine.Proofs.DataMove.Legs

/-!
# Routes of a whole move

A move is a list of copies. Each goes over the distances of the legs, and over some number of places more
where a leg is fixed; one fixed leg may be left to a multicast. This file brings the elements of a move
through all its copies.

* `moveLegs`, `moveDense_eq` — the commands of a move, from its legs;
* `exists_digits_of_onStrides` — the points of the box on the stride masks are those of elements;
* `Offsets`, `offsets_of_mem_copyDeltas`, `exists_copyDeltas` — the distances of the copies;
* `mem_drive_moveLegs` — every element gets to its place in the destination;
* `readsTokens_moveLegs` — where the source fills its box, the commands read nothing but its elements.
-/

namespace StreamEngine
namespace Tiling

variable {t : Tiling} {gs : List Leg} {ks : List Int}

/-! ## Commands from legs -/

/-- The fixed leg that is left to a multicast. -/
def wideLeg (t : Tiling) (gs : List Leg) : Option Multicast :=
  (fixedFrom 0 gs).find? fun r => t.isTileWide r.dim

/-- The other fixed legs, whose places have copies of their own. -/
def expandedLegs (t : Tiling) (gs : List Leg) : List Multicast :=
  (fixedFrom 0 gs).filter fun r => some r.dim ≠ (t.wideLeg gs).map Multicast.dim

/-- The box of a source with these legs. -/
def boxOf (gs : List Leg) : Box :=
  { spans := gs.map Leg.span }

/-- The commands of a move with these legs. -/
def moveLegs (t : Tiling) (gs : List Leg) : List Command :=
  if (gs.map Leg.distance).all (· == 0) && (fixedFrom 0 gs).isEmpty then []
  else
    (copyDeltas (gs.map Leg.distance) (t.expandedLegs gs)).flatMap
      (t.moveCopy (t.wideLeg gs) (boxOf gs))

theorem moveDense_eq {source target : AffinePattern} {s : Masked}
    (hstart : s.pattern.start = source.start)
    (h : Planned source.start target.start 0 1 t.dims source.axes target.axes s.pattern.axes
      s.masks) :
    t.moveDense s.pattern target = t.moveLegs (t.legs source target) := by
  have hcorner := legsFrom_corner h
  have hreuses : reusesFrom 0 s.pattern.axes = fixedFrom 0 (t.legs source target) := h.reuses_eq
  have hbox : (t.withoutReuse s.pattern).toBox t.arraySizes = boxOf (t.legs source target) := by
    have hspans := h.spans_eq
    simp only [AffinePattern.toBox, AffinePattern.corner, withoutReuse, hstart, boxOf]
    exact congrArg Box.mk hspans
  -- the distances between the corners are those of the legs
  have hdistances : List.zipWith (· - ·) (target.corner t.arraySizes)
      ((t.withoutReuse s.pattern).corner t.arraySizes) =
        (t.legs source target).map Leg.distance := by
    have hs : (t.withoutReuse s.pattern).corner t.arraySizes =
        (t.legs source target).map Leg.corner := by
      simp only [AffinePattern.corner, withoutReuse, hstart]
      exact hcorner.1
    have ht : target.corner t.arraySizes = (t.legs source target).map Leg.target := hcorner.2
    rw [hs, ht]
    apply List.ext_getElem?
    intro e
    simp only [List.getElem?_zipWith, List.getElem?_map]
    cases (t.legs source target)[e]? with
    | none => rfl
    | some g => rfl
  simp only [moveDense, hdistances, hreuses, hbox]
  rfl

/-! ## Fixed legs -/

theorem mem_fixedFrom {d : Nat} {r : Multicast} :
    r ∈ fixedFrom d gs ↔
      ∃ (j : Nat) (g : Leg), gs[j]? = some g ∧ g.isFixed = true ∧
        r = { dim := d + j, count := g.trip } := by
  induction gs generalizing d with
  | nil => simp [fixedFrom]
  | cons g gs ih =>
      -- behind the first leg, legs are counted from one lower and dimensions from one higher
      have hrest : r ∈ fixedFrom (d + 1) gs ↔
          ∃ (j : Nat) (g' : Leg), (g :: gs)[j + 1]? = some g' ∧ g'.isFixed = true ∧
            r = { dim := d + (j + 1), count := g'.trip } := by
        rw [ih]
        simp only [List.getElem?_cons_succ, Nat.add_assoc, Nat.add_comm 1]
      rw [fixedFrom]
      constructor
      · intro h
        by_cases hfixed : g.isFixed = true
        · rw [if_pos hfixed] at h
          rcases List.mem_cons.1 h with rfl | h
          · exact ⟨0, g, rfl, hfixed, rfl⟩
          · rcases hrest.1 h with ⟨j, g', hj⟩
            exact ⟨j + 1, g', hj⟩
        · rw [if_neg hfixed] at h
          rcases hrest.1 h with ⟨j, g', hj⟩
          exact ⟨j + 1, g', hj⟩
      · rintro ⟨j, g', hg, hfixed, hr⟩
        cases j with
        | zero =>
            rw [List.getElem?_cons_zero, Option.some.injEq] at hg
            subst hg
            rw [if_pos hfixed, hr]
            exact List.mem_cons_self
        | succ j =>
            have hmem := hrest.2 ⟨j, g', hg, hfixed, hr⟩
            by_cases hhead : g.isFixed = true
            · rw [if_pos hhead]
              exact List.mem_cons_of_mem _ hmem
            · rw [if_neg hhead]
              exact hmem

/-- Fixed legs are listed with their dimensions, each once. -/
theorem pairwise_fixedFrom (d : Nat) (gs : List Leg) :
    (fixedFrom d gs).Pairwise fun r r' => r.dim ≠ r'.dim := by
  induction gs generalizing d with
  | nil => exact List.Pairwise.nil
  | cons g gs ih =>
      rw [fixedFrom]
      by_cases hfixed : g.isFixed = true
      · rw [if_pos hfixed]
        refine List.Pairwise.cons ?_ (ih (d + 1))
        intro r hr
        rcases mem_fixedFrom.1 hr with ⟨j, g', _, _, rfl⟩
        simp only
        omega
      · rw [if_neg hfixed]
        exact ih (d + 1)

/-! ## Distances of the copies -/

/-- What a choice of copies adds to the distance along dimension `e`. -/
def offsetAt (e : Nat) : List Multicast → List Nat → Nat
  | r :: rs, j :: js => (if r.dim = e then j else 0) + offsetAt e rs js
  | _, _ => 0

theorem getElem?_offsetBy (δs : List Int) (reuses : List Multicast) (js : List Nat) (e : Nat) :
    (offsetBy δs reuses js)[e]? = δs[e]?.map (· + (offsetAt e reuses js : Int)) := by
  unfold offsetBy
  induction reuses generalizing δs js with
  | nil => simp [offsetAt]
  | cons r reuses ih =>
      cases js with
      | nil => simp [offsetAt]
      | cons j js =>
          rw [List.zip_cons_cons, List.foldl_cons, ih, offsetAt]
          by_cases he : r.dim = e
          · subst he
            rw [List.getElem?_modify_eq]
            cases δs[r.dim]? with
            | none => rfl
            | some δ => simp [Int.add_assoc]
          · rw [List.getElem?_modify_ne _ _ he, if_neg he, Nat.zero_add]

theorem offsetAt_of_not_mem {e : Nat} {reuses : List Multicast} {js : List Nat}
    (h : ∀ r ∈ reuses, r.dim ≠ e) : offsetAt e reuses js = 0 := by
  induction reuses generalizing js with
  | nil => rfl
  | cons r reuses ih =>
      cases js with
      | nil => rfl
      | cons j js =>
          rw [offsetAt, if_neg (h r (by simp)), ih fun r' hr' => h r' (by simp [hr'])]

/-- The offset along a dimension that is listed once is the copy that is chosen there. -/
theorem exists_offsetAt {reuses : List Multicast} {js : List Nat} {P : Multicast → Nat → Prop}
    (hpair : reuses.Pairwise fun r r' => r.dim ≠ r'.dim) (h : List.Forall₂ P reuses js)
    {r : Multicast} (hr : r ∈ reuses) : P r (offsetAt r.dim reuses js) := by
  induction h with
  | nil => cases hr
  | @cons r₀ j reuses js hj hrest ih =>
      rcases List.pairwise_cons.1 hpair with ⟨hhead, htail⟩
      rw [offsetAt]
      rcases List.mem_cons.1 hr with rfl | hr
      · rw [if_pos rfl, offsetAt_of_not_mem fun r' hr' => (hhead r' hr').symm]
        exact hj
      · rw [if_neg (hhead r hr), Nat.zero_add]
        exact ih htail hr

theorem mem_choices {α : Type} {ls : List (List α)} {xs : List α} :
    xs ∈ choices ls ↔ List.Forall₂ (fun l x => x ∈ l) ls xs := by
  induction ls generalizing xs with
  | nil => simp [choices]
  | cons l ls ih =>
      simp only [choices, List.mem_flatMap, List.mem_map]
      constructor
      · rintro ⟨x, hx, ys, hys, rfl⟩
        exact List.Forall₂.cons hx (ih.1 hys)
      · rintro (_ | ⟨hx, hys⟩)
        exact ⟨_, hx, _, ih.2 hys, rfl⟩

theorem mem_copyDeltas {deltas δs : List Int} {reuses : List Multicast} :
    δs ∈ copyDeltas deltas reuses ↔
      ∃ js, List.Forall₂ (fun (r : Multicast) j => j < r.count.toNat) reuses js ∧
        offsetBy deltas reuses js = δs := by
  simp only [copyDeltas, List.mem_map, mem_choices, List.forall₂_map_left_iff, List.mem_range]

/-- The distances of a copy: those of the legs, and some places more where a leg is fixed and not left
to a multicast. -/
structure Offsets (skip : Option Nat) (gs : List Leg) (δs : List Int) : Prop where
  length_eq : δs.length = gs.length
  entry : ∀ (e : Nat) (g : Leg) (δ : Int), gs[e]? = some g → δs[e]? = some δ →
    ∃ c : Nat, δ = g.distance + c ∧
      (c ≠ 0 → g.isFixed = true ∧ skip ≠ some e ∧ (c : Int) < g.trip)

theorem length_offsetBy (δs : List Int) (reuses : List Multicast) (js : List Nat) :
    (offsetBy δs reuses js).length = δs.length := by
  unfold offsetBy
  induction reuses generalizing δs js with
  | nil => rfl
  | cons r reuses ih =>
      cases js with
      | nil => rfl
      | cons j js =>
          rw [List.zip_cons_cons, List.foldl_cons, ih]
          exact List.length_modify _ _ _

theorem mem_expandedLegs {r : Multicast} :
    r ∈ t.expandedLegs gs ↔
      (∃ g, gs[r.dim]? = some g ∧ g.isFixed = true ∧ r.count = g.trip) ∧
        (t.wideLeg gs).map Multicast.dim ≠ some r.dim := by
  rw [expandedLegs, List.mem_filter, mem_fixedFrom, decide_eq_true_eq, ne_comm]
  refine and_congr_left' ?_
  constructor
  · rintro ⟨j, g, hg, hfixed, rfl⟩
    exact ⟨g, by simpa using hg, hfixed, rfl⟩
  · rintro ⟨g, hg, hfixed, hcount⟩
    refine ⟨r.dim, g, hg, hfixed, ?_⟩
    rw [Nat.zero_add, ← hcount]

theorem pairwise_expandedLegs (t : Tiling) (gs : List Leg) :
    (t.expandedLegs gs).Pairwise fun r r' => r.dim ≠ r'.dim :=
  (pairwise_fixedFrom 0 gs).filter _

theorem offsets_of_mem_copyDeltas {δs : List Int}
    (h : δs ∈ copyDeltas (gs.map Leg.distance) (t.expandedLegs gs)) :
    Offsets ((t.wideLeg gs).map Multicast.dim) gs δs := by
  rcases mem_copyDeltas.1 h with ⟨js, hjs, rfl⟩
  refine ⟨by rw [length_offsetBy, List.length_map], ?_⟩
  intro e g δ hg hδ
  rw [getElem?_offsetBy, List.getElem?_map, hg, Option.map_some, Option.map_some,
    Option.some.injEq] at hδ
  refine ⟨offsetAt e (t.expandedLegs gs) js, hδ.symm, ?_⟩
  intro hne
  have hlisted : ∃ r ∈ t.expandedLegs gs, r.dim = e := by
    by_contra hnone
    exact hne (offsetAt_of_not_mem fun r hr he => hnone ⟨r, hr, he⟩)
  rcases hlisted with ⟨r, hr, rfl⟩
  have hlt := exists_offsetAt (pairwise_expandedLegs t gs) hjs hr
  rcases mem_expandedLegs.1 hr with ⟨⟨g', hg', hfixed, hcount⟩, hskip⟩
  rw [hg, Option.some.injEq] at hg'
  subst hg'
  exact ⟨hfixed, hskip, by omega⟩

theorem digit_bounds (hks : InArray (gs.map Leg.trip) ks) {e : Nat} {g : Leg} {k : Int}
    (hg : gs[e]? = some g) (hk : ks[e]? = some k) : 0 ≤ k ∧ k < g.trip := by
  rcases List.getElem?_eq_some_iff.1 hg with ⟨he, rfl⟩
  rcases List.getElem?_eq_some_iff.1 hk with ⟨he', rfl⟩
  simpa using (List.forall₂_iff_get.1 hks).2 e (by simpa using he) he'

/-- One of the copies is the one that goes to the place of an element along every fixed leg. -/
theorem exists_copyDeltas (hks : InArray (gs.map Leg.trip) ks) :
    ∃ δs ∈ copyDeltas (gs.map Leg.distance) (t.expandedLegs gs),
      ∀ (e : Nat) (g : Leg) (k : Int), gs[e]? = some g → ks[e]? = some k →
        δs[e]? = some (g.distance +
          if g.isFixed = true ∧ (t.wideLeg gs).map Multicast.dim ≠ some e then k else 0) := by
  have hchoice : List.Forall₂ (fun (r : Multicast) j => j = (ks.getD r.dim 0).toNat)
      (t.expandedLegs gs) ((t.expandedLegs gs).map fun r => (ks.getD r.dim 0).toNat) := by
    rw [List.forall₂_map_right_iff, List.forall₂_same]
    intro r _
    rfl
  -- along every fixed leg, take the copy numbered by the place of the element
  refine ⟨_, mem_copyDeltas.2 ⟨(t.expandedLegs gs).map fun r => (ks.getD r.dim 0).toNat, ?_, rfl⟩, ?_⟩
  · rw [List.forall₂_map_right_iff, List.forall₂_same]
    intro r hr
    rcases mem_expandedLegs.1 hr with ⟨⟨g, hg, hfixed, hcount⟩, _⟩
    have he : r.dim < ks.length := by
      rw [hks.length_eq, List.length_map]
      exact (List.getElem?_eq_some_iff.1 hg).1
    have hk := digit_bounds hks hg (List.getElem?_eq_getElem he)
    simp only [List.getD_eq_getElem?_getD, List.getElem?_eq_getElem he, Option.getD_some]
    omega
  · intro e g k hg hk
    rw [getElem?_offsetBy, List.getElem?_map, hg, Option.map_some, Option.map_some,
      Option.some.injEq]
    congr 1
    have hk0 := (digit_bounds hks hg hk).1
    by_cases hexpanded : g.isFixed = true ∧ (t.wideLeg gs).map Multicast.dim ≠ some e
    · have hr : { dim := e, count := g.trip } ∈ t.expandedLegs gs :=
        mem_expandedLegs.2 ⟨⟨g, hg, hexpanded.1, rfl⟩, hexpanded.2⟩
      have hoffset : offsetAt e (t.expandedLegs gs) _ = (ks.getD e 0).toNat :=
        exists_offsetAt (pairwise_expandedLegs t gs) hchoice hr
      rw [List.getD_eq_getElem?_getD, hk, Option.getD_some] at hoffset
      rw [if_pos hexpanded, hoffset]
      omega
    · rw [if_neg hexpanded, offsetAt_of_not_mem, Int.natCast_zero]
      rintro r hr rfl
      rcases mem_expandedLegs.1 hr with ⟨⟨g', hg', hfixed, _⟩, hskip⟩
      rw [hg, Option.some.injEq] at hg'
      exact hexpanded ⟨hg' ▸ hfixed, hskip⟩

/-! ## Points of the source -/

theorem fits_at {dims : List TiledDim} (hfits : List.Forall₂ Leg.Fits dims gs) {e : Nat}
    {dim : TiledDim} {g : Leg} (hdim : dims[e]? = some dim) (hg : gs[e]? = some g) :
    g.Fits dim := by
  rcases List.getElem?_eq_some_iff.1 hdim with ⟨he, rfl⟩
  rcases List.getElem?_eq_some_iff.1 hg with ⟨he', rfl⟩
  exact (List.forall₂_iff_get.1 hfits).2 e he he'

theorem exists_leg_at {dims : List TiledDim} (hfits : List.Forall₂ Leg.Fits dims gs) {e : Nat}
    {dim : TiledDim} (hdim : dims[e]? = some dim) : ∃ g, gs[e]? = some g := by
  have he : e < gs.length := by
    rw [← hfits.length_eq]
    exact (List.getElem?_eq_some_iff.1 hdim).1
  exact ⟨gs[e], List.getElem?_eq_getElem he⟩

theorem exists_dim_at {dims : List TiledDim} (hfits : List.Forall₂ Leg.Fits dims gs) {e : Nat}
    {g : Leg} (hg : gs[e]? = some g) : ∃ dim, dims[e]? = some dim ∧ g.Fits dim := by
  have he : e < dims.length := by
    rw [hfits.length_eq]
    exact (List.getElem?_eq_some_iff.1 hg).1
  have hdim := List.getElem?_eq_getElem he
  exact ⟨dims[e], hdim, fits_at hfits hdim hg⟩

section Points

variable {d : Nat} {g : Leg} {dim : TiledDim}

theorem mem_masksFrom {m : StrideMask} :
    m ∈ masksFrom d gs ↔ ∃ (j : Nat) (g : Leg), gs[j]? = some g ∧ g.step ≠ 1 ∧
      m = { dim := d + j, stride := g.step, modulo := g.corner % g.step } := by
  induction gs generalizing d with
  | nil => simp [masksFrom]
  | cons g gs ih =>
      rw [masksFrom, List.mem_append, ih]
      constructor
      · rintro (h | ⟨j, g', hg, hstep, hm⟩)
        · by_cases hstep : g.step = 1
          · simp [Leg.mask, hstep] at h
          · rw [Leg.mask, if_neg hstep, Option.toList_some, List.mem_singleton] at h
            exact ⟨0, g, rfl, hstep, h⟩
        · refine ⟨j + 1, g', by simpa using hg, hstep, ?_⟩
          rw [hm, Nat.add_right_comm, Nat.add_assoc]
      · rintro ⟨j, g', hg, hstep, hm⟩
        cases j with
        | zero =>
            rw [List.getElem?_cons_zero, Option.some.injEq] at hg
            subst hg
            refine Or.inl ?_
            rw [Leg.mask, if_neg hstep, Option.toList_some, List.mem_singleton]
            exact hm
        | succ j =>
            refine Or.inr ⟨j, g', by simpa using hg, hstep, ?_⟩
            rw [hm, Nat.add_right_comm, Nat.add_assoc]

/-- A point on the masks is on the mask of each leg that skips coordinates. -/
theorem OnStrides.residue {p : List Int} {x : Int} (h : t.OnStrides (masksFrom 0 gs) p)
    (hdim : t.dims[d]? = some dim) (hg : gs[d]? = some g) (hfit : g.Fits dim) (hstep : g.step ≠ 1)
    (hx : p[d]? = some x) : x % g.step = g.corner % g.step := by
  have hmem : { dim := 0 + d, stride := g.step, modulo := g.corner % g.step } ∈ masksFrom 0 gs :=
    mem_masksFrom.2 ⟨d, g, hg, hstep, rfl⟩
  have hleft := h _ hmem
  simp only [Nat.zero_add, List.getD_eq_getElem?_getD, getElem?_linePoint hdim hx,
    Option.getD_some] at hleft
  rwa [Int.emod_emod_of_dvd _ hfit.step_dvd] at hleft

/-- A coordinate in the span of a leg, and on its mask, lies a whole number of steps behind the corner. -/
theorem digit_of_mem_span {x : Int} (hfit : g.Fits dim) (hspan : g.span.lo ≤ x ∧ x < g.span.hi)
    (hres : g.step ≠ 1 → x % g.step = g.corner % g.step) :
    g.sourceAt ((x - g.corner) / g.step) = x ∧
      0 ≤ (x - g.corner) / g.step ∧ (x - g.corner) / g.step < g.trip := by
  have hstep := hfit.step_pos
  by_cases hfixed : g.isFixed = true
  · -- a fixed leg covers one coordinate only
    simp only [Leg.span, if_pos hfixed] at hspan
    have hzero : x - g.corner = 0 := by omega
    rw [hzero, Int.zero_ediv, Leg.sourceAt, if_pos hfixed]
    exact ⟨by omega, Int.le_refl 0, hfit.trip_pos⟩
  · simp only [Leg.span, if_neg hfixed, Leg.extent] at hspan
    have hdvd : g.step ∣ x - g.corner := by
      by_cases hone : g.step = 1
      · rw [hone]
        exact Int.one_dvd _
      · exact Int.dvd_of_emod_eq_zero (Int.emod_eq_emod_iff_emod_sub_eq_zero.1 (hres hone))
    refine ⟨?_, Int.ediv_nonneg (by omega) hstep.le, ?_⟩
    · rw [Leg.sourceAt, if_neg hfixed, Int.mul_ediv_cancel' hdvd]
      omega
    · rw [Int.ediv_lt_iff_lt_mul hstep]
      rw [Int.sub_mul, Int.one_mul] at hspan
      omega

end Points

/-- The elements of the source are on the masks. -/
theorem onStrides_sourcePoint (hfits : List.Forall₂ Leg.Fits t.dims gs)
    (hks : InArray (gs.map Leg.trip) ks) :
    t.OnStrides (masksFrom 0 gs) (sourcePoint gs ks) := by
  intro m hm
  rcases mem_masksFrom.1 hm with ⟨e, g, hg, hstep, rfl⟩
  rcases exists_dim_at hfits hg with ⟨dim, hdim, hfit⟩
  have hmoves := hfit.not_isFixed hstep
  rcases (within_sourcePoint hfits hks).exists_coordinate hdim with ⟨x, hx⟩
  have hline := getElem?_linePoint hdim hx
  rw [sourcePoint, List.getElem?_zipWith, hg] at hx
  cases hk : ks[e]? with
  | none => simp [hk] at hx
  | some k =>
      simp only [hk, Option.some.injEq, Leg.sourceAt, if_neg hmoves] at hx
      simp only [Nat.zero_add, List.getD_eq_getElem?_getD, hline, Option.getD_some]
      rw [Int.emod_emod_of_dvd _ hfit.step_dvd, ← hx, Int.add_mul_emod_self_left]

theorem inArray_of_digits (hlen : ks.length = gs.length)
    (h : ∀ (e : Nat) (g : Leg) (k : Int), gs[e]? = some g → ks[e]? = some k → 0 ≤ k ∧ k < g.trip) :
    InArray (gs.map Leg.trip) ks := by
  rw [InArray, List.forall₂_iff_get]
  refine ⟨by simpa using hlen.symm, ?_⟩
  intro e he he'
  rw [List.length_map] at he
  simpa using h e gs[e] ks[e] (List.getElem?_eq_getElem he) (List.getElem?_eq_getElem he')

/-- Every point of the box that is on the masks is that of an element. -/
theorem exists_digits_of_onStrides {p : List Int} (hfits : List.Forall₂ Leg.Fits t.dims gs)
    (hp : t.Within p) (hin : (boxOf gs).contains p = true)
    (hmask : t.OnStrides (masksFrom 0 gs) p) :
    ∃ ks, InArray (gs.map Leg.trip) ks ∧ sourcePoint gs ks = p := by
  have hlen : p.length = gs.length := hp.length_eq.trans hfits.length_eq
  have hdigits : ∀ (e : Nat) (g : Leg) (x : Int), gs[e]? = some g → p[e]? = some x →
      g.sourceAt ((x - g.corner) / g.step) = x ∧
        0 ≤ (x - g.corner) / g.step ∧ (x - g.corner) / g.step < g.trip := by
    intro e g x hg hx
    rcases exists_dim_at hfits hg with ⟨dim, hdim, hfit⟩
    have hspan := box_contains_iff.1 hin e g.span x (by simp [boxOf, hg]) hx
    exact digit_of_mem_span hfit hspan fun hstep => hmask.residue hdim hg hfit hstep hx
  refine ⟨List.zipWith (fun g x => (x - g.corner) / g.step) gs p, inArray_of_digits ?_ ?_, ?_⟩
  · rw [List.length_zipWith, hlen, Nat.min_self]
  · intro e g k hg hk
    rw [List.getElem?_zipWith, hg] at hk
    cases hx : p[e]? with
    | none => simp [hx] at hk
    | some x =>
        simp only [hx, Option.some.injEq] at hk
        rw [← hk]
        exact (hdigits e g x hg hx).2
  · apply List.ext_getElem?
    intro e
    rw [sourcePoint, List.getElem?_zipWith, List.getElem?_zipWith]
    cases hg : gs[e]? with
    | none =>
        rw [List.getElem?_eq_none_iff, ← hlen, ← List.getElem?_eq_none_iff] at hg
        rw [hg]
    | some g =>
        cases hx : p[e]? with
        | none => rfl
        | some x => simp only [(hdigits e g x hg hx).1]

/-! ## One copy -/

section Copy

variable {skip : Option Nat} {δs : List Int}

theorem room_boxOf (hfits : List.Forall₂ Leg.Fits t.dims gs) (h : Offsets skip gs δs) :
    t.Room skip 0 (boxOf gs) δs where
  length_eq := by
    rw [boxOf, List.length_map]
    exact hfits.length_eq.symm
  fits := by
    rw [Nat.zero_add, h.length_eq]
    exact hfits.length_eq.symm
  inside := by
    intro e dim s hdim hs
    rcases exists_leg_at hfits hdim with ⟨g, hg⟩
    rw [boxOf, List.getElem?_map, hg, Option.map_some, Option.some.injEq] at hs
    subst hs
    exact ⟨(fits_at hfits hdim hg).corner_nonneg, (fits_at hfits hdim hg).span_le⟩
  moved := by
    intro e δ dim s hδ hdim hs _
    rw [Nat.zero_add] at hdim hs
    rcases exists_leg_at hfits hdim with ⟨g, hg⟩
    have hfit := fits_at hfits hdim hg
    rw [boxOf, List.getElem?_map, hg, Option.map_some, Option.some.injEq] at hs
    subst hs
    rcases h.entry e g δ hg hδ with ⟨c, rfl, hc⟩
    have hlow := hfit.target_nonneg
    have hhigh := hfit.target_le
    simp only [Leg.span, Leg.distance]
    refine ⟨by omega, ?_⟩
    -- a fixed leg covers one coordinate, which no copy takes beyond the last place of the leg
    by_cases hfixed : g.isFixed = true
    · rcases hfit.fixed hfixed with ⟨hstep, htrip⟩
      rw [if_pos hfixed]
      rw [Leg.extent, hstep, Int.mul_one] at hhigh
      by_cases hzero : c = 0
      · omega
      · have := (hc hzero).2.2
        omega
    · have hzero : c = 0 := by
        by_contra hne
        exact hfixed (hc hne).1
      rw [if_neg hfixed]
      omega

theorem wideLeg_spec {r : Multicast} (h : t.wideLeg gs = some r) :
    (∃ g, gs[r.dim]? = some g ∧ g.isFixed = true ∧ r.count = g.trip) ∧
      t.tileSizes[r.dim]? = some 1 := by
  have hwide := List.find?_some h
  rw [isTileWide, beq_iff_eq] at hwide
  rcases mem_fixedFrom.1 (List.mem_of_find?_eq_some h) with ⟨j, g, hg, hfixed, rfl⟩
  exact ⟨⟨g, by simpa using hg, hfixed, rfl⟩, hwide⟩

theorem spreads_boxOf (hfits : List.Forall₂ Leg.Fits t.dims gs) {r : Multicast}
    (hwide : t.wideLeg gs = some r) (h : Offsets (some r.dim) gs δs) :
    ∃ dim, t.Spreads r (boxOf gs) δs dim := by
  rcases wideLeg_spec hwide with ⟨⟨g, hg, hfixed, hcount⟩, htile⟩
  rw [tileSizes, List.getElem?_map, Option.map_eq_some_iff] at htile
  rcases htile with ⟨dim, hdim, htile⟩
  have hfit := fits_at hfits hdim hg
  refine ⟨dim, hdim, htile, ?_⟩
  intro s hs
  rw [boxOf, List.getElem?_map, hg, Option.map_some, Option.some.injEq] at hs
  subst hs
  have he : r.dim < δs.length := by
    rw [h.length_eq]
    exact (List.getElem?_eq_some_iff.1 hg).1
  have hδ : δs[r.dim]? = some δs[r.dim] := List.getElem?_eq_getElem he
  rcases h.entry r.dim g _ hg hδ with ⟨c, hc, hcopy⟩
  -- the copies leave out the dimension of the multicast
  have hzero : c = 0 := by
    by_contra hne
    exact (hcopy hne).2.1 rfl
  rw [List.getD_eq_getElem?_getD, hδ, Option.getD_some, hc, hzero, hcount]
  have hlow := hfit.target_nonneg
  have hhigh := hfit.target_le
  rw [Leg.extent, (hfit.fixed hfixed).1, Int.mul_one] at hhigh
  simp only [Leg.span, Leg.distance, if_pos hfixed]
  omega

end Copy

/-- The place of an element along the leg that is left to a multicast. -/
def widePlace (t : Tiling) (gs : List Leg) (ks : List Int) : Nat :=
  match t.wideLeg gs with
  | none => 0
  | some r => (ks.getD r.dim 0).toNat

/-- The copy for the places of an element takes it to its place in the destination. -/
theorem arrival_eq (hfits : List.Forall₂ Leg.Fits t.dims gs) (hks : InArray (gs.map Leg.trip) ks)
    {δs : List Int} (hδs : ∀ (e : Nat) (g : Leg) (k : Int), gs[e]? = some g → ks[e]? = some k →
      δs[e]? = some (g.distance +
        if g.isFixed = true ∧ (t.wideLeg gs).map Multicast.dim ≠ some e then k else 0)) :
    arrival (t.wideLeg gs) δs (t.widePlace gs ks) (sourcePoint gs ks) = targetPoint gs ks := by
  apply List.ext_getElem?
  intro e
  rw [getElem?_arrival, sourcePoint, targetPoint, List.getElem?_zipWith, List.getElem?_zipWith]
  cases hg : gs[e]? with
  | none => rfl
  | some g =>
      cases hk : ks[e]? with
      | none => rfl
      | some k =>
          rcases exists_dim_at hfits hg with ⟨dim, _, hfit⟩
          have hk0 := (digit_bounds hks hg hk).1
          simp only [Option.map_some, Option.some.injEq, List.getD_eq_getElem?_getD,
            hδs e g k hg hk, Option.getD_some, Leg.sourceAt, Leg.targetAt, Leg.distance]
          -- the multicast goes along its own leg, and the copies along the other fixed ones
          by_cases hwide : (t.wideLeg gs).map Multicast.dim = some e
          · rcases Option.map_eq_some_iff.1 hwide with ⟨r, hr, rfl⟩
            rcases wideLeg_spec hr with ⟨⟨g', hg', hfixed, _⟩, _⟩
            rw [hg, Option.some.injEq] at hg'
            subst hg'
            have hplace : (t.widePlace gs ks : Int) = k := by
              simp only [widePlace, hr, List.getD_eq_getElem?_getD, hk, Option.getD_some]
              omega
            rw [if_pos hwide, if_pos hfixed, if_neg (by simp [hwide]), hplace,
              (hfit.fixed hfixed).1, Int.one_mul]
            omega
          · rw [if_neg hwide]
            by_cases hfixed : g.isFixed = true
            · rw [if_pos hfixed, if_pos ⟨hfixed, hwide⟩, (hfit.fixed hfixed).1, Int.one_mul]
              omega
            · rw [if_neg hfixed, if_neg fun h => hfixed h.1]
              omega

/-- A move over no distance, with no fixed legs, leaves the elements where they are. -/
theorem targetPoint_eq_sourcePoint
    (h : ((gs.map Leg.distance).all (· == 0) && (fixedFrom 0 gs).isEmpty) = true) :
    targetPoint gs ks = sourcePoint gs ks := by
  simp only [Bool.and_eq_true, List.all_eq_true, List.mem_map, beq_iff_eq, forall_exists_index,
    and_imp, forall_apply_eq_imp_iff₂, List.isEmpty_iff] at h
  rcases h with ⟨hzero, hnone⟩
  apply List.ext_getElem?
  intro e
  rw [sourcePoint, targetPoint, List.getElem?_zipWith, List.getElem?_zipWith]
  cases hg : gs[e]? with
  | none => rfl
  | some g =>
      have hdist := hzero g (List.mem_of_getElem? hg)
      have hmoves : ¬ g.isFixed = true := by
        intro hfixed
        have hmem : ({ dim := 0 + e, count := g.trip } : Multicast) ∈ fixedFrom 0 gs :=
          mem_fixedFrom.2 ⟨e, g, hg, hfixed, rfl⟩
        rw [hnone] at hmem
        cases hmem
      cases ks[e]? with
      | none => rfl
      | some k =>
          rw [Leg.distance] at hdist
          simp only [Leg.sourceAt, Leg.targetAt, if_neg hmoves, Option.some.injEq]
          omega

/-! ## The whole move -/

section Whole

variable {masks : List StrideMask} {tokens : List Token}

/-- Every element gets to its place in the destination, if every copy lets it pass. A multicast must
find the element on the stride masks. -/
theorem mem_drive_moveLegs (hfits : List.Forall₂ Leg.Fits t.dims gs)
    (hks : InArray (gs.map Leg.trip) ks) (hmask : t.OnStrides masks (sourcePoint gs ks))
    (hpass : ∀ δs, Offsets ((t.wideLeg gs).map Multicast.dim) gs δs →
      t.Passes masks ((t.wideLeg gs).map Multicast.dim) 0 δs (sourcePoint gs ks))
    (hwide : ∀ r, t.wideLeg gs = some r → ∀ δs, Offsets (some r.dim) gs δs → ∀ m ∈ masks,
      ∀ (e : Nat) (δ : Int) (dim : TiledDim), δs[e]? = some δ → t.dims[e]? = some dim → m.dim = e →
        m.stride ∣ dim.tile ∧ m.stride ∣ δ) {i : Nat}
    (hk : t.tokenAt i (sourcePoint gs ks) ∈ tokens) :
    t.tokenAt i (targetPoint gs ks) ∈ t.drive masks tokens (t.moveLegs gs) := by
  rw [moveLegs]
  by_cases hstill : ((gs.map Leg.distance).all (· == 0) && (fixedFrom 0 gs).isEmpty) = true
  · rw [if_pos hstill, targetPoint_eq_sourcePoint hstill]
    exact hk
  · rw [if_neg hstill]
    -- every copy leaves the tokens where they are, so only the one for this element matters
    rcases exists_copyDeltas (t := t) hks with ⟨δs, hmem, hδs⟩
    have hoffsets := offsets_of_mem_copyDeltas hmem
    rw [← arrival_eq hfits hks hδs]
    refine mem_drive_flatMap hmem ?_
    intro tokens' hsub
    refine mem_drive_moveCopy (room_boxOf hfits hoffsets) (within_sourcePoint hfits hks)
      (contains_sourcePoint hfits hks) hmask (hpass δs hoffsets) ?_ (hsub hk)
    intro r hr
    rw [hr] at hoffsets
    refine ⟨?_, spreads_boxOf hfits hr hoffsets, ?_⟩
    · rcases wideLeg_spec hr with ⟨⟨g, hg, _, hcount⟩, _⟩
      have he : r.dim < ks.length := by
        rw [hks.length_eq, List.length_map]
        exact (List.getElem?_eq_some_iff.1 hg).1
      have hdigit := List.getElem?_eq_getElem he
      have hbounds := digit_bounds hks hg hdigit
      simp only [widePlace, hr, List.getD_eq_getElem?_getD, hdigit, Option.getD_some, hcount]
      omega
    · refine onStrides_carried ?_ hmask ?_
      · rw [Nat.zero_add, hoffsets.length_eq]
        exact hfits.length_eq.ge
      · intro m hm e δ dim hδ hdim hmd
        rw [Nat.zero_add] at hdim hmd
        exact hwide r hr δs hoffsets m hm e δ dim hδ hdim hmd

/-- Where elements fill the box of the source, the commands of the move read nothing but elements. -/
theorem readsTokens_moveLegs (hfits : List.Forall₂ Leg.Fits t.dims gs)
    (hfull : ∀ p, t.Within p → (boxOf gs).contains p = true → ∃ i, t.tokenAt i p ∈ tokens) :
    t.ReadsTokens tokens ((t.moveLegs gs).map (t.dressed [])) := by
  rw [moveLegs]
  by_cases hstill : ((gs.map Leg.distance).all (· == 0) && (fixedFrom 0 gs).isEmpty) = true
  · rw [if_pos hstill]
    trivial
  · rw [if_neg hstill]
    refine readsTokens_flatMap ?_
    intro δs hδs tokens' hsub
    have hoffsets := offsets_of_mem_copyDeltas hδs
    refine readsTokens_moveCopy (room_boxOf hfits hoffsets) ?_ ?_
    · intro r hr
      rw [hr] at hoffsets
      exact spreads_boxOf hfits hr hoffsets
    · intro p hp hin
      rcases hfull p hp hin with ⟨i, hi⟩
      exact ⟨i, hsub hi⟩

/-- A command of a move belongs to one of its copies. -/
theorem mem_moveLegs {c : Command} (h : c ∈ t.moveLegs gs) :
    ∃ δs, Offsets ((t.wideLeg gs).map Multicast.dim) gs δs ∧
      c ∈ t.moveCopy (t.wideLeg gs) (boxOf gs) δs := by
  rw [moveLegs] at h
  by_cases hstill : ((gs.map Leg.distance).all (· == 0) && (fixedFrom 0 gs).isEmpty) = true
  · rw [if_pos hstill] at h
    cases h
  · rw [if_neg hstill] at h
    rcases List.mem_flatMap.1 h with ⟨δs, hδs, hc⟩
    exact ⟨δs, offsets_of_mem_copyDeltas hδs, hc⟩

theorem finish_moveLegs (masks : List StrideMask) :
    t.finish masks (t.moveLegs gs) = (t.moveLegs gs).map (t.dressed masks) := by
  refine finish_eq_map ?_
  intro c hc
  rcases mem_moveLegs hc with ⟨δs, _, hc⟩
  exact not_isEmpty_of_mem_moveCopy hc

end Whole

end Tiling
end StreamEngine
