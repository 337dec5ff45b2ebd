import StreamEngine.Proofs.DataMove.DenseRouting

/-!
# Which strided moves reach their places

Every command of a move carries the stride masks of the source. A shift of bitlines takes elements off
the mask of its dimension unless the step of the leg divides the distance, and no later command reads an
element that is off a mask. So a strided move is complete only under a condition on its legs, and the
condition is exact.

* `KeepsTiles`, `Secure` — a leg that loses no element;
* `mem_drive_of_secure` — if all legs are secure, every element arrives;
* `Landed`, `landed_step` — what an element that left a mask has been through;
* `routes_strided_iff` — all elements arrive if and only if all legs are secure;
* `strided_elements_lost` — a move that loses its elements.
-/

namespace StreamEngine
namespace Tiling

variable {t : Tiling} {gs : List Leg} {ks : List Int} {d : Nat} {g : Leg} {dim : TiledDim}

/-! ## Masks of legs -/

/-- A mask along a dimension is the mask of its leg. -/
theorem stride_of_mem_masksFrom (hg : gs[d]? = some g) {m : StrideMask} (hm : m ∈ masksFrom 0 gs)
    (hd : m.dim = d) : g.step ≠ 1 ∧ m.stride = g.step := by
  rcases mem_masksFrom.1 hm with ⟨e, g', hg', hstep, rfl⟩
  simp only [Nat.zero_add] at hd
  rw [hd, hg, Option.some.injEq] at hg'
  subst hg'
  exact ⟨hstep, rfl⟩

/-! ## Legs that lose nothing -/

/-- The elements keep their tiles along the leg. -/
def KeepsTiles (dim : TiledDim) (g : Leg) : Prop :=
  ∀ k, 0 ≤ k → k < g.trip → g.targetAt k / dim.tile = g.sourceAt k / dim.tile

/-- The leg along dimension `d` loses no element: either the distance keeps them on the mask, or they
stay in their tiles and no command has to read them again. -/
def Secure (t : Tiling) (gs : List Leg) (d : Nat) (dim : TiledDim) (g : Leg) : Prop :=
  g.step ∣ g.distance ∨
    KeepsTiles dim g ∧ ∀ (e : Nat) (g' : Leg), gs[e]? = some g' →
      (d < e → g'.distance = 0) ∧
        (g'.isFixed = true → e < d ∧ t.tileSizes[e]? ≠ some 1)

/-- Every leg that skips coordinates loses no element. -/
def AllSecure (t : Tiling) (gs : List Leg) : Prop :=
  ∀ (d : Nat) (dim : TiledDim) (g : Leg), t.dims[d]? = some dim → gs[d]? = some g → g.step ≠ 1 →
    t.Secure gs d dim g

/-- A leg that skips coordinates goes over its own distance in every copy. -/
theorem Offsets.distance_eq {skip : Option Nat} {δs : List Int} (h : Offsets skip gs δs)
    (hg : gs[d]? = some g) (hmoves : ¬ g.isFixed = true) {δ : Int} (hδ : δs[d]? = some δ) :
    δ = g.distance := by
  rcases h.entry d g δ hg hδ with ⟨c, hc, hcopy⟩
  have hzero : c = 0 := by
    by_contra hne
    exact hmoves (hcopy hne).1
  rw [hc, hzero]
  exact Int.add_zero _

theorem getElem?_sourcePoint {k : Int} (hg : gs[d]? = some g) (hk : ks[d]? = some k) :
    (sourcePoint gs ks)[d]? = some (g.sourceAt k) := by
  rw [sourcePoint, List.getElem?_zipWith, hg, hk]

/-- Once a leg keeps its elements in their tiles and off their mask, nothing after it moves. -/
theorem eq_zero_of_later {skip : Option Nat} {δs : List Int} (hδs : Offsets skip gs δs)
    (hlater : ∀ (e : Nat) (g' : Leg), gs[e]? = some g' →
      (d < e → g'.distance = 0) ∧ (g'.isFixed = true → e < d ∧ t.tileSizes[e]? ≠ some 1))
    {e : Nat} {δ : Int} (hde : d < e) (hδ : δs[e]? = some δ) : δ = 0 := by
  have he : e < gs.length := by
    rw [← hδs.length_eq]
    exact (List.getElem?_eq_some_iff.1 hδ).1
  have hg : gs[e]? = some gs[e] := List.getElem?_eq_getElem he
  rcases hlater e _ hg with ⟨hzero, hfixed⟩
  have hmoves : ¬ gs[e].isFixed = true := by
    intro h
    have := (hfixed h).1
    omega
  exact (hδs.distance_eq hg hmoves hδ).trans (hzero hde)

/-- Secure legs let every element pass the aligns of every copy. -/
theorem passes_of_secure (hfits : List.Forall₂ Leg.Fits t.dims gs) (hsecure : t.AllSecure gs)
    (hks : InArray (gs.map Leg.trip) ks) {skip : Option Nat} {δs : List Int}
    (hδs : Offsets skip gs δs) :
    t.Passes (masksFrom 0 gs) skip 0 δs (sourcePoint gs ks) := by
  intro d δ dim x hδ hdim hx _
  rw [Nat.zero_add] at hdim hx ⊢
  rcases exists_leg_at hfits hdim with ⟨g, hg⟩
  have hfit := fits_at hfits hdim hg
  by_cases hstep : g.step = 1
  · exact Or.inl fun m hm hmd => absurd hstep (stride_of_mem_masksFrom hg hm hmd).1
  · have hmoves := hfit.not_isFixed hstep
    have hdist := hδs.distance_eq hg hmoves hδ
    rcases hsecure d dim g hdim hg hstep with hdvd | ⟨htiles, hlater⟩
    · refine Or.inl ?_
      intro m hm hmd
      rw [(stride_of_mem_masksFrom hg hm hmd).2, hdist]
      exact ⟨hfit.step_dvd, hdvd⟩
    · refine Or.inr ⟨?_, fun e δ' hde hδ' => Or.inr (eq_zero_of_later hδs hlater hde hδ')⟩
      -- it keeps its tile, and has nothing left to pass
      have hd : d < ks.length := by
        rw [hks.length_eq, List.length_map]
        exact (List.getElem?_eq_some_iff.1 hg).1
      have hk : ks[d]? = some ks[d] := List.getElem?_eq_getElem hd
      rw [getElem?_sourcePoint hg hk, Option.some.injEq] at hx
      rcases digit_bounds hks hg hk with ⟨h0, h1⟩
      rw [← hx, hdist, Leg.sourceAt_add_distance hmoves]
      exact htiles _ h0 h1

/-- Before a multicast no secure leg takes an element off its mask. -/
theorem dvd_of_secure (hfits : List.Forall₂ Leg.Fits t.dims gs) (hsecure : t.AllSecure gs)
    {r : Multicast} (hr : t.wideLeg gs = some r) {δs : List Int}
    (hδs : Offsets (some r.dim) gs δs) {m : StrideMask} (hm : m ∈ masksFrom 0 gs) {δ : Int}
    (hδ : δs[m.dim]? = some δ) (hdim : t.dims[m.dim]? = some dim) :
    m.stride ∣ dim.tile ∧ m.stride ∣ δ := by
  rcases exists_leg_at hfits hdim with ⟨g, hg⟩
  rcases stride_of_mem_masksFrom hg hm rfl with ⟨hstep, hstride⟩
  have hfit := fits_at hfits hdim hg
  rw [hstride, hδs.distance_eq hg (hfit.not_isFixed hstep) hδ]
  -- only a leg whose step divides its distance may come before a multicast
  rcases hsecure m.dim dim g hdim hg hstep with hdvd | ⟨_, hlater⟩
  · exact ⟨hfit.step_dvd, hdvd⟩
  · -- a multicast would have to read the element again
    rcases wideLeg_spec hr with ⟨⟨g', hg', hfixed, _⟩, htile⟩
    exact absurd htile ((hlater r.dim g' hg').2 hfixed).2

/-- If all legs are secure, every element gets to its place. -/
theorem mem_drive_of_secure (hfits : List.Forall₂ Leg.Fits t.dims gs) (hsecure : t.AllSecure gs)
    (hks : InArray (gs.map Leg.trip) ks) {tokens : List Token} {i : Nat}
    (hk : t.tokenAt i (sourcePoint gs ks) ∈ tokens) :
    t.tokenAt i (targetPoint gs ks) ∈ t.drive (masksFrom 0 gs) tokens (t.moveLegs gs) := by
  refine mem_drive_moveLegs hfits hks (onStrides_sourcePoint hfits hks)
    (fun δs hδs => passes_of_secure hfits hsecure hks hδs) ?_ hk
  intro r hr δs hδs m hm e δ dim hδ hdim hmd
  subst hmd
  exact dvd_of_secure hfits hsecure hr hδs hm hδ hdim

/-! ## Elements off a mask -/

/-- An element left its mask by the shift of bitlines along dimension `d`, the last command that read it:
it came from the span of the source, in the same tile, and in the dimensions that move later it is still
where the source is. -/
structure Landed (t : Tiling) (gs : List Leg) (d : Nat) (dim : TiledDim) (g : Leg) (x : Int)
    (p : List Int) : Prop where
  came : ∃ s : Int, g.span.contains (x - g.distance + s * dim.tile) = true ∧
    (x - g.distance + s * dim.tile) / dim.tile = x / dim.tile
  rests : ∀ (e : Nat) (g' : Leg) (y : Int),
    d < e ∨ (t.wideLeg gs).map Multicast.dim = some e → gs[e]? = some g' → p[e]? = some y →
      g'.span.contains y = true

/-- What holds of every token of a move along a dimension that skips coordinates: it is still on the
mask, or has left it for good. -/
def OnMaskOrLanded (t : Tiling) (gs : List Leg) (d : Nat) (dim : TiledDim) (g : Leg) (k : Token) :
    Prop :=
  ∃ p x, t.Within p ∧ k.place = t.placeOf p ∧ p[d]? = some x ∧
    (x % g.step = g.corner % g.step ∨ t.Landed gs d dim g x p)

section Step

variable {δs : List Int} {c : Command} {p : List Int} {x : Int}

/-- A point after a step along another dimension, or along this one by a distance that the step of the
leg divides, is still on the mask. -/
theorem onMask_modify (hx : p[d]? = some x)
    (hres : x % g.step = g.corner % g.step) {e : Nat} {δ : Int}
    (hp' : t.Within (p.modify e (· + δ))) (hstep : e = d → g.step ∣ δ) (i : Nat) :
    t.OnMaskOrLanded gs d dim g (t.tokenAt i (p.modify e (· + δ))) := by
  by_cases he : e = d
  · refine ⟨_, x + δ, hp', rfl, ?_, Or.inl ?_⟩
    · simp [he, hx]
    · rw [Int.add_emod, Int.emod_eq_zero_of_dvd (hstep he), Int.add_zero, Int.emod_emod, hres]
  · exact ⟨_, x, hp', rfl, by rw [List.getElem?_modify_ne _ _ he, hx], Or.inl hres⟩

/-- Where the bitlines shift along this dimension, an element may leave its mask. It came from where it
is in the region that the command was masked by, which is the source there and in what moves later. -/
theorem landed_lineCommand (hg : gs[d]? = some g)
    (hmoves : ¬ g.isFixed = true) {lane : Lane} {δ : Int} (hlane : lane.Fits dim.tile δ)
    (hδ : δ = g.distance) (hlines : lane.lines.contains (x % dim.tile) = true) {region : Box}
    (hspans : ∀ e : Nat, d ≤ e ∨ (t.wideLeg gs).map Multicast.dim = some e →
      region.spans[e]? = (boxOf gs).spans[e]?)
    (hin : region.contains p = true) (hx : p[d]? = some x) :
    t.Landed gs d dim g (x + lane.lineShift) (p.modify d (· + lane.lineShift)) := by
  have hspan : ∀ (e : Nat) (g' : Leg), d ≤ e ∨ (t.wideLeg gs).map Multicast.dim = some e →
      gs[e]? = some g' → region.spans[e]? = some g'.span := by
    intro e g' hlater hg'
    rw [hspans e hlater, boxOf, List.getElem?_map, hg', Option.map_some]
  refine ⟨⟨lane.tileShift, ?_⟩, ?_⟩
  · have hback : x + lane.lineShift - g.distance + lane.tileShift * dim.tile = x := by
      have hshifts := hlane.shifts
      omega
    rw [hback, (hlane.shift_line hlines).1]
    have hself := hspan d g (Or.inl (Nat.le_refl d)) hg
    exact ⟨contains_iff.2 (box_contains_iff.1 hin d _ x hself hx), rfl⟩
  · intro e g' y hlater hg' hy
    -- a leg that skips coordinates is not the fixed one of a multicast
    have hne : d ≠ e := by
      rintro rfl
      rcases hlater with hlt | hwide
      · exact Nat.lt_irrefl d hlt
      · rcases Option.map_eq_some_iff.1 hwide with ⟨r, hr, rfl⟩
        rcases wideLeg_spec hr with ⟨⟨g₀, hg₀, hfixed, _⟩, _⟩
        rw [hg, Option.some.injEq] at hg₀
        subst hg₀
        exact hmoves hfixed
    rw [List.getElem?_modify_ne _ _ hne] at hy
    exact contains_iff.2
      (box_contains_iff.1 hin e _ y (hspan e g' (hlater.imp_left Nat.le_of_lt) hg') hy)

/-- What a command of the aligns makes of a token that it reads. -/
theorem landed_alignFrom (hfits : List.Forall₂ Leg.Fits t.dims gs)
    (hdim : t.dims[d]? = some dim) (hg : gs[d]? = some g) (hstep : g.step ≠ 1)
    (hδs : Offsets ((t.wideLeg gs).map Multicast.dim) gs δs)
    (hc : c ∈ (t.alignFrom ((t.wideLeg gs).map Multicast.dim) 0 (boxOf gs) δs).commands)
    (hp : t.Within p) (hcov : t.Covers c p) (hx : p[d]? = some x)
    (hres : x % g.step = g.corner % g.step) (i : Nat) :
    ∀ l ∈ t.displaced c (t.placeOf p),
      t.OnMaskOrLanded gs d dim g { element := i, place := l } := by
  have hfit := fits_at hfits hdim hg
  rcases mem_alignFrom hc with ⟨e, δ, before, hδ, halign, hlen, hspans⟩
  rw [Nat.zero_add] at halign
  simp only [Nat.zero_add] at hspans
  rcases mem_align halign with ⟨dim', hdim', lane, hlane, hc'⟩
  have hlanefit := lanes_spec dim'.tile_pos hlane
  rcases hp.exists_coordinate hdim' with ⟨y, hy⟩
  have hregion : before.spans.length = t.dims.length := by
    rw [hlen, boxOf, List.length_map]
    exact hfits.length_eq.symm
  intro l hl
  rcases displaced_alignLane hlanefit hdim' hregion hc' hp hy hcov with
    ⟨hlines, hin, hdisp, hp'⟩ | ⟨hdisp, hp'⟩
  · rw [hdisp, List.mem_singleton] at hl
    subst hl
    by_cases he : e = d
    · subst he
      rw [hdim, Option.some.injEq] at hdim'
      subst hdim'
      rw [hx, Option.some.injEq] at hy
      subst hy
      have hmoves := hfit.not_isFixed hstep
      have hdist := hδs.distance_eq hg hmoves hδ
      exact ⟨_, x + lane.lineShift, hp', rfl, by simp [hx],
        Or.inr (landed_lineCommand hg hmoves hlanefit hdist hlines hspans hin hx)⟩
    · exact onMask_modify hx hres hp' (fun h => absurd h he) i
  · rw [hdisp, List.mem_singleton] at hl
    subst hl
    refine onMask_modify hx hres hp' ?_ i
    -- whole tiles keep the residue, as the step divides the tile
    rintro rfl
    rw [hdim, Option.some.injEq] at hdim'
    subst hdim'
    exact Dvd.dvd.mul_left hfit.step_dvd _

/-- What a multicast makes of a token that it reads: it moves along another dimension. -/
theorem landed_multicast (hg : gs[d]? = some g) (hmoves : ¬ g.isFixed = true) {r : Multicast}
    (hr : t.wideLeg gs = some r) {delta : Int} {region : Box} (hregion : region.spans.length = t.dims.length)
    (hc : c ∈ t.multicast r delta region) (hp : t.Within p) (hcov : t.Covers c p)
    (hx : p[d]? = some x) (hres : x % g.step = g.corner % g.step) (i : Nat) :
    ∀ l ∈ t.displaced c (t.placeOf p),
      t.OnMaskOrLanded gs d dim g { element := i, place := l } := by
  rcases wideLeg_spec hr with ⟨⟨g', hg', hfixed, _⟩, htile⟩
  rw [tileSizes, List.getElem?_map, Option.map_eq_some_iff] at htile
  rcases htile with ⟨dim', hdim', htile⟩
  -- a multicast goes along a fixed leg, so it keeps the coordinate along this one
  have hne : r.dim ≠ d := by
    rintro rfl
    rw [hg, Option.some.injEq] at hg'
    subst hg'
    exact hmoves hfixed
  rw [multicast_eq hdim'] at hc
  rcases (exists_covers_maskByRegion shaped_wideCommand hregion hp).1 ⟨c, hc, hcov⟩ with
    ⟨hwidecov, _⟩
  rcases mem_maskByRegion hc with ⟨pieces, rfl⟩
  rcases hp.exists_coordinate hdim' with ⟨y, hy⟩
  rcases (covers_wideCommand hdim' htile hp hy).1 hwidecov with ⟨h0, h1⟩
  intro l hl
  have hl' : l ∈ t.displaced (t.wideCommand r delta dim') (t.placeOf p) := hl
  rw [displaced_wideCommand hdim' htile hp] at hl'
  rcases List.mem_map.1 hl' with ⟨j, hj, rfl⟩
  rw [List.mem_range] at hj
  exact onMask_modify hx hres (hp.shift hdim' hy (by omega) (by omega)) (fun h => absurd h hne) i

/-- Every command of a move keeps what holds of its tokens. -/
theorem landed_step (hfits : List.Forall₂ Leg.Fits t.dims gs) (hdim : t.dims[d]? = some dim)
    (hg : gs[d]? = some g) (hstep : g.step ≠ 1) (hc : c ∈ t.moveLegs gs) {k : Token}
    (hk : t.OnMaskOrLanded gs d dim g k)
    (hsel : t.Selects (t.dressed (masksFrom 0 gs) c) k.place) :
    ∀ l ∈ t.displaced (t.dressed (masksFrom 0 gs) c) k.place,
      t.OnMaskOrLanded gs d dim g { k with place := l } := by
  have hfit := fits_at hfits hdim hg
  rcases hk with ⟨p, x, hp, hplace, hx, _⟩
  rw [hplace] at hsel ⊢
  rcases (selects_dressed hp).1 hsel with ⟨hcov, hon⟩
  -- the command reads the token, so it is on the mask
  have hres := hon.residue hdim hg hfit hstep hx
  rw [displaced_dressed]
  rcases mem_moveLegs hc with ⟨δs, hδs, hc⟩
  have haligned : c ∈ (t.alignFrom ((t.wideLeg gs).map Multicast.dim) 0 (boxOf gs) δs).commands →
      ∀ l ∈ t.displaced c (t.placeOf p), t.OnMaskOrLanded gs d dim g { k with place := l } :=
    fun hc => landed_alignFrom hfits hdim hg hstep hδs hc hp hcov hx hres k.element
  have hroom := room_boxOf hfits hδs
  cases hwide : t.wideLeg gs with
  | none =>
      rw [hwide] at hc haligned
      exact haligned hc
  | some r =>
      rw [hwide] at hc haligned hroom
      rcases List.mem_append.1 hc with hc | hc
      · exact haligned hc
      · exact landed_multicast hg (hfit.not_isFixed hstep) hwide (length_alignFrom hroom) hc hp hcov
          hx hres k.element

end Step

/-- What holds of every token of a run of the move. -/
theorem landed_run (hfits : List.Forall₂ Leg.Fits t.dims gs) (hdim : t.dims[d]? = some dim)
    (hg : gs[d]? = some g) (hstep : g.step ≠ 1) {tokens : List Token}
    (hstart : ∀ k ∈ tokens, t.OnMaskOrLanded gs d dim g k) :
    ∀ k ∈ t.drive (masksFrom 0 gs) tokens (t.moveLegs gs), t.OnMaskOrLanded gs d dim g k := by
  refine forall_mem_run ?_ hstart
  intro c hc k hk hsel l hl
  rcases List.mem_map.1 hc with ⟨c₀, hc₀, rfl⟩
  exact landed_step hfits hdim hg hstep hc₀ hk hsel l hl

/-! ## Where all elements arrive -/

/-- Steps of one length that stay between two bounds for ever are steps of length zero. -/
theorem eq_zero_of_bounded {k v bound : Int} (hbound : 0 < bound)
    (h : ∀ n : Nat, 0 ≤ k + n * v ∧ k + n * v < bound) : v = 0 := by
  by_contra hne
  have hstart := h 0
  have hlast := h bound.toNat
  rw [Int.toNat_of_nonneg hbound.le] at hlast
  rcases Int.lt_or_gt_of_ne hne with hneg | hpos
  · have hmul := Int.mul_le_mul_of_nonneg_left (by omega : v ≤ -1) hbound.le
    omega
  · have hmul := Int.mul_le_mul_of_nonneg_left (by omega : 1 ≤ v) hbound.le
    omega

theorem Leg.index_bounds (hpos : 0 < g.step) (hmoves : ¬ g.isFixed = true) {k : Int}
    (h : g.span.contains (g.sourceAt k) = true) : 0 ≤ k ∧ k < g.trip := by
  rw [contains_iff] at h
  simp only [Leg.span, Leg.sourceAt, if_neg hmoves, Leg.extent] at h
  constructor
  · by_contra hneg
    have hmul := Int.mul_le_mul_of_nonneg_left (by omega : k ≤ -1) hpos.le
    omega
  · by_contra hbig
    have hmul := Int.mul_le_mul_of_nonneg_left (by omega : g.trip ≤ k) hpos.le
    rw [Int.sub_mul, Int.one_mul, Int.mul_comm g.trip] at h
    omega

/-- An element of a leg stays in its tile if every element that arrives has stayed in it after a number
of tiles. For going on by the same number of tiles leads out of the leg. -/
theorem keepsTiles_of_came (hfit : g.Fits dim) (hmoves : ¬ g.isFixed = true)
    (h : ∀ k, 0 ≤ k → k < g.trip → ∃ s : Int,
      g.span.contains (g.targetAt k - g.distance + s * dim.tile) = true ∧
        (g.targetAt k - g.distance + s * dim.tile) / dim.tile = g.targetAt k / dim.tile) :
    KeepsTiles dim g := by
  have htile : dim.tile ≠ 0 := dim.tile_pos.ne'
  have hback : ∀ k, g.targetAt k - g.distance = g.sourceAt k := by
    intro k
    rw [← Leg.sourceAt_add_distance hmoves, Int.add_sub_cancel]
  rcases hfit.step_dvd with ⟨u, hu⟩
  have hsource : ∀ k c, g.sourceAt (k + c * u) = g.sourceAt k + c * dim.tile := by
    intro k c
    rw [Leg.sourceAt, Leg.sourceAt, if_neg hmoves, if_neg hmoves, hu]
    ring
  have htarget : ∀ k c, g.targetAt (k + c * u) = g.targetAt k + c * dim.tile := by
    intro k c
    rw [Leg.targetAt, Leg.targetAt, hu]
    ring
  intro k h0 h1
  by_contra hne
  generalize hc : g.targetAt k / dim.tile - g.sourceAt k / dim.tile = c
  -- `c` tiles on there is another element of the leg, and so on without end
  have hwalk : ∀ n : Nat, 0 ≤ k + n * (c * u) ∧ k + n * (c * u) < g.trip := by
    intro n
    rw [← Int.mul_assoc]
    induction n with
    | zero => simpa using ⟨h0, h1⟩
    | succ n ih =>
        rcases h _ ih.1 ih.2 with ⟨s, hin, hsame⟩
        have hs : s = c := by
          rw [hback, hsource, htarget, Int.add_mul_ediv_right _ _ htile,
            Int.add_mul_ediv_right _ _ htile, Int.add_mul_ediv_right _ _ htile] at hsame
          omega
        have hnext : k + (n + 1 : Nat) * c * u = k + n * c * u + c * u := by
          push_cast
          ring
        rw [hback, ← hsource, hs, ← hnext] at hin
        exact Leg.index_bounds hfit.step_pos hmoves hin
  have hzero := eq_zero_of_bounded hfit.trip_pos hwalk
  rcases Int.mul_eq_zero.1 hzero with hczero | huzero
  · omega
  · rw [huzero, Int.mul_zero] at hu
    exact htile hu

theorem getElem?_targetPoint {k : Int} (hg : gs[d]? = some g) (hk : ks[d]? = some k) :
    (targetPoint gs ks)[d]? = some (g.targetAt k) := by
  rw [targetPoint, List.getElem?_zipWith, hg, hk]

/-- A leg whose first and last element arrive in the span of the source does not move, and is not fixed
either. -/
theorem still_of_contains (hfit : g.Fits dim) (hfirst : g.span.contains (g.targetAt 0) = true)
    (hlast : g.span.contains (g.targetAt (g.trip - 1)) = true) :
    g.distance = 0 ∧ ¬ g.isFixed = true := by
  rw [contains_iff] at hfirst hlast
  simp only [Leg.targetAt, Leg.span] at hfirst hlast
  by_cases hfixed : g.isFixed = true
  · rcases hfit.fixed hfixed with ⟨hstep, htrip⟩
    rw [if_pos hfixed, hstep] at hlast
    rw [if_pos hfixed] at hfirst
    omega
  · rw [if_neg hfixed, Leg.extent, Int.mul_comm (g.trip - 1)] at hlast
    rw [Leg.distance]
    refine ⟨?_, hfixed⟩
    omega

theorem trip_pos_of_fits (hfits : List.Forall₂ Leg.Fits t.dims gs) : ∀ g ∈ gs, 0 < g.trip := by
  intro g hg
  rcases List.getElem_of_mem hg with ⟨e, he, rfl⟩
  rcases exists_dim_at hfits (List.getElem?_eq_getElem he) with ⟨dim, _, hfit⟩
  exact hfit.trip_pos

theorem inArray_map_of_forall {f : Leg → Int} (h : ∀ g ∈ gs, 0 ≤ f g ∧ f g < g.trip) :
    InArray (gs.map Leg.trip) (gs.map f) := by
  refine inArray_of_digits (List.length_map _) ?_
  intro e g k hg hk
  rw [List.getElem?_map, hg, Option.map_some, Option.some.injEq] at hk
  rw [← hk]
  exact h g (List.mem_of_getElem? hg)

/-- Off the mask an element can only have landed. -/
theorem landed_of_arrive (hfits : List.Forall₂ Leg.Fits t.dims gs) (hg : gs[d]? = some g)
    (hdvd : ¬ g.step ∣ g.distance) {k : Int} (hks : InArray (gs.map Leg.trip) ks)
    (hk : ks[d]? = some k) {i : Nat}
    (h : t.OnMaskOrLanded gs d dim g (t.tokenAt i (targetPoint gs ks))) :
    t.Landed gs d dim g (g.targetAt k) (targetPoint gs ks) := by
  rcases h with ⟨p, x, hp, hplace, hx, hcases⟩
  have hpoint : targetPoint gs ks = p := placeOf_injective (within_targetPoint hfits hks) hp hplace
  subst hpoint
  rw [getElem?_targetPoint hg hk, Option.some.injEq] at hx
  subst hx
  refine hcases.resolve_left ?_
  intro hres
  rw [Leg.targetAt, Int.add_mul_emod_self_left] at hres
  exact hdvd (Int.dvd_of_emod_eq_zero (Int.emod_eq_emod_iff_emod_sub_eq_zero.1 hres))

/-- The first and the last element show that the legs that come later do not move. -/
theorem still_of_landed (hfits : List.Forall₂ Leg.Fits t.dims gs) (hg : gs[d]? = some g)
    (h : ∀ ks k, InArray (gs.map Leg.trip) ks → ks[d]? = some k →
      t.Landed gs d dim g (g.targetAt k) (targetPoint gs ks))
    {e : Nat} {g' : Leg} (hlater : d < e ∨ (t.wideLeg gs).map Multicast.dim = some e)
    (hg' : gs[e]? = some g') : g'.distance = 0 ∧ ¬ g'.isFixed = true := by
  have hpos := trip_pos_of_fits hfits
  rcases exists_dim_at hfits hg' with ⟨dim', _, hfit⟩
  have hfirst := h (gs.map fun _ => 0) 0
    (inArray_map_of_forall fun g hg => ⟨Int.le_refl 0, hpos g hg⟩)
    (by rw [List.getElem?_map, hg, Option.map_some])
  have hlast := h (gs.map fun g => g.trip - 1) (g.trip - 1)
    (inArray_map_of_forall fun g hg => ⟨by have := hpos g hg; omega, by omega⟩) (by simp [hg])
  refine still_of_contains hfit
    (hfirst.rests e g' _ hlater hg' (getElem?_targetPoint hg' ?_))
    (hlast.rests e g' _ hlater hg' (getElem?_targetPoint hg' ?_))
  · rw [List.getElem?_map, hg', Option.map_some]
  · rw [List.getElem?_map, hg', Option.map_some]

/-- The element that is `k` places along one leg, and first along the others. -/
theorem inArray_set (hfits : List.Forall₂ Leg.Fits t.dims gs) (hg : gs[d]? = some g) {k : Int}
    (h0 : 0 ≤ k) (h1 : k < g.trip) :
    InArray (gs.map Leg.trip) ((gs.map fun _ => (0 : Int)).set d k) := by
  have hd : d < (gs.map fun _ => (0 : Int)).length := by
    rw [List.length_map]
    exact (List.getElem?_eq_some_iff.1 hg).1
  refine inArray_of_digits (by simp) ?_
  intro e g' k' hg' hk'
  by_cases he : d = e
  · subst he
    rw [List.getElem?_set_self hd, Option.some.injEq] at hk'
    rw [hg, Option.some.injEq] at hg'
    rw [← hk', ← hg']
    exact ⟨h0, h1⟩
  · rw [List.getElem?_set_ne he, List.getElem?_map, hg', Option.map_some,
      Option.some.injEq] at hk'
    rw [← hk']
    exact ⟨Int.le_refl 0, trip_pos_of_fits hfits g' (List.mem_of_getElem? hg')⟩

/-- If all elements arrive, every leg that skips coordinates is secure. -/
theorem secure_of_arrive (hfits : List.Forall₂ Leg.Fits t.dims gs) (hdim : t.dims[d]? = some dim)
    (hg : gs[d]? = some g) (hstep : g.step ≠ 1)
    (h : ∀ ks, InArray (gs.map Leg.trip) ks →
      ∃ i, t.OnMaskOrLanded gs d dim g (t.tokenAt i (targetPoint gs ks))) :
    t.Secure gs d dim g := by
  have hfit := fits_at hfits hdim hg
  have hmoves := hfit.not_isFixed hstep
  by_cases hdvd : g.step ∣ g.distance
  · exact Or.inl hdvd
  have hland : ∀ ks k, InArray (gs.map Leg.trip) ks → ks[d]? = some k →
      t.Landed gs d dim g (g.targetAt k) (targetPoint gs ks) := by
    intro ks k hks hk
    rcases h ks hks with ⟨i, hi⟩
    exact landed_of_arrive hfits hg hdvd hks hk hi
  refine Or.inr ⟨keepsTiles_of_came hfit hmoves ?_, ?_⟩
  · intro k h0 h1
    have hd : d < (gs.map fun _ => (0 : Int)).length := by
      rw [List.length_map]
      exact (List.getElem?_eq_some_iff.1 hg).1
    exact (hland _ k (inArray_set hfits hg h0 h1) (List.getElem?_set_self hd)).came
  -- elements that land on their targets are not moved again, so the later legs go nowhere
  · intro e g' hg'
    refine ⟨fun hlater => (still_of_landed hfits hg hland (Or.inl hlater) hg').1, ?_⟩
    intro hfixed
    constructor
    · rcases Nat.lt_trichotomy e d with hlt | rfl | hgt
      · exact hlt
      · rw [hg, Option.some.injEq] at hg'
        subst hg'
        exact absurd hfixed hmoves
      · exact absurd hfixed (still_of_landed hfits hg hland (Or.inl hgt) hg').2
    · -- a multicast there would read elements that have left the mask
      intro htile
      have hmem : ({ dim := 0 + e, count := g'.trip } : Multicast) ∈ fixedFrom 0 gs :=
        mem_fixedFrom.2 ⟨e, g', hg', hfixed, rfl⟩
      cases hwide : t.wideLeg gs with
      | none =>
          have hnone := List.find?_eq_none.1 hwide _ hmem
          simp [isTileWide, htile] at hnone
      | some r =>
          rcases wideLeg_spec hwide with ⟨⟨g₀, hg₀, hfixed₀, _⟩, _⟩
          have hwide' : (t.wideLeg gs).map Multicast.dim = some r.dim := by
            rw [hwide, Option.map_some]
          exact (still_of_landed hfits hg hland (Or.inr hwide') hg₀).2 hfixed₀

/-- The elements of a source all arrive if and only if every leg that skips coordinates is secure. -/
theorem routes_strided_iff {source target : AffinePattern} {cs : List Command}
    (h : t.compileMove source target = .ok cs) :
    (∀ i < source.totalTrip.toNat,
      { element := i, place := t.locate (target.value i) } ∈ t.run (t.tokensOf source) cs) ↔
      t.AllSecure (t.legs source target) := by
  rcases planned_of_compileMove h with ⟨s, _, hstart, hplan, hsource, htarget, hcs⟩
  have hmasks : s.masks = masksFrom 0 (t.legs source target) := hplan.masks_eq
  rw [moveDense_eq hstart hplan, hmasks, finish_moveLegs] at hcs
  subst hcs
  have hfits := hplan.fits_legs
  have hplace : ∀ i, ({ element := i, place := t.locate (target.value i) } : Token) =
      t.tokenAt i (targetPoint (t.legs source target) (digits (t.legs source target) i)) := by
    intro i
    rw [target_value hplan htarget,
      locate_linearize (within_targetPoint hfits (hplan.inArray_digits i))]
    rfl
  constructor
  · intro harrive d dim g hdim hg hstep
    -- at the start every element is on the mask
    have hinit : ∀ k ∈ t.tokensOf source, t.OnMaskOrLanded (t.legs source target) d dim g k := by
      intro k hk
      rcases List.mem_map.1 hk with ⟨i, _, rfl⟩
      have hdigits := hplan.inArray_digits i
      have hp := within_sourcePoint hfits hdigits
      rcases hp.exists_coordinate hdim with ⟨x, hx⟩
      refine ⟨_, x, hp, ?_, hx, Or.inl ?_⟩
      · rw [source_value hplan hsource, locate_linearize hp]
      · exact (onStrides_sourcePoint hfits hdigits).residue hdim hg (fits_at hfits hdim hg) hstep hx
    refine secure_of_arrive hfits hdim hg hstep ?_
    intro ks hks
    rcases exists_element hplan hks with ⟨i, hi, rfl⟩
    refine ⟨i, landed_run hfits hdim hg hstep hinit _ ?_⟩
    rw [← hplace i]
    exact harrive i hi
  · intro hsecure i hi
    rw [hplace i]
    exact mem_drive_of_secure hfits hsecure (hplan.inArray_digits i) (mem_tokensOf hplan hsource hi)

/-! ## Every other element of a row -/

/-- A row of eight elements, in two tiles. -/
def rowOfEight : Tiling :=
  { hardware := {}
    dims := [{ tile := 4, count := 2,
               tile_pos := Int.natCast_pos.2 (Nat.succ_pos 3),
               count_pos := Int.natCast_pos.2 Nat.two_pos }] }

/-- Every other element from an index on, two of them. -/
def everyOther (start : Int) : AffinePattern :=
  { start, axes := [⟨2, 2⟩] }

/-- Over a distance of four, which two divides, both elements arrive. -/
theorem strided_elements_arrive :
    ∃ cs, rowOfEight.compileMove (everyOther 1) (everyOther 5) = .ok cs ∧
      ∀ i < (everyOther 1).totalTrip.toNat,
        { element := i, place := rowOfEight.locate ((everyOther 5).value i) } ∈
          rowOfEight.run (rowOfEight.tokensOf (everyOther 1)) cs := by
  have hcompiled : rowOfEight.compileMove (everyOther 1) (everyOther 5) = .ok _ := rfl
  refine ⟨_, hcompiled, (routes_strided_iff hcompiled).2 ?_⟩
  intro d dim g _ hg _
  have hlegs : rowOfEight.legs (everyOther 1) (everyOther 5) =
      [{ corner := 1, target := 5, step := 2, trip := 2, isFixed := false }] := by decide
  rw [hlegs, List.getElem?_singleton] at hg
  by_cases hd : d = 0
  · rw [if_pos hd, Option.some.injEq] at hg
    subst hg
    exact Or.inl (by decide)
  · rw [if_neg hd] at hg
    cases hg

/-- Over a distance of three, the shift of bitlines leaves the elements on even coordinates, and the move
of tiles looks for them on odd ones. -/
theorem strided_elements_lost :
    ∃ cs, rowOfEight.compileMove (everyOther 1) (everyOther 4) = .ok cs ∧
      ∀ i < (everyOther 1).totalTrip.toNat,
        { element := i, place := rowOfEight.locate ((everyOther 4).value i) } ∉
          rowOfEight.run (rowOfEight.tokensOf (everyOther 1)) cs :=
  ⟨_, rfl, by decide⟩

end Tiling
end StreamEngine
