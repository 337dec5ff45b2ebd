import StreamEngine.Proofs.DataMove.Masking

/-!
# Moving a region along a dimension

An align covers a distance along one dimension by shifts of bitlines inside tiles and moves of whole
tiles. Each bitline of a tile belongs to one lane, which says how it goes.

* `lanes_spec`, `exists_lane` — the lanes of a distance;
* `displaced_lineCommand`, `displaced_tileCommand` — where the commands of a lane take a point;
* `mem_drive_align` — the commands of an align carry every element of the region over the distance;
* `readsTokens_align` — they read nothing but elements of the region.
-/

namespace StreamEngine
namespace Tiling

variable {t : Tiling}

/-! ## Lanes -/

/-- The bitlines of a lane stay in their tile when shifted, and both shifts make up the distance. -/
structure Lane.Fits (tile delta : Int) (l : Lane) : Prop where
  lo_nonneg : 0 ≤ l.lines.lo
  hi_le : l.lines.hi ≤ tile
  shifted_lo_nonneg : 0 ≤ l.lines.lo + l.lineShift
  shifted_hi_le : l.lines.hi + l.lineShift ≤ tile
  shifts : l.lineShift + l.tileShift * tile = delta

theorem lanes_spec {tile delta : Int} (htile : 0 < tile) {l : Lane} (hl : l ∈ lanes tile delta) :
    l.Fits tile delta := by
  have hr0 := Int.emod_nonneg delta (by omega : tile ≠ 0)
  have hr1 := Int.emod_lt_of_pos delta htile
  have hsplit := Int.emod_add_mul_ediv delta tile
  have hmem := List.mem_of_mem_filter hl
  simp only [List.mem_cons, List.not_mem_nil, or_false] at hmem
  -- up to the split, bitlines go on by the remainder; behind it they go over into the next tile
  rcases hmem with rfl | rfl
  · refine ⟨?_, ?_, ?_, ?_, ?_⟩
    · exact Int.le_refl 0
    · simp only
      omega
    · simp only
      omega
    · simp only
      omega
    · simp only [Int.mul_comm (delta / tile) tile]
      omega
  · refine ⟨?_, ?_, ?_, ?_, ?_⟩
    · simp only
      omega
    · exact Int.le_refl tile
    · simp only
      omega
    · simp only
      omega
    · simp only [Int.add_mul, Int.one_mul, Int.mul_comm (delta / tile) tile]
      omega

/-- Every bitline belongs to a lane. -/
theorem exists_lane {tile : Int} (htile : 0 < tile) (delta x : Int) :
    ∃ l ∈ lanes tile delta, l.lines.contains (x % tile) = true := by
  have hx0 := Int.emod_nonneg x (by omega : tile ≠ 0)
  have hx1 := Int.emod_lt_of_pos x htile
  by_cases hlow : x % tile < tile - delta % tile
  · refine
      ⟨{ lines := { lo := 0, hi := tile - delta % tile }
         lineShift := delta % tile
         tileShift := delta / tile }, ?_, contains_iff.2 ⟨hx0, hlow⟩⟩
    refine List.mem_filter.2 ⟨by simp, ?_⟩
    simp only [Span.isEmpty, Bool.not_eq_true', decide_eq_false_iff_not]
    omega
  · refine
      ⟨{ lines := { lo := tile - delta % tile, hi := tile }
         lineShift := delta % tile - tile
         tileShift := delta / tile + 1 }, ?_, contains_iff.2 ⟨by simp only; omega, hx1⟩⟩
    refine List.mem_filter.2 ⟨by simp, ?_⟩
    simp only [Span.isEmpty, Bool.not_eq_true', decide_eq_false_iff_not]
    omega

/-- A coordinate on a bitline of the lane keeps its tile when its bitline is shifted. -/
theorem Lane.Fits.shift_line {tile delta : Int} {l : Lane} (h : l.Fits tile delta) {x : Int}
    (hx : l.lines.contains (x % tile) = true) :
    (x + l.lineShift) / tile = x / tile ∧ (x + l.lineShift) % tile = x % tile + l.lineShift := by
  rcases contains_iff.1 hx with ⟨hlo, hhi⟩
  have h1 := h.hi_le
  have h2 := h.shifted_lo_nonneg
  have h3 := h.shifted_hi_le
  have h0 := h.lo_nonneg
  exact shift_in_tile (by omega) (by omega) (by omega)

/-! ## Boxes along a dimension -/

theorem box_contains_shift {b : Box} {p : List Int} (d : Nat) (δ : Int) :
    (b.shift d δ).contains (p.modify d (· + δ)) = true ↔ b.contains p = true := by
  rw [box_contains_iff, box_contains_iff]
  refine forall_congr' fun e => ?_
  by_cases he : d = e
  · subst he
    simp only [Box.shift, List.getElem?_modify_eq]
    cases hs : b.spans[d]? with
    | none => simp
    | some s =>
        cases hx : p[d]? with
        | none => simp
        | some x => simp [Span.shift]
  · simp only [Box.shift, List.getElem?_modify_ne _ _ he]

@[simp] theorem length_shift (b : Box) (d : Nat) (δ : Int) :
    (b.shift d δ).spans.length = b.spans.length := by
  simp [Box.shift]

/-- A point of a box lies in it with another span in one dimension if its coordinate does. -/
theorem box_contains_withDim {b : Box} {p : List Int} (h : b.contains p = true) {d : Nat}
    (hd : d < b.spans.length) {x : Int} (hx : p[d]? = some x) (s : Span) :
    (b.withDim d s).contains p = true ↔ s.contains x = true := by
  rw [box_contains_iff, contains_iff]
  constructor
  · intro hall
    exact hall d s x (by simp [Box.withDim, hd]) hx
  · intro hs e s' x' hs' hx'
    by_cases he : d = e
    · subst he
      simp only [Box.withDim, List.getElem?_set_self hd, Option.some.injEq] at hs'
      rw [hx, Option.some.injEq] at hx'
      rw [← hs', ← hx']
      exact hs
    · simp only [Box.withDim, List.getElem?_set_ne he] at hs'
      exact box_contains_iff.1 h e s' x' hs' hx'

theorem withDim_shift (b : Box) (d : Nat) (s : Span) (δ : Int) :
    (b.withDim d s).shift d δ = b.withDim d (s.shift δ) := by
  simp only [Box.withDim, Box.shift, Box.mk.injEq]
  apply List.ext_getElem?
  intro e
  by_cases he : d = e
  · subst he
    by_cases hd : d < b.spans.length
    · simp [hd]
    · simp [hd]
  · simp [he]

/-! ## The commands of a lane -/

/-- The shift of the bitlines of a lane. -/
def lineCommand (t : Tiling) (d : Nat) (l : Lane) : Command :=
  { kind := .intraArray (l.lineShift * t.bitlineStride d)
    bitlineMask := (Box.full t.tileSizes).withDim d l.lines
    tileMask := Box.full t.tileCounts }

/-- The move of the tiles of a lane, whose bitlines are shifted already. -/
def tileCommand (t : Tiling) (d : Nat) (dim : TiledDim) (l : Lane) : Command :=
  { kind := .interArray (l.tileShift * t.tileStride d)
    bitlineMask := ((Box.full t.tileSizes).withDim d l.lines).shift d l.lineShift
    tileMask := (Box.full t.tileCounts).withDim d (movable dim.count l.tileShift) }

theorem alignLane_eq (d : Nat) (dim : TiledDim) (region : Box) (l : Lane) :
    t.alignLane d dim region l =
      (if l.lineShift = 0 then [] else t.maskByRegion (t.lineCommand d l) region) ++
        (if l.tileShift = 0 then []
          else t.maskByRegion (t.tileCommand d dim l) (region.shift d l.lineShift)) := rfl

theorem shaped_lineCommand (d : Nat) (l : Lane) : t.Shaped (t.lineCommand d l) := by
  simp [Shaped, lineCommand, Box.full, Box.withDim, tileCounts, tileSizes]

theorem shaped_tileCommand (d : Nat) (dim : TiledDim) (l : Lane) :
    t.Shaped (t.tileCommand d dim l) := by
  simp [Shaped, tileCommand, Box.full, Box.withDim, Box.shift, tileCounts, tileSizes]

theorem getElem?_tilePoint {p : List Int} {d : Nat} {dim : TiledDim} {x : Int}
    (hdim : t.dims[d]? = some dim) (hx : p[d]? = some x) :
    (t.tilePoint p)[d]? = some (x / dim.tile) := by
  simp [tilePoint, List.getElem?_zipWith, hdim, hx]

theorem getElem?_linePoint {p : List Int} {d : Nat} {dim : TiledDim} {x : Int}
    (hdim : t.dims[d]? = some dim) (hx : p[d]? = some x) :
    (t.linePoint p)[d]? = some (x % dim.tile) := by
  simp [linePoint, List.getElem?_zipWith, hdim, hx]

section Lane

variable {d : Nat} {dim : TiledDim} {delta : Int} {l : Lane} {p : List Int} {x : Int}

theorem covers_lineCommand (hdim : t.dims[d]? = some dim) (hp : t.Within p) (hx : p[d]? = some x) :
    t.Covers (t.lineCommand d l) p ↔ l.lines.contains (x % dim.tile) = true := by
  have hd : d < t.dims.length := (List.getElem?_eq_some_iff.1 hdim).1
  have htile : (Box.full t.tileCounts).contains (t.tilePoint p) = true :=
    box_contains_full (inArray_tilePoint hp)
  have hline : (Box.full t.tileSizes).contains (t.linePoint p) = true :=
    box_contains_full (inArray_linePoint hp)
  simp only [Covers, lineCommand, htile, true_and]
  exact box_contains_withDim hline (by simpa [Box.full, tileSizes] using hd)
    (getElem?_linePoint hdim hx) _

theorem covers_tileCommand (hdim : t.dims[d]? = some dim) (hp : t.Within p) (hx : p[d]? = some x) :
    t.Covers (t.tileCommand d dim l) p ↔
      (movable dim.count l.tileShift).contains (x / dim.tile) = true ∧
        (l.lines.shift l.lineShift).contains (x % dim.tile) = true := by
  have hd : d < t.dims.length := (List.getElem?_eq_some_iff.1 hdim).1
  have htile : (Box.full t.tileCounts).contains (t.tilePoint p) = true :=
    box_contains_full (inArray_tilePoint hp)
  have hline : (Box.full t.tileSizes).contains (t.linePoint p) = true :=
    box_contains_full (inArray_linePoint hp)
  simp only [Covers, tileCommand, withDim_shift]
  rw [box_contains_withDim htile (by simpa [Box.full, tileCounts] using hd)
      (getElem?_tilePoint hdim hx),
    box_contains_withDim hline (by simpa [Box.full, tileSizes] using hd)
      (getElem?_linePoint hdim hx)]

theorem displaced_lineCommand (hl : l.Fits dim.tile delta) (hdim : t.dims[d]? = some dim)
    (hp : t.Within p) (hx : p[d]? = some x) (hlane : l.lines.contains (x % dim.tile) = true) :
    t.displaced (t.lineCommand d l) (t.placeOf p) = [t.placeOf (p.modify d (· + l.lineShift))] ∧
      t.Within (p.modify d (· + l.lineShift)) := by
  rcases contains_iff.1 hlane with ⟨hlo, hhi⟩
  have h0 := hl.shifted_lo_nonneg
  have h1 := hl.shifted_hi_le
  have hplace := placeOf_shift_line (δ := l.lineShift) hp hdim hx (by omega) (by omega)
  have hinside : 0 ≤ x + l.lineShift ∧ x + l.lineShift < dim.size := by
    rw [← tile_inside_iff, (hl.shift_line hlane).1, tile_inside_iff]
    exact hp.bounds hdim hx
  refine ⟨?_, hp.shift hdim hx hinside.1 hinside.2⟩
  rw [hplace]
  rfl

/-- A tile may move exactly if its destination lies in the array. -/
theorem contains_movable (hp : t.Within p) (hdim : t.dims[d]? = some dim) (hx : p[d]? = some x)
    (s : Int) :
    (movable dim.count s).contains (x / dim.tile) = true ↔
      0 ≤ x + s * dim.tile ∧ x + s * dim.tile < dim.size := by
  have hpos := dim.tile_pos
  have hinside := (tile_inside_iff dim x).2 (hp.bounds hdim hx)
  have hdiv : (x + s * dim.tile) / dim.tile = x / dim.tile + s :=
    Int.add_mul_ediv_right x s (by omega)
  rw [← tile_inside_iff, hdiv]
  simp only [contains_iff, movable]
  omega

theorem displaced_tileCommand (hdim : t.dims[d]? = some dim) (hp : t.Within p) (hx : p[d]? = some x)
    (hmove : (movable dim.count l.tileShift).contains (x / dim.tile) = true) :
    t.displaced (t.tileCommand d dim l) (t.placeOf p) =
        [t.placeOf (p.modify d (· + l.tileShift * dim.tile))] ∧
      t.Within (p.modify d (· + l.tileShift * dim.tile)) := by
  have hinside := (contains_movable hp hdim hx l.tileShift).1 hmove
  refine ⟨?_, hp.shift hdim hx hinside.1 hinside.2⟩
  rw [placeOf_shift_tile hp hdim l.tileShift]
  rfl

/-! ## What a lane does to tokens -/

variable {region : Box} {masks : List StrideMask} {tokens : List Token}

/-- The first half of a lane: an element on its bitlines is shifted inside its tile. -/
theorem mem_drive_shiftLines (hl : l.Fits dim.tile delta) (hdim : t.dims[d]? = some dim)
    (hregion : region.spans.length = t.dims.length) (hp : t.Within p) (hx : p[d]? = some x)
    (hlane : l.lines.contains (x % dim.tile) = true) (hin : region.contains p = true)
    (hmask : t.OnStrides masks p) {i : Nat} (hk : t.tokenAt i p ∈ tokens) :
    t.tokenAt i (p.modify d (· + l.lineShift)) ∈ t.drive masks tokens
      (if l.lineShift = 0 then [] else t.maskByRegion (t.lineCommand d l) region) := by
  by_cases hline : l.lineShift = 0
  · -- no command is given, and the element stays
    rw [if_pos hline, hline, shift_zero]
    exact hk
  · rw [if_neg hline]
    refine mem_drive_maskByRegion (shaped_lineCommand d l) hregion hp
      ((covers_lineCommand hdim hp hx).2 hlane) hin hmask hk ?_
    rw [(displaced_lineCommand hl hdim hp hx hlane).1]
    exact List.mem_singleton_self _

/-- The second half: a tile whose destination lies in the array moves there. The region and the bitlines
are those after the first half. -/
theorem mem_drive_moveTiles (hdim : t.dims[d]? = some dim)
    (hregion : region.spans.length = t.dims.length) (hp : t.Within p) (hx : p[d]? = some x)
    (hlines : (l.lines.shift l.lineShift).contains (x % dim.tile) = true)
    (h0 : 0 ≤ x + l.tileShift * dim.tile) (h1 : x + l.tileShift * dim.tile < dim.size)
    (hin : region.contains p = true) (hmask : l.tileShift = 0 ∨ t.OnStrides masks p) {i : Nat}
    (hk : t.tokenAt i p ∈ tokens) :
    t.tokenAt i (p.modify d (· + l.tileShift * dim.tile)) ∈ t.drive masks tokens
      (if l.tileShift = 0 then [] else t.maskByRegion (t.tileCommand d dim l) region) := by
  by_cases htile : l.tileShift = 0
  · rw [if_pos htile, htile, Int.zero_mul, shift_zero]
    exact hk
  · rw [if_neg htile]
    have hmove := (contains_movable hp hdim hx l.tileShift).2 ⟨h0, h1⟩
    refine mem_drive_maskByRegion (shaped_tileCommand d dim l) hregion hp
      ((covers_tileCommand hdim hp hx).2 ⟨hmove, hlines⟩) hin (hmask.resolve_left htile) hk ?_
    rw [(displaced_tileCommand hdim hp hx hmove).1]
    exact List.mem_singleton_self _

/-- The commands of a lane carry an element on its bitlines over the whole distance. Where tiles move,
the element must still be left by the stride masks after its bitline is shifted. -/
theorem mem_drive_alignLane (hl : l.Fits dim.tile delta) (hdim : t.dims[d]? = some dim)
    (hregion : region.spans.length = t.dims.length) (hp : t.Within p) (hx : p[d]? = some x)
    (hlane : l.lines.contains (x % dim.tile) = true) (hin : region.contains p = true)
    (h0 : 0 ≤ x + delta) (h1 : x + delta < dim.size) (hmask : t.OnStrides masks p)
    (hkeep : l.tileShift = 0 ∨ t.OnStrides masks (p.modify d (· + l.lineShift))) {i : Nat}
    (hk : t.tokenAt i p ∈ tokens) :
    t.tokenAt i (p.modify d (· + delta)) ∈
      t.drive masks tokens (t.alignLane d dim region l) := by
  have hp' := (displaced_lineCommand hl hdim hp hx hlane).2
  have hx' : (p.modify d (· + l.lineShift))[d]? = some (x + l.lineShift) := by simp [hx]
  have hlines : (l.lines.shift l.lineShift).contains ((x + l.lineShift) % dim.tile) = true := by
    rcases contains_iff.1 hlane with ⟨hlo, hhi⟩
    simp only [contains_iff, Span.shift, (hl.shift_line hlane).2]
    omega
  have hsum : x + l.lineShift + l.tileShift * dim.tile = x + delta := by
    rw [Int.add_assoc, hl.shifts]
  have hend : (p.modify d (· + l.lineShift)).modify d (· + l.tileShift * dim.tile) =
      p.modify d (· + delta) := by
    rw [shift_shift, hl.shifts]
  -- the bitlines come first; the token then stands in the tile from which it moves on
  have hshifted := mem_drive_shiftLines hl hdim hregion hp hx hlane hin hmask hk
  rw [alignLane_eq, drive_append, ← hend]
  exact mem_drive_moveTiles hdim (by simpa using hregion) hp' hx' hlines (by rwa [hsum])
    (by rwa [hsum]) ((box_contains_shift d _).2 hin) hkeep hshifted

/-- A shift of bitlines can be taken back to where it started. -/
theorem exists_unshifted (hl : l.Fits dim.tile delta) (hdim : t.dims[d]? = some dim)
    (hp : t.Within p) (hx : p[d]? = some x)
    (hlines : (l.lines.shift l.lineShift).contains (x % dim.tile) = true) :
    ∃ q, t.Within q ∧ q[d]? = some (x - l.lineShift) ∧
      l.lines.contains ((x - l.lineShift) % dim.tile) = true ∧
      q.modify d (· + l.lineShift) = p := by
  simp only [contains_iff, Span.shift] at hlines
  have h0 := hl.lo_nonneg
  have h1 := hl.hi_le
  rcases shift_in_tile (x := x) (δ := -l.lineShift) dim.tile_pos (by omega) (by omega) with
    ⟨hdiv, hmod⟩
  rw [← Int.sub_eq_add_neg] at hdiv hmod
  have hinside : 0 ≤ x - l.lineShift ∧ x - l.lineShift < dim.size := by
    rw [← tile_inside_iff, hdiv, tile_inside_iff]
    exact hp.bounds hdim hx
  refine ⟨p.modify d (· + -l.lineShift), hp.shift hdim hx hinside.1 hinside.2, ?_, ?_, ?_⟩
  · simp [hx, Int.sub_eq_add_neg]
  · rw [contains_iff, hmod]
    omega
  · rw [shift_shift, Int.add_left_neg, shift_zero]

theorem onStrides_nil (p : List Int) : t.OnStrides [] p := by
  intro m hm
  cases hm

theorem readsTokens_shiftLines (hl : l.Fits dim.tile delta) (hdim : t.dims[d]? = some dim)
    (hregion : region.spans.length = t.dims.length)
    (hfull : ∀ p, t.Within p → region.contains p = true → ∃ i, t.tokenAt i p ∈ tokens) :
    t.ReadsTokens tokens ((if l.lineShift = 0 then []
      else t.maskByRegion (t.lineCommand d l) region).map (t.dressed masks)) := by
  by_cases hline : l.lineShift = 0
  · rw [if_pos hline]
    trivial
  · rw [if_neg hline]
    refine readsTokens_maskByRegion (shaped_lineCommand d l) hregion ?_
    intro p hp hcov hin
    rcases hp.exists_coordinate hdim with ⟨x, hx⟩
    rcases displaced_lineCommand hl hdim hp hx ((covers_lineCommand hdim hp hx).1 hcov) with
      ⟨hdisp, hp'⟩
    refine ⟨hfull p hp hin, ?_⟩
    intro l' hl'
    rw [hdisp, List.mem_singleton] at hl'
    rw [hl']
    exact hasPlace_placeOf hp'

/-- The second half reads the bitlines onto which the first half has shifted, and no others. -/
theorem readsTokens_moveTiles (hdim : t.dims[d]? = some dim)
    (hregion : region.spans.length = t.dims.length)
    (hfull : ∀ p x, t.Within p → p[d]? = some x → region.contains p = true →
      (l.lines.shift l.lineShift).contains (x % dim.tile) = true → ∃ i, t.tokenAt i p ∈ tokens) :
    t.ReadsTokens tokens ((if l.tileShift = 0 then []
      else t.maskByRegion (t.tileCommand d dim l) region).map (t.dressed masks)) := by
  by_cases htile : l.tileShift = 0
  · rw [if_pos htile]
    trivial
  · rw [if_neg htile]
    refine readsTokens_maskByRegion (shaped_tileCommand d dim l) hregion ?_
    intro p hp hcov hin
    rcases hp.exists_coordinate hdim with ⟨x, hx⟩
    rcases (covers_tileCommand hdim hp hx).1 hcov with ⟨hmove, hlines⟩
    rcases displaced_tileCommand hdim hp hx hmove with ⟨hdisp, hp'⟩
    refine ⟨hfull p x hp hx hin hlines, ?_⟩
    intro l' hl'
    rw [hdisp, List.mem_singleton] at hl'
    rw [hl']
    exact hasPlace_placeOf hp'

/-- The commands of a lane read nothing but elements of a region that is full of them. -/
theorem readsTokens_alignLane (hl : l.Fits dim.tile delta) (hdim : t.dims[d]? = some dim)
    (hregion : region.spans.length = t.dims.length)
    (hfull : ∀ p, t.Within p → region.contains p = true → ∃ i, t.tokenAt i p ∈ tokens) :
    t.ReadsTokens tokens ((t.alignLane d dim region l).map (t.dressed [])) := by
  rw [alignLane_eq, List.map_append, readsTokens_append]
  constructor
  · exact readsTokens_shiftLines hl hdim hregion hfull
  · refine readsTokens_moveTiles hdim (by simpa using hregion) ?_
    intro p x hp hx hin hlines
    -- what stands on a shifted bitline came from the region
    rcases exists_unshifted hl hdim hp hx hlines with ⟨q, hq, hxq, hlane, rfl⟩
    have hinq : region.contains q = true := (box_contains_shift d _).1 hin
    rcases hfull q hq hinq with ⟨i, hi⟩
    exact ⟨i, mem_drive_shiftLines hl hdim hregion hq hxq hlane hinq (onStrides_nil q) hi⟩

/-! ## All lanes of a distance -/

theorem align_eq (hdim : t.dims[d]? = some dim) :
    t.align d delta region = (lanes dim.tile delta).flatMap (t.alignLane d dim region) := by
  simp [align, hdim]

/-- A step that the strides divide keeps an element on the stride masks. -/
theorem OnStrides.shift (hmask : t.OnStrides masks p) (hdim : t.dims[d]? = some dim) {δ : Int}
    (h : ∀ m ∈ masks, m.dim = d → m.stride ∣ dim.tile ∧ m.stride ∣ δ) :
    t.OnStrides masks (p.modify d (· + δ)) := by
  intro m hm
  have hold := hmask m hm
  simp only [linePoint, List.getD_eq_getElem?_getD, List.getElem?_zipWith] at hold ⊢
  by_cases he : d = m.dim
  · rcases h m hm he.symm with ⟨htile, hδ⟩
    rw [← he] at hold ⊢
    simp only [hdim, List.getElem?_modify_eq] at hold ⊢
    cases hx : p[d]? with
    | none => simpa [hx] using hold
    | some x =>
        simp only [hx, Option.map_eq_map, Option.map_some, Option.getD_some] at hold ⊢
        rw [Int.emod_emod_of_dvd _ htile] at hold ⊢
        rw [← hold, Int.add_emod, Int.emod_eq_zero_of_dvd hδ, Int.add_zero, Int.emod_emod]
  · simpa only [List.getElem?_modify_ne _ _ he] using hold

/-- The commands of an align carry every element of the region over the distance. An element that
changes its tile on the way must stay on the stride masks. -/
theorem mem_drive_align (hdim : t.dims[d]? = some dim)
    (hregion : region.spans.length = t.dims.length) (hp : t.Within p) (hx : p[d]? = some x)
    (hin : region.contains p = true) (h0 : 0 ≤ x + delta) (h1 : x + delta < dim.size)
    (hmask : t.OnStrides masks p)
    (hkeep : (x + delta) / dim.tile = x / dim.tile ∨
      ∀ m ∈ masks, m.dim = d → m.stride ∣ dim.tile ∧ m.stride ∣ delta) {i : Nat}
    (hk : t.tokenAt i p ∈ tokens) :
    t.tokenAt i (p.modify d (· + delta)) ∈ t.drive masks tokens (t.align d delta region) := by
  have hpos := dim.tile_pos
  rw [align_eq hdim]
  rcases exists_lane hpos delta x with ⟨l, hl, hlane⟩
  have hfits := lanes_spec hpos hl
  -- either no tile moves, or the strides divide the shift of the bitlines as well
  have hkeep' : l.tileShift = 0 ∨ t.OnStrides masks (p.modify d (· + l.lineShift)) := by
    rcases hkeep with hsame | hstride
    · refine Or.inl ?_
      have hsum : x + delta = (x + l.lineShift) + l.tileShift * dim.tile := by
        have := hfits.shifts
        omega
      have hdiv : (x + delta) / dim.tile = x / dim.tile + l.tileShift := by
        rw [hsum, Int.add_mul_ediv_right _ _ (by omega), (hfits.shift_line hlane).1]
      omega
    · refine Or.inr (hmask.shift hdim ?_)
      intro m hm hd
      rcases hstride m hm hd with ⟨htile, hdelta⟩
      refine ⟨htile, ?_⟩
      have hline : l.lineShift = delta - l.tileShift * dim.tile := by
        have := hfits.shifts
        omega
      rw [hline]
      exact Int.dvd_sub hdelta (Dvd.dvd.mul_left htile _)
  refine mem_drive_flatMap hl ?_
  intro tokens' hsub
  exact mem_drive_alignLane hfits hdim hregion hp hx hlane hin h0 h1 hmask hkeep' (hsub hk)

/-- They read nothing but elements of a region that is full of them. -/
theorem readsTokens_align (hdim : t.dims[d]? = some dim)
    (hregion : region.spans.length = t.dims.length)
    (hfull : ∀ p, t.Within p → region.contains p = true → ∃ i, t.tokenAt i p ∈ tokens) :
    t.ReadsTokens tokens ((t.align d delta region).map (t.dressed [])) := by
  rw [align_eq hdim]
  refine readsTokens_flatMap ?_
  intro l hl tokens' hsub
  refine readsTokens_alignLane (lanes_spec dim.tile_pos hl) hdim hregion ?_
  intro p hp hin
  rcases hfull p hp hin with ⟨i, hi⟩
  exact ⟨i, hsub hi⟩

end Lane
end Tiling
end StreamEngine
