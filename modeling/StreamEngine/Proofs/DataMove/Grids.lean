import StreamEngine.Proofs.Affine.Boxes
import StreamEngine.Proofs.DataMove.Routing

/-!
# Commands inside the grid of tiles

The tiles of a command that moves between arrays are numbered, and so are those that it moves to. A
distance between numbers means what it should only if no tile leaves the grid along the dimension of the
move, for the next number would then belong to another row.

* `Tiling.Carries` : a move along one dimension that no tile of the command leaves the grid by;
* `inGrid_of_mem_moveLegs`, `inGrid_compute` : every command that is compiled is inside the grid.
-/

namespace StreamEngine

theorem InArray.modify {sizes p : List Int} (h : InArray sizes p) {d : Nat} {δ : Int}
    (hx : ∀ s x, sizes[d]? = some s → p[d]? = some x → 0 ≤ x + δ ∧ x + δ < s) :
    InArray sizes (p.modify d (· + δ)) := by
  unfold InArray at h ⊢
  induction h generalizing d with
  | nil => cases d <;> exact List.Forall₂.nil
  | cons hhead htail ih =>
      cases d with
      | zero => exact List.Forall₂.cons (hx _ _ rfl rfl) htail
      | succ d => exact List.Forall₂.cons hhead (ih hx)

/-! ## Moves that stay inside -/

/-- How often a command makes its move. -/
def Command.copies (c : Command) : Nat :=
  match c.reuse with
  | none => 1
  | some r => r.count.toNat

namespace Tiling

variable {t : Tiling} {c c' : Command} {region : Box}

/-- The distance of a command is that of `shift` tiles along dimension `d`, where its copies go on. No
tile of the command leaves the grid by it. -/
structure Carries (t : Tiling) (c : Command) (distance : Int) (d : Nat) (shift : Int) : Prop where
  lt : d < t.dims.length
  distance_eq : distance = shift * t.tileStride d
  reuse : ∀ r ∈ c.reuse, r.dim = d ∧ (c.copies : Int) = r.count
  stays : ∀ count span, t.tileCounts[d]? = some count → c.tileMask.spans[d]? = some span →
    0 ≤ span.lo + shift ∧ span.hi + shift + c.copies ≤ count + 1

/-- The command is no barrier, its tiles are in the grid, and so are those that it moves to. -/
structure InGrid (t : Tiling) (c : Command) : Prop where
  isSync : c.isSync = false
  inside : c.tileMask.Inside t.tileCounts
  carries : ∀ distance, c.kind = .interArray distance → ∃ d shift, t.Carries c distance d shift

/-- Where a copy of a tile lies. -/
theorem Carries.inArray {distance shift : Int} {d : Nat} (h : t.Carries c distance d shift)
    (hinside : c.tileMask.Inside t.tileCounts) {p : List Int} (hp : p ∈ c.tileMask.points) {j : Nat}
    (hj : j < c.copies) : InArray t.tileCounts (p.modify d (· + (shift + j))) := by
  refine (hinside.inArray hp).modify fun count x hcount hx => ?_
  have hlt : d < c.tileMask.spans.length := by
    rw [hinside.length_eq]
    exact (List.getElem?_eq_some_iff.1 hcount).1
  have hspan := List.getElem?_eq_getElem hlt
  have hstays := h.stays count _ hcount hspan
  have hbounds : c.tileMask.spans[d].lo ≤ x ∧ x < c.tileMask.spans[d].hi := by
    rcases List.getElem?_eq_some_iff.1 hx with ⟨hd, rfl⟩
    exact (List.forall₂_iff_get.1 (Box.mem_points.1 hp)).2 d hlt hd
  omega

/-- Parts of a command are as far inside the grid as the command is. -/
theorem InGrid.maskByRegion (h : t.InGrid c) (hregion : region.spans.length = t.dims.length)
    (hc : c' ∈ t.maskByRegion c region) : t.InGrid c' := by
  rcases mem_maskByRegion_iff.1 hc with ⟨_, qs, hqs, rfl, _⟩
  have hlen := length_of_mem_choices hregion hqs
  refine ⟨h.isSync, h.inside.intersect ?_, fun distance hkind => ?_⟩
  · rw [List.length_map, hlen, length_tileCounts]
  · rcases h.carries distance hkind with ⟨d, shift, hcarries⟩
    refine ⟨d, shift, hcarries.lt, hcarries.distance_eq, hcarries.reuse, fun count span hcount hspan => ?_⟩
    have hzip : (List.zipWith Span.intersect c.tileMask.spans (qs.map Piece.tiles))[d]? = some span := hspan
    rw [List.getElem?_zipWith_eq_some] at hzip
    rcases hzip with ⟨a, b, ha, _, rfl⟩
    have hstays := hcarries.stays count a hcount ha
    have hcopies : Command.copies (maskByPieces c qs) = c.copies := rfl
    rw [hcopies]
    simp only [Span.intersect]
    omega

/-! ## The commands of a move -/

theorem getElem?_tileCounts {d : Nat} {dim : TiledDim} (hdim : t.dims[d]? = some dim) :
    t.tileCounts[d]? = some dim.count := by
  rw [tileCounts, List.getElem?_map, hdim]
  rfl

theorem inGrid_lineCommand (d : Nat) (l : Lane) : t.InGrid (t.lineCommand d l) where
  isSync := rfl
  inside := Box.inside_full t.tileCounts
  carries distance hkind := by cases hkind

/-- A command for tiles whose copies all stay inside along the dimension that it moves them. -/
theorem inGrid_of_withDim {d : Nat} {dim : TiledDim} (hdim : t.dims[d]? = some dim) {shift : Int}
    (hkind : c.kind = .interArray (shift * t.tileStride d)) {span : Span}
    (hmask : c.tileMask = (Box.full t.tileCounts).withDim d span)
    (hreuse : ∀ r ∈ c.reuse, r.dim = d ∧ (c.copies : Int) = r.count)
    (hspan : 0 ≤ span.lo ∧ span.hi ≤ dim.count)
    (hstays : 0 ≤ span.lo + shift ∧ span.hi + shift + c.copies ≤ dim.count + 1) : t.InGrid c := by
  have hd : d < t.dims.length := (List.getElem?_eq_some_iff.1 hdim).1
  have hcount := getElem?_tileCounts hdim
  refine ⟨?_, ?_, ?_⟩
  · rw [Command.isSync, hkind]
    rfl
  · rw [hmask]
    refine (Box.inside_full t.tileCounts).withDim fun s hs => ?_
    rw [hcount] at hs
    cases hs
    exact hspan
  · intro distance hdistance
    rw [hkind] at hdistance
    cases hdistance
    refine ⟨d, shift, hd, rfl, hreuse, fun count span' hcount' hspan' => ?_⟩
    rw [hcount] at hcount'
    cases hcount'
    have hlen : d < (Box.full t.tileCounts).spans.length := by
      rw [Box.full, List.length_map, length_tileCounts]
      exact hd
    rw [hmask, Box.withDim, List.getElem?_set_self hlen] at hspan'
    cases hspan'
    exact hstays

theorem inGrid_tileCommand {d : Nat} {dim : TiledDim} (hdim : t.dims[d]? = some dim) (l : Lane) :
    t.InGrid (t.tileCommand d dim l) := by
  have hpos := dim.count_pos
  have hcopies : (t.tileCommand d dim l).copies = 1 := rfl
  refine inGrid_of_withDim hdim rfl rfl (fun r hr => by cases hr) ?_ ?_
  · simp only [movable]
    omega
  · rw [hcopies]
    simp only [movable]
    omega

theorem inGrid_wideCommand {r : Multicast} {delta : Int} {dim : TiledDim}
    (hdim : t.dims[r.dim]? = some dim) (hcount : 0 ≤ r.count) : t.InGrid (t.wideCommand r delta dim) := by
  have hpos := dim.count_pos
  have hcopies : ((t.wideCommand r delta dim).copies : Int) = r.count := Int.toNat_of_nonneg hcount
  refine inGrid_of_withDim hdim rfl rfl ?_ ?_ ?_
  · intro r' hr'
    cases hr'
    exact ⟨rfl, hcopies⟩
  · simp only
    omega
  · rw [hcopies]
    simp only
    omega

theorem inGrid_of_mem_align {d : Nat} {δ : Int} (hregion : region.spans.length = t.dims.length)
    (h : c ∈ t.align d δ region) : t.InGrid c := by
  rcases mem_align h with ⟨dim, hdim, l, _, hc⟩
  rcases mem_alignLane hc with hc | hc
  · exact (inGrid_lineCommand d l).maskByRegion hregion hc
  · exact (inGrid_tileCommand hdim l).maskByRegion ((length_shift region d _).trans hregion) hc

theorem inGrid_of_mem_alignFrom {skip : Option Nat} {δs : List Int}
    (hregion : region.spans.length = t.dims.length)
    (h : c ∈ (t.alignFrom skip 0 region δs).commands) : t.InGrid c := by
  rcases mem_alignFrom h with ⟨j, δ, before, _, hc, hlen, _⟩
  exact inGrid_of_mem_align (hlen.trans hregion) hc

theorem inGrid_of_mem_moveLegs {gs : List Leg} (hfits : List.Forall₂ Leg.Fits t.dims gs)
    (h : c ∈ t.moveLegs gs) : t.InGrid c := by
  rcases mem_moveLegs h with ⟨δs, hoffsets, hc⟩
  have hroom := room_boxOf hfits hoffsets
  cases hwide : t.wideLeg gs with
  | none =>
      rw [hwide] at hc
      exact inGrid_of_mem_alignFrom hroom.length_eq hc
  | some r =>
      rw [hwide] at hc hroom
      rcases List.mem_append.1 hc with hc | hc
      · exact inGrid_of_mem_alignFrom hroom.length_eq hc
      · rcases wideLeg_spec hwide with ⟨⟨g, hg, _, hcount⟩, htile⟩
        rw [tileSizes, List.getElem?_map, Option.map_eq_some_iff] at htile
        rcases htile with ⟨dim, hdim, _⟩
        have hpos := (fits_at hfits hdim hg).trip_pos
        rw [multicast_eq hdim] at hc
        exact (inGrid_wideCommand hdim (by omega)).maskByRegion (length_alignFrom hroom) hc

/-! ## The command of a computation -/

theorem length_of_axesFit {reuse : Bool} {start unit : Int} {sizes : List Int} {axes : List Axis}
    (h : AffinePattern.axesFit reuse start unit sizes axes = true) : axes.length = sizes.length := by
  induction sizes generalizing unit axes with
  | nil =>
      cases axes with
      | nil => rfl
      | cons a axes => cases h
  | cons s sizes ih =>
      cases axes with
      | nil => cases h
      | cons a axes =>
          rw [AffinePattern.axesFit, Bool.and_eq_true] at h
          rw [List.length_cons, List.length_cons, ih h.2]

theorem length_toBox {p : AffinePattern} {reuse : Bool} (h : p.isSubRegion t.arraySizes reuse = true) :
    (p.toBox t.arraySizes).spans.length = t.dims.length := by
  rw [AffinePattern.isSubRegion, Bool.and_eq_true] at h
  rw [AffinePattern.toBox, List.length_zipWith, AffinePattern.corner, List.length_zipWith,
    canonicalStrides, length_canonicalFrom, Nat.min_self, length_of_axesFit h.2, Nat.min_self,
    length_arraySizes]

theorem inGrid_compute (op : ComputeOp) (reduce : Bool) : t.InGrid
    { kind := .compute op reduce, bitlineMask := Box.full t.tileSizes,
      tileMask := Box.full t.tileCounts } where
  isSync := rfl
  inside := Box.inside_full t.tileCounts
  carries distance hkind := by cases hkind

end Tiling
end StreamEngine
