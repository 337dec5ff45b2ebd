import StreamEngine.Proofs.Affine.Boxes
import StreamEngine.Proofs.DataMove.DenseRouting

/-!
# The parts of a command

A command restricted to a region is handed out in parts, each of which reads a box of bitlines in a box of
tiles. The parts divide the places of the command that lie in the region among them: every part has places
of its own, no two have one in common, and none is left over.

* `Tiling.pointOf` — the coordinates in the array of a place;
* `Tiling.InMasks` — the places in both masks of a command, whatever its stride masks leave of them;
* `maskByRegion_partitions` — the parts of a command, for every region.
-/

namespace StreamEngine

/-- Items of which at most one is meant by anything have nothing in common. -/
theorem pairwise_of_countP_le_one {α β : Type} {P : α → β → Prop} [∀ a b, Decidable (P a b)] {l : List α}
    (h : ∀ b, l.countP (fun a => P a b) ≤ 1) : l.Pairwise fun a a' => ∀ b, P a b → ¬ P a' b := by
  induction l with
  | nil => exact List.Pairwise.nil
  | cons a l ih =>
      refine List.pairwise_cons.2 ⟨fun a' ha' b hb hb' => ?_, ih fun b => ?_⟩
      · have hrest : 0 < l.countP fun a => P a b :=
          List.countP_pos_iff.2 ⟨a', ha', decide_eq_true hb'⟩
        have hall := h b
        rw [List.countP_cons, if_pos (decide_eq_true hb)] at hall
        omega
      · exact Nat.le_trans (List.Sublist.countP_le (List.sublist_cons_self a l)) (h b)

/-- A box with coordinates in every dimension has a point. -/
theorem Box.exists_mem_points {b : Box} (h : b.isEmpty = false) : ∃ p, p ∈ b.points :=
  ⟨b.spans.map Span.lo, List.mem_of_mem_head? (head?_pointsOf (Tiling.lt_of_not_isEmpty h))⟩

namespace Tiling

variable {t : Tiling} {c c' : Command} {region : Box} {p : List Int} {l : Location}

/-! ## Places and their coordinates -/

/-- The coordinates in the array of a place. -/
def pointOf (t : Tiling) (l : Location) : List Int :=
  List.zipWith (· + ·) (List.zipWith (fun dim x => dim.tile * x) t.dims (coordinates t.tileCounts l.tile))
    (coordinates t.tileSizes l.line)

theorem pointOf_placeOf (hp : t.Within p) : t.pointOf (t.placeOf p) = p := by
  have htile := coordinates_linearize (inArray_tilePoint hp)
  have hline := coordinates_linearize (inArray_linePoint hp)
  rw [pointOf, placeOf, htile, hline, tilePoint, linePoint]
  rw [within_iff_forall₂] at hp
  clear htile hline
  generalize t.dims = dims at hp ⊢
  induction hp with
  | nil => rfl
  | @cons dim x dims p _ _ ih =>
      simp only [List.zipWith_cons_cons, ih, Int.mul_ediv_add_emod]

/-- The place lies in a tile of the tile mask, on a bitline of the bitline mask. -/
def InMasks (t : Tiling) (c : Command) (l : Location) : Prop :=
  t.HasPlace l ∧ c.tileMask.contains (coordinates t.tileCounts l.tile) ∧
    c.bitlineMask.contains (coordinates t.tileSizes l.line)

instance (t : Tiling) (c : Command) (l : Location) : Decidable (t.InMasks c l) :=
  inferInstanceAs (Decidable (_ ∧ _))

theorem inMasks_placeOf (hp : t.Within p) : t.InMasks c (t.placeOf p) ↔ t.Covers c p := by
  have htile := coordinates_linearize (inArray_tilePoint hp)
  have hline := coordinates_linearize (inArray_linePoint hp)
  rw [InMasks, Covers, placeOf, htile, hline]
  exact and_iff_right (hasPlace_placeOf hp)

/-- Of the places in its masks a command reads those that its stride masks leave. -/
theorem selects_iff_inMasks : t.Selects c l ↔ t.InMasks c l ∧
    ∀ m ∈ c.strideMasks, (coordinates t.tileSizes l.line).getD m.dim 0 % m.stride = m.modulo := by
  rw [Selects, InMasks, and_assoc, and_assoc]

/-! ## Parts -/

theorem shaped_of_inside (htiles : c.tileMask.Inside t.tileCounts) (hlines : c.bitlineMask.Inside t.tileSizes) :
    t.Shaped c :=
  ⟨htiles.length_eq.trans t.length_tileCounts, hlines.length_eq.trans t.length_tileSizes⟩

/-- A command with tiles and bitlines in the arrays has a place. -/
theorem exists_inMasks (htiles : c.tileMask.Inside t.tileCounts) (hlines : c.bitlineMask.Inside t.tileSizes)
    (htile : c.tileMask.isEmpty = false) (hline : c.bitlineMask.isEmpty = false) : ∃ l, t.InMasks c l := by
  rcases Box.exists_mem_points htile with ⟨a, ha⟩
  rcases Box.exists_mem_points hline with ⟨b, hb⟩
  have ha' : InArray t.tileCounts a := htiles.inArray ha
  have hb' : InArray t.tileSizes b := hlines.inArray hb
  refine ⟨{ tile := linearize a t.tileCounts, line := linearize b t.tileSizes }, ⟨?_, ?_⟩, ?_, ?_⟩
  · exact linearize_bounds ha'
  · exact linearize_bounds hb'
  · rw [coordinates_linearize ha']
    exact (Box.mem_points_iff_contains.1 ha).2
  · rw [coordinates_linearize hb']
    exact (Box.mem_points_iff_contains.1 hb).2

/-- Every part has a place. -/
theorem exists_inMasks_of_mem (htiles : c.tileMask.Inside t.tileCounts)
    (hlines : c.bitlineMask.Inside t.tileSizes) (hregion : region.spans.length = t.dims.length)
    (hc' : c' ∈ t.maskByRegion c region) : ∃ l, t.InMasks c' l := by
  rcases mem_maskByRegion_iff.1 hc' with ⟨_, qs, hqs, rfl, htile, hline⟩
  have hlen := length_of_mem_choices hregion hqs
  refine exists_inMasks (htiles.intersect ?_) (hlines.intersect ?_) htile hline
  · rw [List.length_map, hlen, length_tileCounts]
  · rw [List.length_map, hlen, length_tileSizes]

/-- Just one part has a place of the command that lies in the region. -/
theorem countP_inMasks (hc : t.Shaped c) (hregion : region.spans.length = t.dims.length) (l : Location) :
    (t.maskByRegion c region).countP (fun c' => t.InMasks c' l) =
      if t.InMasks c l ∧ region.contains (t.pointOf l) = true then 1 else 0 := by
  by_cases hplace : t.HasPlace l
  · rcases exists_point hplace with ⟨p, hp, rfl⟩
    simp only [inMasks_placeOf hp, pointOf_placeOf hp]
    exact countP_maskByRegion hc hregion hp
  · -- nothing reads what is no place
    rw [if_neg fun h => hplace h.1.1, List.countP_eq_zero]
    intro c' _ h
    exact hplace (of_decide_eq_true h).1

/-- Take a command whose masks are boxes in the grid of tiles and in a tile, and any region. Every part of the
command has a place and differs from it in its masks only; no place is of two parts; and the places of the
parts are those of the command that lie in the region. They read those of the places that the command reads. -/
theorem maskByRegion_partitions (htiles : c.tileMask.Inside t.tileCounts)
    (hlines : c.bitlineMask.Inside t.tileSizes) (hregion : region.spans.length = t.dims.length) :
    (∀ c' ∈ t.maskByRegion c region, (∃ l, t.InMasks c' l) ∧
      c' = { c with tileMask := c'.tileMask, bitlineMask := c'.bitlineMask }) ∧
    ((t.maskByRegion c region).Pairwise fun a b => ∀ l, t.InMasks a l → ¬ t.InMasks b l) ∧
    ∀ l, ((∃ c' ∈ t.maskByRegion c region, t.InMasks c' l) ↔
        t.InMasks c l ∧ region.contains (t.pointOf l) = true) ∧
      ((∃ c' ∈ t.maskByRegion c region, t.Selects c' l) ↔
        t.Selects c l ∧ region.contains (t.pointOf l) = true) := by
  have hcount := countP_inMasks (shaped_of_inside htiles hlines) hregion
  have hmasks : ∀ c' ∈ t.maskByRegion c region,
      c' = { c with tileMask := c'.tileMask, bitlineMask := c'.bitlineMask } := by
    intro c' hc'
    rcases mem_maskByRegion hc' with ⟨pieces, rfl⟩
    rfl
  have hplaces : ∀ l, (∃ c' ∈ t.maskByRegion c region, t.InMasks c' l) ↔
      t.InMasks c l ∧ region.contains (t.pointOf l) = true := by
    intro l
    have hpos := List.countP_pos_iff (l := t.maskByRegion c region) (p := fun c' => t.InMasks c' l)
    simp only [decide_eq_true_eq] at hpos
    rw [← hpos, hcount l]
    split
    · exact iff_of_true Nat.one_pos ‹_›
    · exact iff_of_false (Nat.lt_irrefl 0) ‹_›
  refine ⟨fun c' hc' => ⟨exists_inMasks_of_mem htiles hlines hregion hc', hmasks c' hc'⟩, ?_, ?_⟩
  · refine pairwise_of_countP_le_one fun l => ?_
    rw [hcount l]
    split <;> omega
  · intro l
    refine ⟨hplaces l, ?_⟩
    -- the parts have the stride masks of the command
    have hstrides : ∀ c' ∈ t.maskByRegion c region, c'.strideMasks = c.strideMasks := by
      intro c' hc'
      rw [hmasks c' hc']
    simp only [selects_iff_inMasks]
    rw [and_right_comm, ← hplaces l]
    constructor
    · rintro ⟨c', hc', hin, hmask⟩
      exact ⟨⟨c', hc', hin⟩, hstrides c' hc' ▸ hmask⟩
    · rintro ⟨⟨c', hc', hin⟩, hmask⟩
      exact ⟨c', hc', hin, (hstrides c' hc').symm ▸ hmask⟩

/-! ## A region that reaches outside -/

/-- Bitlines to be read in the last two columns of tiles of the array of six columns and four rows. -/
def lastTiles : Command :=
  { kind := .intraArray 1, bitlineMask := { spans := [⟨0, 2⟩, ⟨0, 1⟩] },
    tileMask := { spans := [⟨1, 3⟩, ⟨0, 4⟩] } }

/-- A region that begins in the middle of a tile and goes beyond the last column and row. -/
def beyondEdges : Box :=
  { spans := [⟨3, 9⟩, ⟨2, 7⟩] }

/-- Of this region the command reads a half of the tiles of one column and all of the next. -/
theorem maskByRegion_partitions_beyond :
    (sixByFour.maskByRegion lastTiles beyondEdges).length = 2 ∧
    ((sixByFour.maskByRegion lastTiles beyondEdges).Pairwise fun a b =>
      ∀ l, sixByFour.InMasks a l → ¬ sixByFour.InMasks b l) ∧
    ∃ c' ∈ sixByFour.maskByRegion lastTiles beyondEdges, sixByFour.InMasks c' { tile := 7, line := 1 } := by
  have htiles : lastTiles.tileMask.Inside sixByFour.tileCounts := by
    refine List.Forall₂.cons ?_ (List.Forall₂.cons ?_ List.Forall₂.nil)
    · decide
    · decide
  have hlines : lastTiles.bitlineMask.Inside sixByFour.tileSizes := by
    refine List.Forall₂.cons ?_ (List.Forall₂.cons ?_ List.Forall₂.nil)
    · decide
    · decide
  have hregion : beyondEdges.spans.length = sixByFour.dims.length := rfl
  have hparts := maskByRegion_partitions htiles hlines hregion
  exact ⟨by decide, hparts.2.1, (hparts.2.2 _).1.2 (by decide)⟩

end Tiling
end StreamEngine
