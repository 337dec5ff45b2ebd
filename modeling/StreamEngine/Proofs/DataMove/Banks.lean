import Mathlib.Data.List.Induction
import StreamEngine.Proofs.DataMove.Grids

/-!
# The tiles and the moves of each bank

A command is divided by banks: each bank that has tiles of the command lists them, in the order in which
they were numbered, with the moves that start from them.

* `Grouped`, `grouped_addTile`, `grouped_foldl` : tiles by bank, kept by every tile that is added;
* `indexWord_linearize`, `HasTile.moveTile_eq` : words are the numbers of tiles inside the grid;
* `Mapped` : what the division of a command is;
* `compiled_mapped` : every command that is compiled for a tiling that fits its hardware is divided so.
-/

namespace StreamEngine

/-- The array of a bank below the number of banks. -/
theorem Hardware.bankOf_lt {h : Hardware} {array : Nat} (harray : array < h.totalArrays) :
    h.bankOf array < h.banks := by
  rw [totalArrays, arraysPerBank] at harray
  rw [bankOf, locate]
  simp only
  rw [Nat.div_div_eq_div_mul]
  exact Nat.div_lt_of_lt_mul harray

namespace Tiling

/-! ## Tiles by bank -/

section Groups

variable {bank : Nat → Nat} {moves : Nat → List TileMove} {tiles : List Nat} {splits : List BankSplit}
variable {b tile : Nat} {ms : List TileMove} {s : BankSplit}

/-- A part that has a tile more: a new one, or one of its bank to which the tile was added. -/
theorem mem_addTile (h : s ∈ addTile b tile ms splits) :
    s ∈ splits ∨ s = { bank := b, tiles := [tile], moves := ms } ∨
      ∃ s' ∈ splits, s'.bank = b ∧
        s = { s' with tiles := s'.tiles ++ [tile], moves := s'.moves ++ ms } := by
  induction splits with
  | nil => exact Or.inr (Or.inl (List.mem_singleton.1 h))
  | cons first rest ih =>
      rw [addTile] at h
      split at h
      · rcases List.mem_cons.1 h with rfl | h
        · exact Or.inr (Or.inl rfl)
        · exact Or.inl h
      · split at h
        · rename_i heq
          rcases List.mem_cons.1 h with rfl | h
          · exact Or.inr (Or.inr ⟨first, List.mem_cons_self, heq.symm, rfl⟩)
          · exact Or.inl (List.mem_cons_of_mem first h)
        · rcases List.mem_cons.1 h with rfl | h
          · exact Or.inl List.mem_cons_self
          · rcases ih h with h | h | ⟨s', hs', h⟩
            · exact Or.inl (List.mem_cons_of_mem first h)
            · exact Or.inr (Or.inl h)
            · exact Or.inr (Or.inr ⟨s', List.mem_cons_of_mem first hs', h⟩)

/-- The banks after a tile was added are those before and its own. -/
theorem bank_of_mem_addTile (h : s ∈ addTile b tile ms splits) :
    s.bank = b ∨ ∃ s' ∈ splits, s.bank = s'.bank := by
  rcases mem_addTile h with h | rfl | ⟨s', _, rfl, rfl⟩
  · exact Or.inr ⟨s, h, rfl⟩
  · exact Or.inl rfl
  · exact Or.inl rfl

theorem pairwise_addTile (h : splits.Pairwise fun s s' => s.bank < s'.bank) :
    (addTile b tile ms splits).Pairwise fun s s' => s.bank < s'.bank := by
  induction splits with
  | nil => exact List.pairwise_singleton _ _
  | cons first rest ih =>
      have hrest := (List.pairwise_cons.1 h).2
      have hfirst := (List.pairwise_cons.1 h).1
      rw [addTile]
      split
      · rename_i hlt
        refine List.pairwise_cons.2 ⟨fun s hs => ?_, h⟩
        rcases List.mem_cons.1 hs with rfl | hs
        · exact hlt
        · exact hlt.trans (hfirst s hs)
      · split
        · exact List.pairwise_cons.2 ⟨hfirst, hrest⟩
        · refine List.pairwise_cons.2 ⟨fun s hs => ?_, ih hrest⟩
          rcases bank_of_mem_addTile hs with hbank | ⟨s', hs', hbank⟩
          · omega
          · have hs' := hfirst s' hs'
            omega

theorem perm_addTile (b tile : Nat) (ms : List TileMove) (splits : List BankSplit) :
    ((addTile b tile ms splits).flatMap BankSplit.tiles).Perm
      (splits.flatMap BankSplit.tiles ++ [tile]) := by
  induction splits with
  | nil => exact List.Perm.refl [tile]
  | cons first rest ih =>
      rw [addTile]
      split
      · exact (List.perm_append_singleton tile _).symm
      · split
        · simp only [List.flatMap_cons, List.append_assoc]
          exact List.Perm.append_left first.tiles List.perm_append_comm
        · simp only [List.flatMap_cons, List.append_assoc]
          exact ih.append_left first.tiles

/-- Tiles in the order of their banks: every bank lists its tiles, each of them once, and their moves. -/
structure Grouped (bank : Nat → Nat) (moves : Nat → List TileMove) (tiles : List Nat)
    (splits : List BankSplit) : Prop where
  increasing : splits.Pairwise fun s s' => s.bank < s'.bank
  perm : (splits.flatMap BankSplit.tiles).Perm tiles
  part : ∀ s ∈ splits, s.tiles ≠ [] ∧ (∀ tile ∈ s.tiles, bank tile = s.bank) ∧
    s.moves = s.tiles.flatMap moves

theorem grouped_addTile (h : Grouped bank moves tiles splits) (tile : Nat) :
    Grouped bank moves (tiles ++ [tile]) (addTile (bank tile) tile (moves tile) splits) where
  increasing := pairwise_addTile h.increasing
  perm := (perm_addTile _ tile _ splits).trans (h.perm.append_right [tile])
  part s hs := by
    rcases mem_addTile hs with hs | rfl | ⟨s', hs', hbank, rfl⟩
    · exact h.part s hs
    · simp
    · rcases h.part s' hs' with ⟨_, hbanks, hmoves⟩
      refine ⟨by simp, fun tile' htile' => ?_, by simp [hmoves]⟩
      rcases List.mem_append.1 htile' with htile' | htile'
      · exact hbanks tile' htile'
      · rw [List.mem_singleton.1 htile']
        exact hbank.symm

/-- Adding tiles one by one groups them. -/
theorem grouped_foldl (bank : Nat → Nat) (moves : Nat → List TileMove) (tiles : List Nat) :
    Grouped bank moves tiles
      (tiles.foldl (fun splits tile => addTile (bank tile) tile (moves tile) splits) []) := by
  induction tiles using List.reverseRecOn with
  | nil => exact ⟨List.Pairwise.nil, List.Perm.refl [], fun s hs => by cases hs⟩
  | append_singleton tiles tile ih =>
      rw [List.foldl_append]
      exact grouped_addTile ih tile

end Groups

/-! ## Numbers of tiles -/

variable {t : Tiling} {c : Command} {p : List Int}

theorem indexWord_of_lt {i : Int} (h0 : 0 ≤ i) (h1 : i < 2 ^ 64) : indexWord i = i.toNat := by
  rw [indexWord, Int.emod_eq_of_lt h0 h1]

/-- The number of a tile inside the grid is its linear index. -/
theorem indexWord_linearize (hwords : t.tileCounts.prod ≤ 2 ^ 64) (hp : InArray t.tileCounts p) :
    indexWord (linearize p t.tileCounts) = (linearize p t.tileCounts).toNat := by
  have hbounds := linearize_bounds hp
  exact indexWord_of_lt hbounds.1 (by omega)

/-- The place a number of tiles along a dimension from a tile. -/
def landing (t : Tiling) (tile d : Nat) (δ : Int) : List Int :=
  (coordinates t.tileCounts tile).modify d (· + δ)

/-- The move of a tile of a bank to the tile at a point. -/
def moveTo (t : Tiling) (bank tile : Nat) (p : List Int) : TileMove :=
  let target := (linearize p t.tileCounts).toNat
  let goal := (t.hardware.locate target).bank
  { source := tile, target, bank := goal, network := goal != bank }

/-- What the division of a command by banks is. The tiles of the mask are in the grid, and each is in the
list of its bank. Tiles that move between arrays have one move for each copy, to a place in the grid that
differs from theirs in one coordinate. -/
structure Mapped (t : Tiling) (c : Command) : Prop where
  inside : ∀ p ∈ c.tileMask.points, InArray t.tileCounts p
  perm : (c.bankSplits.flatMap BankSplit.tiles).Perm
    (c.tileMask.points.map fun p => (linearize p t.tileCounts).toNat)
  nodup : (c.bankSplits.flatMap BankSplit.tiles).Nodup
  increasing : c.bankSplits.Pairwise fun s s' => s.bank < s'.bank
  part : ∀ s ∈ c.bankSplits, s.tiles ≠ [] ∧ s.bank < t.hardware.banks ∧
    ∀ tile ∈ s.tiles, (t.hardware.locate tile).bank = s.bank
  still : (∀ distance, c.kind ≠ .interArray distance) → ∀ s ∈ c.bankSplits, s.moves = []
  moves : ∀ distance, c.kind = .interArray distance →
    ∃ d shift, d < t.dims.length ∧ distance = shift * t.tileStride d ∧
      (∀ r ∈ c.reuse, r.dim = d ∧ (c.copies : Int) = r.count) ∧
      ∀ s ∈ c.bankSplits,
        (∀ tile ∈ s.tiles, ∀ j < c.copies, InArray t.tileCounts (t.landing tile d (shift + (j : Nat)))) ∧
        s.moves = s.tiles.flatMap fun tile =>
          (List.range c.copies).map fun j => t.moveTo s.bank tile (t.landing tile d (shift + (j : Nat)))

theorem distances_eq {distance shift : Int} {d : Nat} (h : t.Carries c distance d shift) :
    t.distances distance c.reuse =
      (List.range c.copies).map fun j => (shift + (j : Nat)) * t.tileStride d := by
  cases hreuse : c.reuse with
  | none =>
      have hcopies : c.copies = 1 := by rw [Command.copies, hreuse]
      rw [distances, hcopies, h.distance_eq]
      simp
  | some r =>
      have hcopies : c.copies = r.count.toNat := by rw [Command.copies, hreuse]
      have hdim := (h.reuse r hreuse).1
      rw [distances, hcopies, h.distance_eq, hdim]
      refine List.map_congr_left fun j _ => ?_
      rw [Int.add_mul]

/-! ## Commands inside the grid -/

/-- The tile with this number is one of the command, and the number is its linear index. -/
def HasTile (t : Tiling) (c : Command) (tile : Nat) : Prop :=
  ∃ p ∈ c.tileMask.points, InArray t.tileCounts p ∧ (tile : Int) = linearize p t.tileCounts

theorem landing_eq {tile d : Nat} {δ : Int} (hp : InArray t.tileCounts p)
    (hnumber : (tile : Int) = linearize p t.tileCounts) : t.landing tile d δ = p.modify d (· + δ) := by
  rw [landing, hnumber, coordinates_linearize hp]

theorem HasTile.inArray_landing {tile d j : Nat} {distance shift : Int} (h : t.HasTile c tile)
    (hinside : c.tileMask.Inside t.tileCounts) (hcarries : t.Carries c distance d shift)
    (hj : j < c.copies) : InArray t.tileCounts (t.landing tile d (shift + j)) := by
  rcases h with ⟨p, hp, hin, hnumber⟩
  rw [landing_eq hin hnumber]
  exact hcarries.inArray hinside hp hj

section Words

variable (hwords : t.tileCounts.prod ≤ 2 ^ 64)
include hwords

/-- A step along one dimension of the grid. -/
theorem HasTile.moveTile_eq {tile d : Nat} {δ : Int} (h : t.HasTile c tile) (hd : d < t.dims.length)
    (hlands : InArray t.tileCounts (t.landing tile d δ)) :
    t.moveTile tile (δ * t.tileStride d) =
      t.moveTo (t.hardware.bankOf tile) tile (t.landing tile d δ) := by
  rcases h with ⟨p, _, hin, hnumber⟩
  have htarget : (tile : Int) + δ * t.tileStride d = linearize (t.landing tile d δ) t.tileCounts := by
    have hlt : d < p.length := by
      rw [hin.length_eq, length_tileCounts]
      exact hd
    rw [landing_eq hin hnumber, linearize_modify hin.length_eq d hlt, hnumber, tileStride]
  rw [moveTile, htarget, indexWord_linearize hwords hlands]
  rfl

theorem HasTile.movesOf_eq {tile d : Nat} {distance shift : Int} (h : t.HasTile c tile)
    (hgrid : t.InGrid c) (hkind : c.kind = .interArray distance) (hcarries : t.Carries c distance d shift) :
    t.movesOf c tile = (List.range c.copies).map fun j =>
      t.moveTo (t.hardware.bankOf tile) tile (t.landing tile d (shift + (j : Nat))) := by
  have hmoves : t.movesOf c tile = (t.distances distance c.reuse).map (t.moveTile tile) := by
    rw [movesOf, hkind]
  rw [hmoves, distances_eq hcarries, List.map_map]
  refine List.map_congr_left fun j hj => ?_
  exact h.moveTile_eq hwords hcarries.lt (h.inArray_landing hgrid.inside hcarries (List.mem_range.1 hj))

theorem grouped_bankSplits (h : t.InGrid c) :
    Grouped t.hardware.bankOf (t.movesOf c)
      (c.tileMask.points.map fun p => (linearize p t.tileCounts).toNat) (t.bankSplits c) := by
  have hnumbers : c.tileMask.points.map t.tileNumber =
      c.tileMask.points.map fun p => (linearize p t.tileCounts).toNat :=
    List.map_congr_left fun p hp => indexWord_linearize hwords (h.inside.inArray hp)
  rw [bankSplits, hnumbers]
  exact grouped_foldl _ _ _

theorem hasTile_of_mem_bankSplits (h : t.InGrid c) {s : BankSplit} (hs : s ∈ t.bankSplits c) {tile : Nat}
    (htile : tile ∈ s.tiles) : t.HasTile c tile := by
  have hmem := (grouped_bankSplits hwords h).perm.subset (List.mem_flatMap.2 ⟨s, hs, htile⟩)
  rcases List.mem_map.1 hmem with ⟨p, hp, rfl⟩
  have hin := h.inside.inArray hp
  exact ⟨p, hp, hin, Int.toNat_of_nonneg (linearize_bounds hin).1⟩

end Words

/-- Points of the grid with one number are one point. -/
theorem nodup_numbers (h : c.tileMask.Inside t.tileCounts) :
    (c.tileMask.points.map fun p => (linearize p t.tileCounts).toNat).Nodup := by
  refine c.tileMask.nodup_points.map_on fun p hp q hq heq => ?_
  have hp0 := (linearize_bounds (h.inArray hp)).1
  have hq0 := (linearize_bounds (h.inArray hq)).1
  exact linearize_injective (h.inArray hp) (h.inArray hq) (by omega)

section Fits

variable (hfit : t.tileCounts.prod ≤ t.hardware.totalArrays) (hwords : t.tileCounts.prod ≤ 2 ^ 64)
include hfit hwords

theorem mapped_mapToBanks (h : t.InGrid c) : t.Mapped (t.mapToBanks c) := by
  have hgrouped := grouped_bankSplits hwords h
  have hcommand : t.mapToBanks c = { c with bankSplits := t.bankSplits c } := by
    rw [mapToBanks, h.isSync]
    rfl
  rw [hcommand]
  refine ⟨fun p hp => h.inside.inArray hp, hgrouped.perm, hgrouped.perm.nodup_iff.2 (nodup_numbers h.inside),
    hgrouped.increasing, fun s hs => ?_, fun hkind s hs => ?_, fun distance hkind => ?_⟩
  · rcases hgrouped.part s hs with ⟨hne, hbank, _⟩
    refine ⟨hne, ?_, hbank⟩
    rcases List.exists_mem_of_ne_nil _ hne with ⟨tile, htile⟩
    rcases hasTile_of_mem_bankSplits hwords h hs htile with ⟨p, _, hin, hnumber⟩
    have hbounds := linearize_bounds hin
    rw [← hbank tile htile]
    exact Hardware.bankOf_lt (by omega)
  · rw [(hgrouped.part s hs).2.2, List.flatMap_eq_nil_iff]
    intro tile _
    rw [movesOf]
    split
    · rename_i distance hinter
      exact absurd hinter (hkind distance)
    · rfl
  · rcases h.carries distance hkind with ⟨d, shift, hcarries⟩
    refine ⟨d, shift, hcarries.lt, hcarries.distance_eq, hcarries.reuse, fun s hs => ⟨?_, ?_⟩⟩
    · intro tile htile j hj
      exact (hasTile_of_mem_bankSplits hwords h hs htile).inArray_landing h.inside hcarries hj
    · rcases hgrouped.part s hs with ⟨_, hbank, hmoves⟩
      rw [hmoves]
      refine List.flatMap_congr fun tile htile => ?_
      rw [(hasTile_of_mem_bankSplits hwords h hs htile).movesOf_eq hwords h hkind hcarries, hbank tile htile]
      rfl

/-! ## Commands that are compiled -/

theorem mapped_of_mem_finish {masks : List StrideMask} {cs : List Command}
    (hcs : ∀ c ∈ cs, t.InGrid c) (h : c ∈ t.finish masks cs) : t.Mapped c := by
  rcases List.mem_map.1 (List.mem_filter.1 h).1 with ⟨c₀, hc₀, rfl⟩
  have hgrid := hcs c₀ hc₀
  exact mapped_mapToBanks hfit hwords ⟨hgrid.isSync, hgrid.inside, fun distance hkind => by
    rcases hgrid.carries distance hkind with ⟨d, shift, hcarries⟩
    exact ⟨d, shift, hcarries.lt, hcarries.distance_eq, hcarries.reuse, hcarries.stays⟩⟩

end Fits

theorem inGrid_of_compileMove {source target : AffinePattern} {cs : List Command}
    (h : t.compileMove source target = .ok cs) :
    ∃ masks cs₀, cs = t.finish masks cs₀ ∧ ∀ c ∈ cs₀, t.InGrid c := by
  rcases planned_of_compileMove h with ⟨s, _, hstart, hplan, _, _, hcs⟩
  rw [moveDense_eq hstart hplan] at hcs
  exact ⟨s.masks, _, hcs, fun c hc => inGrid_of_mem_moveLegs hplan.fits_legs hc⟩

theorem inGrid_of_compileCompute {op : ComputeOp} {region : AffinePattern} {reduce : Bool}
    {cs : List Command} (h : t.compileCompute op region reduce = .ok cs) :
    ∃ masks cs₀, cs = t.finish masks cs₀ ∧ ∀ c ∈ cs₀, t.InGrid c := by
  rcases bind_eq_ok.1 h with ⟨_, _, h⟩
  rcases bind_eq_ok.1 h with ⟨r, _, h⟩
  rcases bind_eq_ok.1 h with ⟨_, hsub, h⟩
  cases h
  have hlen := length_toBox (isSubRegion_of_check hsub)
  exact ⟨r.masks, _, rfl, fun c hc => (inGrid_compute op reduce).maskByRegion hlen hc⟩

/-- A tiling that was accepted has an array for each of its tiles. -/
theorem prod_le_of_ofSizes {hardware : Hardware} {sizes tiles : List Int}
    (h : ofSizes hardware sizes tiles = .ok t) : t.tileCounts.prod ≤ t.hardware.totalArrays := by
  unfold ofSizes at h
  split at h
  · cases h
  · split at h
    · rename_i t' hfit
      cases h
      rcases bind_eq_ok.1 hfit with ⟨dims, _, hfit⟩
      simp only [fit] at hfit
      split at hfit
      · cases hfit
      · split at hfit
        · cases hfit
        · rename_i hroom
          cases hfit
          exact Int.not_lt.1 hroom
    · cases h

/-- Every command that is compiled for a tiling lists the tiles of each bank, and moves them inside the
grid of tiles. Tiles are numbered by words, so there are at most `2 ^ 64` of them. -/
theorem compiled_mapped {hardware : Hardware} {sizes tiles : List Int} {fitted : Tiling}
    (hfitted : ofSizes hardware sizes tiles = .ok fitted) (hwords : fitted.tileCounts.prod ≤ 2 ^ 64)
    (bits : Nat) :
    let t := { fitted with wordlineBits := bits }
    (∀ source target cs, t.compileMove source target = .ok cs → ∀ c ∈ cs, t.Mapped c) ∧
      ∀ op region reduce cs, t.compileCompute op region reduce = .ok cs → ∀ c ∈ cs, t.Mapped c := by
  intro t
  have hfit : t.tileCounts.prod ≤ t.hardware.totalArrays :=
    prod_le_of_ofSizes (t := fitted) hfitted
  constructor
  · intro source target cs h c hc
    rcases inGrid_of_compileMove h with ⟨masks, cs₀, rfl, hgrid⟩
    exact mapped_of_mem_finish hfit hwords hgrid hc
  · intro op region reduce cs h c hc
    rcases inGrid_of_compileCompute h with ⟨masks, cs₀, rfl, hgrid⟩
    exact mapped_of_mem_finish hfit hwords hgrid hc

/-- Three banks of four arrays each. -/
def threeBanks : Hardware :=
  { wordlines := 16, bitlines := 4, arraysPerWay := 2, waysPerBank := 2, meshRows := 1, meshCols := 3 }

/-- Four elements of the first row are copied to the three rows below, two of their tiles to other banks. -/
theorem compiled_mapped_rows :
    ∃ fitted cs, ofSizes threeBanks [6, 4] [2, 1] = .ok fitted ∧ fitted.tileCounts.prod ≤ 2 ^ 64 ∧
      ({ fitted with wordlineBits := 16 } : Tiling).compileMove
        { start := 1, axes := [⟨1, 4⟩, ⟨0, 3⟩] } { start := 8, axes := [⟨1, 4⟩, ⟨6, 3⟩] } = .ok cs ∧
      cs.map Command.isInterBank = [false, false, false, false, false, true] ∧
      ∀ c ∈ cs, ({ fitted with wordlineBits := 16 } : Tiling).Mapped c := by
  have hfitted : ofSizes threeBanks [6, 4] [2, 1] = .ok _ := rfl
  have hcompiled := (compiled_mapped hfitted (by decide) 16).1
    { start := 1, axes := [⟨1, 4⟩, ⟨0, 3⟩] } { start := 8, axes := [⟨1, 4⟩, ⟨6, 3⟩] } _ rfl
  exact ⟨_, _, hfitted, by decide, rfl, by decide, hcompiled⟩

end Tiling
end StreamEngine
