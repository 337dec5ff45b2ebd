import StreamEngine.Proofs.DataMove.Tokens

/-!
# What masked commands read

`Tiling.maskByRegion` cuts a command into parts, one for each choice of a piece in every dimension. This
file shows that the parts together read the points of the region that the command reads, and no others:

* `countP_piecesOf` — the pieces of a span cover its coordinates, each coordinate once;
* `countP_maskByRegion`, `exists_covers_maskByRegion` — what the parts of a command read;
* `mem_drive_maskByRegion`, `readsTokens_maskByRegion` — what the parts of a command do to tokens.
-/

namespace StreamEngine
namespace Tiling

variable {t : Tiling}

/-! ## Pieces of a span -/

theorem contains_iff {s : Span} {x : Int} : s.contains x = true ↔ s.lo ≤ x ∧ x < s.hi := by
  simp [Span.contains]

/-- The coordinate lies in a tile of the piece, on one of its bitlines. -/
def Piece.Covers (tile : Int) (q : Piece) (x : Int) : Prop :=
  q.tiles.contains (x / tile) ∧ q.lines.contains (x % tile)

instance (tile : Int) (q : Piece) (x : Int) : Decidable (q.Covers tile x) :=
  inferInstanceAs (Decidable (_ ∧ _))

/-- Joining pieces does not change how many of them cover a coordinate. -/
theorem countP_joinFrom {tile : Int} (x : Int) (p : Piece) (ps : List Piece)
    (hp : p.tiles.lo ≤ p.tiles.hi) (hps : ∀ q ∈ ps, q.tiles.lo ≤ q.tiles.hi) :
    (joinFrom tile p ps).countP (fun q => q.Covers tile x) =
      (p :: ps).countP fun q => q.Covers tile x := by
  induction ps generalizing p with
  | nil => rfl
  | cons q ps ih =>
      have hq : q.tiles.lo ≤ q.tiles.hi := hps q (by simp)
      have hrest : ∀ r ∈ ps, r.tiles.lo ≤ r.tiles.hi := fun r hr => hps r (by simp [hr])
      by_cases hjoin : joins tile p q = true
      · simp only [joins, Bool.and_eq_true, beq_iff_eq] at hjoin
        rcases hjoin with ⟨⟨hplines, hqlines⟩, hnext⟩
        have hjoined : joins tile p q = true := by simp [joins, hplines, hqlines, hnext]
        -- both pieces have whole tiles, so only the ranges of their tiles are put together
        have hunion : (({ p with tiles := { p.tiles with hi := q.tiles.hi } } : Piece).Covers tile x) ↔
            p.Covers tile x ∨ q.Covers tile x := by
          simp only [Piece.Covers, contains_iff, hplines, hqlines]
          omega
        have hapart : p.Covers tile x → ¬ q.Covers tile x := by
          simp only [Piece.Covers, contains_iff]
          omega
        have hwide : ({ p.tiles with hi := q.tiles.hi } : Span).lo ≤ q.tiles.hi := by
          simp only
          omega
        have htail := ih { p with tiles := { p.tiles with hi := q.tiles.hi } } hwide hrest
        simp only [joinFrom, if_pos hjoined, htail, List.countP_cons, hunion, decide_eq_true_eq]
        by_cases hcover : p.Covers tile x
        · simp [hcover, hapart hcover]
        · simp [hcover]
      · have htail := ih q hq hrest
        simp only [joinFrom, if_neg hjoin, List.countP_cons, htail]

/-- Coordinates are ordered by their tiles, and inside a tile by their bitlines. -/
theorem lt_iff_tile_line {tile : Int} (htile : 0 < tile) (x y : Int) :
    x < y ↔ x / tile < y / tile ∨ x / tile = y / tile ∧ x % tile < y % tile := by
  have hx := Int.emod_add_mul_ediv x tile
  have hy := Int.emod_add_mul_ediv y tile
  have hx0 := Int.emod_nonneg x (by omega : tile ≠ 0)
  have hx1 := Int.emod_lt_of_pos x htile
  have hy0 := Int.emod_nonneg y (by omega : tile ≠ 0)
  have hy1 := Int.emod_lt_of_pos y htile
  have hstep : ∀ a b : Int, a < b → tile * a + tile ≤ tile * b := by
    intro a b hab
    have h : tile * (a + 1) ≤ tile * b := Int.mul_le_mul_of_nonneg_left (by omega) htile.le
    rwa [Int.mul_add, Int.mul_one] at h
  rcases Int.lt_trichotomy (x / tile) (y / tile) with h | h | h
  · have := hstep _ _ h
    omega
  · rw [h] at hx
    omega
  · have := hstep _ _ h
    omega

/-- Of the pieces of a span just one covers a coordinate in it, and none covers any other. -/
theorem countP_piecesOf {tile : Int} (htile : 0 < tile) {s : Span} (hs : s.lo < s.hi) (x : Int) :
    (piecesOf tile s).countP (fun q => q.Covers tile x) = if s.contains x then 1 else 0 := by
  have hx0 := Int.emod_nonneg x (by omega : tile ≠ 0)
  have hx1 := Int.emod_lt_of_pos x htile
  have hlo1 := Int.emod_lt_of_pos s.lo htile
  have hhi0 := Int.emod_nonneg (s.hi - 1) (by omega : tile ≠ 0)
  have hfirst : s.lo - s.lo / tile * tile = s.lo % tile := by
    rw [Int.emod_def, Int.mul_comm]
  have hlast : s.hi - (s.hi - 1) / tile * tile = (s.hi - 1) % tile + 1 := by
    rw [Int.emod_def, Int.mul_comm]
    omega
  have hmono : s.lo / tile ≤ (s.hi - 1) / tile := Int.ediv_le_ediv htile (by omega)
  have hbelow := lt_iff_tile_line htile x s.lo
  have habove := lt_iff_tile_line htile (s.hi - 1) x
  simp only [piecesOf, hfirst, hlast]
  -- with tiles and bitlines as numbers of their own, every case is linear
  generalize s.lo / tile = first at *
  generalize (s.hi - 1) / tile = last at *
  by_cases hone : first = last
  · subst hone
    simp only [if_true, List.countP_singleton, Piece.Covers, contains_iff, decide_eq_true_eq]
    refine if_congr ?_ rfl rfl
    omega
  · rw [if_neg hone, countP_joinFrom]
    · by_cases hwhole : first + 1 < last
      · simp only [if_pos hwhole, List.singleton_append, List.countP_cons, List.countP_nil,
          Piece.Covers, contains_iff, decide_eq_true_eq]
        split_ifs <;> omega
      · simp only [if_neg hwhole, List.nil_append, List.countP_cons, List.countP_nil,
          Piece.Covers, contains_iff, decide_eq_true_eq]
        split_ifs <;> omega
    · simp only
      omega
    · intro q hq
      by_cases hwhole : first + 1 < last
      · simp only [if_pos hwhole, List.singleton_append, List.mem_cons, List.not_mem_nil,
          or_false] at hq
        rcases hq with rfl | rfl
        · simp only
          omega
        · simp only
          omega
      · simp only [if_neg hwhole, List.nil_append, List.mem_singleton] at hq
        subst hq
        simp only
        omega

/-! ## Boxes and points -/

/-- What lying in a box says of each dimension. -/
theorem box_contains_iff {b : Box} {p : List Int} :
    b.contains p = true ↔ ∀ (e : Nat) (s : Span) (x : Int), b.spans[e]? = some s →
      p[e]? = some x → s.lo ≤ x ∧ x < s.hi := by
  rcases b with ⟨spans⟩
  simp only [Box.contains]
  induction spans generalizing p with
  | nil => simp
  | cons s spans ih =>
      cases p with
      | nil => simp
      | cons x p =>
          simp only [List.zip_cons_cons, List.all_cons, Bool.and_eq_true, ih, contains_iff]
          constructor
          · rintro ⟨hx, hrest⟩ e
            cases e with
            | zero =>
                intro s' x' hs' hx'
                simp only [List.getElem?_cons_zero, Option.some.injEq] at hs' hx'
                rw [← hs', ← hx']
                exact hx
            | succ e => simpa using hrest e
          · intro h
            exact ⟨h 0 s x rfl rfl, fun e => by simpa using h (e + 1)⟩

theorem box_contains_cons {s : Span} {spans : List Span} {x : Int} {p : List Int} :
    Box.contains { spans := s :: spans } (x :: p) = true ↔
      s.contains x = true ∧ Box.contains { spans } p = true := by
  simp [Box.contains]

theorem box_contains_intersect {a b : Box} {p : List Int} (hlen : a.spans.length = b.spans.length) :
    (a.intersect b).contains p = true ↔ a.contains p = true ∧ b.contains p = true := by
  rcases a with ⟨as⟩
  rcases b with ⟨bs⟩
  simp only [Box.contains, Box.intersect] at hlen ⊢
  induction as generalizing bs p with
  | nil =>
      have hbs : bs = [] := List.length_eq_zero_iff.1 hlen.symm
      simp [hbs]
  | cons s as ih =>
      cases bs with
      | nil => simp at hlen
      | cons u bs =>
          cases p with
          | nil => simp
          | cons x p =>
              have htail := ih (p := p) bs (by simpa using hlen)
              have hhead : (s.intersect u).contains x = true ↔
                  s.contains x = true ∧ u.contains x = true := by
                simp only [contains_iff, Span.intersect]
                omega
              simp only [List.zipWith_cons_cons, List.zip_cons_cons, List.all_cons,
                Bool.and_eq_true, htail, hhead]
              exact and_and_and_comm

/-- A box with a point is not empty. -/
theorem not_isEmpty_of_contains {b : Box} {p : List Int} (hlen : p.length = b.spans.length)
    (h : b.contains p = true) : b.isEmpty = false := by
  rw [box_contains_iff] at h
  rw [Box.isEmpty, List.any_eq_false]
  intro s hs
  rcases List.getElem?_of_mem hs with ⟨e, he⟩
  have hlt : e < p.length := by
    rw [hlen]
    exact (List.getElem?_eq_some_iff.1 he).1
  have hx := h e s p[e] he (List.getElem?_eq_getElem hlt)
  simp only [Span.isEmpty, decide_eq_true_eq]
  omega

theorem box_contains_full {sizes p : List Int} (h : InArray sizes p) :
    (Box.full sizes).contains p = true := by
  simp only [Box.contains, Box.full]
  induction h with
  | nil => rfl
  | @cons s x sizes p hx htail ih =>
      simp only [List.map_cons, List.zip_cons_cons, List.all_cons, Bool.and_eq_true, contains_iff]
      exact ⟨hx, ih⟩

/-! ## Parts of a command -/

/-- Choices whose first item and whose rest are judged apart. -/
theorem countP_choices_cons {α : Type} {A : α → Prop} {B P : List α → Prop} [DecidablePred A]
    [DecidablePred B] [DecidablePred P] (hP : ∀ x xs, P (x :: xs) ↔ A x ∧ B xs) (items : List α)
    (rest : List (List α)) :
    (choices (items :: rest)).countP (fun xs => P xs) =
      items.countP (fun x => A x) * (choices rest).countP fun xs => B xs := by
  induction items with
  | nil => simp [choices]
  | cons x items ih =>
      have hhead : ((choices rest).map fun xs => x :: xs).countP (fun xs => P xs) =
          if A x then (choices rest).countP (fun xs => B xs) else 0 := by
        rw [List.countP_map]
        by_cases hx : A x
        · simp [Function.comp_def, hP, hx]
        · simp [Function.comp_def, hP, hx]
      rw [choices] at ih ⊢
      rw [List.flatMap_cons, List.countP_append, ih, hhead, List.countP_cons, Nat.add_mul, Nat.add_comm]
      by_cases hx : A x
      · simp [hx]
      · simp [hx]

/-- The pieces, one for each dimension, cover a point. -/
def PiecesCover (dims : List TiledDim) (qs : List Piece) (p : List Int) : Prop :=
  Box.contains { spans := qs.map Piece.tiles } (List.zipWith (fun dim x => x / dim.tile) dims p) = true ∧
    Box.contains { spans := qs.map Piece.lines } (List.zipWith (fun dim x => x % dim.tile) dims p) = true

instance (dims : List TiledDim) (qs : List Piece) (p : List Int) : Decidable (PiecesCover dims qs p) :=
  inferInstanceAs (Decidable (_ ∧ _))

theorem piecesCover_cons {dim : TiledDim} {dims : List TiledDim} {q : Piece} {qs : List Piece} {x : Int}
    {p : List Int} :
    PiecesCover (dim :: dims) (q :: qs) (x :: p) ↔ q.Covers dim.tile x ∧ PiecesCover dims qs p := by
  simp only [PiecesCover, List.zipWith_cons_cons, List.map_cons, box_contains_cons, Piece.Covers]
  exact and_and_and_comm

/-- Of the choices of pieces just one covers a point that the spans have. -/
theorem countP_choices {dims : List TiledDim} {spans : List Span} {p : List Int}
    (hspans : spans.length = dims.length) (hp : p.length = dims.length)
    (hne : ∀ s ∈ spans, s.lo < s.hi) :
    (choices (List.zipWith piecesOf (dims.map TiledDim.tile) spans)).countP
        (fun qs => PiecesCover dims qs p) =
      if Box.contains { spans } p then 1 else 0 := by
  induction dims generalizing spans p with
  | nil =>
      have h1 : spans = [] := List.length_eq_zero_iff.1 hspans
      have h2 : p = [] := List.length_eq_zero_iff.1 hp
      simp [h1, h2, choices, PiecesCover, Box.contains]
  | cons dim dims ih =>
      cases spans with
      | nil => simp at hspans
      | cons s spans =>
          cases p with
          | nil => simp at hp
          | cons x p =>
              -- the first dimension chooses its piece freely of the others
              have hpiece := countP_piecesOf dim.tile_pos (hne s (by simp)) x
              have htail := ih (by simpa using hspans) (by simpa using hp)
                (fun u hu => hne u (by simp [hu]))
              have hchoice := countP_choices_cons (P := fun qs => PiecesCover (dim :: dims) qs (x :: p))
                (fun q qs => piecesCover_cons) (piecesOf dim.tile s)
                (List.zipWith piecesOf (dims.map TiledDim.tile) spans)
              rw [List.map_cons, List.zipWith_cons_cons, hchoice, hpiece, htail]
              by_cases hx : s.contains x = true
              · simp [box_contains_cons, hx]
              · simp [box_contains_cons, hx]

/-- The masks of a command have the dimensions of the array. -/
def Shaped (t : Tiling) (c : Command) : Prop :=
  c.tileMask.spans.length = t.dims.length ∧ c.bitlineMask.spans.length = t.dims.length

/-- The parts of a command are its restrictions to choices of pieces, those that have something to do. -/
theorem mem_maskByRegion_iff {c c' : Command} {region : Box} :
    c' ∈ t.maskByRegion c region ↔ (region.clip t.arraySizes).isEmpty = false ∧
      ∃ qs ∈ choices (List.zipWith piecesOf t.tileSizes (region.clip t.arraySizes).spans),
        maskByPieces c qs = c' ∧ c'.tileMask.isEmpty = false ∧ c'.bitlineMask.isEmpty = false := by
  unfold maskByRegion
  by_cases hempty : (region.clip t.arraySizes).isEmpty = true
  · simp [hempty]
  · rw [if_neg hempty, List.mem_filter, List.mem_map, Bool.eq_false_iff]
    simp only [Bool.not_eq_true', Bool.or_eq_false_iff]
    constructor
    · rintro ⟨⟨qs, hqs, hc'⟩, hne⟩
      exact ⟨hempty, qs, hqs, hc', hne⟩
    · rintro ⟨_, qs, hqs, hc', hne⟩
      exact ⟨⟨qs, hqs, hc'⟩, hne⟩

/-- The parts of a command differ from it in their masks only. -/
theorem mem_maskByRegion {c c' : Command} {region : Box} (h : c' ∈ t.maskByRegion c region) :
    ∃ pieces, c' = maskByPieces c pieces := by
  rcases mem_maskByRegion_iff.1 h with ⟨_, qs, _, hc', _⟩
  exact ⟨qs, hc'.symm⟩

/-- The parts of a command that reads something have something to do. -/
theorem not_isEmpty_of_mem_maskByRegion {c c' : Command} {region : Box}
    (h : c' ∈ t.maskByRegion c region) : c'.isEmpty = false := by
  rcases mem_maskByRegion_iff.1 h with ⟨_, _, _, _, htile, hline⟩
  simp [Command.isEmpty, htile, hline]

theorem length_choices {α : Type} {ls : List (List α)} {xs : List α} (h : xs ∈ choices ls) :
    xs.length = ls.length := by
  induction ls generalizing xs with
  | nil =>
      simp only [choices, List.mem_singleton] at h
      simp [h]
  | cons l ls ih =>
      simp only [choices, List.mem_flatMap, List.mem_map] at h
      rcases h with ⟨x, _, ys, hys, rfl⟩
      simp [ih hys]

theorem length_clip {region : Box} (hregion : region.spans.length = t.dims.length) :
    (region.clip t.arraySizes).spans.length = t.dims.length := by
  simp [Box.clip, Box.intersect, Box.full, arraySizes, hregion]

/-- A choice of pieces has one for each dimension. -/
theorem length_of_mem_choices {region : Box} (hregion : region.spans.length = t.dims.length) {qs : List Piece}
    (hqs : qs ∈ choices (List.zipWith piecesOf t.tileSizes (region.clip t.arraySizes).spans)) :
    qs.length = t.dims.length := by
  rw [length_choices hqs, List.length_zipWith, length_clip hregion, length_tileSizes, Nat.min_self]

/-- Clipping keeps the points of the array that a region has. -/
theorem contains_clip {region : Box} (hregion : region.spans.length = t.dims.length) {p : List Int}
    (hp : t.Within p) :
    (region.clip t.arraySizes).contains p = true ↔ region.contains p = true := by
  have hfull : (Box.full t.arraySizes).contains p = true := box_contains_full hp
  rw [Box.clip, box_contains_intersect (by simp [hregion, Box.full, arraySizes])]
  simp [hfull]

theorem lt_of_not_isEmpty {b : Box} (h : b.isEmpty = false) : ∀ s ∈ b.spans, s.lo < s.hi := by
  intro s hs
  rw [Box.isEmpty, List.any_eq_false] at h
  simpa [Span.isEmpty] using h s hs

theorem covers_maskByPieces {c : Command} (hc : t.Shaped c) {qs : List Piece}
    (hqs : qs.length = t.dims.length) {p : List Int} :
    t.Covers (maskByPieces c qs) p ↔ t.Covers c p ∧ PiecesCover t.dims qs p := by
  simp only [Covers, maskByPieces, PiecesCover]
  rw [box_contains_intersect (by simp [hc.1, hqs]), box_contains_intersect (by simp [hc.2, hqs])]
  exact and_and_and_comm

/-- A command that covers a point has something to do. -/
theorem Covers.not_isEmpty {c : Command} (hc : t.Shaped c) {p : List Int} (hp : t.Within p)
    (h : t.Covers c p) : c.tileMask.isEmpty = false ∧ c.bitlineMask.isEmpty = false := by
  have hplen := hp.length_eq
  constructor
  · exact not_isEmpty_of_contains (by simp [tilePoint, hplen, hc.1]) h.1
  · exact not_isEmpty_of_contains (by simp [linePoint, hplen, hc.2]) h.2

theorem Shaped.maskByPieces {c : Command} (hc : t.Shaped c) {qs : List Piece}
    (hqs : qs.length = t.dims.length) : t.Shaped (maskByPieces c qs) := by
  simp [Shaped, Tiling.maskByPieces, Box.intersect, hc.1, hc.2, hqs]

instance (c : Command) (p : List Int) : Decidable (t.Covers c p) :=
  inferInstanceAs (Decidable (_ ∧ _))

/-- Just one part of a command reads a point of the region that the command reads, and no part reads any
other. -/
theorem countP_maskByRegion {c : Command} (hc : t.Shaped c) {region : Box}
    (hregion : region.spans.length = t.dims.length) {p : List Int} (hp : t.Within p) :
    (t.maskByRegion c region).countP (fun c' => t.Covers c' p) =
      if t.Covers c p ∧ region.contains p = true then 1 else 0 := by
  have hclip := contains_clip hregion hp
  have hcliplen := length_clip hregion
  unfold maskByRegion
  by_cases hempty : (region.clip t.arraySizes).isEmpty = true
  · -- the region has no point
    have hnone : ¬ region.contains p = true := by
      intro hin
      rw [not_isEmpty_of_contains (by rw [hp.length_eq, hcliplen]) (hclip.2 hin)] at hempty
      cases hempty
    rw [if_pos hempty, if_neg fun h => hnone h.2]
    rfl
  · -- a part that covers the point has something to do, so none is left out
    have hpart : ∀ qs ∈ choices (List.zipWith piecesOf t.tileSizes (region.clip t.arraySizes).spans),
        (t.Covers (maskByPieces c qs) p ∧
            (!((maskByPieces c qs).tileMask.isEmpty || (maskByPieces c qs).bitlineMask.isEmpty)) = true) ↔
          t.Covers c p ∧ PiecesCover t.dims qs p := by
      intro qs hqs
      have hlen := length_of_mem_choices hregion hqs
      rw [← covers_maskByPieces hc hlen, and_iff_left_iff_imp]
      intro hcov
      have hne := hcov.not_isEmpty (hc.maskByPieces hlen) hp
      rw [hne.1, hne.2]
      rfl
    have hcount := countP_choices hcliplen hp.length_eq
      (lt_of_not_isEmpty (Bool.eq_false_iff.2 hempty))
    rw [if_neg hempty, List.countP_filter, List.countP_map]
    by_cases hcov : t.Covers c p
    · simp only [hcov, true_and, hclip] at hpart hcount ⊢
      rw [← hcount]
      refine List.countP_congr fun qs hqs => ?_
      simpa using hpart qs hqs
    · rw [if_neg fun h => hcov h.1, List.countP_eq_zero]
      intro qs hqs
      have hnone := hpart qs hqs
      simp only [hcov, false_and, iff_false] at hnone
      simpa using hnone

/-- The parts of a command together read what the command reads of the region. -/
theorem exists_covers_maskByRegion {c : Command} (hc : t.Shaped c) {region : Box}
    (hregion : region.spans.length = t.dims.length) {p : List Int} (hp : t.Within p) :
    (∃ c' ∈ t.maskByRegion c region, t.Covers c' p) ↔ t.Covers c p ∧ region.contains p = true := by
  have hcount := countP_maskByRegion hc hregion hp
  have hpos := List.countP_pos_iff (l := t.maskByRegion c region) (p := fun c' => t.Covers c' p)
  rw [hcount] at hpos
  simp only [decide_eq_true_eq] at hpos
  rw [← hpos]
  split
  · simp [*]
  · simp [*]

/-! ## Commands of a move -/

/-- A command of a move as it is handed out, with the stride masks of the move. -/
def dressed (t : Tiling) (masks : List StrideMask) (c : Command) : Command :=
  t.mapToBanks { c with strideMasks := masks, wordlineBits := t.wordlineBits }

/-- The tokens after the commands of a move. -/
def drive (t : Tiling) (masks : List StrideMask) (tokens : List Token) (cs : List Command) :
    List Token :=
  t.run tokens (cs.map (t.dressed masks))

/-- An element at a point. -/
def tokenAt (t : Tiling) (i : Nat) (p : List Int) : Token :=
  { element := i, place := t.placeOf p }

theorem dressed_kind (masks : List StrideMask) (c : Command) :
    (t.dressed masks c).kind = c.kind := by
  unfold dressed mapToBanks
  split <;> rfl

theorem dressed_reuse (masks : List StrideMask) (c : Command) :
    (t.dressed masks c).reuse = c.reuse := by
  unfold dressed mapToBanks
  split <;> rfl

theorem dressed_strideMasks (masks : List StrideMask) (c : Command) :
    (t.dressed masks c).strideMasks = masks := by
  unfold dressed mapToBanks
  split <;> rfl

theorem covers_dressed (masks : List StrideMask) (c : Command) (p : List Int) :
    t.Covers (t.dressed masks c) p ↔ t.Covers c p := by
  unfold dressed mapToBanks
  split <;> rfl

theorem dressed_isEmpty (masks : List StrideMask) (c : Command) :
    (t.dressed masks c).isEmpty = c.isEmpty := by
  unfold dressed mapToBanks
  split <;> rfl

theorem displaced_dressed (masks : List StrideMask) (c : Command) (l : Location) :
    t.displaced (t.dressed masks c) l = t.displaced c l := by
  simp only [displaced, dressed_kind, dressed_reuse]

/-- Commands that all have something to do are all handed out. -/
theorem finish_eq_map {masks : List StrideMask} {cs : List Command}
    (h : ∀ c ∈ cs, c.isEmpty = false) : t.finish masks cs = cs.map (t.dressed masks) := by
  have hkeep : ∀ c ∈ cs.map (t.dressed masks), (!c.isEmpty) = true := by
    intro c hc
    rcases List.mem_map.1 hc with ⟨c₀, hc₀, rfl⟩
    rw [dressed_isEmpty, h c₀ hc₀]
    rfl
  exact List.filter_eq_self.2 hkeep

theorem selects_dressed {masks : List StrideMask} {c : Command} {p : List Int} (hp : t.Within p) :
    t.Selects (t.dressed masks c) (t.placeOf p) ↔ t.Covers c p ∧ t.OnStrides masks p := by
  rw [selects_placeOf hp, covers_dressed, dressed_strideMasks]

@[simp] theorem drive_nil (masks : List StrideMask) (tokens : List Token) :
    t.drive masks tokens [] = tokens := rfl

@[simp] theorem drive_append (masks : List StrideMask) (tokens : List Token) (cs ds : List Command) :
    t.drive masks tokens (cs ++ ds) = t.drive masks (t.drive masks tokens cs) ds := by
  simp [drive]

theorem subset_drive (masks : List StrideMask) (tokens : List Token) (cs : List Command) :
    tokens ⊆ t.drive masks tokens cs :=
  subset_run tokens _

/-- What one of several groups of commands makes of any tokens is there after all of them. -/
theorem mem_drive_flatMap {α : Type} {masks : List StrideMask} {tokens : List Token} {xs : List α}
    {f : α → List Command} {x : α} {k : Token} (hx : x ∈ xs)
    (h : ∀ tokens', tokens ⊆ tokens' → k ∈ t.drive masks tokens' (f x)) :
    k ∈ t.drive masks tokens (xs.flatMap f) := by
  rcases List.append_of_mem hx with ⟨before, after, rfl⟩
  rw [List.flatMap_append, List.flatMap_cons, drive_append, drive_append]
  apply subset_drive
  exact h _ (subset_drive masks tokens _)

theorem readsTokens_flatMap {α : Type} {masks : List StrideMask} {tokens : List Token}
    {xs : List α} {f : α → List Command}
    (h : ∀ x ∈ xs, ∀ tokens', tokens ⊆ tokens' →
      t.ReadsTokens tokens' ((f x).map (t.dressed masks))) :
    t.ReadsTokens tokens ((xs.flatMap f).map (t.dressed masks)) := by
  induction xs generalizing tokens with
  | nil => trivial
  | cons x xs ih =>
      rw [List.flatMap_cons, List.map_append, readsTokens_append]
      refine ⟨h x (by simp) tokens (List.Subset.refl _), ih ?_⟩
      intro y hy tokens' hsub
      exact h y (by simp [hy]) tokens' (List.Subset.trans (subset_run tokens _) hsub)

/-- The parts of a command displace the tokens of the region that the command reads. -/
theorem mem_drive_maskByRegion {masks : List StrideMask} {tokens : List Token} {c : Command}
    {region : Box} (hc : t.Shaped c) (hregion : region.spans.length = t.dims.length) {i : Nat}
    {p : List Int} (hp : t.Within p) (hcov : t.Covers c p) (hin : region.contains p = true)
    (hmask : t.OnStrides masks p) (hk : t.tokenAt i p ∈ tokens) {l : Location}
    (hl : l ∈ t.displaced c (t.placeOf p)) :
    { element := i, place := l } ∈ t.drive masks tokens (t.maskByRegion c region) := by
  rcases (exists_covers_maskByRegion hc hregion hp).2 ⟨hcov, hin⟩ with ⟨c', hc', hcov'⟩
  have hsel : t.Selects (t.dressed masks c') (t.tokenAt i p).place :=
    (selects_dressed hp).2 ⟨hcov', hmask⟩
  have hl' : l ∈ t.displaced (t.dressed masks c') (t.tokenAt i p).place := by
    rcases mem_maskByRegion hc' with ⟨pieces, rfl⟩
    rw [displaced_dressed]
    exact hl
  exact mem_run_of_selects (List.mem_map.2 ⟨c', hc', rfl⟩) hk hsel hl'

/-- The parts of a command read tokens where the command does so in the region. -/
theorem readsTokens_maskByRegion {masks : List StrideMask} {tokens : List Token} {c : Command}
    {region : Box} (hc : t.Shaped c) (hregion : region.spans.length = t.dims.length)
    (h : ∀ p, t.Within p → t.Covers c p → region.contains p = true →
      (∃ i, t.tokenAt i p ∈ tokens) ∧ ∀ l ∈ t.displaced c (t.placeOf p), t.HasPlace l) :
    t.ReadsTokens tokens ((t.maskByRegion c region).map (t.dressed masks)) := by
  apply readsTokens_of_forall
  intro c' hc' l hl
  rcases List.mem_map.1 hc' with ⟨c₀, hc₀, rfl⟩
  rcases exists_point hl.1 with ⟨p, hp, rfl⟩
  rcases (selects_dressed hp).1 hl with ⟨hcov₀, _⟩
  rcases (exists_covers_maskByRegion hc hregion hp).1 ⟨c₀, hc₀, hcov₀⟩ with ⟨hcov, hin⟩
  rcases h p hp hcov hin with ⟨⟨i, hi⟩, hstay⟩
  refine ⟨⟨t.tokenAt i p, hi, rfl⟩, ?_⟩
  intro l' hl'
  rcases mem_maskByRegion hc₀ with ⟨pieces, rfl⟩
  rw [displaced_dressed] at hl'
  exact hstay l' hl'

end Tiling
end StreamEngine
