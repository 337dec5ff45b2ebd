import StreamEngine.DataMove.Move
import StreamEngine.Proofs.Affine.Coordinates

/-!
# Tokens in memory arrays

What commands do to data is observed on *tokens*: the elements of a pattern, each at a place of the
memory arrays. Moves never take data away from where it was, so running a command only adds tokens.

* `Tiling.locate` — the place of an array index;
* `Tiling.Selects` — the places that a command reads;
* `Tiling.execute`, `Tiling.run` — the tokens after a command, and after a list of them;
* `Tiling.placeOf`, `Tiling.Reads` — the same seen from the points of the array.
-/

namespace StreamEngine

/-- A place in the memory arrays: the number of a tile, and of a bitline in it. -/
structure Location where
  tile : Int
  line : Int
  deriving DecidableEq, Repr

/-- An element of a pattern at a place. -/
structure Token where
  element : Nat
  place : Location
  deriving DecidableEq, Repr

namespace Tiling

/-! ## Places -/

/-- Coordinates of the tile that holds a point. -/
def tilePoint (t : Tiling) (p : List Int) : List Int :=
  List.zipWith (fun dim x => x / dim.tile) t.dims p

/-- Coordinates of a point in its tile. -/
def linePoint (t : Tiling) (p : List Int) : List Int :=
  List.zipWith (fun dim x => x % dim.tile) t.dims p

/-- The place of a point of the array. -/
def placeOf (t : Tiling) (p : List Int) : Location :=
  { tile := linearize (t.tilePoint p) t.tileCounts
    line := linearize (t.linePoint p) t.tileSizes }

/-- The place of an index of the array. -/
def locate (t : Tiling) (index : Int) : Location :=
  t.placeOf (coordinates t.arraySizes index)

/-- The place exists. -/
def HasPlace (t : Tiling) (l : Location) : Prop :=
  (0 ≤ l.tile ∧ l.tile < t.tileCounts.prod) ∧ 0 ≤ l.line ∧ l.line < t.tileSizes.prod

instance (t : Tiling) (l : Location) : Decidable (t.HasPlace l) :=
  inferInstanceAs (Decidable (_ ∧ _))

/-! ## Commands on tokens -/

/-- A command reads the places whose tile is in its tile mask, and whose bitline is in its bitline mask
and left by each of its stride masks. -/
def Selects (t : Tiling) (c : Command) (l : Location) : Prop :=
  t.HasPlace l ∧ c.tileMask.contains (coordinates t.tileCounts l.tile) ∧
    c.bitlineMask.contains (coordinates t.tileSizes l.line) ∧
    ∀ m ∈ c.strideMasks, (coordinates t.tileSizes l.line).getD m.dim 0 % m.stride = m.modulo

instance (t : Tiling) (c : Command) (l : Location) : Decidable (t.Selects c l) :=
  inferInstanceAs (Decidable (_ ∧ _))

/-- Where a command brings the data of a place. -/
def displaced (t : Tiling) (c : Command) (l : Location) : List Location :=
  match c.kind with
  | .intraArray distance => [{ l with line := l.line + distance }]
  | .interArray distance =>
    (t.distances distance c.reuse).map fun x => { l with tile := l.tile + x }
  | _ => []

/-- The tokens that a command makes of one token. -/
def copies (t : Tiling) (c : Command) (k : Token) : List Token :=
  if t.Selects c k.place then (t.displaced c k.place).map fun l => { k with place := l } else []

/-- The tokens after a command. -/
def execute (t : Tiling) (tokens : List Token) (c : Command) : List Token :=
  tokens ++ tokens.flatMap (t.copies c)

/-- The tokens after commands in order. -/
def run (t : Tiling) (tokens : List Token) (cs : List Command) : List Token :=
  cs.foldl t.execute tokens

/-- The elements of a pattern at their places. -/
def tokensOf (t : Tiling) (p : AffinePattern) : List Token :=
  (List.range p.totalTrip.toNat).map fun (i : Nat) =>
    { element := i, place := t.locate (p.value i) }

/-- Whenever a command runs, every place that it reads holds a token, and what it moves stays inside
the memory arrays. -/
def ReadsTokens (t : Tiling) (tokens : List Token) : List Command → Prop
  | [] => True
  | c :: cs =>
    (∀ l, t.Selects c l →
      (∃ k ∈ tokens, k.place = l) ∧ ∀ l' ∈ t.displaced c l, t.HasPlace l') ∧
    t.ReadsTokens (t.execute tokens c) cs

variable {t : Tiling}

/-! ## Running -/

theorem mem_execute {tokens : List Token} {c : Command} {k : Token} :
    k ∈ t.execute tokens c ↔
      k ∈ tokens ∨ ∃ k₀ ∈ tokens, t.Selects c k₀.place ∧
        ∃ l ∈ t.displaced c k₀.place, k = { k₀ with place := l } := by
  simp only [execute, copies, List.mem_append, List.mem_flatMap]
  refine or_congr_right ⟨?_, ?_⟩
  · rintro ⟨k₀, hk₀, hk⟩
    by_cases hsel : t.Selects c k₀.place
    · rw [if_pos hsel] at hk
      rcases List.mem_map.1 hk with ⟨l, hl, rfl⟩
      exact ⟨k₀, hk₀, hsel, l, hl, rfl⟩
    · rw [if_neg hsel] at hk
      cases hk
  · rintro ⟨k₀, hk₀, hsel, l, hl, rfl⟩
    refine ⟨k₀, hk₀, ?_⟩
    rw [if_pos hsel]
    exact List.mem_map.2 ⟨l, hl, rfl⟩

@[simp] theorem run_nil (tokens : List Token) : t.run tokens [] = tokens := rfl

@[simp] theorem run_cons (tokens : List Token) (c : Command) (cs : List Command) :
    t.run tokens (c :: cs) = t.run (t.execute tokens c) cs := rfl

@[simp] theorem run_append (tokens : List Token) (cs ds : List Command) :
    t.run tokens (cs ++ ds) = t.run (t.run tokens cs) ds := by
  simp [run, List.foldl_append]

theorem subset_execute (tokens : List Token) (c : Command) : tokens ⊆ t.execute tokens c :=
  List.subset_append_left _ _

theorem subset_run (tokens : List Token) (cs : List Command) : tokens ⊆ t.run tokens cs := by
  induction cs generalizing tokens with
  | nil => exact List.Subset.refl _
  | cons c cs ih => exact List.Subset.trans (subset_execute tokens c) (ih _)

/-- A token that some command of a list makes out of the tokens at the start is there at the end. -/
theorem mem_run_of_selects {tokens : List Token} {cs : List Command} {c : Command} {k : Token}
    {l : Location} (hc : c ∈ cs) (hk : k ∈ tokens) (hsel : t.Selects c k.place)
    (hl : l ∈ t.displaced c k.place) : { k with place := l } ∈ t.run tokens cs := by
  rcases List.append_of_mem hc with ⟨before, after, rfl⟩
  rw [run_append, run_cons]
  apply subset_run _ after
  exact mem_execute.2 (Or.inr ⟨k, subset_run tokens before hk, hsel, l, hl, rfl⟩)

/-- A property of tokens that every command keeps holds of all tokens of a run. -/
theorem forall_mem_run {P : Token → Prop} {cs : List Command}
    (hstep : ∀ c ∈ cs, ∀ k, P k → t.Selects c k.place → ∀ l ∈ t.displaced c k.place,
      P { k with place := l })
    {tokens : List Token} (hstart : ∀ k ∈ tokens, P k) : ∀ k ∈ t.run tokens cs, P k := by
  induction cs generalizing tokens with
  | nil => exact hstart
  | cons c cs ih =>
      apply ih (fun c' hc' => hstep c' (by simp [hc']))
      intro k hk
      rcases mem_execute.1 hk with hk | ⟨k₀, hk₀, hsel, l, hl, rfl⟩
      · exact hstart k hk
      · exact hstep c (by simp) k₀ (hstart k₀ hk₀) hsel l hl

theorem readsTokens_append {tokens : List Token} {cs ds : List Command} :
    t.ReadsTokens tokens (cs ++ ds) ↔
      t.ReadsTokens tokens cs ∧ t.ReadsTokens (t.run tokens cs) ds := by
  induction cs generalizing tokens with
  | nil => simp [ReadsTokens]
  | cons c cs ih => simp only [List.cons_append, ReadsTokens, run_cons, ih, and_assoc]

/-- If all that the commands of a list read holds tokens from the start, they only read tokens. -/
theorem readsTokens_of_forall {tokens : List Token} {cs : List Command}
    (h : ∀ c ∈ cs, ∀ l, t.Selects c l →
      (∃ k ∈ tokens, k.place = l) ∧ ∀ l' ∈ t.displaced c l, t.HasPlace l') :
    t.ReadsTokens tokens cs := by
  induction cs generalizing tokens with
  | nil => trivial
  | cons c cs ih =>
      refine ⟨h c (by simp), ih ?_⟩
      intro c' hc' l hl
      rcases h c' (by simp [hc']) l hl with ⟨⟨k, hk, hkl⟩, hstay⟩
      exact ⟨⟨k, subset_execute tokens c hk, hkl⟩, hstay⟩

/-! ## Points -/

theorem length_arraySizes (t : Tiling) : t.arraySizes.length = t.dims.length :=
  List.length_map ..

theorem length_tileSizes (t : Tiling) : t.tileSizes.length = t.dims.length :=
  List.length_map ..

theorem length_tileCounts (t : Tiling) : t.tileCounts.length = t.dims.length :=
  List.length_map ..

theorem tileSizes_pos (t : Tiling) : ∀ s ∈ t.tileSizes, 0 < s := by
  intro s hs
  rcases List.mem_map.1 hs with ⟨dim, _, rfl⟩
  exact dim.tile_pos

theorem tileCounts_pos (t : Tiling) : ∀ s ∈ t.tileCounts, 0 < s := by
  intro s hs
  rcases List.mem_map.1 hs with ⟨dim, _, rfl⟩
  exact dim.count_pos

theorem arraySizes_pos (t : Tiling) : ∀ s ∈ t.arraySizes, 0 < s := by
  intro s hs
  rcases List.mem_map.1 hs with ⟨dim, _, rfl⟩
  exact Int.mul_pos dim.tile_pos dim.count_pos

/-- The point lies in the array. -/
def Within (t : Tiling) (p : List Int) : Prop :=
  InArray t.arraySizes p

theorem within_iff_forall₂ {p : List Int} :
    t.Within p ↔ List.Forall₂ (fun (dim : TiledDim) x => 0 ≤ x ∧ x < dim.size) t.dims p := by
  simp only [Within, InArray, arraySizes, List.forall₂_map_left_iff]

/-- What lying in the array says of each dimension. -/
theorem within_iff {p : List Int} :
    t.Within p ↔ p.length = t.dims.length ∧
      ∀ (e : Nat) (dim : TiledDim) (x : Int), t.dims[e]? = some dim → p[e]? = some x →
        0 ≤ x ∧ x < dim.size := by
  rw [within_iff_forall₂]
  generalize t.dims = dims
  induction dims generalizing p with
  | nil => cases p <;> simp
  | cons dim dims ih =>
      cases p with
      | nil => simp
      | cons x p =>
          simp only [List.forall₂_cons, ih, List.length_cons, Nat.add_right_cancel_iff]
          constructor
          · rintro ⟨hx, hlen, hrest⟩
            refine ⟨hlen, ?_⟩
            intro e
            cases e with
            | zero =>
                intro dim' x' hdim' hx'
                simp only [List.getElem?_cons_zero, Option.some.injEq] at hdim' hx'
                rw [← hdim', ← hx']
                exact hx
            | succ e => simpa using hrest e
          · rintro ⟨hlen, hrest⟩
            exact ⟨hrest 0 dim x rfl rfl, hlen, fun e => by simpa using hrest (e + 1)⟩

theorem Within.length_eq {p : List Int} (h : t.Within p) : p.length = t.dims.length :=
  (within_iff.1 h).1

theorem Within.bounds {p : List Int} (h : t.Within p) {e : Nat} {dim : TiledDim} {x : Int}
    (hdim : t.dims[e]? = some dim) (hx : p[e]? = some x) : 0 ≤ x ∧ x < dim.size :=
  (within_iff.1 h).2 e dim x hdim hx

/-- Every dimension of a point of the array. -/
theorem Within.exists_coordinate {p : List Int} (h : t.Within p) {e : Nat} {dim : TiledDim}
    (hdim : t.dims[e]? = some dim) : ∃ x, p[e]? = some x := by
  have he : e < p.length := by
    rw [h.length_eq]
    exact (List.getElem?_eq_some_iff.1 hdim).1
  exact ⟨p[e], List.getElem?_eq_getElem he⟩

/-- A coordinate lies in the array if its tile does. -/
theorem tile_inside_iff (dim : TiledDim) (x : Int) :
    (0 ≤ x / dim.tile ∧ x / dim.tile < dim.count) ↔ 0 ≤ x ∧ x < dim.size := by
  have hpos := dim.tile_pos
  rw [Int.ediv_nonneg_iff_of_pos hpos, Int.ediv_lt_iff_lt_mul hpos, TiledDim.size, Int.mul_comm]

theorem inArray_tilePoint {p : List Int} (h : t.Within p) : InArray t.tileCounts (t.tilePoint p) := by
  rw [within_iff_forall₂] at h
  simp only [InArray, tileCounts, tilePoint, List.forall₂_map_left_iff]
  generalize t.dims = dims at h ⊢
  induction h with
  | nil => exact List.Forall₂.nil
  | @cons dim x dims p hx htail ih =>
      exact List.Forall₂.cons ((tile_inside_iff dim x).2 hx) ih

theorem inArray_linePoint {p : List Int} (h : t.Within p) : InArray t.tileSizes (t.linePoint p) := by
  rw [within_iff_forall₂] at h
  simp only [InArray, tileSizes, linePoint, List.forall₂_map_left_iff]
  generalize t.dims = dims at h ⊢
  induction h with
  | nil => exact List.Forall₂.nil
  | @cons dim x dims p hx htail ih =>
      have hpos := dim.tile_pos
      exact List.Forall₂.cons ⟨Int.emod_nonneg x (by omega), Int.emod_lt_of_pos x hpos⟩ ih

theorem hasPlace_placeOf {p : List Int} (h : t.Within p) : t.HasPlace (t.placeOf p) :=
  ⟨linearize_bounds (inArray_tilePoint h), linearize_bounds (inArray_linePoint h)⟩

/-- Coordinates of a tile and coordinates in it make a point. -/
theorem exists_forall₂_of_parts {dims : List TiledDim} {a b : List Int}
    (ha : List.Forall₂ (fun (dim : TiledDim) x => 0 ≤ x ∧ x < dim.count) dims a)
    (hb : List.Forall₂ (fun (dim : TiledDim) x => 0 ≤ x ∧ x < dim.tile) dims b) :
    ∃ p, List.Forall₂ (fun (dim : TiledDim) x => 0 ≤ x ∧ x < dim.size) dims p ∧
      List.zipWith (fun (dim : TiledDim) x => x / dim.tile) dims p = a ∧
      List.zipWith (fun (dim : TiledDim) x => x % dim.tile) dims p = b := by
  induction ha generalizing b with
  | nil =>
      cases hb
      exact ⟨[], List.Forall₂.nil, rfl, rfl⟩
  | @cons dim x dims a hx htail ih =>
      cases hb with
      | @cons _ y _ b hy hrest =>
          rcases ih hrest with ⟨p, hp, hpa, hpb⟩
          have hpos := dim.tile_pos
          -- the coordinate on bitline `y` of tile `x`
          have hdiv : (y + dim.tile * x) / dim.tile = x := by
            rw [Int.add_mul_ediv_left y x (by omega), Int.ediv_eq_zero_of_lt hy.1 hy.2,
              Int.zero_add]
          have hmod : (y + dim.tile * x) % dim.tile = y := by
            rw [Int.add_mul_emod_self_left]
            exact Int.emod_eq_of_lt hy.1 hy.2
          have hlow : 0 ≤ dim.tile * x := Int.mul_nonneg hpos.le hx.1
          have hhigh : dim.tile * (x + 1) ≤ dim.tile * dim.count :=
            Int.mul_le_mul_of_nonneg_left (by omega) hpos.le
          rw [Int.mul_add, Int.mul_one] at hhigh
          refine ⟨(y + dim.tile * x) :: p, List.Forall₂.cons ⟨by omega, ?_⟩ hp, ?_, ?_⟩
          · rw [TiledDim.size]
            omega
          · rw [List.zipWith_cons_cons, hdiv, hpa]
          · rw [List.zipWith_cons_cons, hmod, hpb]

/-- Every place is that of a point. -/
theorem exists_point {l : Location} (h : t.HasPlace l) : ∃ p, t.Within p ∧ t.placeOf p = l := by
  rcases h with ⟨⟨ht0, ht1⟩, hl0, hl1⟩
  have ha : InArray t.tileCounts (coordinates t.tileCounts l.tile) :=
    inArray_coordinates t.tileCounts_pos _
  have hb : InArray t.tileSizes (coordinates t.tileSizes l.line) :=
    inArray_coordinates t.tileSizes_pos _
  simp only [InArray, tileCounts, tileSizes, List.forall₂_map_left_iff] at ha hb
  rcases exists_forall₂_of_parts ha hb with ⟨p, hp, hpa, hpb⟩
  refine ⟨p, within_iff_forall₂.2 hp, ?_⟩
  have htile := linearize_coordinates t.tileCounts_pos ht0 ht1
  have hline := linearize_coordinates t.tileSizes_pos hl0 hl1
  simp only [placeOf, tilePoint, linePoint, hpa, hpb]
  simp only [tileCounts, tileSizes] at htile hline ⊢
  rw [htile, hline]

/-- Two points of the array have two places. -/
theorem placeOf_injective {p q : List Int} (hp : t.Within p) (hq : t.Within q)
    (h : t.placeOf p = t.placeOf q) : p = q := by
  have htile : t.tilePoint p = t.tilePoint q :=
    linearize_injective (inArray_tilePoint hp) (inArray_tilePoint hq) (congrArg Location.tile h)
  have hline : t.linePoint p = t.linePoint q :=
    linearize_injective (inArray_linePoint hp) (inArray_linePoint hq) (congrArg Location.line h)
  rw [within_iff_forall₂] at hp hq
  unfold tilePoint at htile
  unfold linePoint at hline
  clear h
  generalize t.dims = dims at hp hq htile hline
  induction hp generalizing q with
  | nil =>
      cases hq
      rfl
  | @cons dim x dims p hx htail ih =>
      cases hq with
      | @cons _ y _ q hy hrest =>
          simp only [List.zipWith_cons_cons, List.cons.injEq] at htile hline
          have hxy : x = y := by
            rw [← Int.emod_add_mul_ediv x dim.tile, ← Int.emod_add_mul_ediv y dim.tile,
              htile.1, hline.1]
          rw [hxy, ih hrest htile.2 hline.2]

/-- The place of the index of a point. -/
theorem locate_linearize {p : List Int} (h : t.Within p) :
    t.locate (linearize p t.arraySizes) = t.placeOf p := by
  rw [locate, coordinates_linearize h]

/-! ## What commands read, by points -/

/-- The point lies in both masks of a command. -/
def Covers (t : Tiling) (c : Command) (p : List Int) : Prop :=
  c.tileMask.contains (t.tilePoint p) ∧ c.bitlineMask.contains (t.linePoint p)

/-- The point is left by every stride mask. -/
def OnStrides (t : Tiling) (masks : List StrideMask) (p : List Int) : Prop :=
  ∀ m ∈ masks, (t.linePoint p).getD m.dim 0 % m.stride = m.modulo

theorem selects_placeOf {c : Command} {p : List Int} (h : t.Within p) :
    t.Selects c (t.placeOf p) ↔ t.Covers c p ∧ t.OnStrides c.strideMasks p := by
  have htile := coordinates_linearize (inArray_tilePoint h)
  have hline := coordinates_linearize (inArray_linePoint h)
  have hplace := hasPlace_placeOf h
  simp only [Selects, Covers, OnStrides, hplace, true_and, and_assoc]
  simp only [placeOf, htile, hline]

theorem shift_zero (p : List Int) (d : Nat) : p.modify d (· + 0) = p := by
  have hid : (fun x : Int => x + 0) = id := by
    funext x
    exact Int.add_zero x
  rw [hid, List.modify_id]

theorem shift_shift (p : List Int) (d : Nat) (a b : Int) :
    (p.modify d (· + a)).modify d (· + b) = p.modify d (· + (a + b)) := by
  rw [List.modify_modify_eq]
  congr 1
  funext x
  exact Int.add_assoc x a b

/-- A step along one dimension changes one entry of what is computed entry by entry. -/
theorem zipWith_modify {f : TiledDim → Int → Int} {dims : List TiledDim} {p : List Int} {d : Nat}
    {dim : TiledDim} {x δ a : Int} (hdim : dims[d]? = some dim) (hx : p[d]? = some x)
    (h : f dim (x + δ) = f dim x + a) :
    List.zipWith f dims (p.modify d (· + δ)) = (List.zipWith f dims p).modify d (· + a) := by
  apply List.ext_getElem?
  intro e
  by_cases he : d = e
  · subst he
    simp [List.getElem?_zipWith, hdim, hx, h]
  · simp [List.getElem?_zipWith, he]

/-- A step along one dimension, by what it adds to the coordinates of the tile and in the tile. -/
theorem placeOf_shift {p : List Int} (h : t.Within p) {d : Nat} {dim : TiledDim} {x δ a b : Int}
    (hdim : t.dims[d]? = some dim) (hx : p[d]? = some x)
    (ha : (x + δ) / dim.tile = x / dim.tile + a) (hb : (x + δ) % dim.tile = x % dim.tile + b) :
    t.placeOf (p.modify d (· + δ)) =
      { tile := (t.placeOf p).tile + a * t.tileStride d
        line := (t.placeOf p).line + b * t.bitlineStride d } := by
  have htile : t.tilePoint (p.modify d (· + δ)) = (t.tilePoint p).modify d (· + a) :=
    zipWith_modify hdim hx ha
  have hline : t.linePoint (p.modify d (· + δ)) = (t.linePoint p).modify d (· + b) :=
    zipWith_modify hdim hx hb
  have htlen := (inArray_tilePoint h).length_eq
  have hllen := (inArray_linePoint h).length_eq
  have hd : d < t.dims.length := (List.getElem?_eq_some_iff.1 hdim).1
  have htd : d < (t.tilePoint p).length := by rwa [htlen, length_tileCounts]
  have hld : d < (t.linePoint p).length := by rwa [hllen, length_tileSizes]
  simp only [placeOf, htile, hline, linearize_modify htlen d htd a, linearize_modify hllen d hld b,
    tileStride, bitlineStride]

/-- A coordinate that stays on the bitlines of its tile. -/
theorem shift_in_tile {tile x δ : Int} (htile : 0 < tile) (h0 : 0 ≤ x % tile + δ)
    (h1 : x % tile + δ < tile) :
    (x + δ) / tile = x / tile ∧ (x + δ) % tile = x % tile + δ := by
  have hsum : x + δ = (x % tile + δ) + tile * (x / tile) := by
    have hsplit := Int.emod_add_mul_ediv x tile
    omega
  constructor
  · rw [hsum, Int.add_mul_ediv_left _ _ (by omega), Int.ediv_eq_zero_of_lt h0 h1, Int.zero_add]
  · rw [hsum, Int.add_mul_emod_self_left]
    exact Int.emod_eq_of_lt h0 h1

/-- A step inside a tile. -/
theorem placeOf_shift_line {p : List Int} (h : t.Within p) {d : Nat} {dim : TiledDim} {x δ : Int}
    (hdim : t.dims[d]? = some dim) (hx : p[d]? = some x) (h0 : 0 ≤ x % dim.tile + δ)
    (h1 : x % dim.tile + δ < dim.tile) :
    t.placeOf (p.modify d (· + δ)) =
      { t.placeOf p with line := (t.placeOf p).line + δ * t.bitlineStride d } := by
  rcases shift_in_tile dim.tile_pos h0 h1 with ⟨hdiv, hmod⟩
  rw [← Int.add_zero (x / dim.tile)] at hdiv
  simpa using placeOf_shift h hdim hx hdiv hmod

/-- A step by whole tiles. -/
theorem placeOf_shift_tile {p : List Int} (h : t.Within p) {d : Nat} {dim : TiledDim}
    (hdim : t.dims[d]? = some dim) (s : Int) :
    t.placeOf (p.modify d (· + s * dim.tile)) =
      { t.placeOf p with tile := (t.placeOf p).tile + s * t.tileStride d } := by
  have hpos := dim.tile_pos
  rcases h.exists_coordinate hdim with ⟨x, hx⟩
  have hdiv : (x + s * dim.tile) / dim.tile = x / dim.tile + s :=
    Int.add_mul_ediv_right x s (by omega)
  have hmod : (x + s * dim.tile) % dim.tile = x % dim.tile + 0 := by
    rw [Int.add_mul_emod_self_right, Int.add_zero]
  simpa using placeOf_shift h hdim hx hdiv hmod

/-- A shifted point lies in the array if its new coordinate does. -/
theorem Within.shift {p : List Int} (h : t.Within p) {d : Nat} {dim : TiledDim} {x δ : Int}
    (hdim : t.dims[d]? = some dim) (hx : p[d]? = some x) (h0 : 0 ≤ x + δ) (h1 : x + δ < dim.size) :
    t.Within (p.modify d (· + δ)) := by
  rw [within_iff]
  refine ⟨by simpa using h.length_eq, ?_⟩
  intro e dim' y hdim' hy
  by_cases he : d = e
  · subst he
    simp only [List.getElem?_modify_eq, hx, Option.map_eq_map, Option.map_some,
      Option.some.injEq] at hy
    rw [hdim, Option.some.injEq] at hdim'
    subst hdim'
    omega
  · rw [List.getElem?_modify_ne _ _ he] at hy
    exact h.bounds hdim' hy

end Tiling
end StreamEngine
