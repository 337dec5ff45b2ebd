import StreamEngine.DataMove.Banks
import StreamEngine.DataMove.Mask

/-!
# Compiling data moves

A copy from one pattern of a tiled array to another becomes a list of commands.

- Dimensions that skip elements become masks. The destination must then be a sub-region, and so must
  the source, which may also have dimensions that do not move.
- The distance between the corners is covered one dimension at a time: bitlines are shifted inside each
  array, and what leaves a tile is moved to the next one.
- A dimension of the source that does not move is copied to every place. Where tiles have one element
  along it, one command does so; otherwise every place has commands of its own.

The main functions are `Tiling.compileMove` and `Tiling.compileCompute`.
-/

namespace StreamEngine
namespace Tiling

/-! ## Alignment -/

/-- Part of a tile along one dimension, the shift of its bitlines, and the shift of its tiles. -/
structure Lane where
  lines : Span
  lineShift : Int
  tileShift : Int
  deriving DecidableEq, Repr

/-- How a distance of `delta` divides into tiles of size `tile`: the lower bitlines stay in their tile
when shifted, the upper ones go on to the next. -/
def lanes (tile delta : Int) : List Lane :=
  let q := delta / tile
  let r := delta % tile
  [{ lines := { lo := 0, hi := tile - r }, lineShift := r, tileShift := q },
    { lines := { lo := tile - r, hi := tile }, lineShift := r - tile, tileShift := q + 1 }].filter
      fun l => !l.lines.isEmpty

/-- The tiles along a dimension of `count` that stay inside it when moved by `shift`. -/
def movable (count shift : Int) : Span :=
  { lo := max 0 (-shift), hi := min count (count - shift) }

/-- Elements between neighbours along a dimension of a tile. -/
def bitlineStride (t : Tiling) (dim : Nat) : Int :=
  (canonicalStrides t.tileSizes).getD dim 0

/-- The commands for one lane of a move along dimension `dim`: bitlines first, then tiles. -/
def alignLane (t : Tiling) (d : Nat) (dim : TiledDim) (region : Box) (l : Lane) : List Command :=
  let part := (Box.full t.tileSizes).withDim d l.lines
  let allTiles := Box.full t.tileCounts
  let shiftLines :=
    if l.lineShift = 0 then []
    else
      t.maskByRegion
        { kind := .intraArray (l.lineShift * t.bitlineStride d), bitlineMask := part,
          tileMask := allTiles }
        region
  let moveTiles :=
    if l.tileShift = 0 then []
    else
      t.maskByRegion
        { kind := .interArray (l.tileShift * t.tileStride d),
          bitlineMask := part.shift d l.lineShift,
          tileMask := allTiles.withDim d (movable dim.count l.tileShift) }
        (region.shift d l.lineShift)
  shiftLines ++ moveTiles

/-- The commands that move a region by `delta` elements along dimension `d`. -/
def align (t : Tiling) (d : Nat) (delta : Int) (region : Box) : List Command :=
  match t.dims[d]? with
  | some dim => (lanes dim.tile delta).flatMap (t.alignLane d dim region)
  | none => []

/-- Commands, and where the region lies after them. -/
structure Aligned where
  commands : List Command
  region : Box
  deriving DecidableEq, Repr

/-- Moves a region along the dimensions from `d` on, one after the other, without dimension `skip`. -/
def alignFrom (t : Tiling) (skip : Option Nat) (d : Nat) (region : Box) : List Int → Aligned
  | [] => { commands := [], region }
  | delta :: deltas =>
    if skip = some d ∨ delta = 0 then t.alignFrom skip (d + 1) region deltas
    else
      let rest := t.alignFrom skip (d + 1) (region.shift d delta) deltas
      { rest with commands := t.align d delta region ++ rest.commands }

/-! ## Reuse -/

/-- Dimensions from `d` on that do not move, with the number of copies. -/
def reusesFrom (d : Nat) : List Axis → List Multicast
  | [] => []
  | a :: rest =>
    let later := reusesFrom (d + 1) rest
    if a.stride = 0 ∧ 1 < a.trip then { dim := d, count := a.trip } :: later else later

/-- The pattern with one step in the dimensions that do not move. -/
def withoutReuse (t : Tiling) (p : AffinePattern) : AffinePattern :=
  { p with
    axes := List.zipWith
      (fun unit a => if a.stride = 0 then { stride := unit, trip := 1 } else a)
      (canonicalStrides t.arraySizes) p.axes }

/-- Tiles have one element along the dimension. -/
def isTileWide (t : Tiling) (d : Nat) : Bool :=
  t.tileSizes[d]? == some 1

/-- The command that copies tiles to `reuse.count` places, the first one at distance `delta`. -/
def multicast (t : Tiling) (reuse : Multicast) (delta : Int) (region : Box) : List Command :=
  match t.dims[reuse.dim]? with
  | none => []
  | some dim =>
    let tiles : Span :=
      { lo := max 0 (-delta), hi := min dim.count (dim.count - delta - reuse.count + 1) }
    t.maskByRegion
      { kind := .interArray (delta * t.tileStride reuse.dim), bitlineMask := Box.full t.tileSizes,
        tileMask := (Box.full t.tileCounts).withDim reuse.dim tiles, reuse := some reuse }
      region

/-- Distances with a choice of copies added to their dimensions. -/
def offsetBy (deltas : List Int) (reuses : List Multicast) (copies : List Nat) : List Int :=
  (reuses.zip copies).foldl (fun ds (r, j) => ds.modify r.dim fun x => x + j) deltas

/-- The distances of every copy, later dimensions varying fastest. -/
def copyDeltas (deltas : List Int) (reuses : List Multicast) : List (List Int) :=
  (choices (reuses.map fun r => List.range r.count.toNat)).map (offsetBy deltas reuses)

/-! ## Compilation -/

/-- The commands with their number of bits and their banks. -/
def finish (t : Tiling) (masks : List StrideMask) (cs : List Command) : List Command :=
  Command.withoutEmpty (cs.map fun c =>
    t.mapToBanks { c with strideMasks := masks, wordlineBits := t.wordlineBits })

/-- The commands for one copy of a region, at these distances. -/
def moveCopy (t : Tiling) (wide : Option Multicast) (region : Box) (deltas : List Int) :
    List Command :=
  let aligned := t.alignFrom (wide.map Multicast.dim) 0 region deltas
  match wide with
  | none => aligned.commands
  | some r => aligned.commands ++ t.multicast r (deltas.getD r.dim 0) aligned.region

/-- The commands that copy a dense source onto a dense destination. -/
def moveDense (t : Tiling) (source target : AffinePattern) : List Command :=
  let reuses := reusesFrom 0 source.axes
  let single := t.withoutReuse source
  let deltas :=
    List.zipWith (· - ·) (target.corner t.arraySizes) (single.corner t.arraySizes)
  if deltas.all (· == 0) && reuses.isEmpty then []
  else
    let wide := reuses.find? fun r => t.isTileWide r.dim
    let expanded := reuses.filter fun r => some r.dim ≠ wide.map Multicast.dim
    (copyDeltas deltas expanded).flatMap (t.moveCopy wide (single.toBox t.arraySizes))

/-- The dimension and stride of a mask. -/
def maskShape (m : StrideMask) : Nat × Int :=
  (m.dim, m.stride)

/-- The commands that copy the elements of `source` onto those of `target`. -/
def compileMove (t : Tiling) (source target : AffinePattern) : Except MoveError (List Command) := do
  t.checkDims source
  t.checkDims target
  let s ← t.strideMasks source
  let d ← t.strideMasks target
  if s.masks.map maskShape ≠ d.masks.map maskShape then throw (.tripMismatch source target)
  t.checkSubRegion .destination target d.pattern false
  t.checkSubRegion .source source s.pattern true
  if s.pattern.trips ≠ d.pattern.trips then throw (.tripMismatch source target)
  return t.finish s.masks (t.moveDense s.pattern d.pattern)

/-- The commands that apply `op` to the elements of a region. -/
def compileCompute (t : Tiling) (op : ComputeOp) (region : AffinePattern) (reduce : Bool) :
    Except MoveError (List Command) := do
  t.checkDims region
  let r ← t.strideMasks region
  t.checkSubRegion .compute region r.pattern false
  let everywhere : Command :=
    { kind := .compute op reduce, bitlineMask := Box.full t.tileSizes,
      tileMask := Box.full t.tileCounts }
  return t.finish r.masks (t.maskByRegion everywhere (r.pattern.toBox t.arraySizes))

/-- A barrier between commands. -/
def barrier (t : Tiling) : Command :=
  { Command.sync with wordlineBits := t.wordlineBits }

end Tiling
end StreamEngine
