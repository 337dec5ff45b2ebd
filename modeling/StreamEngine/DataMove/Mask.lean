import StreamEngine.DataMove.Tiling

/-!
# Masks

Commands work on whole tiles. Two kinds of mask narrow them down.

- `Tiling.strideMasks` : a dimension that skips elements becomes a dense one and a mask that keeps
  every so many coordinates;
- `Tiling.maskByRegion` : a command is cut into parts, each a box of bitlines in a box of tiles, that
  together cover the elements of a region.
-/

namespace StreamEngine
namespace Tiling

/-! ## Strides -/

/-- A pattern without skipped elements, and the masks that skip them. -/
structure Masked where
  pattern : AffinePattern
  masks : List StrideMask
  deriving DecidableEq, Repr

/-- One axis of a pattern that starts at `start`, in dimension `d` with canonical stride `unit`: the
dense axis, and the mask if the axis skips elements. Axes of one step do not move. -/
def maskAxis (start : Int) (d : Nat) (unit : Int) (dim : TiledDim) (a : Axis) :
    Except MoveError (Axis × Option StrideMask) :=
  if a.trip = 1 then .ok ({ stride := unit, trip := 1 }, none)
  else if a.stride ≤ 0 ∨ a.stride = unit ∨ a.stride.tmod unit ≠ 0 then .ok (a, none)
  else
    let step := a.stride.tdiv unit
    if dim.tile.tmod step ≠ 0 then .error (.strideNotMaskable d a.stride dim.tile)
    else
      let corner := AffinePattern.coordinate start unit dim.size
      .ok ({ stride := unit, trip := (a.trip - 1) * step + 1 },
        some { dim := d, stride := step, modulo := corner.tmod step })

/-- The axes from dimension `d` on. -/
def maskAxes (start : Int) (d : Nat) (unit : Int) :
    List TiledDim → List Axis → Except MoveError (List Axis × List StrideMask)
  | dim :: dims, a :: axes => do
    let (dense, mask) ← maskAxis start d unit dim a
    let (rest, masks) ← maskAxes start (d + 1) (unit * dim.size) dims axes
    return (dense :: rest, mask.toList ++ masks)
  | _, _ => .ok ([], [])

/-- Turns the dimensions that skip elements into dense ones with masks. -/
def strideMasks (t : Tiling) (p : AffinePattern) : Except MoveError Masked := do
  t.checkDims p
  let (axes, masks) ← maskAxes p.start 0 1 t.dims p.axes
  return { pattern := { p with axes }, masks }

/-! ## Regions -/

/-- Tiles along one dimension, and the bitlines in each of them. -/
structure Piece where
  tiles : Span
  lines : Span
  deriving DecidableEq, Repr

/-- Two pieces of whole tiles that follow one another are one. -/
def joins (tile : Int) (p q : Piece) : Bool :=
  p.lines == { lo := 0, hi := tile } && q.lines == { lo := 0, hi := tile } &&
    p.tiles.hi == q.tiles.lo

/-- A piece in front of others, joined with those it can be joined with. -/
def joinFrom (tile : Int) (p : Piece) : List Piece → List Piece
  | [] => [p]
  | q :: rest =>
    if joins tile p q then joinFrom tile { p with tiles := { p.tiles with hi := q.tiles.hi } } rest
    else p :: joinFrom tile q rest

/-- The coordinates of a span that is not empty and starts at 0 or later: the end of its first tile,
whole tiles, and the beginning of its last tile. -/
def piecesOf (tile : Int) (s : Span) : List Piece :=
  let first := s.lo / tile
  let last := (s.hi - 1) / tile
  let part (i lo hi : Int) : Piece := { tiles := { lo := i, hi := i + 1 }, lines := { lo, hi } }
  if first = last then [part first (s.lo - first * tile) (s.hi - first * tile)]
  else
    let whole : List Piece :=
      if first + 1 < last then
        [{ tiles := { lo := first + 1, hi := last }, lines := { lo := 0, hi := tile } }]
      else []
    joinFrom tile (part first (s.lo - first * tile) tile)
      (whole ++ [part last 0 (s.hi - last * tile)])

/-- Every choice of one item from each list, the last list varying fastest. -/
def choices {α : Type} : List (List α) → List (List α)
  | [] => [[]]
  | items :: rest => items.flatMap fun x => (choices rest).map fun xs => x :: xs

/-- The part of a command in one piece for each dimension. -/
def maskByPieces (c : Command) (pieces : List Piece) : Command :=
  { c with
    tileMask := c.tileMask.intersect { spans := pieces.map Piece.tiles }
    bitlineMask := c.bitlineMask.intersect { spans := pieces.map Piece.lines } }

/-- The parts of a command that read the elements of a region. -/
def maskByRegion (t : Tiling) (c : Command) (region : Box) : List Command :=
  let inside := region.clip t.arraySizes
  if inside.isEmpty then []
  else
    let pieces := List.zipWith piecesOf t.tileSizes inside.spans
    ((choices pieces).map (maskByPieces c)).filter fun c =>
      !(c.tileMask.isEmpty || c.bitlineMask.isEmpty)

end Tiling
end StreamEngine
