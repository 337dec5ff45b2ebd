import StreamEngine.Affine.Pattern
import StreamEngine.Command
import StreamEngine.Diagnostic
import StreamEngine.Hardware

/-!
# Tilings

An array of data is cut into tiles, and each tile lies along the bitlines of one memory array. A tiling
fits if every dimension is a whole number of tiles, a tile fits on the bitlines, and there are enough
memory arrays.
-/

namespace StreamEngine

/-! ## Errors -/

/-- Why arrays cannot be tiled. -/
inductive TilingError where
  | unevenSize (dim : Nat) (size tile : Int)
  | tileTooLarge (elements : Int) (bitlines : Nat)
  | tooManyTiles (tiles : Int) (arrays : Nat)
  deriving DecidableEq, Repr

def TilingError.message : TilingError → String
  | .unevenSize dim size tile =>
    s!"dim {dim}: array size {size} is not a positive multiple of tile size {tile}"
  | .tileTooLarge elements bitlines => s!"tile of {elements} elements exceeds {bitlines} bitlines"
  | .tooManyTiles tiles arrays => s!"{tiles} tiles exceed {arrays} arrays"

/-- What a pattern that must be a sub-region is for. -/
inductive RegionRole where
  | source
  | destination
  | compute
  deriving DecidableEq, Repr

def RegionRole.text : RegionRole → String
  | .source => "source"
  | .destination => "destination"
  | .compute => "compute"

/-- Why a move or a computation cannot be compiled. -/
inductive MoveError where
  | notSubRegion (role : RegionRole) (pattern : AffinePattern) (sizes : List Int)
  | tripMismatch (source target : AffinePattern)
  | strideNotMaskable (dim : Nat) (stride tile : Int)
  | badTiling (e : TilingError)
  | dimensionMismatch (expected got : Nat)
  deriving DecidableEq, Repr

namespace MoveError

/-- Sizes joined by `x`. -/
def sizesText (sizes : List Int) : String :=
  "x".intercalate (sizes.map toString)

def message : MoveError → String
  | .notSubRegion role pattern sizes =>
    s!"{role.text} pattern {pattern.text} is not a canonical sub-region of {sizesText sizes}"
  | .tripMismatch source target =>
    s!"trip mismatch between source {source.text} and destination {target.text}"
  | .strideNotMaskable dim stride tile =>
    s!"stride {stride} in dim {dim} cannot become a mask over tile size {tile}"
  | .badTiling e => s!"invalid tiling: {e.message}"
  | .dimensionMismatch expected got => s!"pattern has {got} dimensions, expected {expected}"

def code : MoveError → Code
  | .notSubRegion _ _ _ => .notSubRegion
  | .tripMismatch _ _ => .tripMismatch
  | .strideNotMaskable _ _ _ => .strideNotMaskable
  | .badTiling _ => .badTiling
  | .dimensionMismatch _ _ => .dimensionMismatch

instance : Reported MoveError where
  code := code
  message := message

end MoveError

/-! ## Tilings -/

/-- One dimension of an array: the size of a tile and the number of tiles. -/
structure TiledDim where
  tile : Int
  count : Int
  tile_pos : 0 < tile
  count_pos : 0 < count
  deriving DecidableEq, Repr

namespace TiledDim

/-- Elements along the dimension. -/
def size (d : TiledDim) : Int :=
  d.tile * d.count

/-- The dimension of `size` elements in tiles of `tile`. -/
def ofSize? (size tile : Int) : Option TiledDim :=
  if h : 0 < size ∧ 0 < tile ∧ tile ∣ size then
    some { tile, count := size / tile, tile_pos := h.2.1,
           count_pos := Int.ediv_pos_of_pos_of_dvd h.1 (Int.le_of_lt h.2.1) h.2.2 }
  else none

end TiledDim

/-- Memory hardware, and an array tiled over it. -/
structure Tiling where
  hardware : Hardware
  dims : List TiledDim
  wordlineBits : Nat := 32
  deriving DecidableEq, Repr

namespace Tiling

def arraySizes (t : Tiling) : List Int :=
  t.dims.map TiledDim.size

def tileSizes (t : Tiling) : List Int :=
  t.dims.map TiledDim.tile

def tileCounts (t : Tiling) : List Int :=
  t.dims.map TiledDim.count

/-- The dimensions of an array, from dimension `d` on. -/
def dimsFrom (d : Nat) : List Int → List Int → Except TilingError (List TiledDim)
  | size :: sizes, tile :: tiles =>
    match TiledDim.ofSize? size tile with
    | none => .error (.unevenSize d size tile)
    | some dim => do
      let dims ← dimsFrom (d + 1) sizes tiles
      return dim :: dims
  | _, _ => .ok []

/-- The tiling, if it fits its hardware. -/
def fit (t : Tiling) : Except TilingError Tiling :=
  let elements := t.tileSizes.prod
  let tiles := t.tileCounts.prod
  if t.hardware.bitlines < elements then .error (.tileTooLarge elements t.hardware.bitlines)
  else if t.hardware.totalArrays < tiles then .error (.tooManyTiles tiles t.hardware.totalArrays)
  else .ok t

/-- The tiling of an array of these sizes in tiles of these sizes. There is at least one dimension. -/
def ofSizes (hardware : Hardware) (sizes tiles : List Int) : Except MoveError Tiling :=
  if sizes = [] ∨ sizes.length ≠ tiles.length then
    .error (.dimensionMismatch sizes.length tiles.length)
  else
    match (dimsFrom 0 sizes tiles).bind fun dims => fit { hardware, dims } with
    | .ok t => .ok t
    | .error e => .error (.badTiling e)

/-- A pattern has as many dimensions as the array. -/
def checkDims (t : Tiling) (p : AffinePattern) : Except MoveError Unit :=
  if p.dims = t.dims.length then .ok () else .error (.dimensionMismatch t.dims.length p.dims)

def isSubRegion (t : Tiling) (p : AffinePattern) (reuse : Bool) : Bool :=
  p.isSubRegion t.arraySizes reuse

/-- Refuses a pattern that is not a sub-region. The error shows the pattern as it was given. -/
def checkSubRegion (t : Tiling) (role : RegionRole) (given p : AffinePattern) (reuse : Bool) :
    Except MoveError Unit :=
  if t.isSubRegion p reuse then .ok () else .error (.notSubRegion role given t.arraySizes)

end Tiling
end StreamEngine
