import StreamEngine.Affine.Box
import StreamEngine.Linear.Basic

/-!
# Affine patterns

An affine pattern walks the cells of an array: a start index, and for each dimension a stride and a
number of steps, innermost dimension first. Here trips are plain extents, not cumulative products.

The pattern of a box in an array of sizes `S` is its *canonical sub-region*: dimension `d` has stride
`S₀ * … * S_(d-1)`, and the start index decomposes into the lower corner of the box.

Division truncates toward zero, as everywhere on signed indices. Operations whose name ends in a
question mark check for the divisions that have no answer.

- `AffinePattern.value?`, `AffinePattern.totalTrip?`, `AffinePattern.allValues?` : they also check that
  every product and every sum on the way is a signed word;
- `AffinePattern.value`, `AffinePattern.totalTrip`, `AffinePattern.allValues` : the numbers themselves.

Sizes of arrays, their products and the corners of boxes are numbers that nothing holds to words.
-/

namespace StreamEngine

/-! ## Index arithmetic -/

/-- Least signed 64-bit number, the one whose negation does not fit. -/
def leastIndex : Int := -2 ^ 63

/-- The signed reading of a 64-bit word. -/
def signedWord (n : Nat) : Int :=
  Int.bmod n (2 ^ 64)

/-- A signed 64-bit word holds the number. -/
def fitsWord (n : Int) : Bool :=
  leastIndex ≤ n && n < 2 ^ 63

/-- Truncated division by `b` has an answer that fits a signed word. -/
def divides (a b : Int) : Bool :=
  b != 0 && !(a == leastIndex && b == -1)

/-- Products of the sizes below each dimension, times `unit`. -/
def canonicalFrom (unit : Int) : List Int → List Int
  | [] => []
  | s :: rest => unit :: canonicalFrom (unit * s) rest

/-- Products of the sizes below each dimension: `1, S₀, S₀ * S₁, …`. -/
def canonicalStrides (sizes : List Int) : List Int :=
  canonicalFrom 1 sizes

/-- Index of a point in an array of these sizes, dimension 0 fastest. -/
def linearize (point sizes : List Int) : Int :=
  (List.zipWith (· * ·) point (canonicalStrides sizes)).sum

/-! ## Patterns -/

/-- Steps along one dimension. -/
structure Axis where
  stride : Int
  trip : Int
  deriving DecidableEq, Repr, Inhabited

/-- A start index and the steps along each dimension, innermost first. -/
structure AffinePattern where
  start : Int
  axes : List Axis
  deriving DecidableEq, Repr, Inhabited

namespace AffinePattern

def dims (p : AffinePattern) : Nat :=
  p.axes.length

def strides (p : AffinePattern) : List Int :=
  p.axes.map Axis.stride

def trips (p : AffinePattern) : List Int :=
  p.axes.map Axis.trip

/-- Number of elements. -/
def totalTrip (p : AffinePattern) : Int :=
  p.trips.prod

/-- The product of trips, multiplied one after the other to `n`. -/
def multiply? (n : Int) : List Int → Except Fault Int
  | [] => .ok n
  | trip :: rest => if fitsWord (n * trip) then multiply? (n * trip) rest else .error .arithmetic

/-- Number of elements, for any pattern. -/
def totalTrip? (p : AffinePattern) : Except Fault Int :=
  multiply? 1 p.trips

/-- Index reached from `at` after `idx` steps through the axes. A zero trip ends the walk. -/
def walk (here idx : Int) : List Axis → Int
  | [] => here
  | a :: rest =>
    if a.trip = 0 then here
    else walk (here + a.stride * idx.tmod a.trip) (idx.tdiv a.trip) rest

/-- Array index of element `idx`. -/
def value (p : AffinePattern) (idx : Int) : Int :=
  walk p.start idx p.axes

/-- Every division on the way from `here` has an answer, and every step and every index that is passed is
a word. -/
def walkable (here idx : Int) : List Axis → Bool
  | [] => true
  | a :: rest =>
    let step := a.stride * idx.tmod a.trip
    a.trip == 0 || (divides idx a.trip && fitsWord step && fitsWord (here + step) &&
      walkable (here + step) (idx.tdiv a.trip) rest)

/-- Array index of element `idx`, for any pattern and index. -/
def value? (p : AffinePattern) (idx : Int) : Except Fault Int :=
  if walkable p.start idx p.axes then .ok (p.value idx) else .error .arithmetic

/-- Array indices of all elements in order. -/
def allValues (p : AffinePattern) : List Int :=
  (List.range p.totalTrip.toNat).map fun (i : Nat) => p.value i

/-- Array indices of all elements in order, for any pattern. -/
def allValues? (p : AffinePattern) : Except Fault (List Int) := do
  let total ← p.totalTrip?
  (List.range total.toNat).mapM fun (i : Nat) => p.value? i

/-- The pattern of a linear pattern, its words read as signed numbers. -/
def ofLinear (p : LinearPattern) : AffinePattern :=
  { start := p.start.toInt64.toInt,
    axes := List.zipWith (fun l e => { stride := l.stride.toInt, trip := signedWord e })
      p.levels p.extents }

def text (p : AffinePattern) : String :=
  toString p.start ++ String.join (p.axes.map fun a => s!":{a.stride}:{a.trip}")

/-! ## Sub-regions -/

/-- Coordinate of `start` in a dimension of this canonical stride and size. -/
def coordinate (start unit size : Int) : Int :=
  (start.tdiv unit).tmod size

/-- The start index as a point of an array of these sizes. -/
def corner (p : AffinePattern) (sizes : List Int) : List Int :=
  List.zipWith (coordinate p.start) (canonicalStrides sizes) sizes

/-- The start index as a point, for any sizes. -/
def corner? (p : AffinePattern) (sizes : List Int) : Except Fault (List Int) :=
  let answered := (List.zip (canonicalStrides sizes) sizes).all fun (unit, size) =>
    divides p.start unit && divides (p.start.tdiv unit) size
  if answered then .ok (p.corner sizes) else .error .arithmetic

/-- The steps along one dimension stay inside the array at the canonical stride, or, with `reuse`, do
not move at all. -/
def axisFits (reuse : Bool) (corner unit size : Int) (a : Axis) : Bool :=
  0 < a.trip &&
    if a.stride = unit then corner + a.trip ≤ size
    else reuse && a.stride == 0 && corner < size

/-- Every axis fits its dimension, and there is one axis for each dimension. -/
def axesFit (reuse : Bool) (start unit : Int) : List Int → List Axis → Bool
  | [], [] => true
  | s :: sizes, a :: axes =>
    axisFits reuse (coordinate start unit s) unit s a && axesFit reuse start (unit * s) sizes axes
  | _, _ => false

/-- The pattern is a canonical sub-region of an array of these sizes. With `reuse`, dimensions that do
not move are allowed too. -/
def isSubRegion (p : AffinePattern) (sizes : List Int) (reuse : Bool) : Bool :=
  0 ≤ p.start && p.start < sizes.prod && axesFit reuse p.start 1 sizes p.axes

/-- The canonical sub-region with this lower corner and these extents. -/
def subRegion (sizes starts trips : List Int) : AffinePattern :=
  { start := linearize starts sizes,
    axes := List.zipWith Axis.mk (canonicalStrides sizes) trips }

/-- The canonical sub-region; sizes, corner and extents must have one dimension. -/
def subRegion? (sizes starts trips : List Int) : Except Fault AffinePattern :=
  if sizes.length = starts.length ∧ sizes.length = trips.length then
    .ok (subRegion sizes starts trips)
  else .error .lengths

/-- The span from a coordinate along one axis; a dimension that does not move has one coordinate. -/
def spanAt (corner : Int) (a : Axis) : Span :=
  { lo := corner, hi := if a.stride = 0 then corner + 1 else corner + a.trip }

/-- The box that a sub-region covers. -/
def toBox (p : AffinePattern) (sizes : List Int) : Box :=
  { spans := List.zipWith spanAt (p.corner sizes) p.axes }

/-- The box that a pattern covers; it needs an axis for each dimension of the array. -/
def toBox? (p : AffinePattern) (sizes : List Int) : Except Fault Box := do
  let corner ← p.corner? sizes
  if p.dims < corner.length then .error .lengths else .ok (p.toBox sizes)

end AffinePattern

/-! ## Boxes as patterns -/

namespace Box

/-- The canonical sub-region of a box in an array of these sizes. -/
def toPattern (b : Box) (sizes : List Int) : AffinePattern :=
  AffinePattern.subRegion sizes b.lo b.extents

/-- The canonical sub-region of a box, which must have the dimension of the array. -/
def toPattern? (b : Box) (sizes : List Int) : Except Fault AffinePattern :=
  AffinePattern.subRegion? sizes b.lo b.extents

end Box
end StreamEngine
