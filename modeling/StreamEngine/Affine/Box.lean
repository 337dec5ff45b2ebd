import StreamEngine.Arithmetic
import StreamEngine.Fault

/-!
# Boxes

A box is a half-open range of coordinates in each dimension. Dimension 0 comes first and varies
fastest wherever points are listed or numbered.

Operations whose name ends in a question mark check that dimensions exist and agree; the others take
that for granted.
-/

namespace StreamEngine

/-- The coordinates from `lo` up to but not including `hi`. -/
structure Span where
  lo : Int
  hi : Int
  deriving DecidableEq, Repr, Inhabited

namespace Span

/-- The span contains no coordinate. -/
def isEmpty (s : Span) : Bool :=
  s.hi ≤ s.lo

/-- Number of coordinates. -/
def extent (s : Span) : Int :=
  max (s.hi - s.lo) 0

def shift (s : Span) (delta : Int) : Span :=
  { lo := s.lo + delta, hi := s.hi + delta }

/-- Coordinates in both spans. -/
def intersect (a b : Span) : Span :=
  { lo := max a.lo b.lo, hi := min a.hi b.hi }

def contains (s : Span) (x : Int) : Bool :=
  s.lo ≤ x && x < s.hi

/-- The coordinates in order. -/
def toList (s : Span) : List Int :=
  (List.range s.extent.toNat).map fun (i : Nat) => s.lo + i

def text (s : Span) : String :=
  s!"[{s.lo},{s.hi})"

end Span

/-- One span for each dimension. -/
structure Box where
  spans : List Span
  deriving DecidableEq, Repr, Inhabited

namespace Box

/-- The box between two corners, which must have one dimension. -/
def ofCorners? (lo hi : List Int) : Except Fault Box :=
  if lo.length = hi.length then .ok { spans := List.zipWith Span.mk lo hi }
  else .error .lengths

/-- All coordinates of an array of these sizes. -/
def full (sizes : List Int) : Box :=
  { spans := sizes.map fun s => { lo := 0, hi := s } }

def dims (b : Box) : Nat :=
  b.spans.length

/-- The lower corner. -/
def lo (b : Box) : List Int :=
  b.spans.map Span.lo

/-- Some dimension has no coordinate. -/
def isEmpty (b : Box) : Bool :=
  b.spans.any Span.isEmpty

/-- Number of points. -/
def volume (b : Box) : Int :=
  if b.isEmpty then 0 else (b.spans.map fun s => s.hi - s.lo).prod

/-- Number of coordinates in each dimension. -/
def extents (b : Box) : List Int :=
  b.spans.map Span.extent

/-- Number of coordinates in one dimension. -/
def extent? (b : Box) (dim : Nat) : Except Fault Int :=
  match b.spans[dim]? with
  | some s => .ok s.extent
  | none => .error .bounds

/-- The box with one dimension replaced. -/
def withDim (b : Box) (dim : Nat) (s : Span) : Box :=
  { spans := b.spans.set dim s }

/-- The box with one of its dimensions replaced. -/
def withDim? (b : Box) (dim : Nat) (s : Span) : Except Fault Box :=
  if dim < b.dims then .ok (b.withDim dim s) else .error .bounds

/-- The box moved along one dimension. -/
def shift (b : Box) (dim : Nat) (delta : Int) : Box :=
  { spans := b.spans.modify dim fun s => s.shift delta }

/-- The box moved along one of its dimensions. -/
def shift? (b : Box) (dim : Nat) (delta : Int) : Except Fault Box :=
  if dim < b.dims then .ok (b.shift dim delta) else .error .bounds

/-- Points in both boxes, of one dimension. -/
def intersect (a b : Box) : Box :=
  { spans := List.zipWith Span.intersect a.spans b.spans }

/-- Points in both boxes, which must have one dimension. -/
def intersect? (a b : Box) : Except Fault Box :=
  if a.dims = b.dims then .ok (a.intersect b) else .error .lengths

/-- The part of the box inside an array of these sizes. -/
def clip (b : Box) (sizes : List Int) : Box :=
  b.intersect (full sizes)

/-- Each coordinate of the point lies in its span. Dimensions that only one of them has do not
count. -/
def contains (b : Box) (point : List Int) : Bool :=
  (b.spans.zip point).all fun (s, x) => s.contains x

/-- Every point of a list of spans, dimension 0 varying fastest. -/
def pointsOf : List Span → List (List Int)
  | [] => [[]]
  | s :: rest => (pointsOf rest).flatMap fun tail => s.toList.map fun x => x :: tail

/-- Every point, dimension 0 varying fastest. -/
def points (b : Box) : List (List Int) :=
  pointsOf b.spans

/-- The spans of all dimensions, joined by `x`. -/
def text (b : Box) : String :=
  "x".intercalate (b.spans.map Span.text)

end Box
end StreamEngine
