import StreamEngine.Formal

/-!
# Linear patterns

A linear pattern is a loop nest over addresses. On the wire it is a list of words

    stride0, trip1, stride1, trip2, stride2, ..., [trip], start

innermost loop first. Every trip is *cumulative*: the number of elements that the loops up to and
including that level produce. The last trip, the total, bounds nothing and may be missing.

- `Linear.address` : the address of one element, modulo 2^64;
- `LinearPattern` : a nest together with its total trip.
-/

namespace StreamEngine
namespace Linear

/-! ## Parts of a parameter list -/

/-- The last word of a list is the address of element 0. -/
def startOf (words : List UInt64) : UInt64 :=
  words.getLastD 0

/-- The first word of a list is the stride of the innermost loop. -/
def innerStrideOf (words : List UInt64) : UInt64 :=
  words.headD 0

/-- The outer levels behind the innermost stride, innermost first: the cumulative trip below a level,
and the stride of the level. A trip that no stride follows is the total and forms no level. -/
def outerOf : List UInt64 → List (UInt64 × UInt64)
  | trip :: stride :: rest => (trip, stride) :: outerOf rest
  | _ => []

/-- The outer levels of a whole list. -/
def outerLevels (words : List UInt64) : List (UInt64 × UInt64) :=
  outerOf words.dropLast.tail

/-- The cumulative trips of strides and trips in alternation. -/
def tripsOf : List UInt64 → List UInt64
  | _ :: trip :: rest => trip :: tripsOf rest
  | _ => []

/-! ## Evaluation -/

/-- Peels the outer levels from the outermost inward. Each level takes the quotient of the index by
the trip below it and leaves the remainder; a level above a zero trip is passed over. Gives the
address reached so far and the index left for the innermost loop. -/
def peel (start : UInt64) (idx : Nat) : List (UInt64 × UInt64) → UInt64 × Nat
  | [] => (start, idx)
  | (trip, stride) :: outer =>
    let (addr, rest) := peel start idx outer
    if trip = 0 then (addr, rest)
    else (addr + stride * UInt64.ofNat (rest / trip.toNat), rest % trip.toNat)

/-- Address of element `idx` modulo 2^64, for a list of at least two words. -/
def address (words : List UInt64) (idx : Nat) : UInt64 :=
  let (addr, rest) := peel (startOf words) idx (outerLevels words)
  addr + innerStrideOf words * UInt64.ofNat rest

end Linear

/-! ## Patterns with a total trip -/

/-- One loop level: the distance of a step, and the cumulative trip through this level. -/
structure Level where
  stride : Int64
  trip : Nat
  deriving DecidableEq, Repr, Inhabited

/-- A loop nest with its total trip, innermost level first. -/
structure LinearPattern where
  start : UInt64
  levels : List Level
  deriving DecidableEq, Repr, Inhabited

namespace LinearPattern

/-- One loop of `trip` steps. -/
def oneDim (start : UInt64) (stride : Int64) (trip : Nat) : LinearPattern :=
  { start, levels := [{ stride, trip }] }

/-- The pattern of as many strides as trips. -/
def ofLists? (start : UInt64) (strides : List Int64) (trips : List Nat) : Option LinearPattern :=
  if strides.length = trips.length then
    some { start, levels := List.zipWith (fun stride trip => { stride, trip }) strides trips }
  else none

def strides (p : LinearPattern) : List Int64 :=
  p.levels.map Level.stride

def trips (p : LinearPattern) : List Nat :=
  p.levels.map Level.trip

def dims (p : LinearPattern) : Nat :=
  p.levels.length

/-- Number of elements: the trip of the outermost level. -/
def totalTrip (p : LinearPattern) : Nat :=
  p.trips.getLastD 0

/-- The parameter list that encodes the pattern, total trip included. -/
def words (p : LinearPattern) : List UInt64 :=
  p.levels.flatMap (fun l => [l.stride.toUInt64, UInt64.ofNat l.trip]) ++ [p.start]

/-- The formal parameter list of the pattern. -/
def toFormal (p : LinearPattern) : Formal :=
  Formal.ofWords p.words

/-- Number of steps of each loop by itself, given the trip below the first one: the quotient of
neighbouring cumulative trips, and zero above a zero trip. -/
def extentsAbove (below : Nat) : List Nat → List Nat
  | [] => []
  | t :: ts => (if below = 0 then 0 else t / below) :: extentsAbove t ts

/-- Number of steps of each loop by itself. -/
def extents (p : LinearPattern) : List Nat :=
  extentsAbove 1 p.trips

end LinearPattern
end StreamEngine
