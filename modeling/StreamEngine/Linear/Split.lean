import StreamEngine.Arithmetic
import StreamEngine.Linear.Describe
import StreamEngine.Strand

/-!
# Splitting linear patterns

Three ways to give one strand its share of a pattern as a pattern of its own.

- `LinearPattern.splitRange` : a contiguous range of a single loop;
- `LinearPattern.splitRuns` : runs dealt in turn out of a single loop;
- `LinearPattern.splitDim` : units of steps of one loop of a nest, dealt in turn.

Addresses wrap. Trips and the steps of a round, `unit * strands` in `LinearPattern.dealUnits` among them,
are natural numbers here: nothing holds these products to 64-bit words.
-/

namespace StreamEngine
namespace LinearPattern

/-- The address `steps` steps of `stride` behind `start`, modulo 2^64. -/
def advance (start : UInt64) (stride : Int64) (steps : Nat) : UInt64 :=
  start + (stride * Int64.ofNat steps).toUInt64

/-- Elements `lo` up to but not including `hi` of a single loop. -/
def splitRange (p : LinearPattern) (lo hi : Nat) : Except PatternError LinearPattern :=
  match p.levels with
  | [l] =>
    if hi ≤ lo ∨ p.totalTrip < hi then .error (.unsupportedSplit p (.badRange lo hi))
    else .ok (oneDim (advance p.start l.stride lo) l.stride (hi - lo))
  | _ => .error (.unsupportedSplit p .rangeOfNest)

/-- The share of strand `s` when runs of a single loop are dealt in turn: one loop inside a run and
one over the rounds. -/
def dealRuns (start : UInt64) (l : Level) (i : Interleave) (s : Nat) : LinearPattern :=
  let trip := i.tripCount l.trip s
  { start := advance start l.stride (s * i.run),
    levels := [{ stride := l.stride, trip := min trip i.run },
      { stride := l.stride * Int64.ofNat (i.strands * i.run), trip }] }

/-- The share of strand `s` of `strands` when runs of `run` elements of a single loop are dealt. -/
def splitRuns (p : LinearPattern) (run strands s : Nat) :
    Except (Failure PatternError) LinearPattern :=
  match p.levels with
  | [l] => do
    let i ← Failure.ofFault (Interleave.checked run strands)
    return dealRuns p.start l i s
  | _ => .error (.refused (.unsupportedSplit p .interleaveOfNest))

/-! ## One loop of a nest -/

/-- Cumulative trips of the levels above a split, from the trip below them and their extents. -/
def raiseTrips (below : Nat) : List (Level × Nat) → List Level
  | [] => []
  | (l, extent) :: rest =>
    { stride := l.stride, trip := below * extent } :: raiseTrips (below * extent) rest

/-- Steps that strand `s` takes inside one unit, and its number of units, when the `extent` steps of
an inner loop are dealt in units of `unit` steps to `strands` strands. In a loop too short for one
round the strand that meets its end gets a part of a unit and later strands get nothing. A last round
that ends inside a unit is refused: the strands would need loops of different shapes. -/
def dealUnits (p : LinearPattern) (extent unit strands s : Nat) (outermost : Bool) :
    Except (Failure PatternError) (Nat × Nat) :=
  let period := unit * strands
  if period ≤ extent then
    if period = 0 then .error (.fault .arithmetic)
    else
      let rem := extent % period
      if rem % unit ≠ 0 ∧ outermost = false then
        .error (.refused (.unsupportedSplit p (.unevenRemainder rem unit)))
      else .ok (unit, extent / period + if s < (rem + unit - 1) / unit then 1 else 0)
  else
    let last := extent / unit
    let steps := if s = last then extent - last * unit else if last < s then 0 else unit
    .ok (steps, 1)

/-- The share of strand `s` of `strands` when the steps of loop `dim` are dealt in units. A unit is as
many steps as make `interleave` elements. -/
def splitDim (p : LinearPattern) (dim interleave s strands : Nat) :
    Except (Failure PatternError) LinearPattern := do
  match p.levels[dim]?, p.extents[dim]? with
  | some l, some extent =>
    if p.trips.any (· == 0) then throw (.refused (.unsupportedSplit p .zeroTrip))
    let inner := (p.extents.take dim).prod
    let uneven : Failure PatternError :=
      .refused (.unsupportedSplit p (.unevenInterleave interleave inner))
    if interleave = 0 then throw uneven
    if inner = 0 then throw (.fault .arithmetic)
    if interleave % inner ≠ 0 then throw uneven
    let unit := interleave / inner
    let outermost := dim + 1 == p.dims
    let (steps, units) ← dealUnits p extent unit strands s outermost
    let i ← Failure.ofFault (Interleave.checked unit strands)
    let trip := if outermost then i.tripCount extent s * inner else units * steps * inner
    let above := (p.levels.zip p.extents).drop (dim + 1)
    return {
      start := advance p.start l.stride (s * unit),
      levels := p.levels.take dim ++
        { stride := l.stride, trip := steps * inner } ::
        { stride := l.stride * Int64.ofNat (unit * strands), trip } ::
        raiseTrips trip above }
  | _, _ => throw (.refused (.unsupportedSplit p (.noSuchDim dim)))

end LinearPattern
end StreamEngine
