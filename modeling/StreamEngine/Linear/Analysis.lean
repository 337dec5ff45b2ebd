import StreamEngine.Linear.Describe

/-!
# Analysis of linear patterns

Questions that a parameter list answers without evaluating elements: is the walk free of gaps, which
element reaches an address first, and how often is the same footprint walked again.
-/

namespace StreamEngine
namespace Linear

/-- The walk has no gaps: the innermost stride is no larger than an element, and each outer stride
continues where the levels below it end. -/
def isContinuous (ps : Formal) (elemSize : Nat) : Bool :=
  match invariantWords ps with
  | .error _ => false
  | .ok words =>
    let inner := innerStrideOf words
    2 ≤ words.length && inner.toNat ≤ elemSize &&
      (outerLevels words).all fun (trip, stride) => inner * trip == stride

/-- The innermost stride, where it is invariant. -/
def innerStride? (ps : Formal) : Option Int64 := do
  let p ← ps.head?
  let w ← p.word?
  return w.toInt64

/-- The start address, where it is invariant. -/
def startAddr? (ps : Formal) : Option UInt64 := do
  let p ← ps.getLast?
  p.word?

/-- Cumulative trip of loop level `level`, counted from 1 for the innermost. -/
def nestTrip? (ps : Formal) (level : Nat) : Option UInt64 :=
  if level = 0 ∨ (ps.length - 1) / 2 < level then none
  else ps[2 * level - 1]? >>= Param.word?

/-- Index, counted along the innermost stride, of the first element behind `addr`. There is none
where `addr` lies within the first element or the stride is not positive. -/
def firstElement? (ps : Formal) (elemSize : Nat) (addr : UInt64) : Option Nat := do
  let start ← startAddr? ps
  let stride ← innerStride? ps
  if stride ≤ 0 ∨ addr.toNat ≤ start.toNat + elemSize then none
  else some ((addr.toNat - start.toNat) / stride.toInt.toNat + 1)

/-! ## Reuse inside one stream -/

/-- A footprint that one stream walks again. -/
structure ReuseEstimate where
  /-- Bytes touched before the walk falls back to its start. -/
  footprint : Nat
  /-- Least number of walks over that footprint. -/
  count : Nat
  deriving DecidableEq, Repr

/-- The first level that does not move, among strides and trips in alternation: the trip below it,
and its own trip where one follows. -/
def stationaryLevel? (below : Option UInt64) :
    List UInt64 → Option (Option UInt64 × Option UInt64)
  | [] => none
  | [s] => if s = 0 then some (below, none) else none
  | s :: t :: rest => if s = 0 then some (below, some t) else stationaryLevel? (some t) rest

/-- The reuse behind the first zero stride. Below it an element counts with the bytes it adds: no
more than the innermost stride, unless that is the zero stride. -/
def estimateReuse (ps : Formal) (elemSize : Nat) :
    Except PatternError (Option ReuseEstimate) := do
  let words ← invariantWords ps
  if words.length < 2 then .error (.paramCount ps)
  else
    match stationaryLevel? none words.dropLast with
    | none => .ok none
    | some (below, own) =>
      let bytes :=
        match below with
        | none => elemSize
        | some _ => min elemSize (innerStrideOf words).toInt64.toInt.natAbs
      let trip := (below.getD 1).toNat
      let count :=
        match own with
        | none => 1
        | some t => if trip = 0 then 1 else t.toNat / trip
      .ok (some { footprint := trip * bytes, count })

end Linear

namespace LinearPattern

/-- Collapses a pattern without gaps to its innermost stride and total trip. -/
def flatten? (p : LinearPattern) : Option LinearPattern :=
  p.levels.head?.map fun l => oneDim p.start l.stride p.totalTrip

end LinearPattern
end StreamEngine
