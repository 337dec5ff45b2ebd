import StreamEngine.Fault

/-!
# Strands

A stream's elements are divided among strands in one of two ways.

- *Interleave* deals runs of consecutive elements to the strands in turn.
- *Ranges* give each strand one contiguous range.

Both come with the two maps between an index in the stream and an index in a strand, and with the
number of elements that a strand owns. The products among them, the elements of a round
(`Interleave.period`) and of the rounds before it, are natural numbers here: nothing holds them to 64-bit
words.
-/

namespace StreamEngine

/-- A strand of a stream that has this many, refused where there is no such strand. -/
def StrandId.part (stream : StreamId) (index total : Nat) : Except Fault StrandId :=
  let s : StrandId := { stream, index, total }
  if index < total then .ok s else .error (.pattern (.noSuchStrand s))

/-- An element named by its strand and its index there. -/
structure StrandElem where
  strand : Nat
  elem : Nat
  deriving DecidableEq, Repr, Inhabited

/-! ## Dealing runs -/

/-- Runs of `run` elements, dealt to `strands` strands in turn. -/
@[ext]
structure Interleave where
  run : Nat
  strands : Nat
  run_pos : 0 < run
  strands_pos : 0 < strands
  deriving Repr

namespace Interleave

instance : DecidableEq Interleave := fun _ _ =>
  decidable_of_iff _ Interleave.ext_iff.symm

/-- An interleave with runs and strands, which must both be positive. -/
def checked (run strands : Nat) : Except Fault Interleave :=
  if run_pos : 0 < run then
    if strands_pos : 0 < strands then .ok { run, strands, run_pos, strands_pos }
    else .error (.pattern .zeroStrands)
  else .error (.pattern .zeroInterleave)

/-- Elements dealt in one round. -/
def period (i : Interleave) : Nat :=
  i.run * i.strands

def toStrand (i : Interleave) (idx : Nat) : StrandElem :=
  { strand := idx / i.run % i.strands, elem := idx / i.period * i.run + idx % i.run }

def toStream (i : Interleave) (e : StrandElem) : Nat :=
  e.elem / i.run * i.period + e.strand * i.run + e.elem % i.run

/-- Elements of strand `s` among the first `trip` elements of the stream: whole rounds, then what the
last round leaves for it. -/
def tripCount (i : Interleave) (trip s : Nat) : Nat :=
  trip / i.period * i.run + min (trip % i.period - s * i.run) i.run

end Interleave

/-! ## Partitions -/

/-- A partition of a stream among strands. -/
inductive StrandSplit where
  | interleave (i : Interleave)
  /-- Strand `s` owns the indices from bound `s` up to bound `s + 1`. -/
  | ranges (bounds : List Nat)
  deriving DecidableEq, Repr

namespace StrandSplit

/-- Runs of `run` elements dealt to `strands` strands. -/
def interleaved (run strands : Nat) : Except Fault StrandSplit := do
  let i ← Interleave.checked run strands
  return .interleave i

/-- Bounds of a division of `trip` elements into `strands` ranges whose lengths differ by at most one,
the longer ones first. -/
def evenBounds (trip strands : Nat) : List Nat :=
  (List.range (strands + 1)).map fun s => s * (trip / strands) + min s (trip % strands)

/-- An even division of `trip` elements into ranges. -/
def byElem (trip strands : Nat) : Except Fault StrandSplit :=
  if strands = 0 then .error (.pattern .zeroStrands)
  else .ok (.ranges (evenBounds trip strands))

def totalStrands : StrandSplit → Nat
  | .interleave i => i.strands
  | .ranges bounds => bounds.length - 1

/-- The range that holds `idx`: the last one that starts at or below it. Indices past the end stay
with the last range. -/
def rangeOf (bounds : List Nat) (idx : Nat) : Nat :=
  min ((bounds.takeWhile (· ≤ idx)).length - 1) (bounds.length - 2)

/-- Strand and index there of element `idx` of the stream. -/
def toStrand (p : StrandSplit) (idx : Nat) : Except Fault StrandElem :=
  match p with
  | .interleave i => .ok (i.toStrand idx)
  | .ranges bounds =>
    match bounds[rangeOf bounds idx]? with
    | none => .error .bounds
    | some lo =>
      if bounds.length < 2 ∨ idx < lo then .error .arithmetic
      else .ok { strand := rangeOf bounds idx, elem := idx - lo }

/-- Index in the stream of an element of a strand. -/
def toStream (p : StrandSplit) (e : StrandElem) : Except Fault Nat :=
  match p with
  | .interleave i => .ok (i.toStream e)
  | .ranges bounds =>
    match bounds[e.strand]? with
    | none => .error .bounds
    | some lo => .ok (lo + e.elem)

/-- Elements that strand `s` owns in a stream of `trip` elements. Ranges have lengths of their own. -/
def tripCount (p : StrandSplit) (trip s : Nat) : Except Fault Nat :=
  match p with
  | .interleave i => .ok (i.tripCount trip s)
  | .ranges bounds =>
    match bounds[s]?, bounds[s + 1]? with
    | some lo, some hi => if hi < lo then .error .arithmetic else .ok (hi - lo)
    | _, _ => .error .bounds

def text : StrandSplit → String
  | .interleave i => s!"Intrlv[{i.run}x{i.strands}]"
  | .ranges bounds => "ByElem[" ++ ",".intercalate (bounds.map toString) ++ "]"

end StrandSplit
end StreamEngine
