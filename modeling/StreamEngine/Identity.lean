import StreamEngine.Text.Hex

/-!
# Identities

A *dynamic stream* is one configured instance of a static stream on a core. A stream may be
partitioned, and a *strand* names one part of it; an unsplit stream is its own single strand.

- `StreamId`, `StrandId` : identities with their printed forms `C0-S1-I1` and `C0-S1-I1-T0/4`;
- `ConfigId`, `ElementId`, `AccessId` : keys of the tables that hold configurations, elements and
  in-flight accesses;
- `ElementLabel` : the stream and index of an element, which outlives the reuse of its key;
- `Slice` : consecutive elements of a strand that touch one cache line;
- `InstanceCounter` : numbers the instances of each static stream from 1.
-/

namespace StreamEngine

/-- Identity of a static stream, assigned before the program runs. -/
abbrev StaticId := Nat

/-- One dynamic instance of a static stream on a core. -/
structure StreamId where
  core : Int
  staticId : StaticId
  instanceNo : Nat
  deriving DecidableEq, Repr, Inhabited, Ord

namespace StreamId

/-- Instances of one static stream on one core share everything but the instance number. -/
def sameStatic (a b : StreamId) : Bool :=
  a.core == b.core && a.staticId == b.staticId

/-- Printed form, for example `C0-S1-I1`. -/
def text (s : StreamId) : String :=
  s!"C{s.core}-S{s.staticId}-I{s.instanceNo}"

end StreamId

/-- One strand of a stream. `total = 1` means that the stream is not split. -/
structure StrandId where
  stream : StreamId
  index : Nat
  total : Nat
  deriving DecidableEq, Repr, Inhabited, Ord

namespace StrandId

/-- The whole stream as its only strand. -/
def whole (s : StreamId) : StrandId :=
  { stream := s, index := 0, total := 1 }

/-- A strand of a stream that was split into more than one. -/
def isSplit (s : StrandId) : Bool :=
  s.total > 1

/-- Printed form: the stream, and behind it the strand where the stream is split. -/
def text (s : StrandId) : String :=
  if s.isSplit then s!"{s.stream.text}-T{s.index}/{s.total}" else s.stream.text

/-- Order by stream, then by strand index, then by number of strands. -/
def precedes (a b : StrandId) : Bool :=
  compare a b != .gt

/-- The strands in their order. -/
def inOrder (ss : List StrandId) : List StrandId :=
  ss.mergeSort precedes

end StrandId

/-! ## Table keys -/

/-- Key of a stream configuration in the dependence graph. -/
structure ConfigId where
  val : Nat
  deriving DecidableEq, Repr, Inhabited

/-- Key of an element in the element table. -/
structure ElementId where
  val : Nat
  deriving DecidableEq, Repr, Inhabited

/-- Key of an access in the pool of in-flight accesses. -/
structure AccessId where
  val : Nat
  deriving DecidableEq, Repr, Inhabited

def ConfigId.text (c : ConfigId) : String :=
  s!"ConfigId({c.val})"

def ElementId.text (e : ElementId) : String :=
  s!"ElementId({e.val})"

def AccessId.text (a : AccessId) : String :=
  s!"AccessId({a.val})"

/-- An element named by its stream and its index there. Keys are recycled, labels are not. -/
structure ElementLabel where
  stream : StreamId
  index : Nat
  deriving DecidableEq, Repr, Inhabited

/-- Printed form, for example `C0-S1-I1[3]`. -/
def ElementLabel.text (e : ElementLabel) : String :=
  s!"{e.stream.text}[{e.index}]"

/-! ## Slices -/

/-- Elements `lhs` up to but not including `rhs` of `strand`, all touching the line at `vaddr`. -/
structure Slice where
  strand : StrandId
  lhs : Nat
  rhs : Nat
  vaddr : UInt64
  size : Nat
  deriving DecidableEq, Repr, Inhabited

namespace Slice

def numElements (s : Slice) : Nat :=
  s.rhs - s.lhs

/-- Printed form, for example `C0-S1-I1[0, 8) 0x1000+64`. -/
def text (s : Slice) : String :=
  s!"{s.strand.text}[{s.lhs}, {s.rhs}) {Text.hexWord s.vaddr}+{s.size}"

end Slice

/-! ## Numbering instances -/

/-- The instances handed out so far, newest first. -/
structure InstanceCounter where
  issued : List StreamId := []
  deriving DecidableEq, Repr, Inhabited

namespace InstanceCounter

/-- How many instances of a static stream a core has configured. -/
def count (c : InstanceCounter) (core : Int) (staticId : StaticId) : Nat :=
  c.issued.countP fun s => s.core == core && s.staticId == staticId

/-- The next instance of a static stream. The first one is number 1. -/
def next (c : InstanceCounter) (core : Int) (staticId : StaticId) : StreamId × InstanceCounter :=
  let id : StreamId := { core, staticId, instanceNo := c.count core staticId + 1 }
  (id, { issued := id :: c.issued })

end InstanceCounter
end StreamEngine
