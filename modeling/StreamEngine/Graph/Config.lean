import StreamEngine.Affine.Pattern
import StreamEngine.Compute
import StreamEngine.FloatPlan
import StreamEngine.Strand

/-!
# Stream configurations

A configuration says what a stream is: its parameters, its trip counts, where it floats, and its
edges to other streams. When a stream is split, each strand has a configuration of its own that points
back at the one it was split from.
-/

namespace StreamEngine

/-- Reuse in groups of `tile` elements, which must be positive. -/
def Reuse.tiled (count tile : Nat) : Except Fault Reuse :=
  if h : 0 < tile then .ok { count, tile, tile_pos := h } else .error (.graph .zeroReuseTile)

/-- A condition under which an edge is taken. -/
structure Predicate where
  func : Int
  value : Bool
  deriving DecidableEq, Repr

/-- The patterns of a transfer inside memory. -/
structure MemorySend where
  broadcast : AffinePattern
  recv : AffinePattern
  recvTile : AffinePattern
  deriving DecidableEq, Repr

/-- One direction of a dependence between two configurations. -/
structure Edge where
  kind : EdgeKind
  peer : ConfigId
  peerStrand : StrandId
  reuse : Reuse := {}
  skip : Nat := 0
  /-- A base edge that answers a `usedBy` edge of the base. -/
  answersUsedBy : Bool := false
  pred : Option Predicate := none
  memory : Option MemorySend := none
  deriving DecidableEq, Repr

namespace Edge

/-- Dependent index that base element `b` first serves along the edge. -/
def toDependent (e : Edge) (b : Nat) : Nat :=
  e.reuse.toDependent e.skip b

/-- Base index that dependent element `d` uses along the edge. -/
def toBase (e : Edge) (d : Nat) : Nat :=
  e.reuse.toBase e.skip d

end Edge

/-- The configuration of a stream, or of one of its strands. -/
structure Config where
  id : StreamId
  strandIdx : Nat := 0
  totalStrands : Nat := 1
  /-- On a strand: the configuration it was split from. -/
  parent : Option ConfigId := none
  elemSize : Nat
  formal : Formal
  generator : Generator
  totalTrip : Option Nat := none
  innerTrip : Option Nat := none
  loopLevel : Nat := 0
  isPointerChase : Bool := false
  isOneIterBehind : Bool := false
  split : Option StrandSplit := none
  floatPlan : FloatPlan := {}
  baseEdges : List Edge := []
  depEdges : List Edge := []
  refs : Nat := 0
  ended : Bool := false

namespace Config

def isStrand (c : Config) : Bool :=
  c.parent.isSome

/-- What the configuration is found under: the strand it describes, or the whole stream. A stream
keeps its whole identity when strands are split off it. A strand does not: it counts as one of the
strands it was itself split into, and where there are too few of them for its index it has no identity
any more. -/
def strandId (c : Config) : Except Fault StrandId :=
  if c.isStrand then StrandId.part c.id c.strandIdx c.totalStrands else .ok (.whole c.id)

/-- A strand, or a stream that has strands. -/
def isSplit (c : Config) : Bool :=
  c.totalStrands > 1

/-- Address of element `idx`, where no parameter refers to a base stream. -/
def address (c : Config) (idx : Nat) : Except Fault UInt64 :=
  c.generator.invariantAddress c.formal idx

/-- The configuration has ended and nothing refers to it. -/
def isDone (c : Config) : Bool :=
  c.ended && c.refs == 0

end Config
end StreamEngine
