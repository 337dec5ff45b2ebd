import StreamEngine.Capacity
import StreamEngine.Identity
import StreamEngine.Reuse

/-!
# Faults

A fault stops the operation in which it occurs: a broken invariant of the engine, an index outside a
list, a division that has no answer. Nothing is reported back that a caller could act on, unlike the
errors of `Reported` types, which leave the engine in a state that can go on.

- `Fault` : the cause, with its text where it has one;
- `Failure` : a fault or a reported error, for operations that have both.
-/

namespace StreamEngine

/-! ## Broken invariants, by concern -/

/-- Address patterns and strand partitions. -/
inductive PatternFault where
  | tooFewWords
  | baseOfInvariant (id : StaticId)
  | zeroInterleave
  | zeroStrands
  | noSuchStrand (strand : StrandId)
  deriving DecidableEq, Repr

def PatternFault.message : PatternFault → String
  | .tooFewWords => "linear pattern needs at least 2 params"
  | .baseOfInvariant id => s!"resolver invoked for base stream {id} on an invariant pattern"
  | .zeroInterleave => "zero strand interleave"
  | .zeroStrands => "zero strands"
  | .noSuchStrand s => s!"strand {s.index} out of {s.total} strands for {s.stream.text}"

/-- The dependence graph. -/
inductive GraphFault where
  | floatOrder (idx last : Nat)
  | zeroReuseTile
  | illegalEdge (kind : EdgeKind) (reuse : Reuse) (skip : Int) (source target : StrandId)
  | mismatchedSend (sender peer : StrandId) (oldReuse : Reuse) (oldSkip : Nat)
      (newReuse : Reuse) (newSkip : Nat)
  | configuredTwice (strand : StrandId)
  | notLive (config : ConfigId)
  | needsStrandConfig (stream : StreamId) (idx : Nat)
  | noSplit (strand : StrandId)
  | noUsedByBase (stream : StreamId)
  | usedByBaseReleased (stream : StreamId) (peer : StrandId)
  | unreferenced (strand : StrandId)
  | endedTwice (strand : StrandId)
  deriving DecidableEq, Repr

def GraphFault.message : GraphFault → String
  | .floatOrder idx last => s!"float plan change at {idx} not after previous change at {last}"
  | .zeroReuseTile => "zero reuse tile"
  | .illegalEdge kind reuse skip source target =>
    s!"illegal {kind.text} edge reuse {reuse.text} skip {skip}: {source.text} -> {target.text}"
  | .mismatchedSend sender peer oldReuse oldSkip newReuse newSkip =>
    s!"mismatched SendTo {sender.text} -> {peer.text}: " ++
      s!"existing {oldReuse.text}/{oldSkip} new {newReuse.text}/{newSkip}"
  | .configuredTwice strand => s!"stream {strand.text} configured twice"
  | .notLive config => s!"config {config.text} is not live"
  | .needsStrandConfig stream idx =>
    s!"{stream.text} is split; strand index {idx} needs a strand config"
  | .noSplit strand => s!"strand config {strand.text} has no split"
  | .noUsedByBase stream => s!"{stream.text} has no UsedBy base config"
  | .usedByBaseReleased stream peer => s!"{stream.text}: UsedBy base {peer.text} already released"
  | .unreferenced strand => s!"release of unreferenced config {strand.text}"
  | .endedTwice strand => s!"stream {strand.text} ended twice"

/-- Slicing. -/
inductive SliceFault where
  | overlap (strand : StrandId) (idx : Nat) (addr : UInt64) (slice : Slice)
  | hole (strand : StrandId) (idx : Nat) (slice : Slice)
  deriving DecidableEq, Repr

def SliceFault.message : SliceFault → String
  | .overlap strand idx addr slice =>
    s!"{strand.text}[{idx}]: decreasing element at {Text.hexWord addr} " ++
      s!"overlaps slice {slice.text}"
  | .hole strand idx slice => s!"{strand.text}[{idx}]: hole in coalesced slice {slice.text}"

/-- Elements and their value buffers. -/
inductive ElementFault where
  | addressReady
  | noBlocks (addrReady : Bool)
  | belowBlocks (vaddr addr : UInt64) (size : Nat)
  | outsideBuffer (vaddr : UInt64) (size : Nat)
  | rangeWraps (vaddr : UInt64) (size : Nat)
  | tooWideForValue (size : Nat)
  | valueReady
  | blockAttached (line : UInt64)
  | tooWideForResult (size : Nat)
  | notMemory
  | issueBeforeAddress
  | alreadyIssued
  | notWaiting (access : AccessId)
  | noPrevious
  | notInChain
  | brokenChain (prev : ElementLabel)
  | baseReleased (base : ElementLabel)
  | noBaseOf (id : StaticId)
  | baseResultNotReady (base : ElementLabel)
  | baseNotReady (base : ElementLabel)
  | resultReady
  | computeBeforeAddress
  | computeScheduled
  | finalNotReady
  | neverComputed
  | nothingToCompute (role : String)
  | computeBaseNotReady
  | releaseOutOfOrder (head : Option ElementId)
  | releaseBeforeStep
  deriving DecidableEq, Repr

/-- Text of the key at the head of a chain. -/
def headText : Option ElementId → String
  | some e => s!"Some({e.text})"
  | none => "None"

def ElementFault.message : ElementFault → String
  | .addressReady => "address is already ready"
  | .noBlocks addrReady => s!"no cache blocks, addr ready {addrReady}"
  | .belowBlocks vaddr addr size =>
    s!"vaddr {Text.hexWord vaddr} below [{Text.hexWord addr}, +{size})"
  | .outsideBuffer vaddr size => s!"[{Text.hexWord vaddr}, +{size}) overflows the value buffer"
  | .rangeWraps vaddr size => s!"value range [{Text.hexWord vaddr}, +{size}) wraps"
  | .tooWideForValue size => s!"element of {size} bytes does not fit a stream value"
  | .valueReady => "already value ready"
  | .blockAttached line => s!"block {Text.hexWord line} still attached to an access"
  | .tooWideForResult size => s!"element of {size} bytes cannot take a computed value"
  | .notMemory => "only memory streams issue requests"
  | .issueBeforeAddress => "issue before address ready"
  | .alreadyIssued => "request already issued"
  | .notWaiting access => s!"not waiting on access {access.text}"
  | .noPrevious => "no previous element to copy from"
  | .notInChain => "not in its stream's chain"
  | .brokenChain prev => s!"broken element chain at {prev.text}"
  | .baseReleased base => s!"base element {base.text} released early"
  | .noBaseOf id => s!"no base element of stream S{id}"
  | .baseResultNotReady base => s!"load compute value of base {base.text} is not ready"
  | .baseNotReady base => s!"base element {base.text} is not value ready"
  | .resultReady => "load compute value is already ready"
  | .computeBeforeAddress => "compute before address ready"
  | .computeScheduled => "compute already scheduled"
  | .finalNotReady => "inner final value is not ready"
  | .neverComputed => "floated terminal element is never computed"
  | .nothingToCompute role => s!"{role} streams have no value to compute"
  | .computeBaseNotReady => "compute with value base not ready"
  | .releaseOutOfOrder head => s!"out-of-order release, head is {headText head}"
  | .releaseBeforeStep => "released before being stepped"

/-- In-flight accesses and their receivers. -/
inductive AccessFault where
  | duplicateReceiver (element : ElementId)
  | deregisteredTwice (element : ElementId)
  | notRegistered (element : ElementId)
  | notInFlight (access : AccessId)
  | freedTwice (access : AccessId)
  deriving DecidableEq, Repr

def AccessFault.message : AccessFault → String
  | .duplicateReceiver e => s!"duplicate receiver {e.text}, still registered"
  | .deregisteredTwice e => s!"receiver {e.text} has already been deregistered"
  | .notRegistered e => s!"receiver {e.text} is not registered"
  | .notInFlight a => s!"access {a.text} is not in flight"
  | .freedTwice a => s!"access {a.text} freed twice"

/-- Streams and their chains of elements. -/
inductive StreamFault where
  | elementNotAllocated (element : ElementId)
  | releasedTwice (element : ElementId)
  | noStream (stream : StreamId)
  | baseNotConfigured (stream : StreamId) (id : StaticId)
  | baseStreamMissing (stream : StreamId)
  | baseNotAllocated (base : ElementLabel)
  | previousReleased (element : ElementLabel)
  | finalSetTwice (element : ElementLabel)
  | nothingToStep (stream : StreamId)
  | emptyChain (stream : StreamId)
  deriving DecidableEq, Repr

def StreamFault.message : StreamFault → String
  | .elementNotAllocated e => s!"element {e.text} is not allocated"
  | .releasedTwice e => s!"element {e.text} released twice"
  | .noStream s => s!"no dynamic stream {s.text}"
  | .baseNotConfigured s id => s!"{s.text}: base stream S{id} is not configured"
  | .baseStreamMissing s => s!"base stream {s.text} is missing"
  | .baseNotAllocated e => s!"base element {e.text} is not allocated"
  | .previousReleased e => s!"{e.text}: previous element released early"
  | .finalSetTwice e => s!"{e.text}: inner final value set twice"
  | .nothingToStep s => s!"{s.text}: step with no unstepped element"
  | .emptyChain s => s!"{s.text}: release from an empty chain"

/-! ## All causes -/

/-- Why an operation stops. -/
inductive Fault where
  /-- A division by zero, or a result outside its word. -/
  | arithmetic
  /-- An index or a range outside a list. -/
  | bounds
  /-- Two lists that must have one length differ. -/
  | lengths
  | pattern (f : PatternFault)
  | graph (f : GraphFault)
  | slice (f : SliceFault)
  | element (e : ElementLabel) (f : ElementFault)
  | access (f : AccessFault)
  | stream (f : StreamFault)
  /-- An overflow under the policy that stops the engine. -/
  | capacity (e : CapacityError)
  deriving DecidableEq, Repr

/-- The text of a fault, for the causes that have one. -/
def Fault.message? : Fault → Option String
  | .arithmetic => none
  | .bounds => none
  | .lengths => none
  | .pattern f => some f.message
  | .graph f => some f.message
  | .slice f => some f.message
  | .element e f => some s!"{e.text}: {f.message}"
  | .access f => some f.message
  | .stream f => some f.message
  | .capacity e => some e.message

/-- Why an operation that may also refuse its input does not answer. -/
inductive Failure (ε : Type) where
  | fault (f : Fault)
  | refused (e : ε)
  deriving DecidableEq, Repr

namespace Failure

/-- A result whose only failure is a fault. -/
def ofFault {ε α : Type} : Except Fault α → Except (Failure ε) α
  | .ok a => .ok a
  | .error f => .error (.fault f)

/-- A result whose only failure is a reported error. -/
def ofRefusal {ε α : Type} : Except ε α → Except (Failure ε) α
  | .ok a => .ok a
  | .error e => .error (.refused e)

end Failure

/-- What an overflow does under a policy. -/
def OverflowPolicy.overflow (p : OverflowPolicy) (e : CapacityError) : Failure CapacityError :=
  match p with
  | .report => .refused e
  | .abort => .fault (.capacity e)

end StreamEngine
