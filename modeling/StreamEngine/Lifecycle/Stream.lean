import StreamEngine.FloatPlan
import StreamEngine.Graph.Basic
import StreamEngine.Linear.Describe

/-!
# Streams and what is declared of them

A stream is configured from a declaration: its role, its parameters and trip counts, and the streams
it depends on.

- `Role` : where the values of a stream come from;
- `TerminalDecision` : what becomes of an element that only the place it floats to may compute;
- `LiveStream` : a configured stream with its chain of elements, oldest first.
-/

namespace StreamEngine

/-! ## Errors -/

/-- What an operation on streams reports. -/
inductive EngineError where
  | capacity (e : CapacityError)
  | pattern (e : PatternError)
  | unknownStream (stream : StreamId)
  deriving DecidableEq, Repr

namespace EngineError

def message : EngineError → String
  | .capacity e => e.message
  | .pattern e => e.message
  | .unknownStream s => s!"no dynamic stream {s.text} is configured"

def code : EngineError → Code
  | .capacity e => e.code
  | .pattern e => e.code
  | .unknownStream _ => .unknownStream

instance : Reported EngineError where
  code := code
  message := message

end EngineError

/-! ## Roles -/

/-- Where the values of a stream come from. Some roles bring a kernel of their own. -/
inductive Role where
  | load
  | store
  | induction
  | storeCompute (kernel : Kernel)
  | loadCompute (kernel : Kernel)
  | pointerChase
  | reduction

namespace Role

def name : Role → String
  | .load => "load"
  | .store => "store"
  | .induction => "iv"
  | .storeCompute _ => "store-compute"
  | .loadCompute _ => "load-compute"
  | .pointerChase => "ptr-chase-iv"
  | .reduction => "reduce"

/-- Elements have addresses in memory. -/
def isMem : Role → Bool
  | .load | .store | .storeCompute _ | .loadCompute _ => true
  | _ => false

/-- Results take the latency of a computation. -/
def isCompute : Role → Bool
  | .storeCompute _ | .loadCompute _ | .reduction => true
  | _ => false

def isStore : Role → Bool
  | .store | .storeCompute _ => true
  | _ => false

/-- Element `i` is computed from element `i - 1` of the stream and of its bases. -/
def isOneIterBehind : Role → Bool
  | .reduction | .pointerChase => true
  | _ => false

/-- Elements have a computed result beside what they load. -/
def isLoadCompute : Role → Bool
  | .loadCompute _ => true
  | _ => false

def isPointerChase : Role → Bool
  | .pointerChase => true
  | _ => false

end Role

/-! ## Declarations -/

/-- What a base stream is for. -/
inductive BaseKind where
  /-- Its values are part of the address. -/
  | address
  /-- Its values are part of the computation. -/
  | value
  deriving DecidableEq, Repr

/-- A base stream, named by the static stream whose latest instance is meant. -/
structure BaseDecl where
  staticId : StaticId
  kind : BaseKind
  reuse : Reuse := {}
  deriving DecidableEq, Repr

/-- All that is said of a stream when it is configured. -/
structure Declaration where
  core : Int := 0
  staticId : StaticId
  role : Role
  elemSize : Nat
  formal : Formal
  generator : Generator := .linear
  /-- Parameters of the role's kernel. -/
  kernelFormal : Formal := []
  bases : List BaseDecl := []
  totalTrip : Option Nat := none
  innerTrip : Option Nat := none
  initialValue : StreamValue := .zero
  hasCoreUser : Bool := true
  hasDepNest : Bool := false
  simd : Bool := false
  floatPlan : FloatPlan := {}

namespace Declaration

/-- The configuration of an instance of the stream. -/
def config (d : Declaration) (id : StreamId) : Config :=
  { id, elemSize := d.elemSize, formal := d.formal, generator := d.generator,
    totalTrip := d.totalTrip, innerTrip := d.innerTrip, isPointerChase := d.role.isPointerChase,
    isOneIterBehind := d.role.isOneIterBehind, floatPlan := d.floatPlan }

/-- Length of an inner loop. Without an inner trip the whole stream is one. -/
def loopTrip (d : Declaration) : Option Nat :=
  d.innerTrip.or d.totalTrip

/-- Element `idx` holds the final value of an inner loop. -/
def isInnerLast (d : Declaration) (idx : Nat) : Bool :=
  match d.loopTrip with
  | some (trip + 1) => 0 < idx && idx % (trip + 1) == 0
  | _ => false

/-- Element `idx` follows the first element of an inner loop. -/
def isInnerSecond (d : Declaration) (idx : Nat) : Bool :=
  match d.loopTrip with
  | some (trip + 1) => 0 < idx && (idx - 1) % (trip + 1) == 0
  | _ => idx == 1

def isFloated (d : Declaration) (idx : Nat) : Bool :=
  (d.floatPlan.machineAt idx).isSome

/-- Element `idx` is the only one of a stream of no elements. -/
def isZeroTripLast (d : Declaration) (idx : Nat) : Bool :=
  d.totalTrip == some 0 && idx == 0

end Declaration

/-! ## Terminal elements -/

/-- How an element gets its value. -/
inductive TerminalDecision where
  /-- From its bases. -/
  | normal
  /-- The final value of the inner loop, sent back from where the stream floats. -/
  | finalValue
  /-- It stays where the stream floats. -/
  | neverReady
  deriving DecidableEq, Repr

def TerminalDecision.text : TerminalDecision → String
  | .normal => "Normal"
  | .finalValue => "FinalValue"
  | .neverReady => "NeverReady"

/-- What the decision depends on. -/
structure TerminalFlags where
  reduceOrChase : Bool := false
  hasCoreUser : Bool := false
  hasDepNest : Bool := false
  floated : Bool := false
  innerLast : Bool := false
  deriving DecidableEq, Repr

namespace TerminalFlags

/-- Nothing on the core sees the element: a floated reduction or pointer chase that no user on the core
and no dependent nest consumes. -/
def isRemote (f : TerminalFlags) : Bool :=
  f.reduceOrChase && !f.hasCoreUser && !f.hasDepNest && f.floated

/-- Of the elements that the core does not see, the last of each inner loop gets the final value. -/
def decision (f : TerminalFlags) : TerminalDecision :=
  if !f.isRemote then .normal
  else if f.innerLast then .finalValue
  else .neverReady

end TerminalFlags

/-- How element `idx` of the stream gets its value. -/
def Declaration.terminal (d : Declaration) (idx : Nat) : TerminalDecision :=
  TerminalFlags.decision
    { reduceOrChase := d.role.isOneIterBehind
      hasCoreUser := d.hasCoreUser
      hasDepNest := d.hasDepNest
      floated := d.isFloated idx
      innerLast := d.isInnerLast idx }

/-! ## Configured streams -/

/-- A base stream, with the instance that was current at configuration. -/
structure BoundBase where
  kind : BaseKind
  stream : StreamId
  reuse : Reuse
  deriving DecidableEq, Repr

structure LiveStream where
  config : ConfigId
  decl : Declaration
  bases : List BoundBase
  /-- Allocated elements, oldest first. -/
  chain : List ElementId := []
  /-- Index of the next element to allocate. -/
  nextIdx : Nat := 0
  /-- Final values of inner loops, by element. -/
  finals : Table Nat StreamValue := {}

end StreamEngine
