import StreamEngine.Graph.Config
import StreamEngine.Table

/-!
# The dependence graph

The graph holds all stream configurations and the edges between them. A configuration has the key of
the slot it was put in, and a slot is never used twice. Edges name their peers by key, so that no
configuration owns another.

- `Graph.configure`, `Graph.lookup` : enter a configuration, find one by its strand;
- `Graph.addBaseOn`, `Graph.addUsedBy`, … : edges, legal ones only;
- `Graph.acquire`, `Graph.release`, `Graph.endStream` : references. A configuration is freed when it
  has ended and its last reference is gone.
-/

namespace StreamEngine

/-- A stream that the graph does not know. -/
inductive GraphError where
  | unknownStream (stream : StreamId)
  deriving DecidableEq, Repr

instance : Reported GraphError where
  code _ := .unknownConfig
  message
    | .unknownStream s => s!"no stream config for {s.text}"

/-- Configurations by key, and their keys by strand. -/
structure Graph where
  slots : List (Option Config) := []
  index : Table StrandId ConfigId := {}

namespace Graph

instance : Inhabited Graph := ⟨{}⟩

/-! ## Configurations -/

/-- The live configuration of a key. -/
def find? (g : Graph) (c : ConfigId) : Option Config :=
  g.slots[c.val]?.join

/-- The configuration of a key, which must be live. -/
def get (g : Graph) (c : ConfigId) : Except Fault Config :=
  match g.find? c with
  | some config => .ok config
  | none => .error (.graph (.notLive c))

def contains (g : Graph) (c : ConfigId) : Bool :=
  (g.find? c).isSome

/-- Puts a configuration in a slot, or empties it. -/
def put (g : Graph) (c : ConfigId) (config : Option Config) : Graph :=
  { g with slots := g.slots.set c.val config }

/-- Changes a live configuration. -/
def modify (g : Graph) (c : ConfigId) (f : Config → Config) : Except Fault Graph := do
  let config ← g.get c
  return g.put c (some (f config))

/-- Enters a configuration under its strand, which must be new. -/
def configure (g : Graph) (config : Config) : Except Fault (ConfigId × Graph) := do
  let strand ← config.strandId
  if g.index.contains strand then throw (.graph (.configuredTwice strand))
  let c : ConfigId := { val := g.slots.length }
  return (c, { slots := g.slots ++ [some config], index := g.index.insert strand c })

/-- The key of a strand's configuration. -/
def lookup (g : Graph) (strand : StrandId) : Except GraphError ConfigId :=
  match g.index.find? strand with
  | some c => .ok c
  | none => .error (.unknownStream strand.stream)

/-- Number of live configurations. -/
def live (g : Graph) : Nat :=
  g.slots.countP Option.isSome

/-! ## Edges -/

/-- An edge has a positive reuse count and a skip that is not negative, and not both more than one use
and a skip. -/
def isLegal (reuse : Reuse) (skip : Int) : Bool :=
  reuse.count != 0 && 0 ≤ skip && !(reuse.isReused && 0 < skip)

/-- Refuses an illegal edge, and otherwise gives the skip as a number of elements. -/
def checkEdge (g : Graph) (kind : EdgeKind) (source target : ConfigId) (reuse : Reuse)
    (skip : Int) : Except Fault Nat := do
  if isLegal reuse skip then return skip.toNat
  let s ← (← g.get source).strandId
  let t ← (← g.get target).strandId
  throw (.graph (.illegalEdge kind reuse skip s t))

/-- An edge to a live peer. -/
def edgeTo (g : Graph) (kind : EdgeKind) (peer : ConfigId) (reuse : Reuse := {})
    (skip : Nat := 0) : Except Fault Edge := do
  let peerStrand ← (← g.get peer).strandId
  return { kind, peer, peerStrand, reuse, skip }

def addBaseEdge (g : Graph) (c : ConfigId) (e : Edge) : Except Fault Graph :=
  g.modify c fun config => { config with baseEdges := config.baseEdges ++ [e] }

def addDepEdge (g : Graph) (c : ConfigId) (e : Edge) : Except Fault Graph :=
  g.modify c fun config => { config with depEdges := config.depEdges ++ [e] }

/-- `this` computes its address from the value of `base`, under a predicate if there is one. -/
def addBaseOn (g : Graph) (this base : ConfigId) (reuse : Reuse) (skip : Int)
    (pred : Option Predicate := none) : Except Fault Graph := do
  let skip ← g.checkEdge .baseOn this base reuse skip
  let e ← g.edgeTo .baseOn base reuse skip
  g.addBaseEdge this { e with pred }

/-- `base` feeds `dep` as an indirect stream. The base edge that answers on `dep` carries the
predicate. -/
def addUsedBy (g : Graph) (base dep : ConfigId) (reuse : Reuse)
    (pred : Option Predicate := none) : Except Fault Graph := do
  let _ ← g.checkEdge .usedBy base dep reuse 0
  let forward ← g.edgeTo .usedBy dep reuse
  let backward ← g.edgeTo .baseOn base reuse
  let g ← g.addDepEdge base forward
  g.addBaseEdge dep { backward with answersUsedBy := true, pred }

/-- `sender` forwards its values to `recv`. Asking again for the same edge changes nothing; asking for
a different one between the two is a fault. -/
def addSendTo (g : Graph) (sender recv : ConfigId) (reuse : Reuse) (skip : Int) :
    Except Fault Graph := do
  let skip ← g.checkEdge .sendTo sender recv reuse skip
  let s ← g.get sender
  match s.depEdges.find? fun e => e.kind = .sendTo ∧ e.peer = recv with
  | some e =>
    if e.reuse = reuse ∧ e.skip = skip then return g
    let strand ← s.strandId
    throw (.graph (.mismatchedSend strand e.peerStrand e.reuse e.skip reuse skip))
  | none =>
    let e ← g.edgeTo .sendTo recv reuse skip
    g.addDepEdge sender e

/-- `sender` forwards its values to `recv` inside memory. -/
def addMemorySendTo (g : Graph) (sender recv : ConfigId) (memory : MemorySend) :
    Except Fault Graph := do
  let e ← g.edgeTo .memorySendTo recv
  g.addDepEdge sender { e with memory := some memory }

/-! ## References -/

/-- Frees a configuration that is done, which must still have an identity. Tells whether it was
freed. -/
def freeIfDone (g : Graph) (c : ConfigId) : Except Fault (Bool × Graph) := do
  let config ← g.get c
  if config.isDone then
    let strand ← config.strandId
    return (true, { slots := (g.put c none).slots, index := g.index.erase strand })
  return (false, g)

def acquire (g : Graph) (c : ConfigId) : Except Fault Graph :=
  g.modify c fun config => { config with refs := config.refs + 1 }

/-- Drops a reference. Tells whether that freed the configuration. -/
def release (g : Graph) (c : ConfigId) : Except Fault (Bool × Graph) := do
  let config ← g.get c
  if config.refs = 0 then
    let strand ← config.strandId
    throw (.graph (.unreferenced strand))
  (g.put c (some { config with refs := config.refs - 1 })).freeIfDone c

/-- Ends a stream. Tells whether that freed the configuration. -/
def endStream (g : Graph) (c : ConfigId) : Except Fault (Bool × Graph) := do
  let config ← g.get c
  if config.ended then
    let strand ← config.strandId
    throw (.graph (.endedTwice strand))
  (g.put c (some { config with ended := true })).freeIfDone c

end Graph
end StreamEngine
