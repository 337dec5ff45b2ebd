import StreamEngine.Access
import StreamEngine.Element.Progress
import StreamEngine.Lifecycle.Stream
import StreamEngine.Options

/-!
# The stream manager

The manager holds the configured streams, their elements, the accesses in flight and the computations
that are under way. Every operation is a function from one manager to the next.

- `Manager.configure` : a new instance of a static stream;
- `Manager.allocate` : the next element of a stream, bound to its base elements;
- `Manager.previous?` : the element before another in its chain.

An operation that can be refused answers `Except EngineError` beside the manager it leaves behind. A
fault leaves nothing behind.
-/

namespace StreamEngine

/-- A computed value that is not due yet. -/
structure PendingCompute where
  element : ElementId
  result : StreamValue
  readyAt : Nat
  deriving DecidableEq, Repr

structure Manager where
  options : Options
  graph : Graph := {}
  instances : InstanceCounter := {}
  streams : Table StreamId LiveStream := {}
  /-- The latest instance of each static stream of a core that has not ended. -/
  latest : Table (Int × StaticId) StreamId := {}
  elements : Slab Element := {}
  accesses : AccessPool := {}
  /-- Computations under way, in the order in which they were scheduled. -/
  pending : List PendingCompute := []
  now : Nat := 0

/-- The outcome of an operation that can be refused, and the manager it leaves behind. -/
abbrev Outcome (α : Type) := Except EngineError α × Manager

namespace Manager

/-! ## Elements and streams -/

/-- The element of a key, if there is one. -/
def element? (m : Manager) (e : ElementId) : Option Element :=
  m.elements.get? e.val

/-- The element of a key, which must be allocated. -/
def element (m : Manager) (e : ElementId) : Except Fault Element :=
  match m.element? e with
  | some el => .ok el
  | none => .error (.stream (.elementNotAllocated e))

/-- Replaces an allocated element. -/
def putElement (m : Manager) (e : ElementId) (el : Element) : Manager :=
  { m with elements := m.elements.replace e.val el }

/-- Changes an allocated element. -/
def modifyElement (m : Manager) (e : ElementId) (f : Element → Element) :
    Except Fault Manager := do
  let el ← m.element e
  return m.putElement e (f el)

def stream? (m : Manager) (s : StreamId) : Option LiveStream :=
  m.streams.find? s

/-- A stream that must be configured. -/
def stream (m : Manager) (s : StreamId) : Except Fault LiveStream :=
  match m.stream? s with
  | some st => .ok st
  | none => .error (.stream (.noStream s))

def putStream (m : Manager) (s : StreamId) (st : LiveStream) : Manager :=
  { m with streams := m.streams.insert s st }

/-- Number of allocated elements. -/
def liveElements (m : Manager) : Nat :=
  m.elements.size

/-- The allocated elements of a stream, oldest first. -/
def elementsOf (m : Manager) (s : StreamId) : Except EngineError (List ElementId) :=
  match m.stream? s with
  | some st => .ok st.chain
  | none => .error (.unknownStream s)

/-! ## Configuration -/

/-- Binds a base of the configuration `c` of stream `id` to the latest instance of its static stream,
and adds the edge. -/
def bindBase (m : Manager) (id : StreamId) (c : ConfigId) (base : BaseDecl) :
    Except Fault (BoundBase × Manager) := do
  match m.latest.find? (id.core, base.staticId) with
  | none => throw (.stream (.baseNotConfigured id base.staticId))
  | some stream =>
    let st ← m.stream stream
    let graph ←
      match base.kind with
      | .address => m.graph.addUsedBy st.config c base.reuse
      | .value => m.graph.addBaseOn c st.config base.reuse 0
    return ({ kind := base.kind, stream, reuse := base.reuse }, { m with graph })

/-- Binds bases in order. -/
def bindBases (m : Manager) (id : StreamId) (c : ConfigId) :
    List BaseDecl → Except Fault (List BoundBase × Manager)
  | [] => .ok ([], m)
  | base :: rest => do
    let (bound, m) ← m.bindBase id c base
    let (more, m) ← m.bindBases id c rest
    return (bound :: more, m)

/-- Configures a new instance of a static stream. Its bases must be configured on the same core. -/
def configure (m : Manager) (d : Declaration) : Except Fault (StreamId × Manager) := do
  let (id, instances) := m.instances.next d.core d.staticId
  let (config, graph) ← m.graph.configure (d.config id)
  let (bases, m) ← { m with instances, graph }.bindBases id config d.bases
  let m := m.putStream id { config, decl := d, bases }
  return (id, { m with latest := m.latest.insert (d.core, d.staticId) id })

/-! ## Allocation -/

/-- The allocated element with this label. -/
def findElement (m : Manager) (l : ElementLabel) : Except Fault ElementId := do
  match m.stream? l.stream with
  | none => throw (.stream (.baseStreamMissing l.stream))
  | some st =>
    let found ← st.chain.findM? fun e => do
      let el ← m.element e
      return el.idx == l.index
    match found with
    | some e => return e
    | none => throw (.stream (.baseNotAllocated l))

/-- The base elements that element `idx` uses, as references. -/
def baseRefs (m : Manager) (idx : Nat) (bases : List BoundBase) : Except Fault (List BaseRef) :=
  bases.mapM fun b => do
    let label : ElementLabel := { stream := b.stream, index := b.reuse.depToBase idx }
    let element ← m.findElement label
    return { element, label }

/-- The base elements of a new element of a stream, each with what it is for. The first element of a
stream that runs one iteration behind has none. -/
def boundBases (m : Manager) (st : LiveStream) : Except Fault (List (BaseKind × BaseRef)) := do
  let behind := st.decl.role.isOneIterBehind
  if behind && st.nextIdx == 0 then return []
  let refs ← m.baseRefs (if behind then st.nextIdx - 1 else st.nextIdx) st.bases
  return (st.bases.map BoundBase.kind).zip refs

/-- The previous element as a base of a new one, in a stream that runs one iteration behind. -/
def ownBase (s : StreamId) (st : LiveStream) : Except Fault (List BaseRef) :=
  if st.decl.role.isOneIterBehind && 0 < st.nextIdx then
    match st.chain.getLast? with
    | some element =>
      .ok [{ element, label := { stream := s, index := st.nextIdx - 1 } }]
    | none => .error (.stream (.previousReleased { stream := s, index := st.nextIdx }))
  else .ok []

/-- References of one kind. -/
def refsOf (kind : BaseKind) (bases : List (BaseKind × BaseRef)) : List BaseRef :=
  (bases.filter fun b => b.1 = kind).map Prod.snd

/-- A load-compute element is a base of its own computation. -/
def selfBase (st : LiveStream) (self : BaseRef) : List BaseRef :=
  if st.decl.role.isLoadCompute then [self] else []

/-- Links a new element behind the last one of a chain. -/
def linkLast (m : Manager) (chain : List ElementId) (e : ElementId) : Except Fault Manager :=
  match chain.getLast? with
  | some last => m.modifyElement last fun el => { el with next := some e }
  | none => .ok m

/-- Allocates the next element of a stream. Its base elements must be allocated. -/
def allocate (m : Manager) (s : StreamId) : Except Fault (Outcome ElementId) := do
  match m.stream? s with
  | none => return (.error (.unknownStream s), m)
  | some st =>
    let bases ← m.boundBases st
    let own ← ownBase s st
    let label : ElementLabel := { stream := s, index := st.nextIdx }
    let fresh : Element :=
      { stream := s, config := st.config, idx := st.nextIdx, size := st.decl.elemSize,
        isMem := st.decl.role.isMem, lineSize := m.options.lineSize,
        addrBases := refsOf .address bases, valueBases := refsOf .value bases ++ own }
    let (slot, elements) := m.elements.insert fresh
    let e : ElementId := { val := slot }
    let self := selfBase st { element := e, label }
    let m := { m with elements }.putElement e { fresh with valueBases := fresh.valueBases ++ self }
    let m ← m.linkLast st.chain e
    let m := m.putStream s { st with chain := st.chain ++ [e], nextIdx := st.nextIdx + 1 }
    let graph ← m.graph.acquire st.config
    return (.ok e, { m with graph })

/-- Position of a key in a chain. -/
def positionIn (e : ElementId) (chain : List ElementId) : Option Nat :=
  chain.findIdx? fun x => x == e

/-- The element before `e` in the chain of its stream. -/
def previous? (m : Manager) (e : ElementId) : Except Fault (Option ElementId) := do
  let el ← m.element e
  let st ← m.stream el.stream
  match positionIn e st.chain with
  | none => el.fault .notInChain
  | some 0 => return none
  | some (i + 1) =>
    match st.chain[i]? with
    | none => el.fault .notInChain
    | some p =>
      let prev ← m.element p
      if prev.next ≠ some e then el.fault (.brokenChain prev.label) else return some p

end Manager
end StreamEngine
