import StreamEngine.Lifecycle.Computation

/-!
# Stepping, rewinding and releasing

The core steps over the elements of a stream in order, and stepped elements are released from the head of
the chain. A misspeculated element is rewound instead and may ask for its lines again.

- `Manager.step`, `Manager.flush`, `Manager.release`, `Manager.releaseStepped`;
- `Manager.endStream` : releases what is left and ends the stream.
-/

namespace StreamEngine
namespace Manager

/-- Steps over the oldest element that was not stepped over yet. -/
def step (m : Manager) (s : StreamId) : Except Fault (Outcome ElementId) := do
  match m.stream? s with
  | none => return (.error (.unknownStream s), m)
  | some st =>
    let next ← st.chain.findM? fun e => do
      let el ← m.element e
      return !el.stepped
    match next with
    | none => throw (.stream (.nothingToStep s))
    | some e =>
      let m ← m.modifyElement e fun el => { el with stepped := true }
      return (.ok e, m)

/-- Ends the registration of an element with several accesses. -/
def deregisterAll (m : Manager) (e : ElementId) (accesses : List AccessId) :
    Except Fault Manager := do
  let pool ← accesses.foldlM (fun p a => p.deregister a e) m.accesses
  return { m with accesses := pool }

/-- Drops the computations of an element that are under way. -/
def dropPending (m : Manager) (e : ElementId) : Manager :=
  { m with pending := m.pending.filter fun p => p.element ≠ e }

/-- Rewinds an element to its state after allocation. It no longer hears of the accesses that it
waited on, and its blocks must be off them by then. -/
def flush (m : Manager) (e : ElementId) (aliased : Bool) : Except Fault Manager := do
  let el ← m.element e
  let _ ← el.takeAccesses.2.clearBlocks
  let (accesses, el) := el.flush aliased
  let m ← (m.putElement e el).deregisterAll e accesses
  return m.dropPending e

/-! ## Release -/

/-- Releases the head of a chain, which must be off its accesses by then. -/
def releaseFront (m : Manager) (s : StreamId) : Except Fault Manager := do
  let st ← m.stream s
  match st.chain with
  | [] => throw (.stream (.emptyChain s))
  | e :: rest =>
    let el ← m.element e
    let (accesses, el) := el.takeAccesses
    let m := (m.putStream s { st with chain := rest }).putElement e el
    let m ← m.deregisterAll e accesses
    let m := m.dropPending e
    let _ ← el.clear
    let (_, graph) ← m.graph.release st.config
    return { m with elements := m.elements.erase e.val, graph }

/-- Releases an element, which must be the head of its chain and stepped over. -/
def release (m : Manager) (e : ElementId) : Except Fault Manager := do
  let el ← m.element e
  let st ← m.stream el.stream
  if st.chain.head? ≠ some e then el.fault (.releaseOutOfOrder st.chain.head?)
  else if !el.stepped then el.fault .releaseBeforeStep
  else m.releaseFront el.stream

/-- Releases the elements of a chain up to the first one not stepped over. Gives their number. -/
def releaseWhileStepped (m : Manager) (s : StreamId) :
    List ElementId → Except Fault (Nat × Manager)
  | [] => .ok (0, m)
  | e :: rest => do
    let el ← m.element e
    if el.stepped then
      let m ← m.releaseFront s
      let (n, m) ← m.releaseWhileStepped s rest
      return (n + 1, m)
    else return (0, m)

/-- Releases all elements at the head that were stepped over. Gives their number. -/
def releaseStepped (m : Manager) (s : StreamId) : Except Fault (Outcome Nat) := do
  match m.stream? s with
  | none => return (.error (.unknownStream s), m)
  | some st =>
    let (n, m) ← m.releaseWhileStepped s st.chain
    return (.ok n, m)

/-- Releases as many elements from the head of a chain. -/
def releaseMany (m : Manager) (s : StreamId) : Nat → Except Fault Manager
  | 0 => .ok m
  | n + 1 => do
    let m ← m.releaseFront s
    m.releaseMany s n

/-- Forgets a stream. -/
def dropStream (m : Manager) (s : StreamId) : Manager :=
  let key := (s.core, s.staticId)
  { m with
    streams := m.streams.erase s
    latest := if m.latest.find? key = some s then m.latest.erase key else m.latest }

/-- Releases every element left and ends the stream. Tells whether its configuration was freed. -/
def endStream (m : Manager) (s : StreamId) : Except Fault (Outcome Bool) := do
  match m.stream? s with
  | none => return (.error (.unknownStream s), m)
  | some st =>
    let m ← m.releaseMany s st.chain.length
    let m := m.dropStream s
    let (freed, graph) ← m.graph.endStream st.config
    return (.ok freed, { m with graph })

end Manager
end StreamEngine
