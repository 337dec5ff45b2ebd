import StreamEngine.Fault
import StreamEngine.Slab

/-!
# In-flight accesses

An access brings in one cache line for the element that leads it. Other elements that touch the line
register as receivers instead of asking again. An answer notifies every receiver that is still
registered, once, and the access is gone.

A receiver that drops out keeps its entry and takes it up again when it comes back, so the list never
grows by coming and going.
-/

namespace StreamEngine

/-- An entry of a receiver list. -/
structure Receiver where
  element : ElementId
  live : Bool
  deriving DecidableEq, Repr

/-- At most `maxReceivers` entries, in order of first registration. -/
structure Receivers where
  entries : List Receiver := []
  deriving DecidableEq, Repr

namespace Receivers

instance : Inhabited Receivers := ⟨{}⟩

def size (r : Receivers) : Nat :=
  r.entries.length

def liveCount (r : Receivers) : Nat :=
  r.entries.countP Receiver.live

/-- The element has an entry. -/
def hasEntry (r : Receivers) (e : ElementId) : Bool :=
  r.entries.any fun x => x.element == e

def isRegistered (r : Receivers) (e : ElementId) : Bool :=
  r.entries.any fun x => x.element == e && x.live

/-- Registering the element would succeed. -/
def hasRoomFor (r : Receivers) (e : ElementId) : Bool :=
  r.size < maxReceivers || r.hasEntry e

/-- Replaces the first entry of an element. -/
def setLive (e : ElementId) (live : Bool) : List Receiver → List Receiver
  | [] => []
  | x :: rest =>
    if x.element = e then { x with live } :: rest else x :: setLive e live rest

/-- Registers an element that is not registered. There is no answer when the list is full. -/
def register (r : Receivers) (e : ElementId) : Except Fault (Option Receivers) :=
  match r.entries.find? fun x => x.element = e with
  | some x =>
    if x.live then .error (.access (.duplicateReceiver e))
    else .ok (some { entries := setLive e true r.entries })
  | none =>
    if r.size = maxReceivers then .ok none
    else .ok (some { entries := r.entries ++ [{ element := e, live := true }] })

/-- Ends the registration of an element. -/
def deregister (r : Receivers) (e : ElementId) : Except Fault Receivers :=
  match r.entries.find? fun x => x.element = e with
  | some x =>
    if x.live then .ok { entries := setLive e false r.entries }
    else .error (.access (.deregisteredTwice e))
  | none => .error (.access (.notRegistered e))

/-- The registered elements in order, and the list with none registered. -/
def drain (r : Receivers) : List ElementId × Receivers :=
  ((r.entries.filter Receiver.live).map Receiver.element,
    { entries := r.entries.map fun x => { x with live := false } })

end Receivers

/-! ## Accesses -/

/-- A request for one line. -/
structure Access where
  stream : StreamId
  leader : ElementId
  leaderIdx : Nat
  line : UInt64
  vaddr : UInt64
  size : Nat
  /-- The leading element had been flushed before. -/
  isReissue : Bool := false
  /-- Cycles to hold the answer back. -/
  additionalDelay : Nat := 0
  receivers : Receivers := {}
  deriving DecidableEq, Repr

namespace Access

/-- The request as the cache sees it: the element and the line of the leader. -/
def slice (a : Access) (lineSize : Nat) : Slice :=
  { strand := .whole a.stream, lhs := a.leaderIdx, rhs := a.leaderIdx + 1, vaddr := a.line,
    size := lineSize }

/-- The error of a full receiver list. -/
def receiverOverflow (a : Access) : CapacityError :=
  .receivers { stream := a.stream, index := a.leaderIdx } a.line

def register (a : Access) (e : ElementId) (policy : OverflowPolicy) :
    Except (Failure CapacityError) Access := do
  match ← Failure.ofFault (a.receivers.register e) with
  | some receivers => return { a with receivers }
  | none => throw (policy.overflow a.receiverOverflow)

/-- Fails where registering the element would find no room. -/
def checkRoom (a : Access) (e : ElementId) (policy : OverflowPolicy) :
    Except (Failure CapacityError) Unit :=
  if a.receivers.hasRoomFor e then .ok () else .error (policy.overflow a.receiverOverflow)

def deregister (a : Access) (e : ElementId) : Except Fault Access := do
  let receivers ← a.receivers.deregister e
  return { a with receivers }

end Access

/-! ## The pool -/

/-- The accesses in flight. -/
structure AccessPool where
  slab : Slab Access := {}
  deriving Repr

namespace AccessPool

instance : Inhabited AccessPool := ⟨{}⟩

def find? (p : AccessPool) (a : AccessId) : Option Access :=
  p.slab.get? a.val

/-- An access that must be in flight. -/
def get (p : AccessPool) (a : AccessId) : Except Fault Access :=
  match p.find? a with
  | some access => .ok access
  | none => .error (.access (.notInFlight a))

def contains (p : AccessPool) (a : AccessId) : Bool :=
  (p.find? a).isSome

def alloc (p : AccessPool) (access : Access) : AccessId × AccessPool :=
  let (i, slab) := p.slab.insert access
  ({ val := i }, { slab })

/-- Replaces an access in flight. -/
def put (p : AccessPool) (a : AccessId) (access : Access) : AccessPool :=
  { slab := p.slab.replace a.val access }

/-- Takes an access out of flight. -/
def free (p : AccessPool) (a : AccessId) : Except Fault (Access × AccessPool) :=
  match p.find? a with
  | some access => .ok (access, { slab := p.slab.erase a.val })
  | none => .error (.access (.freedTwice a))

def inFlight (p : AccessPool) : Nat :=
  p.slab.size

/-- Ends the registration of an element with an access. -/
def deregister (p : AccessPool) (a : AccessId) (e : ElementId) : Except Fault AccessPool := do
  let access ← p.get a
  let access ← access.deregister e
  return p.put a access

/-- Answers an access: the access with nobody registered any more, the elements to notify in order,
and the pool without it. -/
def respond (p : AccessPool) (a : AccessId) :
    Except Fault (Access × List ElementId × AccessPool) := do
  let access ← p.get a
  let (notified, receivers) := access.receivers.drain
  return ({ access with receivers }, notified, { slab := p.slab.erase a.val })

end AccessPool
end StreamEngine
