import StreamEngine.Lifecycle.Manager

/-!
# Bases and readiness

An element reads its base elements through references that outlive them. A reference whose key is free,
or used by another element, must not be read.

What a base element gives is its computed result, if it belongs to a load-compute stream and does not
float, and its own bytes otherwise. An element that reads itself always gets its own bytes.
-/

namespace StreamEngine
namespace Manager

/-- The element belongs to a load-compute stream and does not float. -/
def givesResult (m : Manager) (el : Element) : Bool :=
  match m.stream? el.stream with
  | some st => st.decl.role.isLoadCompute && !st.decl.isFloated el.idx
  | none => false

/-- The element that a base reference of `el` was made for. -/
def baseElement (m : Manager) (el : Element) (b : BaseRef) : Except Fault Element :=
  match m.element? b.element with
  | some base => if b.matches base then .ok base else el.fault (.baseReleased b.label)
  | none => el.fault (.baseReleased b.label)

/-- What the element at key `e` gets from its base of static stream `id`. -/
def baseValue (m : Manager) (e : ElementId) (el : Element) (bases : List BaseRef) (id : StaticId) :
    Except Fault StreamValue := do
  match bases.find? fun b => b.label.stream.staticId = id with
  | none => el.fault (.noBaseOf id)
  | some b =>
    let base ← m.baseElement el b
    if b.element ≠ e ∧ m.givesResult base then
      match base.result with
      | some v => return v
      | none => el.fault (.baseResultNotReady base.label)
    else if !base.valueReady then el.fault (.baseNotReady base.label)
    else base.elementValue

/-- What the core takes from an element is there. -/
def givesValue (m : Manager) (el : Element) : Bool :=
  if m.givesResult el then el.result.isSome else el.valueReady

/-- A base of the element at key `e` can be read. -/
def baseReady (m : Manager) (e : ElementId) (el : Element) (b : BaseRef) : Except Fault Bool := do
  let base ← m.baseElement el b
  return if b.element = e then base.valueReady else m.givesValue base

/-- The bases of the address can be read. -/
def addrBaseReady (m : Manager) (e : ElementId) : Except Fault Bool := do
  let el ← m.element e
  let st ← m.stream el.stream
  if st.decl.isZeroTripLast el.idx then return false
  el.addrBases.allM (m.baseReady e el)

/-- What the value is computed from can be read. -/
def valueBaseReady (m : Manager) (e : ElementId) : Except Fault Bool := do
  let el ← m.element e
  let st ← m.stream el.stream
  match st.decl.terminal el.idx with
  | .finalValue => return st.finals.contains el.idx
  | .neverReady => return false
  | .normal =>
    if st.decl.isZeroTripLast el.idx then return false
    el.valueBases.allM (m.baseReady e el)

/-- The element's own bytes are there. -/
def isValueReady (m : Manager) (e : ElementId) : Except Fault Bool := do
  let el ← m.element e
  return el.valueReady

/-- What the core takes from the element is there. -/
def isResultReady (m : Manager) (e : ElementId) : Except Fault Bool := do
  let el ← m.element e
  return m.givesValue el

end Manager
end StreamEngine
