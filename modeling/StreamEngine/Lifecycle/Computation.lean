import StreamEngine.Lifecycle.Request

/-!
# Computations

The value of an element that does not come from memory is computed from its bases. Induction variables
have their value at once. Results that take time are pending until the clock reaches their cycle.

- `Manager.compute` : evaluates an element;
- `Manager.tick` : moves the clock and commits what is due.
-/

namespace StreamEngine
namespace Manager

/-! ## Committing -/

/-- A computed result takes its place beside the loaded bytes. -/
def commitResult (el : Element) (v : StreamValue) : Except Fault Element :=
  if el.result.isSome then el.fault .resultReady else .ok { el with result := some v }

/-- A computed value becomes the bytes of the element. -/
def commitBytes (el : Element) (v : StreamValue) : Except Fault Element := do
  if StreamValue.width < el.size then el.fault (.tooWideForResult el.size)
  else
    let (_, el) ← el.setValue el.addr (v.toBytes.take el.size)
    return el

/-- Gives an element its computed value. -/
def commit (m : Manager) (e : ElementId) (v : StreamValue) : Except Fault Manager := do
  let el ← m.element e
  let idle := { el with computeScheduled := false }
  let el ← if m.givesResult el then commitResult idle v else commitBytes idle v
  return m.putElement e el

/-! ## Computing -/

/-- A value, and the cycles that it takes. -/
structure Evaluation where
  value : StreamValue
  latency : Nat
  deriving DecidableEq, Repr

/-- Evaluates the kernel of a role on the element's value bases, all of which must be ready. -/
def runKernel (m : Manager) (e : ElementId) (el : Element) (d : Declaration) (k : Kernel) :
    Except Fault Evaluation := do
  if !(← m.valueBaseReady e) then el.fault .computeBaseNotReady
  else
    let params ← d.kernelFormal.resolve (m.baseValue e el el.valueBases)
    return { value := k.run params, latency := k.latency }

/-- What a reduction reads: at the second element of an inner loop its own previous value is the
initial one. -/
def reductionBase (m : Manager) (e : ElementId) (el : Element) (d : Declaration) (id : StaticId) :
    Except Fault StreamValue :=
  if id = d.staticId ∧ d.isInnerSecond el.idx then .ok d.initialValue
  else m.baseValue e el el.valueBases id

/-- Evaluates an element from its bases. -/
def evaluate (m : Manager) (e : ElementId) (el : Element) (d : Declaration) :
    Except Fault Evaluation := do
  let generate (fetch : StaticId → Except Fault StreamValue) : Except Fault Evaluation := do
    let value ← d.generator.generate el.idx d.formal fetch
    return { value, latency := d.generator.latency }
  match d.role with
  | .load => el.fault (.nothingToCompute d.role.name)
  | .store => el.fault (.nothingToCompute d.role.name)
  | .storeCompute k => m.runKernel e el d k
  | .loadCompute k => m.runKernel e el d k
  | .reduction => generate (m.reductionBase e el d)
  | .induction => generate (m.baseValue e el (el.addrBases ++ el.valueBases))
  | .pointerChase => generate (m.baseValue e el (el.addrBases ++ el.valueBases))

/-- Cycles from now on until a computation of this latency is due. Vectorized ones take longer. -/
def delay (o : Options) (d : Declaration) (latency : Nat) : Nat :=
  if !o.scalarAlu || d.simd then latency + o.simdDelay else latency

/-- Schedules a result. The clock is unbounded: the cycle at which the result is due is a natural number,
and the sum never runs out of 64-bit words. -/
def schedule (m : Manager) (e : ElementId) (result : StreamValue) (cycles : Nat) :
    Except Fault Manager := do
  let m ← m.modifyElement e fun el => { el with computeScheduled := true }
  return { m with pending := m.pending ++ [{ element := e, result, readyAt := m.now + cycles }] }

/-- Computes an element like any other of its role. -/
def computeNormal (m : Manager) (e : ElementId) (el : Element) (d : Declaration) :
    Except Fault Manager := do
  let r ← m.evaluate e el d
  if d.role.isCompute then m.schedule e r.value (delay m.options d r.latency)
  else m.commit e r.value

/-- Computes an element. The first one of a stream that runs one iteration behind is the initial
value, and a final value is taken as delivered. -/
def compute (m : Manager) (e : ElementId) : Except Fault Manager := do
  let el ← m.element e
  let st ← m.stream el.stream
  if !el.addrReady then el.fault .computeBeforeAddress
  else if el.computeScheduled then el.fault .computeScheduled
  else if st.decl.role.isOneIterBehind && el.idx == 0 then m.commit e st.decl.initialValue
  else
    match st.decl.terminal el.idx with
    | .finalValue =>
      match st.finals.find? el.idx with
      | some v => m.commit e v
      | none => el.fault .finalNotReady
    | .neverReady => el.fault .neverComputed
    | .normal => m.computeNormal e el st.decl

/-! ## Time -/

/-- Commits results in order. -/
def commitAll (m : Manager) (due : List PendingCompute) : Except Fault Manager :=
  due.foldlM (fun m p => m.commit p.element p.result) m

/-- Moves the clock to cycle `now` and commits every result due by then, in the order in which they
were scheduled. Gives the elements. -/
def tick (m : Manager) (now : Nat) : Except Fault (List ElementId × Manager) := do
  let (due, waiting) := m.pending.partition fun p => p.readyAt ≤ now
  let m ← { m with now, pending := waiting }.commitAll due
  return (due.map PendingCompute.element, m)

/-- Delivers the final value of an inner loop, once for each element. -/
def setFinalValue (m : Manager) (s : StreamId) (idx : Nat) (w : UInt64) :
    Except Fault (Outcome Unit) :=
  match m.stream? s with
  | none => .ok (.error (.unknownStream s), m)
  | some st =>
    if st.finals.contains idx then
      .error (.stream (.finalSetTwice { stream := s, index := idx }))
    else
      .ok (.ok (), m.putStream s { st with finals := st.finals.insert idx (.ofWord w) })

end Manager
end StreamEngine
