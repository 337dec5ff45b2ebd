import StreamEngine.Lifecycle.Readiness

/-!
# Addresses, requests and answers

Once its address is ready, an element of a memory stream asks for its lines. A line that the previous
element has asked for is shared, a line that it holds is copied, and any other line gets an access of its
own.

- `Manager.markAddrReady` : computes the address and splits the element into blocks;
- `Manager.issue` : asks for every block that has not been asked for;
- `Manager.respond`, `Manager.respondFault` : an answer, for every element that still waits for it.
-/

namespace StreamEngine
namespace Manager

/-! ## Addresses -/

/-- Address of an element. Elements outside memory have address 0. -/
def addressOf (m : Manager) (e : ElementId) (el : Element) (d : Declaration) :
    Except Fault UInt64 := do
  if d.role.isMem then
    let v ← d.generator.generate el.idx d.formal (m.baseValue e el el.addrBases)
    return v.front
  else return 0

/-- Computes the address of an element from its bases and splits the element into blocks. -/
def markAddrReady (m : Manager) (e : ElementId) : Except Fault (Outcome Unit) := do
  let el ← m.element e
  let st ← m.stream el.stream
  let addr ← m.addressOf e el st.decl
  match el.markAddrReady addr m.options.policy with
  | .ok el => return (.ok (), m.putElement e el)
  | .error (.refused err) => return (.error (.capacity err), m)
  | .error (.fault f) => throw f

/-! ## Requests -/

/-- Where a block gets its line from. -/
inductive IssuePlan where
  | fresh
  | share (access : AccessId)
  | copyPrevious
  deriving DecidableEq, Repr

/-- The plan for a line behind the previous element's block of that line. -/
def planBehind (b : Block) : IssuePlan :=
  match b.state, b.access with
  | .issued, some access => .share access
  | .ready, _ => .copyPrevious
  | .faulted, _ => .copyPrevious
  | _, _ => .fresh

/-- The plan for a line, given the previous element. -/
def planLine (coalesce : Bool) (prev : Option Element) (line : UInt64) : IssuePlan :=
  match prev with
  | none => .fresh
  | some p =>
    if !coalesce || !p.addrReady then .fresh
    else
      match p.blocks.find? fun b => b.line = line with
      | some b => planBehind b
      | none => .fresh

/-- The blocks from position `i` on that have not been asked for, with their plans. -/
def plansFrom (coalesce : Bool) (prev : Option Element) (i : Nat) :
    List Block → List (Nat × IssuePlan)
  | [] => []
  | b :: rest =>
    let later := plansFrom coalesce prev (i + 1) rest
    if b.state = .initialized then (i, planLine coalesce prev b.line) :: later else later

/-- Every access that is to be shared has room for the element. -/
def checkRoom (m : Manager) (e : ElementId) :
    List (Nat × IssuePlan) → Except Fault (Except EngineError Unit)
  | [] => .ok (.ok ())
  | (_, .share a) :: rest => do
    let access ← m.accesses.get a
    match access.checkRoom e m.options.policy with
    | .ok () => m.checkRoom e rest
    | .error (.refused err) => return .error (.capacity err)
    | .error (.fault f) => throw f
  | (_, _) :: rest => m.checkRoom e rest

/-- Registers the element with an access, which block `i` then waits on. -/
def attach (m : Manager) (e : ElementId) (i : Nat) (a : AccessId) :
    Except Fault (Outcome Unit) := do
  let access ← m.accesses.get a
  match access.register e m.options.policy with
  | .ok access =>
    let m := { m with accesses := m.accesses.put a access }
    let m ← m.modifyElement e fun el =>
      el.setBlock i fun b => { b with access := some a, state := .issued }
    return (.ok (), m)
  | .error (.refused err) => return (.error (.capacity err), m)
  | .error (.fault f) => throw f

/-- The access that block `b` of an element leads. -/
def accessFor (e : ElementId) (el : Element) (b : Block) : Access :=
  { stream := el.stream, leader := e, leaderIdx := el.idx, line := b.line, vaddr := b.vaddr,
    size := b.size, isReissue := el.flushed }

/-- Carries out the plan of block `i`. Gives the access, if one was made. -/
def issueBlock (m : Manager) (e : ElementId) (i : Nat) (plan : IssuePlan) :
    Except Fault (Outcome (Option AccessId)) := do
  match plan with
  | .share a =>
    let (r, m) ← m.attach e i a
    return (r.map fun _ => none, m)
  | .copyPrevious =>
    let m ← m.modifyElement e fun el =>
      el.setBlock i fun b => { b with state := .prevElement }
    return (.ok none, m)
  | .fresh =>
    let el ← m.element e
    match el.blocks[i]? with
    | none => throw .bounds
    | some b =>
      let (a, accesses) := m.accesses.alloc (accessFor e el b)
      let (r, m) ← { m with accesses }.attach e i a
      return (r.map fun _ => some a, m)

/-- Carries out plans in order until one is refused. Gives the accesses made. -/
def issueBlocks (m : Manager) (e : ElementId) :
    List (Nat × IssuePlan) → Except Fault (Outcome (List AccessId))
  | [] => .ok (.ok [], m)
  | (i, plan) :: rest => do
    let (r, m) ← m.issueBlock e i plan
    match r with
    | .error err => return (.error err, m)
    | .ok made =>
      let (more, m) ← m.issueBlocks e rest
      return (more.map (made.toList ++ ·), m)

/-- Fills the blocks of an element that wait for the previous one. Tells whether the element became
value ready. -/
def setValueFromPrevious (m : Manager) (e : ElementId) : Except Fault (Bool × Manager) := do
  let prev ← m.previous? e
  let el ← m.element e
  match prev with
  | none => el.fault .noPrevious
  | some p =>
    let source ← m.element p
    let (became, el) ← el.copyFromPrev source
    return (became, m.putElement e el)

/-- The element may ask for its lines. -/
def checkIssue (el : Element) : Except Fault Unit :=
  if !el.isMem then el.fault .notMemory
  else if !el.addrReady then el.fault .issueBeforeAddress
  else if el.reqIssued then el.fault .alreadyIssued
  else .ok ()

/-- Asks for every block that has not been asked for. Gives the accesses made. When an access to be
shared is full, nothing is asked for. -/
def issue (m : Manager) (e : ElementId) : Except Fault (Outcome (List AccessId)) := do
  let prev ← m.previous? e
  let el ← m.element e
  checkIssue el
  let prevElement := prev.bind m.element?
  let plans := plansFrom m.options.coalesce prevElement 0 el.blocks
  match ← m.checkRoom e plans with
  | .error err => return (.error err, m)
  | .ok () =>
    let (r, m) ← m.issueBlocks e plans
    match r with
    | .error err => return (.error err, m)
    | .ok made =>
      let m ← m.modifyElement e fun el => { el with reqIssued := true }
      if plans.any fun p => p.2 = .copyPrevious then
        let (_, m) ← m.setValueFromPrevious e
        return (.ok made, m)
      else return (.ok made, m)

/-! ## Answers -/

/-- Takes an access off the block that waits on it, and gives the position of that block. -/
def detach (m : Manager) (e : ElementId) (a : AccessId) : Except Fault (Nat × Manager) := do
  let el ← m.element e
  match el.blocks.findIdx? fun b => b.access == some a with
  | none => el.fault (.notWaiting a)
  | some i => return (i, m.putElement e (el.setBlock i fun b => { b with access := none }))

/-- Delivers an answer to the elements that wait for it, in order, and gives those that became value
ready. Elements of a store stream only stop waiting. -/
def deliver (m : Manager) (a : AccessId) (store : Bool)
    (settle : Element → Nat → Except Fault (Bool × Element)) :
    List ElementId → Except Fault (List ElementId × Manager)
  | [] => .ok ([], m)
  | e :: rest => do
    let (i, m) ← m.detach e a
    if store then m.deliver a store settle rest
    else
      let el ← m.element e
      let (became, el) ← settle el i
      let (ready, m) ← (m.putElement e el).deliver a store settle rest
      return (if became then e :: ready else ready, m)

/-- Answers an access: each element that waits for it settles its block of that line. -/
def answer (m : Manager) (a : AccessId)
    (settle : Element → Nat → Except Fault (Bool × Element)) :
    Except Fault (List ElementId × Manager) := do
  let (access, waiting, accesses) ← m.accesses.respond a
  let store :=
    match m.stream? access.stream with
    | some st => st.decl.role.isStore
    | none => false
  { m with accesses }.deliver a store settle waiting

/-- The line of block `i` is `data`. -/
def settleData (data : List UInt8) (el : Element) (i : Nat) : Except Fault (Bool × Element) :=
  match el.blocks[i]? with
  | some b => el.setValue b.line data
  | none => .error .bounds

/-- Answers an access with the bytes of its line. Gives the elements that became value ready. -/
def respond (m : Manager) (a : AccessId) (data : List UInt8) :
    Except Fault (List ElementId × Manager) :=
  m.answer a (settleData data)

/-- Answers an access with a failed translation. Gives the elements that became value ready. -/
def respondFault (m : Manager) (a : AccessId) : Except Fault (List ElementId × Manager) :=
  m.answer a Element.faultBlock

/-- Writes bytes of an element. Tells whether the element became value ready. -/
def setValue (m : Manager) (e : ElementId) (vaddr : UInt64) (data : List UInt8) :
    Except Fault (Bool × Manager) := do
  let el ← m.element e
  let (became, el) ← el.setValue vaddr data
  return (became, m.putElement e el)

end Manager
end StreamEngine
