import StreamEngine.Element.Basic

/-!
# Progress of an element

How the blocks of an element get their content, when the element becomes value ready, and how it is
rewound. An element becomes value ready once; asking again is a fault.
-/

namespace StreamEngine
namespace Element

/-! ## Readiness -/

/-- Marks the element value ready. -/
def markValueReady (e : Element) : Except Fault Element :=
  if e.valueReady then e.fault .valueReady else .ok { e with valueReady := true }

/-- Every block is ready or faulted. -/
def isSettled (e : Element) : Bool :=
  e.blocks.all fun b => b.state.isSettled

/-- Marks the element value ready if all blocks are settled. Tells whether it did. -/
def tryMarkValueReady (e : Element) : Except Fault (Bool × Element) :=
  if e.isSettled then do
    let e ← e.markValueReady
    return (true, e)
  else .ok (false, e)

/-! ## Content -/

/-- The bytes of `data` in place of those at `offset`. -/
def overwrite (buffer : List UInt8) (offset : Nat) (data : List UInt8) : List UInt8 :=
  buffer.take offset ++ data ++ buffer.drop (offset + data.length)

/-- The line of a block and the bytes from `vaddr` up to `rhs` have a byte in common. -/
def touches (lineSize : Nat) (vaddr rhs : UInt64) (b : Block) : Bool :=
  vaddr < b.line + UInt64.ofNat lineSize && b.line < rhs

/-- Writes bytes at `vaddr` and makes every block they touch ready. Tells whether the element became
value ready. A write of exactly the element of a stream outside memory reaches all blocks, whatever
the address. -/
def setValue (e : Element) (vaddr : UInt64) (data : List UInt8) :
    Except Fault (Bool × Element) := do
  let offset ← e.valueOffset vaddr data.length
  let e := { e with buffer := overwrite e.buffer offset data }
  if !e.isMem && vaddr == e.addr && data.length == e.size then
    let blocks := e.blocks.map fun b => { b with state := .ready }
    tryMarkValueReady { e with blocks }
  else if 2 ^ 64 ≤ vaddr.toNat + data.length then e.fault (.rangeWraps vaddr data.length)
  else
    let rhs := vaddr + UInt64.ofNat data.length
    let blocks := e.blocks.map fun b =>
      if touches e.lineSize vaddr rhs b then { b with state := .ready } else b
    tryMarkValueReady { e with blocks }

/-- Marks a block faulted. Tells whether the element became value ready. -/
def faultBlock (e : Element) (i : Nat) : Except Fault (Bool × Element) :=
  if i < e.blocks.length then
    (e.setBlock i fun b => { b with state := .faulted }).tryMarkValueReady
  else .error .bounds

/-- Fills block `i` from the same line of the previous element, if it waits for that. A fault of the
line is taken over. Tells whether the element became value ready. -/
def copyBlock (e prev : Element) (i : Nat) : Except Fault (Bool × Element) :=
  match e.blocks[i]? with
  | none => .error .bounds
  | some b =>
    if b.state ≠ .prevElement then .ok (false, e)
    else do
      let j ← prev.blockIndex b.line e.lineSize
      match prev.blocks[j]? with
      | none => throw .bounds
      | some p =>
        if p.state = .faulted then e.faultBlock i
        else
          let data ← prev.getValue b.line e.lineSize
          e.setValue b.line data

/-- Fills every block that waits for the previous element. Tells whether the element became value
ready. -/
def copyFromPrev (e prev : Element) : Except Fault (Bool × Element) :=
  (List.range e.blocks.length).foldlM
    (fun (became, e) i => do
      let (now, e) ← e.copyBlock prev i
      return (became || now, e))
    (false, e)

/-! ## Detaching and rewinding -/

/-- The accesses that blocks wait on, in block order, and the element without them. -/
def takeAccesses (e : Element) : List AccessId × Element :=
  (e.blocks.filterMap Block.access,
    { e with blocks := e.blocks.map fun b => { b with access := none } })

/-- Drops the blocks, none of which may still wait on an access. -/
def clearBlocks (e : Element) : Except Fault Element :=
  match e.blocks.find? fun b => b.access.isSome with
  | some b => e.fault (.blockAttached b.line)
  | none => .ok { e with blocks := [] }

/-- The buffer with every byte zero. -/
def zeroed (e : Element) : List UInt8 :=
  List.replicate e.buffer.length 0

/-- Rewinds the element to its state after allocation. Gives the accesses it waited on. -/
def flush (e : Element) (aliased : Bool) : List AccessId × Element :=
  let (accesses, e) := e.takeAccesses
  (accesses, { e with
    addr := 0
    blocks := []
    buffer := e.zeroed
    addrReady := false
    valueReady := false
    reqIssued := false
    flushed := true
    aliased := e.aliased || aliased
    computeScheduled := false
    result := none })

/-- The element as new, for its stream and index. -/
def clear (e : Element) : Except Fault Element := do
  let e ← e.clearBlocks
  return { e with
    addr := 0
    buffer := e.zeroed
    addrBases := []
    valueBases := []
    next := none
    addrReady := false
    valueReady := false
    reqIssued := false
    stepped := false
    flushed := false
    aliased := false
    computeScheduled := false
    result := none }

end Element
end StreamEngine
