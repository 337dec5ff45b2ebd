import StreamEngine.Fault
import StreamEngine.Slicer

/-!
# Elements

An element is one step of a stream: an address range, the cache blocks that cover it, and a buffer
with the bytes of their lines.

The blocks advance one by one, since requests may be answered in any order. The element is value ready
once every block is ready or faulted. The buffer starts at the line of the first block, so it may hold
bytes beside the element's own. Elements of streams outside memory have a block at address 0.

- `Element.markAddrReady` : fixes the address and splits the range into blocks;
- `Element.valueOffset` : where an address lies in the buffer.
-/

namespace StreamEngine

/-! ## Blocks -/

/-- How far a cache block has come. -/
inductive BlockState where
  | none
  | initialized
  /-- Answered by a failed translation, which every user of the line sees. -/
  | faulted
  | issued
  /-- To be copied from the previous element of the stream. -/
  | prevElement
  | ready
  deriving DecidableEq, Repr

namespace BlockState

def text : BlockState → String
  | .none => "None"
  | .initialized => "Initialized"
  | .faulted => "Faulted"
  | .issued => "Issued"
  | .prevElement => "PrevElement"
  | .ready => "Ready"

/-- The state printed as `s`. -/
def ofText? (s : String) : Option BlockState :=
  [BlockState.none, .initialized, .faulted, .issued, .prevElement, .ready].find? fun b =>
    b.text == s

/-- The block has its final content, or none. -/
def isSettled : BlockState → Bool
  | .ready => true
  | .faulted => true
  | _ => false

end BlockState

/-- The part of an element that lies in one cache line. -/
structure Block where
  line : UInt64
  vaddr : UInt64
  size : Nat
  access : Option AccessId := none
  state : BlockState := .initialized
  deriving DecidableEq, Repr

/-- Blocks of `left` bytes from `addr` on, one for each line, as long as there is `room` for them. -/
def blocksFrom (line : Nat) (addr : UInt64) (left : Nat) : Nat → Option (List Block)
  | 0 => if left = 0 then some [] else none
  | room + 1 =>
    if left = 0 then some []
    else
      let size := min left (line - addr.toNat % line)
      (blocksFrom line (addr + UInt64.ofNat size) (left - size) room).map fun rest =>
        { line := lineOf line addr, vaddr := addr, size } :: rest

/-! ## Elements -/

/-- A base element as its user sees it. The key may be used again for another element; the label tells
whether it was. -/
structure BaseRef where
  element : ElementId
  label : ElementLabel
  deriving DecidableEq, Repr

structure Element where
  stream : StreamId
  config : ConfigId
  idx : Nat
  addr : UInt64 := 0
  size : Nat
  /-- Memory streams track real lines; others keep a block at address 0. -/
  isMem : Bool
  lineSize : Nat
  blocks : List Block := []
  /-- Bytes from the line of the first block on. -/
  buffer : List UInt8 := []
  addrBases : List BaseRef := []
  valueBases : List BaseRef := []
  next : Option ElementId := none
  addrReady : Bool := false
  valueReady : Bool := false
  reqIssued : Bool := false
  stepped : Bool := false
  flushed : Bool := false
  aliased : Bool := false
  computeScheduled : Bool := false
  /-- What a load-compute element computed, apart from what it loaded. -/
  result : Option StreamValue := none
  deriving DecidableEq, Repr

/-- The base reference still names the element it was made for. -/
def BaseRef.matches (b : BaseRef) (e : Element) : Bool :=
  e.stream == b.label.stream && e.idx == b.label.index

namespace Element

def label (e : Element) : ElementLabel :=
  { stream := e.stream, index := e.idx }

/-- A broken invariant of this element. -/
def fault {α : Type} (e : Element) (f : ElementFault) : Except Fault α :=
  .error (.element e.label f)

/-- Position of the first block of a line. -/
def blockOfLine? (e : Element) (line : UInt64) : Option Nat :=
  e.blocks.findIdx? fun b => b.line == line

def isFaulted (e : Element) : Bool :=
  e.blocks.any fun b => b.state == .faulted

/-- The element with the state of one block replaced. -/
def setBlock (e : Element) (i : Nat) (f : Block → Block) : Element :=
  { e with blocks := e.blocks.modify i f }

/-! ## Address -/

/-- The blocks that cover the element's size from `addr` on. The end of the size, counted from the line of
its first byte, must be a word. From the second block on what is left is counted from the start of a line
or from behind the end of memory, and always is one. -/
def coveringBlocks (e : Element) (addr : UInt64) (policy : OverflowPolicy) :
    Except (Failure CapacityError) (List Block) :=
  if (e.lineSize = 0 ∧ e.size ≠ 0) ∨ 2 ^ 64 ≤ addr.toNat % e.lineSize + e.size then
    .error (.fault .arithmetic)
  else
    match blocksFrom e.lineSize addr e.size maxBlocks with
    | some blocks => .ok blocks
    | none => .error (policy.overflow (.cacheBlocks e.label addr e.size))

/-- Most bytes of a buffer: its length is a signed word. -/
def maxBuffer : Nat := 2 ^ 63 - 1

/-- Fixes the address, which must not be fixed yet, and splits the element into blocks. The buffer
grows to the lines of the blocks and never shrinks. -/
def markAddrReady (e : Element) (addr : UInt64) (policy : OverflowPolicy) :
    Except (Failure CapacityError) Element := do
  if e.addrReady then throw (.fault (.element e.label .addressReady))
  let addr := if e.isMem then addr else 0
  let blocks ← e.coveringBlocks addr policy
  if maxBuffer < blocks.length * e.lineSize then throw (.fault .arithmetic)
  let missing := blocks.length * e.lineSize - e.buffer.length
  return { e with
    blocks
    buffer := e.buffer ++ List.replicate missing 0
    addr
    addrReady := true }

/-! ## Places in the buffer -/

/-- Where the `size` bytes from `vaddr` on lie in the buffer. -/
def valueOffset (e : Element) (vaddr : UInt64) (size : Nat) : Except Fault Nat :=
  match e.blocks with
  | [] => e.fault (.noBlocks e.addrReady)
  | first :: _ =>
    if vaddr < first.line then e.fault (.belowBlocks vaddr e.addr e.size)
    else
      let offset := vaddr.toNat - first.line.toNat
      if e.buffer.length < offset + size then e.fault (.outsideBuffer vaddr size)
      else .ok offset

/-- The block, counted in lines from the first one, that holds the byte at `vaddr`. -/
def blockIndex (e : Element) (vaddr : UInt64) (size : Nat) : Except Fault Nat := do
  let offset ← e.valueOffset vaddr size
  return offset / e.lineSize

/-- The `size` bytes from `vaddr` on. -/
def getValue (e : Element) (vaddr : UInt64) (size : Nat) : Except Fault (List UInt8) := do
  let offset ← e.valueOffset vaddr size
  return (e.buffer.drop offset).take size

/-- The element's own bytes as a value, which they must fit. -/
def elementValue (e : Element) : Except Fault StreamValue := do
  if StreamValue.width < e.size then e.fault (.tooWideForValue e.size)
  else
    let bytes ← e.getValue e.addr e.size
    return .ofBytes bytes

/-- Some block that the bytes from `vaddr` on touch is faulted. A range that wraps counts as faulted. -/
def isValueFaulted (e : Element) (vaddr : UInt64) (size : Nat) : Except Fault Bool := do
  if 2 ^ 64 ≤ vaddr.toNat + size then return true
  let first ← e.blockIndex vaddr size
  let last ← e.blockIndex (vaddr + UInt64.ofNat (max size 1 - 1)) 1
  if e.blocks.length ≤ last ∨ last + 1 < first then throw .bounds
  return ((e.blocks.take (last + 1)).drop first).any fun b => b.state == .faulted

end Element
end StreamEngine
