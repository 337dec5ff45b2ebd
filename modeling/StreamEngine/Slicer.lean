import StreamEngine.Arithmetic
import StreamEngine.Graph.Config

/-!
# Cutting a stream into slices

A slicer walks the elements of a strand in order and hands out the slices of cache lines they touch.
With coalescing, an element that touches the line of an open slice extends it; without, and past the
end of the stream, each element opens a slice of its own on every line it touches.

A slice is handed out once an element has been allocated that does not extend it, so that it cannot
grow any more. Elements are allocated only as far as that takes.

- `Slicer.cover` : allocate the next element;
- `Slicer.next`, `Slicer.peek`, `Slicer.hasOverflowed` : what callers ask for.

The parameters of the stream must not refer to base streams, and the line size must be a power of two.
-/

namespace StreamEngine

/-- The start of the line that holds `addr`, for lines of `line` bytes, a power of two. -/
def lineOf (line : Nat) (addr : UInt64) : UInt64 :=
  addr &&& ~~~(UInt64.ofNat line - 1)

/-- A strand, the next element to allocate, and the slices not yet handed out. -/
structure Slicer where
  strand : StrandId
  formal : Formal
  generator : Generator
  elemSize : Nat
  totalTrip : Option Nat
  lineSize : Nat
  coalesce : Bool
  /-- The next element to allocate. -/
  tail : Nat := 0
  /-- Slices that start before this element are closed. -/
  head : Nat := 0
  /-- Slices not yet handed out, oldest first. -/
  queue : List Slice := []

namespace Slicer

/-- The slicer of a configured stream. -/
def ofConfig (c : Config) (lineSize : Nat) (coalesce : Bool) : Except Fault Slicer := do
  let strand ← c.strandId
  return { strand, formal := c.formal, generator := c.generator, elemSize := c.elemSize,
           totalTrip := c.totalTrip, lineSize, coalesce }

/-- Address of element `idx`. -/
def address (s : Slicer) (idx : Nat) : Except Fault UInt64 :=
  s.generator.invariantAddress s.formal idx

/-- The stream has a known end at or before element `idx`. -/
def pastEnd (s : Slicer) (idx : Nat) : Bool :=
  match s.totalTrip with
  | some total => total ≤ idx
  | none => false

/-- First and last line that the bytes from `addr` on touch. -/
def linesFrom (s : Slicer) (addr : UInt64) : UInt64 × UInt64 :=
  (lineOf s.lineSize addr, lineOf s.lineSize (addr + UInt64.ofNat s.elemSize - 1))

/-! ## Allocating an element -/

/-- Extends the open slices of the lines from `line` to `last` by element `idx`, in queue order, and
gives the first line that is left. Slices that start before `head` are closed. -/
def extend (strand : StrandId) (size head idx : Nat) (last line : UInt64) :
    List Slice → Except Fault (UInt64 × List Slice)
  | [] => .ok (line, [])
  | s :: rest =>
    if s.lhs < head ∨ s.vaddr ≠ line then do
      let (left, rest) ← extend strand size head idx last line rest
      return (left, s :: rest)
    else if s.rhs ≠ idx then .error (.slice (.hole strand idx s))
    else
      let grown := { s with rhs := s.rhs + 1 }
      let following := line + UInt64.ofNat size
      if last < following then .ok (following, grown :: rest)
      else do
        let (left, rest) ← extend strand size head idx last following rest
        return (left, grown :: rest)

/-- New slices of element `idx` on the lines from `line` to `last`. The address behind the last one
must exist. -/
def opened (strand : StrandId) (size idx : Nat) (line last : UInt64) :
    Except Fault (List Slice) :=
  if last < line then .ok []
  else
    let count := (last.toNat - line.toNat) / size + 1
    if 2 ^ 64 ≤ line.toNat + count * size then .error .arithmetic
    else .ok ((List.range count).map fun i =>
      { strand, lhs := idx, rhs := idx + 1, vaddr := line + UInt64.ofNat (i * size), size })

/-- Queue, first open element and first uncovered line once element `tail` has extended what it can.
An element whose first line lies before the newest slice closes all slices, and must not reach any of
their lines. -/
def merge (s : Slicer) (addr first last : UInt64) : Except Fault (List Slice × Nat × UInt64) :=
  if s.coalesce && !s.pastEnd s.tail then
    match s.queue.getLast? with
    | some newest =>
      if first < newest.vaddr then
        match s.queue.find? fun q => q.vaddr ≤ last with
        | some q => .error (.slice (.overlap s.strand s.tail addr q))
        | none => .ok (s.queue, s.tail, first)
      else do
        let (left, queue) ← extend s.strand s.lineSize s.head s.tail last first s.queue
        return (queue, s.head, left)
    | none => .ok ([], s.head, first)
  else .ok (s.queue, s.tail, first)

/-- Allocates the next element. -/
def cover (s : Slicer) : Except Fault Slicer := do
  let addr ← s.address s.tail
  let (first, last) := s.linesFrom addr
  let (queue, head, left) ← s.merge addr first last
  let fresh ← opened s.strand s.lineSize s.tail left last
  return { s with tail := s.tail + 1, head, queue := queue ++ fresh }

/-! ## Handing out slices -/

/-- The oldest slice, if it cannot grow any more. -/
def sealedFront? (s : Slicer) : Option Slice :=
  match s.queue with
  | front :: _ => if front.rhs = s.tail then none else some front
  | [] => none

/-- Allocates up to `room` elements until the oldest slice cannot grow any more. -/
def settle : Nat → Slicer → Except Fault (Slice × Slicer)
  | 0, _ => .error .arithmetic
  | room + 1, s =>
    match s.sealedFront? with
    | some front => .ok (front, s)
    | none => do
      let s ← s.cover
      settle room s

/-- The oldest slice in its final form, still queued. There are as many elements left to allocate as
64-bit indices from the next one on. -/
def peek (s : Slicer) : Except Fault (Slice × Slicer) :=
  settle (2 ^ 64 - s.tail) s

/-- Hands out the oldest slice in its final form. -/
def next (s : Slicer) : Except Fault (Slice × Slicer) := do
  let (front, s) ← s.peek
  return (front, { s with queue := s.queue.tail })

/-- The next slice lies behind the one element allowed past the end. A stream of no elements, or of
unknown length, never gets there. The index behind that element must exist. -/
def hasOverflowed (s : Slicer) : Except Fault (Bool × Slicer) :=
  match s.totalTrip with
  | some (total + 1) => do
    let (front, s) ← s.peek
    if 2 ^ 64 ≤ total + 2 then .error .arithmetic
    else .ok (total + 2 ≤ front.lhs, s)
  | _ => .ok (false, s)

/-- The next `count` slices. -/
def take (s : Slicer) : Nat → Except Fault (List Slice × Slicer)
  | 0 => .ok ([], s)
  | count + 1 => do
    let (front, s) ← s.next
    let (rest, s) ← s.take count
    return (front :: rest, s)

end Slicer
end StreamEngine
