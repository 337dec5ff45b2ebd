import StreamEngine.Graph.Basic

/-!
# Indices across strands, and forwarding

An element of a split stream has an index in the stream and an index in its strand. This module
translates between the two, follows an edge from a sender's element to where it lands, and answers
questions of planning about the addresses and the receivers of a stream.
-/

namespace StreamEngine

/-- Where a forwarded value lands. -/
structure RecvTarget where
  strand : StrandId
  elem : Nat
  vaddr : UInt64
  machine : Option Machine
  deriving DecidableEq, Repr

/-- Addresses from `lhs` up to but not including `rhs`. -/
structure AddrRange where
  lhs : UInt64
  rhs : UInt64
  deriving DecidableEq, Repr

namespace AddrRange

/-- The smallest range that holds both. -/
def hull (a b : AddrRange) : AddrRange :=
  { lhs := if b.lhs < a.lhs then b.lhs else a.lhs, rhs := if a.rhs < b.rhs then b.rhs else a.rhs }

end AddrRange

namespace Graph

/-! ## Stream and strand indices -/

/-- The stream configuration above `c`, at most `steps` splits up. -/
def rootWithin (g : Graph) (c : ConfigId) : Nat → Except Fault Config
  | 0 => .error (.graph (.notLive c))
  | steps + 1 => do
    let config ← g.get c
    match config.parent with
    | none => return config
    | some parent => g.rootWithin parent steps

/-- The stream configuration that `c` was split from, or `c` itself. A split enters its strands after
the configuration it splits, so a key has at most as many splits above it as its value. -/
def root (g : Graph) (c : ConfigId) : Except Fault Config :=
  g.rootWithin c (c.val + 1)

/-- Strand and index there of element `idx` of the stream that `c` belongs to. -/
def strandElem (g : Graph) (c : ConfigId) (idx : Nat) : Except Fault (StrandId × Nat) := do
  let config ← g.root c
  match config.split with
  | some split =>
    if config.isSplit then
      let e ← split.toStrand idx
      let strand ← StrandId.part config.id e.strand split.totalStrands
      return (strand, e.elem)
    return (.whole config.id, idx)
  | none => return (.whole config.id, idx)

/-- Index in the stream of element `elem` of the strand that `c` describes. A stream that is not split
is its own strand. -/
def streamIdx (g : Graph) (c : ConfigId) (elem : Nat) : Except Fault Nat := do
  let config ← g.get c
  if !config.isSplit then return elem
  if !config.isStrand then throw (.graph (.needsStrandConfig config.id elem))
  match config.split with
  | some split => split.toStream { strand := config.strandIdx, elem }
  | none =>
    let strand ← config.strandId
    throw (.graph (.noSplit strand))

/-! ## Forwarding -/

/-- Where element `elem` of `sender` lands along an edge. A stream configuration as peer is reached
through stream indices, a strand configuration strand to strand. -/
def forward (g : Graph) (e : Edge) (sender : ConfigId) (elem : Nat) : Except Fault RecvTarget := do
  let recv ← g.get e.peer
  match recv.parent with
  | none =>
    let sent ← g.streamIdx sender elem
    let landed := e.toDependent sent
    let (strand, idx) ← g.strandElem e.peer landed
    let vaddr ← recv.address landed
    return { strand, elem := idx, vaddr, machine := recv.floatPlan.machineAt landed }
  | some parent =>
    let landed := e.toDependent elem
    let idx ← g.streamIdx e.peer landed
    let stream ← g.get parent
    let strand ← recv.strandId
    let vaddr ← recv.address landed
    return { strand, elem := landed, vaddr, machine := stream.floatPlan.machineAt idx }

/-! ## Planning -/

/-- Addresses that the elements from `lhs` to `rhs` touch. There are none in an empty range, and they
are not known where a parameter refers to a base stream. -/
def addressRange (g : Graph) (c : ConfigId) (lhs rhs : Nat) : Except Fault (Option AddrRange) := do
  let config ← g.get c
  if rhs ≤ lhs ∨ config.formal.allInvariant = false then return none
  (List.range (rhs - lhs)).foldlM
    (fun range i => do
      let addr ← config.address (lhs + i)
      let own : AddrRange := { lhs := addr, rhs := addr + UInt64.ofNat config.elemSize }
      match range with
      | none => return some own
      | some r => return some (r.hull own))
    none

/-- A configuration forwards values to a stream of a loop deeper than `level`. -/
def sendsDeeper (g : Graph) (level : Nat) (config : Config) : Except Fault Bool :=
  config.depEdges.anyM fun e => do
    if e.kind ≠ .sendTo then return false
    let peer ← g.get e.peer
    return level < peer.loopLevel

/-- The stream, or one of its indirect streams, forwards values into a deeper loop. -/
def sendsToInnerLoop (g : Graph) (c : ConfigId) : Except Fault Bool := do
  let config ← g.get c
  if ← g.sendsDeeper config.loopLevel config then return true
  config.depEdges.anyM fun e => do
    if e.kind ≠ .usedBy then return false
    let peer ← g.get e.peer
    g.sendsDeeper config.loopLevel peer

/-- The configuration that feeds `c` as an indirect stream. -/
def usedByBase (g : Graph) (c : ConfigId) : Except Fault ConfigId := do
  let config ← g.get c
  match config.baseEdges.find? Edge.answersUsedBy with
  | none => throw (.graph (.noUsedByBase config.id))
  | some e =>
    if g.contains e.peer then return e.peer
    throw (.graph (.usedByBaseReleased config.id e.peerStrand))

end Graph
end StreamEngine
