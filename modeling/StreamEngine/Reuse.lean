/-!
# Edges

How one stream configuration depends on another. A base stream and a stream that depends on it need not
run element by element.

- *Reuse* : each base element serves `count` dependent elements. With `tile > 1` the base walks a
  group of `tile` elements and the dependent repeats the whole group `count` times.
- *Skip* : one base element in every `skip` serves a dependent element.

An edge has at most one of the two. The maps below translate element indices both ways. Their products,
`tile * count` and `d * skip` among them, are natural numbers here: nothing holds them to 64-bit words.
-/

namespace StreamEngine

/-- The kind of a dependence edge. -/
inductive EdgeKind where
  /-- The holder reads the value of its peer. -/
  | baseOn
  /-- The peer is an indirect stream fed by the holder. -/
  | usedBy
  /-- The holder forwards its values to the peer. -/
  | sendTo
  /-- The holder forwards its values inside memory, following affine patterns. -/
  | memorySendTo
  deriving DecidableEq, Repr

def EdgeKind.text : EdgeKind → String
  | .baseOn => "BaseOn"
  | .usedBy => "UsedBy"
  | .sendTo => "SendTo"
  | .memorySendTo => "PUMSendTo"

/-! ## Reuse and skip -/

/-- Each base element is used by `count` dependent elements, in groups of `tile`. -/
structure Reuse where
  count : Nat := 1
  tile : Nat := 1
  tile_pos : 0 < tile := by first | exact Nat.one_pos | decide
  deriving DecidableEq, Repr

namespace Reuse

instance : Inhabited Reuse := ⟨{}⟩

/-- Plain repetition: groups of one element. -/
def times (count : Nat) : Reuse :=
  { count }

/-- More than one use of each base element. -/
def isReused (r : Reuse) : Bool :=
  r.count > 1

/-- Index of the first dependent element that base element `b` serves. -/
def baseToDep (r : Reuse) (b : Nat) : Nat :=
  b / r.tile * (r.tile * r.count) + b % r.tile

/-- Index of the base element that dependent element `d` uses, for a positive count. -/
def depToBase (r : Reuse) (d : Nat) : Nat :=
  d / (r.tile * r.count) * r.tile + d % r.tile

/-- Index of the base element that dependent element `d` uses. There is none for a count of zero. -/
def depToBase? (r : Reuse) (d : Nat) : Option Nat :=
  if r.count = 0 then none else some (r.depToBase d)

/-- Printed form: `R4`, or `R4x2` for groups of two. -/
def text (r : Reuse) : String :=
  if r.tile = 1 then s!"R{r.count}" else s!"R{r.count}x{r.tile}"

/-- Dependent index along an edge: reuse decides where there is any, then skip. -/
def toDependent (r : Reuse) (skip : Nat) (b : Nat) : Nat :=
  if r.isReused then r.baseToDep b
  else if skip ≠ 0 then b / skip
  else b

/-- Base index along an edge: reuse decides where there is any, then skip. -/
def toBase (r : Reuse) (skip : Nat) (d : Nat) : Nat :=
  if r.isReused then r.depToBase d
  else if skip ≠ 0 then d * skip
  else d

end Reuse
end StreamEngine
