import StreamEngine.Diagnostic
import StreamEngine.Identity
import StreamEngine.Text.Hex

/-!
# Capacities

Two lists have a fixed capacity: the cache blocks of an element and the receivers of an access. What
happens when one would overflow is a matter of policy.
-/

namespace StreamEngine

/-- Most cache blocks of one element. -/
def maxBlocks : Nat := 10

/-- Most receivers of one access. -/
def maxReceivers : Nat := 64

/-- What an overflow does: it is reported to the caller, or it stops the engine. -/
inductive OverflowPolicy where
  | report
  | abort
  deriving DecidableEq, Repr

/-- A list that would overflow. -/
inductive CapacityError where
  | cacheBlocks (element : ElementLabel) (addr : UInt64) (size : Nat)
  | receivers (leader : ElementLabel) (line : UInt64)
  deriving DecidableEq, Repr

namespace CapacityError

def message : CapacityError → String
  | .cacheBlocks element addr size =>
    s!"more than {maxBlocks} cache blocks for element {element.text}, " ++
      s!"addr {Text.hexWord addr} size {size}"
  | .receivers leader line =>
    s!"too many receivers ({maxReceivers}) on access to line {Text.hexWord line} " ++
      s!"led by {leader.text}"

def code : CapacityError → Code
  | .cacheBlocks _ _ _ => .blockOverflow
  | .receivers _ _ => .receiverOverflow

instance : Reported CapacityError where
  code := code
  message := message

end CapacityError
end StreamEngine
