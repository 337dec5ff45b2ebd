import StreamEngine.Capacity

/-!
# Options

The constants that the engine is run with: the size of a cache line, whether neighbours are merged,
what a computation costs, and what an overflow does.
-/

namespace StreamEngine

structure Options where
  /-- Bytes in a cache line, a power of two. -/
  lineSize : Nat := 64
  /-- Elements that touch one line share a slice and a request. -/
  coalesce : Bool := true
  /-- Extra cycles of a vectorized computation. -/
  simdDelay : Nat := 2
  /-- Scalar streams compute without the extra cycles. -/
  scalarAlu : Bool := false
  policy : OverflowPolicy := .abort
  deriving DecidableEq, Repr

/-- Why a configuration text is not accepted. -/
inductive OptionsError where
  /-- The text does not describe a configuration at all. -/
  | malformed
  | badLineSize (size : Nat)
  | notPositive (field : String)
  deriving DecidableEq, Repr

namespace OptionsError

/-- The text has the right form, and a value that is not allowed. -/
def isInvalid : OptionsError → Bool
  | .malformed => false
  | .badLineSize _ => true
  | .notPositive _ => true

def message : OptionsError → String
  | .malformed => "failed to parse options"
  | .badLineSize size =>
    s!"invalid options: line_size must be a non-zero power of two, got {size}"
  | .notPositive field => s!"invalid options: {field} must be positive"

instance : Reported OptionsError where
  code e := if e.isInvalid then .optionsInvalid else .optionsMalformed
  message := message

end OptionsError

/-- The number is a power of two. -/
def isPowerOfTwo (n : Nat) : Bool :=
  n != 0 && n &&& (n - 1) == 0

/-- The options, if their line size is a power of two. -/
def Options.checked (o : Options) : Except OptionsError Options :=
  if isPowerOfTwo o.lineSize then .ok o else .error (.badLineSize o.lineSize)

end StreamEngine
