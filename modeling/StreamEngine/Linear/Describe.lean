import StreamEngine.Diagnostic
import StreamEngine.Linear.Basic

/-!
# Describing and decoding linear patterns

The printed form of a pattern is `start:stride:ratio:stride:ratio…`, the start in hexadecimal. A
ratio is the quotient of a cumulative trip by the one before it, with `%rem` where it is not exact.
Next to a zero trip the cumulative trip itself is shown.

- `Linear.describe` : the printed form of a parameter list, refused where a trip shrinks;
- `LinearPattern.decode` : the pattern of a list that has a total trip;
- `PatternError` : why a list or a split is refused.
-/

namespace StreamEngine

/-! ## Refusals -/

/-- Why a pattern cannot be split as asked. -/
inductive SplitRefusal where
  | rangeOfNest
  | interleaveOfNest
  | badRange (lo hi : Nat)
  | noSuchDim (dim : Nat)
  | zeroTrip
  | unevenInterleave (interleave inner : Nat)
  | unevenRemainder (remainder unit : Nat)
  | tooFewStrands (strands : Nat)
  | rangeOfGaps
  deriving DecidableEq, Repr

def SplitRefusal.message : SplitRefusal → String
  | .rangeOfNest => "element split needs a 1-D pattern"
  | .interleaveOfNest => "interleaved split needs a 1-D pattern"
  | .badRange lo hi => s!"bad element range [{lo}, {hi})"
  | .noSuchDim dim => s!"split dim {dim} out of range"
  | .zeroTrip => "zero trip"
  | .unevenInterleave interleave inner =>
    s!"interleave {interleave} not a multiple of inner trip {inner}"
  | .unevenRemainder remainder unit =>
    s!"remainder trip {remainder} not a multiple of interleave trip {unit}"
  | .tooFewStrands strands => s!"{strands} strand, nothing to split"
  | .rangeOfGaps => "element split of a non-continuous pattern"

/-- Why a pattern is refused. -/
inductive PatternError where
  | paramCount (params : Formal)
  | nonMonotonicTrip (words : List UInt64)
  | variantParam (position : Nat) (params : Formal)
  | unsupportedSplit (pattern : LinearPattern) (reason : SplitRefusal)
  deriving DecidableEq, Repr

/-! ## Printed forms -/

namespace Linear

/-- A stride is printed as a signed number. -/
def strideText (w : UInt64) : String :=
  toString w.toInt64.toInt

/-- Strides and cumulative trips as they stand. -/
def rawLevels : List UInt64 → String
  | [] => ""
  | [s] => ":" ++ strideText s
  | s :: t :: rest => ":" ++ strideText s ++ s!":{t}" ++ rawLevels rest

/-- The list with its start in front and every cumulative trip as it stands. -/
def rawText (words : List UInt64) : String :=
  Text.hex (startOf words).toNat ++ rawLevels words.dropLast

/-- A cumulative trip as a ratio to the one below it. -/
def ratioText (below trip : UInt64) : String :=
  if below = 0 ∨ trip = 0 then s!":{trip}"
  else if trip % below = 0 then s!":{trip / below}"
  else s!":{trip / below}%{trip % below}"

/-- Strides as they stand and trips as ratios; `below` is the trip below the first level. -/
def ratioLevels (below : UInt64) : List UInt64 → String
  | [] => ""
  | [s] => ":" ++ strideText s
  | s :: t :: rest => ":" ++ strideText s ++ ratioText below t ++ ratioLevels t rest

/-- The list with its start in front and every trip as a ratio. -/
def ratioForm (words : List UInt64) : String :=
  Text.hex (startOf words).toNat ++ ratioLevels 1 words.dropLast

/-- Some trip is smaller than the one below it. A zero trip compares with neither neighbour. -/
def shrinksAbove (below : UInt64) : List UInt64 → Bool
  | [] => false
  | t :: ts => (below != 0 && t != 0 && t < below) || shrinksAbove t ts

/-- Some cumulative trip of the list shrinks. The innermost one is compared with 1. -/
def shrinks (words : List UInt64) : Bool :=
  shrinksAbove 1 (tripsOf words.dropLast)

/-- The words of a list, refused at the first reference to a base stream. -/
def invariantWords (ps : Formal) : Except PatternError (List UInt64) :=
  match ps.firstBase? with
  | some i => .error (.variantParam i ps)
  | none => .ok (ps.filterMap Param.word?)

/-- The printed form of a parameter list with at least one word and no shrinking trip. -/
def describe (ps : Formal) : Except PatternError String := do
  let words ← invariantWords ps
  if words.isEmpty then .error (.paramCount ps)
  else if shrinks words then .error (.nonMonotonicTrip words)
  else .ok (ratioForm words)

end Linear

namespace LinearPattern

/-- Printed form; a pattern with a shrinking trip shows its cumulative trips as they stand. -/
def text (p : LinearPattern) : String :=
  if Linear.shrinks p.words then Linear.rawText p.words else Linear.ratioForm p.words

/-- The levels of strides and trips in alternation. -/
def levelsOf : List UInt64 → List Level
  | s :: t :: rest => { stride := s.toInt64, trip := t.toNat } :: levelsOf rest
  | _ => []

/-- Reads a list of an odd number of at least three words whose trips do not shrink. -/
def decode (ps : Formal) : Except PatternError LinearPattern := do
  if ps.length < 3 ∨ ps.length % 2 = 0 then .error (.paramCount ps)
  else
    let _ ← Linear.describe ps
    let words ← Linear.invariantWords ps
    .ok { start := Linear.startOf words, levels := levelsOf words.dropLast }

end LinearPattern

/-! ## Messages -/

namespace PatternError

def message : PatternError → String
  | .paramCount params =>
    s!"affine pattern needs 2N+1 parameters, got {params.length}: {params.text}"
  | .nonMonotonicTrip words =>
    s!"[InvalidAffinePattern] non-monotonic trip in {Linear.rawText words}"
  | .variantParam position params =>
    s!"variant parameter at position {position} in {params.text}"
  | .unsupportedSplit pattern reason => s!"cannot split {pattern.text}: {reason.message}"

def code : PatternError → Code
  | .paramCount _ => .paramCount
  | .nonMonotonicTrip _ => .nonMonotonicTrip
  | .variantParam _ _ => .variantParam
  | .unsupportedSplit _ _ => .unsupportedSplit

instance : Reported PatternError where
  code := code
  message := message

end PatternError
end StreamEngine
