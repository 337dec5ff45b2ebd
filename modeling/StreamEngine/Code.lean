/-!
# Diagnostic codes

Each reported failure has a code that never changes its meaning. Codes are grouped by concern:
`E01` address patterns and strands, `E02` the dependence graph, `E03` elements, `E04` in-memory data
moves, `E05` configuration.
-/

namespace StreamEngine

/-- A diagnostic code. -/
inductive Code where
  | paramCount
  | nonMonotonicTrip
  | variantParam
  | unsupportedSplit
  | illegalEdge
  | unknownConfig
  | blockOverflow
  | receiverOverflow
  | unknownStream
  | notSubRegion
  | tripMismatch
  | strideNotMaskable
  | badTiling
  | dimensionMismatch
  | optionsMalformed
  | optionsInvalid
  | optionsUnserializable
  deriving DecidableEq, Repr

namespace Code

/-- The printed code. -/
def text : Code → String
  | .paramCount => "E0101"
  | .nonMonotonicTrip => "E0102"
  | .variantParam => "E0103"
  | .unsupportedSplit => "E0104"
  | .illegalEdge => "E0201"
  | .unknownConfig => "E0202"
  | .blockOverflow => "E0301"
  | .receiverOverflow => "E0302"
  | .unknownStream => "E0303"
  | .notSubRegion => "E0401"
  | .tripMismatch => "E0402"
  | .strideNotMaskable => "E0403"
  | .badTiling => "E0404"
  | .dimensionMismatch => "E0405"
  | .optionsMalformed => "E0501"
  | .optionsInvalid => "E0502"
  | .optionsUnserializable => "E0503"

/-- All codes, in the order of their numbers. -/
def all : List Code :=
  [.paramCount, .nonMonotonicTrip, .variantParam, .unsupportedSplit, .illegalEdge, .unknownConfig,
    .blockOverflow, .receiverOverflow, .unknownStream, .notSubRegion, .tripMismatch,
    .strideNotMaskable, .badTiling, .dimensionMismatch, .optionsMalformed, .optionsInvalid,
    .optionsUnserializable]

/-- The code printed as `s`. -/
def ofText? (s : String) : Option Code :=
  all.find? fun c => c.text == s

end Code
end StreamEngine
