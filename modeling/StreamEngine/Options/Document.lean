import StreamEngine.Json.Parser
import StreamEngine.Json.Shape
import StreamEngine.Options

/-!
# Options as a document

Options are read from a JSON record in which every field may be missing, and written with all fields in
their order.
-/

namespace StreamEngine
namespace Options

/-- The names of the overflow policies. -/
def policyNames : List (String × OverflowPolicy) :=
  [("report", .report), ("abort", .abort)]

def policyName : OverflowPolicy → String
  | .report => "report"
  | .abort => "abort"

def fieldNames : List String :=
  ["line_size", "coalesce_continuous", "simd_delay", "scalar_alu", "overflow_policy"]

/-- The options of a record; missing fields have their defaults. -/
def ofJson? (j : Json) : Option Options := do
  match ← Json.record? fieldNames j with
  | [lineSize, coalesce, simdDelay, scalarAlu, policy] =>
    let o : Options := {}
    let lineSize ← Json.withDefault? (Json.natural? 64) o.lineSize lineSize
    let coalesce ← Json.withDefault? Json.boolean? o.coalesce coalesce
    let simdDelay ← Json.withDefault? (Json.natural? 64) o.simdDelay simdDelay
    let scalarAlu ← Json.withDefault? Json.boolean? o.scalarAlu scalarAlu
    let policy ← Json.withDefault? (Json.choice? policyNames) o.policy policy
    return { lineSize, coalesce, simdDelay, scalarAlu, policy }
  | _ => none

def toJson (o : Options) : Json :=
  .object
    [("line_size", .integer o.lineSize),
      ("coalesce_continuous", .bool o.coalesce),
      ("simd_delay", .integer o.simdDelay),
      ("scalar_alu", .bool o.scalarAlu),
      ("overflow_policy", .string (policyName o.policy))]

/-- The options of a text. -/
def parse (text : String) : Except OptionsError Options :=
  match (Json.parse? text).bind ofJson? with
  | some o => o.checked
  | none => .error .malformed

end Options
end StreamEngine
