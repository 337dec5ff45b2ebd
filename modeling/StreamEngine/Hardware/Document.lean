import StreamEngine.Hardware
import StreamEngine.Json.Parser
import StreamEngine.Json.Shape

/-!
# Hardware as a document

Hardware is described by a JSON record in which every field must be given.
-/

namespace StreamEngine
namespace Hardware

def fieldNames : List String :=
  ["wordlines", "bitlines", "arrays_per_way", "ways_per_bank", "mesh_rows", "mesh_cols"]

/-- The hardware of a record, whatever its numbers. -/
def ofJson? (j : Json) : Option Hardware := do
  let given ← Json.record? fieldNames j
  match ← given.mapM (Json.required? (Json.natural? 64)) with
  | [wordlines, bitlines, arraysPerWay, waysPerBank, meshRows, meshCols] =>
    return { wordlines, bitlines, arraysPerWay, waysPerBank, meshRows, meshCols }
  | _ => none

def toJson (h : Hardware) : Json :=
  .object (h.fields.map fun (name, n) => (name, .integer n))

/-- The hardware of a text, whose numbers must be positive. -/
def parse (text : String) : Except OptionsError Hardware :=
  match (Json.parse? text).bind ofJson? with
  | some h => h.checked
  | none => .error .malformed

end Hardware
end StreamEngine
