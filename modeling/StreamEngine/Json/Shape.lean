import StreamEngine.Arithmetic
import StreamEngine.Json.Basic

/-!
# Shapes of JSON values

What a text has to look like in order to be read as a number in a range, a pair, a record. A shape is a
function `Json → Option α`, and shapes of parts make up shapes of wholes.

A record is an object with known field names, each at most once, or an array of the values in the order
of the fields.
-/

namespace StreamEngine
namespace Json

/-- A number from 0 up to but not including 2 ^ `bits`. -/
def natural? (bits : Nat) : Json → Option Nat
  | .integer n => if 0 ≤ n ∧ n < Int.pow 2 bits then some n.toNat else none
  | _ => none

/-- A signed 64-bit number. -/
def signed? : Json → Option Int
  | .integer n => if -2 ^ 63 ≤ n ∧ n < 2 ^ 63 then some n else none
  | _ => none

def boolean? : Json → Option Bool
  | .bool b => some b
  | _ => none

/-- An array of values of one shape. -/
def list? {α : Type} (item : Json → Option α) : Json → Option (List α)
  | .array items => items.mapM item
  | _ => none

/-- An array of two values. -/
def pair? {α β : Type} (first : Json → Option α) (second : Json → Option β) :
    Json → Option (α × β)
  | .array [a, b] => do
    let a ← first a
    let b ← second b
    return (a, b)
  | _ => none

/-- A value, or `null` for none. -/
def nullable? {α : Type} (item : Json → Option α) : Json → Option (Option α)
  | .null => some none
  | j => (item j).map some

/-- One of several names, alone or as the only field of an object whose value is `null`. -/
def choice? {α : Type} (names : List (String × α)) : Json → Option α
  | .string s => names.lookup s
  | .object [(s, .null)] => names.lookup s
  | _ => none

/-! ## Records -/

/-- The values of fields, in the order of their names, where they are given. -/
def record? (names : List String) : Json → Option (List (Option Json))
  | .array items =>
    if items.length ≤ names.length then
      some (items.map some ++ List.replicate (names.length - items.length) none)
    else none
  | .object fields =>
    let given := fields.map Prod.fst
    if given.all names.contains && given.eraseDups.length == given.length then
      some (names.map fun name => fields.lookup name)
    else none
  | _ => none

/-- A field that must be given. -/
def required? {α : Type} (item : Json → Option α) (field : Option Json) : Option α :=
  field.bind item

/-- A field that may be missing. -/
def withDefault? {α : Type} (item : Json → Option α) (default : α) : Option Json → Option α
  | some j => item j
  | none => some default

end Json
end StreamEngine
