import StreamEngine.Digest.Sha256
import StreamEngine.Text.Hex

/-!
# JSON values

A JSON text is read into a value of type `Json` and a value is written in its compact form. The digest of
that form is the fingerprint of the value, by which a run is keyed to the configuration it was made with.

Numbers are kept by what they can be read as: a plain integer, or any other number, which the engine has
no use for.
-/

namespace StreamEngine

inductive Json where
  | null
  | bool (b : Bool)
  /-- A number written without fraction and exponent, other than negative zero. -/
  | integer (n : Int)
  /-- Any other number. -/
  | otherNumber
  | string (s : String)
  | array (items : List Json)
  | object (fields : List (String × Json))
  deriving Repr, Inhabited

namespace Json

/-- A character inside quotes. Only quotes, backslashes and controls are escaped. -/
def escaped (c : Char) : String :=
  if c = '"' then "\\\""
  else if c = '\\' then "\\\\"
  else if c = '\n' then "\\n"
  else if c = '\r' then "\\r"
  else if c = '\t' then "\\t"
  else if c = '\x08' then "\\b"
  else if c = '\x0c' then "\\f"
  else if c.toNat < 0x20 then
    "\\u00" ++ String.ofList [Nat.digitChar (c.toNat / 16), Nat.digitChar (c.toNat % 16)]
  else c.toString

def quoted (s : String) : String :=
  "\"" ++ String.join (s.toList.map escaped) ++ "\""

mutual

/-- The value without any blanks. -/
def compact : Json → String
  | .null => "null"
  | .bool b => if b then "true" else "false"
  | .integer n => toString n
  | .otherNumber => "0.0"
  | .string s => quoted s
  | .array items => "[" ++ ",".intercalate (compactItems items) ++ "]"
  | .object fields => "\x7b" ++ ",".intercalate (compactFields fields) ++ "\x7d"

def compactItems : List Json → List String
  | [] => []
  | j :: rest => compact j :: compactItems rest

def compactFields : List (String × Json) → List String
  | [] => []
  | (name, j) :: rest => (quoted name ++ ":" ++ compact j) :: compactFields rest

end

/-! ## Fingerprints -/

def fingerprint (j : Json) : List UInt8 :=
  Sha256.ofText j.compact

/-- The first eight bytes of a fingerprint in hexadecimal. -/
def shortForm (fingerprint : List UInt8) : String :=
  Text.hexBytes (fingerprint.take 8)

end Json
end StreamEngine
