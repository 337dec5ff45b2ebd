import StreamEngine.Json.Basic

/-!
# Reading JSON

The grammar is strict: no comments, no trailing commas, no leading zeros, no raw control characters in
strings, and nothing but blanks behind the value. Arrays and objects nest at most `maxDepth` deep.

- `Json.parse?` : the value of a whole text;
- `Json.value?` : the value at the start of a text, and what is left.

Every reader takes characters and gives what it read together with the rest.
-/

namespace StreamEngine
namespace Json

/-- Arrays and objects inside one another. -/
def maxDepth : Nat := 127

/-! ## Tokens -/

/-- Blanks between tokens. -/
def isBlank (c : Char) : Bool :=
  c == ' ' || c == '\t' || c == '\n' || c == '\r'

def skipBlanks (cs : List Char) : List Char :=
  cs.dropWhile isBlank

/-- The value of a hexadecimal digit. -/
def hexDigit? (c : Char) : Option Nat :=
  if '0' ≤ c ∧ c ≤ '9' then some (c.toNat - '0'.toNat)
  else if 'a' ≤ c ∧ c ≤ 'f' then some (c.toNat - 'a'.toNat + 10)
  else if 'A' ≤ c ∧ c ≤ 'F' then some (c.toNat - 'A'.toNat + 10)
  else none

/-- The number of four hexadecimal digits. -/
def fourDigits? (a b c d : Char) : Option Nat := do
  let a ← hexDigit? a
  let b ← hexDigit? b
  let c ← hexDigit? c
  let d ← hexDigit? d
  return ((a * 16 + b) * 16 + c) * 16 + d

/-- The character of an escape of one letter. -/
def escape? : Char → Option Char
  | '"' => some '"'
  | '\\' => some '\\'
  | '/' => some '/'
  | 'b' => some '\x08'
  | 'f' => some '\x0c'
  | 'n' => some '\n'
  | 'r' => some '\r'
  | 't' => some '\t'
  | _ => none

/-- The character of a code unit that needs no partner. -/
def unit? (n : Nat) : Option Char :=
  if 0xD800 ≤ n ∧ n ≤ 0xDFFF then none else some (Char.ofNat n)

/-- The character of two surrogate code units. -/
def surrogates? (high low : Nat) : Option Char :=
  if 0xD800 ≤ high ∧ high ≤ 0xDBFF ∧ 0xDC00 ≤ low ∧ low ≤ 0xDFFF then
    some (Char.ofNat (0x10000 + (high - 0xD800) * 0x400 + (low - 0xDC00)))
  else none

/-- The characters up to the closing quote, and the rest behind it. -/
def stringBody? : List Char → Option (List Char × List Char)
  | [] => none
  | '"' :: rest => some ([], rest)
  | '\\' :: 'u' :: a :: b :: c :: d :: '\\' :: 'u' :: e :: f :: g :: h :: rest =>
    match (fourDigits? a b c d).bind unit? with
    | some x => do
      let (cs, rest) ← stringBody? ('\\' :: 'u' :: e :: f :: g :: h :: rest)
      return (x :: cs, rest)
    | none => do
      let high ← fourDigits? a b c d
      let low ← fourDigits? e f g h
      let x ← surrogates? high low
      let (cs, rest) ← stringBody? rest
      return (x :: cs, rest)
  | '\\' :: 'u' :: a :: b :: c :: d :: rest => do
    let n ← fourDigits? a b c d
    let x ← unit? n
    let (cs, rest) ← stringBody? rest
    return (x :: cs, rest)
  | '\\' :: c :: rest => do
    let x ← escape? c
    let (cs, rest) ← stringBody? rest
    return (x :: cs, rest)
  | c :: rest =>
    if c = '\\' ∨ c.toNat < 0x20 then none
    else do
      let (cs, rest) ← stringBody? rest
      return (c :: cs, rest)

/-- The number that digits stand for. -/
def ofDigits (ds : List Char) : Nat :=
  ds.foldl (fun n c => n * 10 + (c.toNat - '0'.toNat)) 0

/-- At least one digit, and the rest. -/
def digits? (cs : List Char) : Option (List Char × List Char) :=
  match cs.takeWhile Char.isDigit with
  | [] => none
  | ds => some (ds, cs.dropWhile Char.isDigit)

/-- Drops a fraction, if there is one. Tells whether there was. -/
def fraction? : List Char → Option (Bool × List Char)
  | '.' :: cs => (digits? cs).map fun (_, rest) => (true, rest)
  | cs => some (false, cs)

/-- Drops a sign, if there is one. -/
def dropSign : List Char → List Char
  | '+' :: cs => cs
  | '-' :: cs => cs
  | cs => cs

/-- Drops an exponent, if there is one. Tells whether there was. -/
def exponent? : List Char → Option (Bool × List Char)
  | 'e' :: cs => (digits? (dropSign cs)).map fun (_, rest) => (true, rest)
  | 'E' :: cs => (digits? (dropSign cs)).map fun (_, rest) => (true, rest)
  | cs => some (false, cs)

/-- A number without its sign. -/
def magnitude? (negative : Bool) (cs : List Char) : Option (Json × List Char) := do
  let (ds, rest) ← digits? cs
  if ds.length > 1 ∧ ds.head? = some '0' then none
  else
    let (hasFraction, rest) ← fraction? rest
    let (hasExponent, rest) ← exponent? rest
    let n := ofDigits ds
    if hasFraction || hasExponent || (negative && n == 0) then return (.otherNumber, rest)
    else return (.integer (if negative then -(n : Int) else n), rest)

def number? : List Char → Option (Json × List Char)
  | '-' :: cs => magnitude? true cs
  | cs => magnitude? false cs

/-! ## Values -/

/-- The value of a reader. -/
abbrev Reader := List Char → Option (Json × List Char)

/-- Items up to the closing bracket. There are at most `room` of them. -/
def items? (value : Reader) : Nat → List Char → Option (List Json × List Char)
  | 0, _ => none
  | room + 1, cs => do
    let (j, rest) ← value cs
    match skipBlanks rest with
    | ',' :: rest => do
      let (js, rest) ← items? value room rest
      return (j :: js, rest)
    | ']' :: rest => return ([j], rest)
    | _ => none

/-- Fields up to the closing brace. There are at most `room` of them. -/
def fields? (value : Reader) : Nat → List Char → Option (List (String × Json) × List Char)
  | 0, _ => none
  | room + 1, cs =>
    match skipBlanks cs with
    | '"' :: rest => do
      let (name, rest) ← stringBody? rest
      match skipBlanks rest with
      | ':' :: rest => do
        let (j, rest) ← value rest
        let field := (String.ofList name, j)
        match skipBlanks rest with
        | ',' :: rest => do
          let (fs, rest) ← fields? value room rest
          return (field :: fs, rest)
        | '\x7d' :: rest => return ([field], rest)
        | _ => none
      | _ => none
    | _ => none

/-- The items of an array, behind its opening bracket. -/
def array? (value : Reader) (cs : List Char) : Option (Json × List Char) :=
  match skipBlanks cs with
  | ']' :: rest => some (.array [], rest)
  | _ => (items? value (cs.length + 1) cs).map fun (js, rest) => (.array js, rest)

/-- The fields of an object, behind its opening brace. -/
def object? (value : Reader) (cs : List Char) : Option (Json × List Char) :=
  match skipBlanks cs with
  | '\x7d' :: rest => some (.object [], rest)
  | _ => (fields? value (cs.length + 1) cs).map fun (fs, rest) => (.object fs, rest)

/-- A value that is neither array nor object. -/
def scalar? : List Char → Option (Json × List Char)
  | 'n' :: 'u' :: 'l' :: 'l' :: rest => some (.null, rest)
  | 't' :: 'r' :: 'u' :: 'e' :: rest => some (.bool true, rest)
  | 'f' :: 'a' :: 'l' :: 's' :: 'e' :: rest => some (.bool false, rest)
  | '"' :: rest => (stringBody? rest).map fun (cs, rest) => (.string (String.ofList cs), rest)
  | cs => number? cs

/-- The value at the start of a text, nested at most `depth` deep. -/
def value? : Nat → Reader
  | 0, cs => scalar? (skipBlanks cs)
  | depth + 1, cs =>
    match skipBlanks cs with
    | '[' :: rest => array? (value? depth) rest
    | '\x7b' :: rest => object? (value? depth) rest
    | cs => scalar? cs

/-- The value of a whole text. -/
def parse? (text : String) : Option Json := do
  let (j, rest) ← value? maxDepth text.toList
  if (skipBlanks rest).isEmpty then some j else none

end Json
end StreamEngine
