import StreamEngine.Arithmetic

/-!
# Numbers on a command line

Digits in a base, behind a plus sign or none, for numbers below 2 ^ 64.

- `trim` : characters without the blanks around them;
- `natural?` : a decimal number;
- `word?` : a parameter word: decimal or hexadecimal, blanks around it, and a minus sign for the two's
  complement.
-/

namespace StreamEngine
namespace Text

/-! ## Blanks -/

/-- Blanks that lie alone in the order of code points. -/
def singleBlanks : List Nat :=
  [0x20, 0x85, 0xA0, 0x1680, 0x2028, 0x2029, 0x202F, 0x205F, 0x3000]

/-- The Unicode property `White_Space`. -/
def isBlank (c : Char) : Bool :=
  let n := c.toNat
  (0x09 ≤ n && n ≤ 0x0D) || (0x2000 ≤ n && n ≤ 0x200A) || singleBlanks.contains n

/-- The characters without blanks at either end. -/
def trim (cs : List Char) : List Char :=
  ((cs.dropWhile isBlank).reverse.dropWhile isBlank).reverse

/-! ## Digits -/

/-- The value of a digit in a base of at most sixteen. -/
def digit? (base : Nat) (c : Char) : Option Nat :=
  let n :=
    if '0' ≤ c ∧ c ≤ '9' then c.toNat - '0'.toNat
    else if 'a' ≤ c ∧ c ≤ 'f' then c.toNat - 'a'.toNat + 10
    else if 'A' ≤ c ∧ c ≤ 'F' then c.toNat - 'A'.toNat + 10
    else 16
  if n < base then some n else none

/-- The number that digits stand for, in front of which `n` has been read. -/
def digitsFrom? (base n : Nat) : List Char → Option Nat
  | [] => some n
  | c :: rest => do
    let d ← digit? base c
    digitsFrom? base (n * base + d) rest

/-- At least one digit. -/
def digits? (base : Nat) : List Char → Option Nat
  | [] => none
  | cs => digitsFrom? base 0 cs

/-- A number below 2 ^ 64, behind a plus sign or none. -/
def unsigned? (base : Nat) (cs : List Char) : Option Nat := do
  let n ← digits? base (match cs with | '+' :: rest => rest | _ => cs)
  if n < 2 ^ 64 then some n else none

/-- A decimal number below 2 ^ 64. -/
def natural? (s : String) : Option Nat :=
  unsigned? 10 s.toList

/-- A decimal number, or a hexadecimal one behind its mark. -/
def marked? : List Char → Option Nat
  | '0' :: 'x' :: cs => unsigned? 16 cs
  | '0' :: 'X' :: cs => unsigned? 16 cs
  | cs => unsigned? 10 cs

/-- A parameter word. -/
def word? (s : String) : Option UInt64 :=
  match trim s.toList with
  | '-' :: cs => (marked? cs).map fun n => 0 - UInt64.ofNat n
  | cs => (marked? cs).map UInt64.ofNat

end Text
end StreamEngine
