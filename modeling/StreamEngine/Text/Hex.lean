/-!
# Hexadecimal text

Lower-case hexadecimal, in the three forms that reports use:

- `hex` : the digits alone, as few as possible (`0` is written `0`);
- `hexWord` : the digits behind a `0x` mark;
- `hexBytes` : two digits a byte, first byte first.
-/

namespace StreamEngine
namespace Text

/-- Lower-case hexadecimal digits of `n`, without leading zeros. -/
def hex (n : Nat) : String :=
  String.ofList (Nat.toDigits 16 n)

/-- Hexadecimal digits of a word behind a `0x` mark. -/
def hexWord (w : UInt64) : String :=
  "0x" ++ hex w.toNat

/-- The two digits of one byte, high half first. -/
def hexByte (b : UInt8) : List Char :=
  [Nat.digitChar (b.toNat / 16), Nat.digitChar (b.toNat % 16)]

/-- Two digits for each byte, in order. -/
def hexBytes (bs : List UInt8) : String :=
  String.ofList (bs.flatMap hexByte)

end Text
end StreamEngine
