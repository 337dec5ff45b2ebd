import StreamEngine.Arithmetic

/-!
# SHA-256

The digest of a list of bytes: padding, the message schedule of each block, and sixty-four rounds that
fold the block into the chaining words.
-/

namespace StreamEngine
namespace Sha256

/-! ## Words -/

/-- Rotation to the right by `n` bits, for `n` from 1 to 31. -/
def rotate (x n : UInt32) : UInt32 :=
  (x >>> n) ||| (x <<< (32 - n))

/-- Four bytes, highest first. -/
def wordOf (a b c d : UInt8) : UInt32 :=
  ((a.toUInt32 * 256 + b.toUInt32) * 256 + c.toUInt32) * 256 + d.toUInt32

/-- The words of bytes, four at a time. -/
def wordsOf : List UInt8 → List UInt32
  | a :: b :: c :: d :: rest => wordOf a b c d :: wordsOf rest
  | _ => []

/-- The bytes of a word, highest first. -/
def bytesOf (w : UInt32) : List UInt8 :=
  [(w >>> 24).toUInt8, (w >>> 16).toUInt8, (w >>> 8).toUInt8, w.toUInt8]

/-! ## Constants -/

/-- Fractional parts of the cube roots of the first sixty-four primes. -/
def roundWords : List UInt32 :=
  [0x428a2f98, 0x71374491, 0xb5c0fbcf, 0xe9b5dba5, 0x3956c25b, 0x59f111f1, 0x923f82a4, 0xab1c5ed5,
    0xd807aa98, 0x12835b01, 0x243185be, 0x550c7dc3, 0x72be5d74, 0x80deb1fe, 0x9bdc06a7, 0xc19bf174,
    0xe49b69c1, 0xefbe4786, 0x0fc19dc6, 0x240ca1cc, 0x2de92c6f, 0x4a7484aa, 0x5cb0a9dc, 0x76f988da,
    0x983e5152, 0xa831c66d, 0xb00327c8, 0xbf597fc7, 0xc6e00bf3, 0xd5a79147, 0x06ca6351, 0x14292967,
    0x27b70a85, 0x2e1b2138, 0x4d2c6dfc, 0x53380d13, 0x650a7354, 0x766a0abb, 0x81c2c92e, 0x92722c85,
    0xa2bfe8a1, 0xa81a664b, 0xc24b8b70, 0xc76c51a3, 0xd192e819, 0xd6990624, 0xf40e3585, 0x106aa070,
    0x19a4c116, 0x1e376c08, 0x2748774c, 0x34b0bcb5, 0x391c0cb3, 0x4ed8aa4a, 0x5b9cca4f, 0x682e6ff3,
    0x748f82ee, 0x78a5636f, 0x84c87814, 0x8cc70208, 0x90befffa, 0xa4506ceb, 0xbef9a3f7, 0xc67178f2]

/-- The eight words that a block is folded into. -/
structure Chain where
  a : UInt32
  b : UInt32
  c : UInt32
  d : UInt32
  e : UInt32
  f : UInt32
  g : UInt32
  h : UInt32
  deriving DecidableEq, Repr

namespace Chain

/-- Fractional parts of the square roots of the first eight primes. -/
def initial : Chain :=
  { a := 0x6a09e667, b := 0xbb67ae85, c := 0x3c6ef372, d := 0xa54ff53a,
    e := 0x510e527f, f := 0x9b05688c, g := 0x1f83d9ab, h := 0x5be0cd19 }

/-- Word by word sum. -/
def add (x y : Chain) : Chain :=
  { a := x.a + y.a, b := x.b + y.b, c := x.c + y.c, d := x.d + y.d,
    e := x.e + y.e, f := x.f + y.f, g := x.g + y.g, h := x.h + y.h }

def words (x : Chain) : List UInt32 :=
  [x.a, x.b, x.c, x.d, x.e, x.f, x.g, x.h]

end Chain

/-! ## Blocks -/

/-- The message with a one bit, zeros, and its length in bits, to a multiple of 64 bytes. -/
def padded (bytes : List UInt8) : List UInt8 :=
  let bits := 8 * bytes.length
  bytes ++ 0x80 :: List.replicate ((119 - bytes.length % 64) % 64) 0 ++
    bytesOf (UInt32.ofNat (bits / 2 ^ 32)) ++ bytesOf (UInt32.ofNat bits)

/-- One more schedule word from the ones before it, newest first. -/
def nextWord (newest : List UInt32) : UInt32 :=
  let x := newest.getD 14 0
  let y := newest.getD 1 0
  let s0 := rotate x 7 ^^^ rotate x 18 ^^^ (x >>> 3)
  let s1 := rotate y 17 ^^^ rotate y 19 ^^^ (y >>> 10)
  newest.getD 15 0 + s0 + newest.getD 6 0 + s1

/-- The schedule after `n` more words, newest first. -/
def extend (newest : List UInt32) : Nat → List UInt32
  | 0 => newest
  | n + 1 => extend (nextWord newest :: newest) n

/-- The sixty-four schedule words of a block of sixteen. -/
def schedule (block : List UInt32) : List UInt32 :=
  (extend block.reverse 48).reverse

/-- One round, with the sum of its constant and its schedule word. -/
def round (x : Chain) (k w : UInt32) : Chain :=
  let s1 := rotate x.e 6 ^^^ rotate x.e 11 ^^^ rotate x.e 25
  let choice := (x.e &&& x.f) ^^^ (~~~x.e &&& x.g)
  let t1 := x.h + s1 + choice + k + w
  let s0 := rotate x.a 2 ^^^ rotate x.a 13 ^^^ rotate x.a 22
  let majority := (x.a &&& x.b) ^^^ (x.a &&& x.c) ^^^ (x.b &&& x.c)
  { a := t1 + (s0 + majority), b := x.a, c := x.b, d := x.c,
    e := x.d + t1, f := x.e, g := x.f, h := x.g }

/-- Folds a block into the chaining words. -/
def compress (x : Chain) (block : List UInt32) : Chain :=
  x.add ((roundWords.zip (schedule block)).foldl (fun y (k, w) => round y k w) x)

/-- Folds blocks of sixteen words, as many as there are. -/
def compressAll (x : Chain) (words : List UInt32) : Nat → Chain
  | 0 => x
  | n + 1 => compressAll (compress x (words.take 16)) (words.drop 16) n

/-- The digest, 32 bytes. -/
def digest (bytes : List UInt8) : List UInt8 :=
  let words := wordsOf (padded bytes)
  (compressAll .initial words (words.length / 16)).words.flatMap bytesOf

/-- The digest of a text in UTF-8. -/
def ofText (text : String) : List UInt8 :=
  digest text.toUTF8.toList

end Sha256
end StreamEngine
