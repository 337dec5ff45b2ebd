import StreamEngine.Text.Hex

/-!
# Stream values

Every stream element carries a 64-byte register of eight 64-bit lanes. Addresses and scalar
induction values live in lane 0. The bytes of a lane are little-endian and lane 0 comes first.
-/

namespace StreamEngine

/-- Eight 64-bit lanes. -/
structure StreamValue where
  lanes : Vector UInt64 8
  deriving DecidableEq, Repr

namespace StreamValue

/-- Bytes in a value. -/
def width : Nat := 64

/-- The value with every lane zero. -/
def zero : StreamValue :=
  { lanes := Vector.replicate 8 0 }

instance : Inhabited StreamValue := ⟨zero⟩

/-- Lane 0 holds `w`, the other lanes are zero. -/
def ofWord (w : UInt64) : StreamValue :=
  { lanes := zero.lanes.set 0 w }

/-- Lane 0. -/
def front (v : StreamValue) : UInt64 :=
  v.lanes[0]

/-- The same value with lane 0 replaced. -/
def setFront (v : StreamValue) (w : UInt64) : StreamValue :=
  { lanes := v.lanes.set 0 w }

/-- Lane-wise sum modulo 2^64. -/
def add (a b : StreamValue) : StreamValue :=
  { lanes := Vector.zipWith (· + ·) a.lanes b.lanes }

/-- Printed form: lane 0 in hexadecimal. -/
def text (v : StreamValue) : String :=
  Text.hexWord v.front

/-! ## Bytes -/

/-- The eight bytes of a word, lowest first. -/
def wordBytes (w : UInt64) : List UInt8 :=
  (List.range 8).map fun i => (w >>> (8 * i).toUInt64).toUInt8

/-- The word whose lowest bytes are `bs`; missing high bytes are zero. -/
def wordOfBytes (bs : List UInt8) : UInt64 :=
  bs.foldr (fun b w => w * 256 + b.toUInt64) 0

/-- All 64 bytes, lane 0 first. -/
def toBytes (v : StreamValue) : List UInt8 :=
  v.lanes.toList.flatMap wordBytes

/-- The value of up to 64 bytes. Missing bytes are zero, and bytes past the last lane are unused. -/
def ofBytes (bs : List UInt8) : StreamValue :=
  { lanes := Vector.ofFn fun i => wordOfBytes ((bs.drop (8 * i.val)).take 8) }

end StreamValue
end StreamEngine
