import StreamEngine.Options

/-!
# Memory hardware

Arrays are grouped into ways, ways into banks, and banks form a mesh. Arrays are numbered way by way and
bank by bank, and banks row by row.
-/

namespace StreamEngine

structure Hardware where
  wordlines : Nat := 256
  bitlines : Nat := 256
  arraysPerWay : Nat := 4
  waysPerBank : Nat := 16
  meshRows : Nat := 8
  meshCols : Nat := 8
  deriving DecidableEq, Repr

/-- Where an array lies. -/
structure ArrayLocation where
  bank : Nat
  way : Nat
  array : Nat
  deriving DecidableEq, Repr

namespace Hardware

/-- The fields with their names, in order. -/
def fields (h : Hardware) : List (String × Nat) :=
  [("wordlines", h.wordlines), ("bitlines", h.bitlines), ("arrays_per_way", h.arraysPerWay),
    ("ways_per_bank", h.waysPerBank), ("mesh_rows", h.meshRows), ("mesh_cols", h.meshCols)]

/-- The hardware, if all its numbers are positive. -/
def checked (h : Hardware) : Except OptionsError Hardware :=
  match h.fields.find? fun f => f.2 = 0 with
  | some (name, _) => .error (.notPositive name)
  | none => .ok h

def banks (h : Hardware) : Nat :=
  h.meshRows * h.meshCols

def arraysPerBank (h : Hardware) : Nat :=
  h.arraysPerWay * h.waysPerBank

def totalArrays (h : Hardware) : Nat :=
  h.arraysPerBank * h.banks

/-- Where an array lies. -/
def locate (h : Hardware) (array : Nat) : ArrayLocation :=
  let way := array / h.arraysPerWay
  { bank := way / h.waysPerBank, way, array }

/-- The bank of an array. -/
def bankOf (h : Hardware) (array : Nat) : Nat :=
  (h.locate array).bank

/-- Row and column of a bank. -/
def coord (h : Hardware) (bank : Nat) : Nat × Nat :=
  (bank / h.meshCols, bank % h.meshCols)

/-- Distance between two numbers. -/
def gap (a b : Nat) : Nat :=
  (a - b) + (b - a)

/-- Steps along the mesh from one bank to another. -/
def hops (h : Hardware) (source target : Nat) : Nat :=
  let (r, c) := h.coord source
  let (s, d) := h.coord target
  gap r s + gap c d

end Hardware
end StreamEngine
