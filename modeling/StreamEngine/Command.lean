import StreamEngine.Affine.Box

/-!
# Commands to memory arrays

A command applies to the bitlines of one box in every tile of another. Moves between arrays carry a
distance in tiles and may be repeated along a dimension. Once a command is mapped to banks, it lists the
tiles of each bank and the moves that leave them.
-/

namespace StreamEngine

/-- What a computation does with two operands. -/
inductive ComputeOp where
  | add
  | sub
  | mul
  | and
  | or
  | xor
  | min
  | max
  deriving DecidableEq, Repr

namespace ComputeOp

def text : ComputeOp → String
  | .add => "add"
  | .sub => "sub"
  | .mul => "mul"
  | .and => "and"
  | .or => "or"
  | .xor => "xor"
  | .min => "min"
  | .max => "max"

/-- The operations with their names. -/
def names : List (String × ComputeOp) :=
  [ComputeOp.add, .sub, .mul, .and, .or, .xor, .min, .max].map fun op => (op.text, op)

end ComputeOp

/-- What a command does. -/
inductive CommandKind where
  /-- Shift bitlines inside each array. -/
  | intraArray (distance : Int)
  /-- Copy bitlines to the array so many tiles away. -/
  | interArray (distance : Int)
  | compute (op : ComputeOp) (reduce : Bool)
  /-- Wait for all commands before. -/
  | sync
  deriving DecidableEq, Repr

def CommandKind.name : CommandKind → String
  | .intraArray _ => "intra-array"
  | .interArray _ => "inter-array"
  | .compute _ _ => "cmp"
  | .sync => "sync"

/-- Only the coordinates along `dim` that leave `modulo` when divided by `stride` take part. -/
structure StrideMask where
  dim : Nat
  stride : Int
  modulo : Int
  deriving DecidableEq, Repr

/-- The move happens `count` times, each time one tile further along `dim`. -/
structure Multicast where
  dim : Nat
  count : Int
  deriving DecidableEq, Repr

/-- One tile copied to another. A move over the network leaves its bank. -/
structure TileMove where
  source : Nat
  target : Nat
  bank : Nat
  network : Bool
  deriving DecidableEq, Repr

/-- The part of a command that one bank carries out. -/
structure BankSplit where
  bank : Nat
  tiles : List Nat
  moves : List TileMove := []
  deriving DecidableEq, Repr

structure Command where
  kind : CommandKind
  wordlineBits : Nat := 0
  /-- Coordinates inside a tile. -/
  bitlineMask : Box
  /-- Coordinates of tiles. -/
  tileMask : Box
  reuse : Option Multicast := none
  strideMasks : List StrideMask := []
  bankSplits : List BankSplit := []
  deriving DecidableEq, Repr

namespace Command

def sync : Command :=
  { kind := .sync, bitlineMask := { spans := [] }, tileMask := { spans := [] } }

def isSync (c : Command) : Bool :=
  c.kind == .sync

/-- The command has nothing to do. A barrier always has. -/
def isEmpty (c : Command) : Bool :=
  !c.isSync && (c.bitlineMask.isEmpty || c.tileMask.isEmpty)

def hasReuse (c : Command) : Bool :=
  c.reuse.any fun r => 1 < r.count

/-- Some tile leaves its bank. -/
def isInterBank (c : Command) : Bool :=
  c.bankSplits.any fun s => s.moves.any TileMove.network

/-- The commands that have something to do. -/
def withoutEmpty (cs : List Command) : List Command :=
  cs.filter fun c => !c.isEmpty

/-! ## Text -/

/-- A number in a field of two columns, to the right. -/
def twoColumns (n : Nat) : String :=
  if n < 10 then s!" {n}" else toString n

def reuseLine (r : Multicast) : String :=
  s!"  Reuse          {r.dim} x{r.count}\n"

def strideLine (m : StrideMask) : String :=
  s!"  StrideMask     {m.dim} x{m.stride} %{m.modulo}\n"

def kindLine : CommandKind → String
  | .intraArray distance => s!"  BitlineDist    {distance}\n"
  | .interArray distance => s!"  TileDist       {distance}\n"
  | .compute op reduce => s!"  Op {op.text}" ++ (if reduce then " [Reduce]" else "") ++ "\n"
  | .sync => ""

def moveLine (m : TileMove) : String :=
  s!"      {m.source} -> {m.target} bank {m.bank}" ++ (if m.network then " network" else "") ++ "\n"

def splitLines (s : BankSplit) : String :=
  s!"    LLCCmd {twoColumns s.bank} tiles" ++ String.join (s.tiles.map fun t => s!" {t}") ++ "\n" ++
    String.join (s.moves.map moveLine)

/-- A heading, and for all but barriers a line for each part. -/
def text (c : Command) : String :=
  let heading := s!"[PUMCmd {c.kind.name} WD-{c.wordlineBits}]\n"
  if c.isSync then heading
  else
    heading ++ String.join (c.reuse.toList.map reuseLine) ++
      String.join (c.strideMasks.map strideLine) ++
      s!"  BitlineMask    {c.bitlineMask.text}\n" ++
      s!"  TileMask       {c.tileMask.text}\n" ++
      kindLine c.kind ++
      String.join (c.bankSplits.map splitLines)

/-- Commands one behind the other. -/
def listing (cs : List Command) : String :=
  String.join (cs.map text)

end Command
end StreamEngine
