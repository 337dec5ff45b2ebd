import StreamEngine.DataMove.Tiling

/-!
# Mapping commands to banks

Tiles are numbered over the memory arrays with dimension 0 fastest. A command is divided by the banks of
its tiles, in the order of the banks, and every move between arrays is listed with the tile it starts
from.
-/

namespace StreamEngine
namespace Tiling

/-- The word of an index, in two's complement. -/
def indexWord (i : Int) : Nat :=
  (i % 2 ^ 64).toNat

/-- Number of the memory array of a tile. -/
def tileNumber (t : Tiling) (point : List Int) : Nat :=
  indexWord (linearize point t.tileCounts)

/-- Tiles between neighbours along a dimension. -/
def tileStride (t : Tiling) (dim : Nat) : Int :=
  (canonicalStrides t.tileCounts).getD dim 0

/-- The distances of a move and its repetitions. -/
def distances (t : Tiling) (distance : Int) (reuse : Option Multicast) : List Int :=
  match reuse with
  | none => [distance]
  | some r =>
    (List.range r.count.toNat).map fun (j : Nat) => distance + j * t.tileStride r.dim

/-- The move of a tile over a distance. It goes over the network if it leaves the bank. -/
def moveTile (t : Tiling) (tile : Nat) (distance : Int) : TileMove :=
  let target := indexWord (tile + distance)
  let bank := t.hardware.bankOf target
  { source := tile, target, bank, network := bank != t.hardware.bankOf tile }

/-- The moves of a tile under a command. -/
def movesOf (t : Tiling) (c : Command) (tile : Nat) : List TileMove :=
  match c.kind with
  | .interArray distance => (t.distances distance c.reuse).map (t.moveTile tile)
  | _ => []

/-- Adds a tile with its moves to its bank. Banks are in order. -/
def addTile (bank tile : Nat) (moves : List TileMove) : List BankSplit → List BankSplit
  | [] => [{ bank, tiles := [tile], moves }]
  | s :: rest =>
    if bank < s.bank then { bank, tiles := [tile], moves } :: s :: rest
    else if bank = s.bank then
      { s with tiles := s.tiles ++ [tile], moves := s.moves ++ moves } :: rest
    else s :: addTile bank tile moves rest

/-- The tiles of a command by bank. -/
def bankSplits (t : Tiling) (c : Command) : List BankSplit :=
  (c.tileMask.points.map t.tileNumber).foldl
    (fun splits tile => addTile (t.hardware.bankOf tile) tile (t.movesOf c tile) splits) []

/-- The command with the division by banks. Barriers have none. -/
def mapToBanks (t : Tiling) (c : Command) : Command :=
  if c.isSync then c else { c with bankSplits := t.bankSplits c }

end Tiling
end StreamEngine
