import StreamEngine.CommandLine.Arguments
import StreamEngine.Text.Number

/-!
# What a command line asks for

There are three commands: `addr` lists addresses, `slice` lists slices, and `pum` compiles a job. An
options file and the flag for more messages may stand before or behind the command; of two options files
the one behind it counts.
-/

namespace StreamEngine
namespace CommandLine

/-- The slices to list. -/
structure SliceRequest where
  words : List UInt64
  elemSize : Nat
  totalTrip : Option Nat
  lineSize : Option Nat
  coalesce : Bool
  count : Nat
  deriving DecidableEq, Repr

inductive Action where
  | addresses (words : List UInt64) (count : Nat)
  | slices (r : SliceRequest)
  | job (path : String)
  deriving DecidableEq, Repr

structure Request where
  action : Action
  /-- Path of the options file. -/
  options : Option String
  verbose : Bool
  deriving DecidableEq, Repr

/-- How many lines are listed unless a count is given. -/
def defaultCount : Nat := 8

/-! ## Flags and options -/

/-- Flags and options of every command. -/
def globals : Known :=
  [("options", .value), ("verbose", .nothing)]

/-- Flags and options of a command. -/
def known? : String → Option Known
  | "addr" => some (globals ++ [("params", .words), ("count", .value)])
  | "slice" =>
    some (globals ++
      [("params", .words), ("elem-size", .value), ("total-trip", .value), ("line-size", .value),
        ("no-coalesce", .nothing), ("count", .value)])
  | "pum" => some globals
  | _ => none

/-- A path has at least one character. -/
def path? (s : String) : Option String :=
  if s.isEmpty then none else some s

/-- The text between commas. -/
def commaParts (s : String) : List String :=
  s.splitOn ","

/-- The parameter words of all occurrences in order. -/
def words? (given : List Given) : Option (List UInt64) :=
  ((values given "params").flatMap commaParts).mapM Text.word?

/-- The number of lines to list. -/
def count? (given : List Given) : Option Nat :=
  (single? Text.natural? given "count").map fun n => n.getD defaultCount

/-! ## Commands -/

def addresses? (t : Tail) : Option Action := do
  let words ← words? t.given
  let count ← count? t.given
  if t.operands.isEmpty then some (.addresses words count) else none

def slices? (t : Tail) : Option Action := do
  let words ← words? t.given
  let elemSize ← (← single? Text.natural? t.given "elem-size")
  let totalTrip ← single? Text.natural? t.given "total-trip"
  let lineSize ← single? Text.natural? t.given "line-size"
  let coalesce := !hasFlag t.given "no-coalesce"
  let count ← count? t.given
  if t.operands.isEmpty then
    some (.slices { words, elemSize, totalTrip, lineSize, coalesce, count })
  else none

def job? (t : Tail) : Option Action :=
  match t.operands with
  | [path] => (path? path).map .job
  | _ => none

/-- What a command asks for. -/
def action? (command : String) (t : Tail) : Option Action :=
  match command with
  | "addr" => addresses? t
  | "slice" => slices? t
  | "pum" => job? t
  | _ => none

/-- What the arguments ask for, if they are well formed. -/
def request? (args : List String) : Option Request := do
  let head ← readHead globals args
  let known ← known? head.command
  let tail ← readTail known head.rest
  if eachOnce globals head.given && eachOnce known tail.given then
    let action ← action? head.command tail
    let before ← single? path? head.given "options"
    let behind ← single? path? tail.given "options"
    return { action, options := behind.or before,
             verbose := hasFlag head.given "verbose" || hasFlag tail.given "verbose" }
  else none

end CommandLine
end StreamEngine
