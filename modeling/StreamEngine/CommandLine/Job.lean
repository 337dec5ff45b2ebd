import StreamEngine.DataMove.Move
import StreamEngine.Hardware.Document

/-!
# Jobs

A job is a JSON record: a tiled array, a move between two of its patterns, and a computation on the
destination after it, if there is one.
-/

namespace StreamEngine
namespace CommandLine

/-- A computation on the destination of a move. -/
structure JobCompute where
  op : ComputeOp
  reduce : Bool
  deriving DecidableEq, Repr

structure Job where
  hardware : Hardware
  arraySizes : List Int
  tileSizes : List Int
  source : AffinePattern
  target : AffinePattern
  compute : Option JobCompute
  wordlineBits : Option Nat
  deriving DecidableEq, Repr

namespace Job

/-! ## Reading -/

/-- A start and pairs of stride and trip, innermost first. -/
def pattern? (j : Json) : Option AffinePattern := do
  match ← Json.record? ["start", "params"] j with
  | [start, params] =>
    let start ← Json.required? Json.signed? start
    let pairs ← Json.required? (Json.list? (Json.pair? Json.signed? Json.signed?)) params
    return { start, axes := pairs.map fun (stride, trip) => { stride, trip } }
  | _ => none

def compute? (j : Json) : Option JobCompute := do
  match ← Json.record? ["op", "reduce"] j with
  | [op, reduce] =>
    let op ← Json.required? (Json.choice? ComputeOp.names) op
    let reduce ← Json.withDefault? Json.boolean? false reduce
    return { op, reduce }
  | _ => none

def fieldNames : List String :=
  ["hw", "array_sizes", "tile_sizes", "src", "dst", "compute", "wordline_bits"]

def ofJson? (j : Json) : Option Job := do
  match ← Json.record? fieldNames j with
  | [hw, arraySizes, tileSizes, src, dst, compute, bits] =>
    let hardware ← Json.withDefault? Hardware.ofJson? {} hw
    let arraySizes ← Json.required? (Json.list? Json.signed?) arraySizes
    let tileSizes ← Json.required? (Json.list? Json.signed?) tileSizes
    let source ← Json.required? pattern? src
    let target ← Json.required? pattern? dst
    let compute ← Json.withDefault? (Json.nullable? compute?) none compute
    let wordlineBits ← Json.withDefault? (Json.nullable? (Json.natural? 32)) none bits
    return { hardware, arraySizes, tileSizes, source, target, compute, wordlineBits }
  | _ => none

/-- The job of a text. -/
def parse? (text : String) : Option Job :=
  (Json.parse? text).bind ofJson?

/-! ## Compiling -/

/-- The computation of a job on its destination, behind a barrier if anything was moved. -/
def computeCommands (t : Tiling) (target : AffinePattern) (moved : List Command)
    (c : JobCompute) : Except MoveError (List Command) := do
  let computed ← t.compileCompute c.op target c.reduce
  return (if moved.isEmpty then [] else [t.barrier]) ++ computed

/-- All commands of a job. -/
def commands (job : Job) : Except MoveError (List Command) := do
  let t ← Tiling.ofSizes job.hardware job.arraySizes job.tileSizes
  let t := { t with wordlineBits := job.wordlineBits.getD t.wordlineBits }
  let moved ← t.compileMove job.source job.target
  match job.compute with
  | none => return moved
  | some c =>
    let computed ← computeCommands t job.target moved c
    return moved ++ computed

end Job
end CommandLine
end StreamEngine
