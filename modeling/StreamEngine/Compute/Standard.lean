import StreamEngine.Arithmetic
import StreamEngine.Compute

/-!
# Standard kernels

Kernels that a configuration can ask for by name. All arithmetic is modulo 2^64. Unless said
otherwise a kernel reads lane 0 of its parameters and fills lane 0 of its result; a missing parameter
counts as zero.
-/

namespace StreamEngine

/-- The function of a standard kernel. `scale` and `index` have a constant of their own. -/
inductive StandardKernel where
  | sum
  | mul
  | xor
  | max
  | scale (factor : UInt64)
  | index (origin : UInt64)
  /-- The first parameter, all lanes. -/
  | pass
  /-- The sum of all parameters, lane by lane. -/
  | lanes
  deriving DecidableEq, Repr

namespace StandardKernel

/-- The kernel called `name`, with constant `k` where it has one. -/
def ofName? (name : String) (k : UInt64) : Option StandardKernel :=
  match name with
  | "sum" => some .sum
  | "mul" => some .mul
  | "xor" => some .xor
  | "max" => some .max
  | "scale" => some (.scale k)
  | "index" => some (.index k)
  | "pass" => some .pass
  | "lanes" => some .lanes
  | _ => none

/-- Lane 0 of the parameter at `i`, or zero. -/
def front (params : List StreamValue) (i : Nat) : UInt64 :=
  (params[i]?.map StreamValue.front).getD 0

def run (k : StandardKernel) (params : List StreamValue) : StreamValue :=
  let words := params.map StreamValue.front
  match k with
  | .sum => .ofWord words.sum
  | .mul => .ofWord (words.foldl (· * ·) 1)
  | .xor => .ofWord (words.foldl (· ^^^ ·) 0)
  | .max => .ofWord (words.foldl (fun a b => if a < b then b else a) 0)
  | .scale factor => .ofWord (front params 0 + factor * front params 1)
  | .index origin => .ofWord (origin + 8 * front params 0)
  | .pass => params.headD .zero
  | .lanes => params.foldl StreamValue.add .zero

/-- The kernel with a latency. -/
def withLatency (k : StandardKernel) (latency : Nat) : Kernel :=
  { latency, run := k.run }

end StandardKernel
end StreamEngine
