import StreamEngine.Fault
import StreamEngine.Linear.Basic

/-!
# Address generators and compute kernels

A *kernel* is a function of resolved parameters with a fixed latency. A *generator* produces the
address (or the value) of one element: through a linear pattern, or through a kernel for indirect
and computed streams.

- `Linear.address?` : evaluation that stops on a list of fewer than two words;
- `Generator.generate` : resolve the parameters, then evaluate;
- `Generator.invariantAddress` : the same where no base stream may be asked.
-/

namespace StreamEngine

/-- Address of element `idx`, for any list of words. -/
def Linear.address? (words : List UInt64) (idx : Nat) : Except Fault UInt64 :=
  if words.length < 2 then .error (.pattern .tooFewWords) else .ok (address words idx)

/-- A function of resolved parameters. Evaluating it takes `latency` cycles. -/
structure Kernel where
  latency : Nat := 1
  run : List StreamValue → StreamValue

instance : Inhabited Kernel := ⟨{ run := fun _ => .zero }⟩

/-- How the elements of a stream get their addresses or values. -/
inductive Generator where
  | linear
  | computed (kernel : Kernel)
  deriving Inhabited

namespace Generator

/-- Cycles spent on one value. -/
def latency : Generator → Nat
  | .linear => 1
  | .computed k => k.latency

def isLinear : Generator → Bool
  | .linear => true
  | .computed _ => false

/-- The value of element `idx` from resolved parameters. A kernel does not see the index. -/
def value (g : Generator) (idx : Nat) (params : List StreamValue) : Except Fault StreamValue :=
  match g with
  | .linear => do
    let addr ← Linear.address? (params.map StreamValue.front) idx
    return .ofWord addr
  | .computed k => .ok (k.run params)

/-- Resolves the parameters through `fetch` and evaluates element `idx`. -/
def generate (g : Generator) (idx : Nat) (formal : Formal)
    (fetch : StaticId → Except Fault StreamValue) : Except Fault StreamValue := do
  let params ← formal.resolve fetch
  g.value idx params

/-- The value of a base stream where none is expected. -/
def noBase (id : StaticId) : Except Fault StreamValue :=
  .error (.pattern (.baseOfInvariant id))

/-- Address of element `idx` of a list without references. -/
def invariantAddress (g : Generator) (formal : Formal) (idx : Nat) : Except Fault UInt64 := do
  let v ← g.generate idx formal noBase
  return v.front

end Generator
end StreamEngine
