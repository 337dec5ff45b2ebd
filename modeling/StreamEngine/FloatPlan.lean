import StreamEngine.Fault

/-!
# Float plans

A floated stream computes its elements away from the core. A float plan lists the element indices at
which the place of computation changes; elements before the first change are not floated.
-/

namespace StreamEngine

/-- Where a floated element executes. -/
inductive Machine where
  | l2
  | l3
  | mem
  deriving DecidableEq, Repr

namespace Machine

def text : Machine → String
  | .l2 => "L2"
  | .l3 => "L3"
  | .mem => "Mem"

/-- The machine printed as `s`. -/
def ofText? (s : String) : Option Machine :=
  [Machine.l2, .l3, .mem].find? fun m => m.text == s

end Machine

/-- Change points in increasing order of their elements. -/
structure FloatPlan where
  changes : List (Nat × Machine) := []
  deriving DecidableEq, Repr

namespace FloatPlan

instance : Inhabited FloatPlan := ⟨{}⟩

/-- Adds a change, which must come after all earlier ones. -/
def addChange (p : FloatPlan) (idx : Nat) (m : Machine) : Except Fault FloatPlan :=
  match p.changes.getLast? with
  | some (last, _) =>
    if idx ≤ last then .error (.graph (.floatOrder idx last))
    else .ok { changes := p.changes ++ [(idx, m)] }
  | none => .ok { changes := [(idx, m)] }

/-- The plan of a list of changes. -/
def ofChanges (changes : List (Nat × Machine)) : Except Fault FloatPlan :=
  changes.foldlM (fun p (idx, m) => p.addChange idx m) {}

def isFloated (p : FloatPlan) : Bool :=
  !p.changes.isEmpty

/-- Some change goes to memory. -/
def isFloatedToMem (p : FloatPlan) : Bool :=
  p.changes.any fun c => c.2 == .mem

/-- The first floated element. -/
def firstElem? (p : FloatPlan) : Option Nat :=
  p.changes.head?.map Prod.fst

/-- Where element `idx` executes: the place of the last change at or before it. -/
def machineAt (p : FloatPlan) (idx : Nat) : Option Machine :=
  (p.changes.takeWhile fun c => c.1 ≤ idx).getLast?.map Prod.snd

end FloatPlan
end StreamEngine
