import StreamEngine.Identity
import StreamEngine.Value

/-!
# Formal parameters

The parameter list of a stream mixes values fixed at configuration with references to base streams,
whose current values are fetched when the list is resolved.

- `Formal.values` : the words of a list that has no reference;
- `Formal.resolve` : the concrete values, asking for each reference once and in order.
-/

namespace StreamEngine

/-- One formal parameter. -/
inductive Param where
  /-- A value fixed at configuration. -/
  | invariant (value : StreamValue)
  /-- The current value of a base stream. -/
  | base (id : StaticId)
  deriving DecidableEq, Repr, Inhabited

namespace Param

/-- An invariant parameter whose lane 0 is `w`. -/
def word (w : UInt64) : Param :=
  .invariant (.ofWord w)

def isInvariant : Param → Bool
  | .invariant _ => true
  | .base _ => false

/-- Lane 0 of an invariant parameter. -/
def word? : Param → Option UInt64
  | .invariant v => some v.front
  | .base _ => none

def text : Param → String
  | .invariant v => s!"Const-{v.text} "
  | .base id => s!"Strm-{id} "

end Param

/-- A formal parameter list. -/
abbrev Formal := List Param

namespace Formal

/-- An all-invariant list. -/
def ofWords (ws : List UInt64) : Formal :=
  ws.map Param.word

/-- Every parameter in order, each followed by a blank. -/
def text (ps : Formal) : String :=
  String.join (ps.map Param.text)

def allInvariant (ps : Formal) : Bool :=
  ps.all Param.isInvariant

/-- Position of the first reference to a base stream. -/
def firstBase? (ps : Formal) : Option Nat :=
  ps.findIdx? fun p => !p.isInvariant

/-- The words of a list without references. -/
def words? (ps : Formal) : Option (List UInt64) :=
  ps.mapM Param.word?

/-- The base streams that a list refers to, in order. -/
def bases (ps : Formal) : List StaticId :=
  ps.filterMap fun
    | .invariant _ => none
    | .base id => some id

/-- Concrete values of a list. `fetch` is asked for each reference, in order, and may fail. -/
def resolve {ε : Type} (ps : Formal) (fetch : StaticId → Except ε StreamValue) :
    Except ε (List StreamValue) :=
  ps.mapM fun
    | .invariant v => .ok v
    | .base id => fetch id

end Formal
end StreamEngine
