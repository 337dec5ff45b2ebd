/-!
# Slabs

A slab gives each value that is put in a numbered slot. Slots of removed values are used again, the
one freed last first.
-/

namespace StreamEngine

/-- Values by slot number, and the stack of free slots, the next one to use on top. -/
structure Slab (α : Type) where
  slots : List (Option α) := []
  free : List Nat := []
  deriving Repr

namespace Slab

variable {α : Type}

instance : Inhabited (Slab α) := ⟨{}⟩

/-- The value in a slot. -/
def get? (s : Slab α) (i : Nat) : Option α :=
  s.slots[i]?.join

/-- Puts a value in the slot on top of the free ones, or else in a new one. Gives the slot. -/
def insert (s : Slab α) (v : α) : Nat × Slab α :=
  match s.free with
  | i :: rest => (i, { slots := s.slots.set i (some v), free := rest })
  | [] => (s.slots.length, { s with slots := s.slots ++ [some v] })

/-- Replaces the value in an occupied slot. -/
def replace (s : Slab α) (i : Nat) (v : α) : Slab α :=
  { s with slots := s.slots.set i (some v) }

/-- Empties an occupied slot, which becomes the next one to use. -/
def erase (s : Slab α) (i : Nat) : Slab α :=
  { slots := s.slots.set i none, free := i :: s.free }

/-- Number of values. -/
def size (s : Slab α) : Nat :=
  s.slots.countP Option.isSome

end Slab
end StreamEngine
