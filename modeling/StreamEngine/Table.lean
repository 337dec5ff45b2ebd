/-!
# Tables

A table holds at most one value for each key. It is kept as a list of pairs, and nothing depends on
their order: a table is read through `find?` only.
-/

namespace StreamEngine

/-- Values by key. -/
structure Table (κ α : Type) where
  entries : List (κ × α) := []
  deriving Repr

namespace Table

variable {κ α : Type} [DecidableEq κ]

instance : Inhabited (Table κ α) := ⟨{}⟩

/-- The value of a key. -/
def find? (t : Table κ α) (k : κ) : Option α :=
  (t.entries.find? fun e => e.1 = k).map Prod.snd

def contains (t : Table κ α) (k : κ) : Bool :=
  (t.find? k).isSome

/-- The table without a key. -/
def erase (t : Table κ α) (k : κ) : Table κ α :=
  { entries := t.entries.filter fun e => e.1 ≠ k }

/-- The table with one value for `k`, in place of any other. -/
def insert (t : Table κ α) (k : κ) (v : α) : Table κ α :=
  { entries := (k, v) :: (t.erase k).entries }

/-! ## Reading after writing -/

@[simp] theorem find?_empty (k : κ) : ({} : Table κ α).find? k = none := rfl

theorem find?_erase (t : Table κ α) (k j : κ) :
    (t.erase k).find? j = if k = j then none else t.find? j := by
  obtain ⟨entries⟩ := t
  unfold find? erase
  induction entries with
  | nil => simp
  | cons e rest ih =>
    by_cases hk : e.1 = k <;> by_cases hj : e.1 = j <;> simp_all
    exact fun h => hk h.symm

theorem find?_insert (t : Table κ α) (k j : κ) (v : α) :
    (t.insert k v).find? j = if k = j then some v else t.find? j := by
  by_cases h : k = j
  · simp [insert, find?, h]
  · have := find?_erase t k j
    simp_all [insert, find?]

end Table
end StreamEngine
