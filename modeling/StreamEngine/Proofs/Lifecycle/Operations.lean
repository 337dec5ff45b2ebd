import StreamEngine.Lifecycle.Retire
import StreamEngine.Proofs.Outcome

/-!
# Runs of operations

A manager is used from outside through its operations only, in any order. A refusal is an answer like any
other; a fault ends the run.

- `Operation` : what a manager can be asked to do;
- `Operation.IsTransfer`, `IsQuiet`, `IsRelease`, `SparesAccesses` : operations that are alike in what they
  leave alone;
- `Manager.apply`, `Manager.run` : the manager that is left behind;
- `Manager.Applies` : an operation of a run, with the manager that it finds.
-/

namespace StreamEngine

inductive Operation where
  | configure (d : Declaration)
  | allocate (s : StreamId)
  | markAddrReady (e : ElementId)
  | issue (e : ElementId)
  | respond (a : AccessId) (data : List UInt8)
  | respondFault (a : AccessId)
  | setValue (e : ElementId) (vaddr : UInt64) (data : List UInt8)
  | setValueFromPrevious (e : ElementId)
  | compute (e : ElementId)
  | tick (now : Nat)
  | setFinalValue (s : StreamId) (idx : Nat) (w : UInt64)
  | step (s : StreamId)
  | flush (e : ElementId) (aliased : Bool)
  | release (e : ElementId)
  | releaseStepped (s : StreamId)
  | endStream (s : StreamId)

namespace Operation

/-- Requests, answers and values that are written or copied. They change what an element holds. -/
def IsTransfer : Operation → Prop
  | .issue _ | .respond _ _ | .respondFault _ | .setValue _ _ _ | .setValueFromPrevious _ => True
  | _ => False

/-- Operations that leave every element at its place in its stream. -/
def IsQuiet : Operation → Prop
  | .configure _ | .allocate _ | .setFinalValue _ _ _ | .step _ | .release _ | .releaseStepped _
  | .endStream _ => False
  | _ => True

/-- Operations that take elements off the heads of chains. -/
def IsRelease : Operation → Prop
  | .release _ | .releaseStepped _ | .endStream _ => True
  | _ => False

/-- Operations that the accesses in flight take no part in. -/
def SparesAccesses : Operation → Prop
  | .issue _ | .respond _ _ | .respondFault _ | .flush _ _ | .release _ | .releaseStepped _
  | .endStream _ => False
  | _ => True

end Operation

namespace Manager

/-- The manager that an operation leaves behind. -/
def apply (m : Manager) : Operation → Except Fault Manager
  | .configure d => (m.configure d).map Prod.snd
  | .allocate s => (m.allocate s).map Prod.snd
  | .markAddrReady e => (m.markAddrReady e).map Prod.snd
  | .issue e => (m.issue e).map Prod.snd
  | .respond a data => (m.respond a data).map Prod.snd
  | .respondFault a => (m.respondFault a).map Prod.snd
  | .setValue e vaddr data => (m.setValue e vaddr data).map Prod.snd
  | .setValueFromPrevious e => (m.setValueFromPrevious e).map Prod.snd
  | .compute e => m.compute e
  | .tick now => (m.tick now).map Prod.snd
  | .setFinalValue s idx w => (m.setFinalValue s idx w).map Prod.snd
  | .step s => (m.step s).map Prod.snd
  | .flush e aliased => m.flush e aliased
  | .release e => m.release e
  | .releaseStepped s => (m.releaseStepped s).map Prod.snd
  | .endStream s => (m.endStream s).map Prod.snd

/-- The manager that operations leave behind, one after another. -/
def run (m : Manager) (ops : List Operation) : Except Fault Manager :=
  ops.foldlM apply m

/-- The run of `ops` applies `op` to the manager `found`. -/
inductive Applies : Manager → List Operation → Manager → Operation → Prop where
  | here (m : Manager) (op : Operation) (ops : List Operation) : Applies m (op :: ops) m op
  | later {m m' found : Manager} {first op : Operation} {ops : List Operation} :
      m.apply first = .ok m' → Applies m' ops found op → Applies m (first :: ops) found op

variable {m m' : Manager} {op : Operation} {ops : List Operation}

theorem run_cons (h : m.run (op :: ops) = .ok m') :
    ∃ next, m.apply op = .ok next ∧ next.run ops = .ok m' := by
  rw [run, List.foldlM_cons] at h
  exact bind_eq_ok.1 h

theorem run_append_eq_ok {later : List Operation} :
    m.run (ops ++ later) = .ok m' ↔ ∃ next, m.run ops = .ok next ∧ next.run later = .ok m' := by
  rw [run, List.foldlM_append]
  exact bind_eq_ok

theorem applies_iff {found : Manager} : m.Applies ops found op ↔
    ∃ before after, ops = before ++ op :: after ∧ m.run before = .ok found := by
  constructor
  · intro h
    induction h with
    | here m op ops => exact ⟨[], ops, rfl, rfl⟩
    | @later m m' found first op ops happly _ ih =>
        rcases ih with ⟨before, after, rfl, hrun⟩
        refine ⟨first :: before, after, rfl, ?_⟩
        rw [run, List.foldlM_cons]
        exact bind_eq_ok.2 ⟨m', happly, hrun⟩
  · rintro ⟨before, after, rfl, hrun⟩
    induction before generalizing m with
    | nil =>
        cases hrun
        exact .here ..
    | cons first before ih =>
        rcases run_cons hrun with ⟨next, happly, hrest⟩
        exact .later happly (ih hrest)

theorem Applies.mem {found : Manager} (h : m.Applies ops found op) : op ∈ ops := by
  rcases applies_iff.1 h with ⟨before, after, rfl, _⟩
  exact List.mem_append_right _ List.mem_cons_self

theorem Applies.extend {found : Manager} {before between after : List Operation}
    (h : m'.Applies between found op) (hrun : m.run before = .ok m') :
    m.Applies (before ++ between ++ after) found op := by
  rcases applies_iff.1 h with ⟨first, last, rfl, hfirst⟩
  refine applies_iff.2 ⟨before ++ first, last ++ after, ?_, run_append_eq_ok.2 ⟨m', hrun, hfirst⟩⟩
  simp only [List.append_assoc, List.cons_append]

/-- An operation finds what the operations before it have left. -/
theorem Applies.exists_take {found : Manager} (h : m.Applies ops found op) :
    ∃ i, ops[i]? = some op ∧ m.run (ops.take i) = .ok found := by
  rcases applies_iff.1 h with ⟨before, after, rfl, hrun⟩
  refine ⟨before.length, ?_, ?_⟩
  · rw [List.getElem?_append_right (Nat.le_refl _), Nat.sub_self]
    rfl
  · rw [List.take_left]
    exact hrun

/-- What each operation of a run keeps, given what is known of it, the whole run keeps. -/
theorem run_keeps {P : Manager → Prop} {Q : Manager → Operation → Prop}
    (hstep : ∀ m m' op, P m → Q m op → m.apply op = .ok m' → P m')
    (hops : ∀ found op, m.Applies ops found op → Q found op) (h : P m)
    (hrun : m.run ops = .ok m') : P m' := by
  induction ops generalizing m with
  | nil =>
      cases hrun
      exact h
  | cons op ops ih =>
      rcases run_cons hrun with ⟨next, happly, hrest⟩
      have hnext := hstep m next op h (hops m op (.here m op ops)) happly
      exact ih (fun found op' happlies => hops found op' (.later happly happlies)) hnext hrest

end Manager
end StreamEngine
