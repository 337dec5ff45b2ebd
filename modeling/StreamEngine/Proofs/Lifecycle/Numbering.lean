import Mathlib.Data.List.Induction
import StreamEngine.Proofs.Lifecycle.Operations

/-!
# Lists that grow at their end

A manager keeps lists of which every operation takes some items off, or puts one item behind the others. After
a run such a list is in the order of the operations that put the items there.

- `Manager.Stays` : an item is on the list all through a run;
- `Manager.Numbered` : the items of the list, with the numbers of the operations that put them there;
- `exists_numbered` : every run numbers the items.
-/

namespace StreamEngine
namespace Manager

variable {m₀ m m' : Manager} {op : Operation} {ops : List Operation}

theorem run_concat : m.run (ops ++ [op]) = .ok m' ↔ ∃ found, m.run ops = .ok found ∧ found.apply op = .ok m' := by
  rw [run_append_eq_ok]
  refine exists_congr fun found => and_congr_right fun _ => ⟨fun h => ?_, fun h => ?_⟩
  · rcases run_cons h with ⟨next, happly, hdone⟩
    cases hdone
    exact happly
  · exact bind_eq_ok.2 ⟨m', h, rfl⟩

section List

variable {α : Type} {items : Manager → List α} {puts : Operation → α → Prop} {x : α}

/-- The item is on the list wherever the operations have got to. -/
def Stays (items : Manager → List α) (m : Manager) (ops : List Operation) (x : α) : Prop :=
  ∀ i m', m.run (ops.take i) = .ok m' → x ∈ items m'

theorem stays_nil (hx : x ∈ items m) : m.Stays items [] x := by
  intro i m' hrun
  rw [List.take_nil] at hrun
  cases hrun
  exact hx

theorem Stays.concat (h : m.Stays items ops x) (hrun : m.run (ops ++ [op]) = .ok m') (hx : x ∈ items m') :
    m.Stays items (ops ++ [op]) x := by
  intro i m₁ hprefix
  by_cases hi : i ≤ ops.length
  · rw [List.take_append_of_le_length hi] at hprefix
    exact h i m₁ hprefix
  · -- that is the whole run
    have hlength : (ops ++ [op]).length ≤ i := by
      rw [List.length_append, List.length_singleton]
      omega
    rw [List.take_of_length_le hlength, hrun] at hprefix
    cases hprefix
    exact hx

/-- After the operations `before`, the item is put on the list, and there it stays. -/
def PutsAt (m₀ : Manager) (items : Manager → List α) (puts : Operation → α → Prop) (before : List Operation)
    (op : Operation) (after : List Operation) (m : Manager) (x : α) : Prop :=
  puts op x ∧ ∃ found next, m₀.run before = .ok found ∧ found.apply op = .ok next ∧
    items next = items found ++ [x] ∧ next.run after = .ok m ∧ next.Stays items after x

/-- The items on the list after a run, each with the number of the operation that put it there. -/
structure Numbered (m₀ : Manager) (items : Manager → List α) (puts : Operation → α → Prop)
    (ops : List Operation) (m : Manager) (numbered : List (Nat × α)) : Prop where
  list : numbered.map Prod.snd = items m
  rising : numbered.Pairwise fun q q' => q.1 < q'.1
  put : ∀ q ∈ numbered, ∃ before op after, ops = before ++ op :: after ∧ before.length = q.1 ∧
    m₀.PutsAt items puts before op after m q.2

/-- Every run numbers the items of a list that is empty at first. -/
theorem exists_numbered (hempty : items m₀ = [])
    (hstep : ∀ before found op next, m₀.run before = .ok found → found.apply op = .ok next →
      (items next).Sublist (items found) ∨ ∃ x, puts op x ∧ items next = items found ++ [x])
    (hrun : m₀.run ops = .ok m) : ∃ numbered, m₀.Numbered items puts ops m numbered := by
  induction ops using List.reverseRecOn generalizing m with
  | nil =>
      cases hrun
      exact ⟨[], hempty.symm, List.Pairwise.nil, fun q hq => absurd hq List.not_mem_nil⟩
  | append_singleton ops op ih =>
      rcases run_concat.1 hrun with ⟨found, hfound, happly⟩
      rcases ih hfound with ⟨numbered, hlist, hrising, hput⟩
      -- what was put there earlier keeps its number if it is still on the list
      have hkept : ∀ q ∈ numbered, q.2 ∈ items m → ∃ before op' after,
          ops ++ [op] = before ++ op' :: after ∧ before.length = q.1 ∧
            m₀.PutsAt items puts before op' after m q.2 := by
        intro q hq hleft
        rcases hput q hq with ⟨before, op', after, hops, hnumber, hputs, first, next, hfirst, hnext, hadded,
          hafter, hstays⟩
        have hrest := run_concat.2 ⟨found, hafter, happly⟩
        refine ⟨before, op', after ++ [op], ?_, hnumber, hputs, first, next, hfirst, hnext, hadded, hrest,
          hstays.concat hrest hleft⟩
        rw [hops, List.append_assoc, List.cons_append]
      rcases hstep ops found op m hfound happly with hleft | ⟨x, hputs, hadded⟩
      · rw [← hlist, List.sublist_map_iff] at hleft
        rcases hleft with ⟨left, hsub, hitems⟩
        refine ⟨left, hitems.symm, hrising.sublist hsub, fun q hq => hkept q (hsub.subset hq) ?_⟩
        rw [hitems]
        exact List.mem_map_of_mem hq
      · refine ⟨numbered ++ [(ops.length, x)], ?_, ?_, ?_⟩
        · rw [List.map_append, hlist, hadded]
          rfl
        · refine List.pairwise_append.2 ⟨hrising, List.pairwise_singleton _ _, ?_⟩
          intro q hq q' hq'
          rw [List.mem_singleton.1 hq']
          rcases hput q hq with ⟨before, op', after, hops, hnumber, _⟩
          rw [← hnumber, hops, List.length_append, List.length_cons]
          omega
        · intro q hq
          rcases List.mem_append.1 hq with hq | hq
          · refine hkept q hq ?_
            rw [hadded, ← hlist]
            exact List.mem_append_left _ (List.mem_map_of_mem hq)
          · rw [List.mem_singleton.1 hq]
            have hx : x ∈ items m := hadded ▸ List.mem_append_right _ (List.mem_singleton_self x)
            exact ⟨ops, op, [], rfl, rfl, hputs, found, m, hfound, happly, hadded, rfl, stays_nil hx⟩

end List

end Manager
end StreamEngine
