import Mathlib.Data.List.Nodup
import StreamEngine.Proofs.Lifecycle.Soundness

/-!
# Plans for the blocks of an element

Before an element asks for its lines, every block that has not been asked for gets a plan. A plan refers
to the element before only as far as that one can carry it out.

- `before?`, `previous?_eq_ok` : the element before in a chain;
- `mem_plansFrom`, `mem_plansFrom_of_initialized`, `plans_nodup` : each block gets one plan;
- `planLine_share`, `planLine_copyPrevious` : what a plan relies on;
- `room_of_checkRoom` : the room that is checked beforehand;
- `Begins.nodup`, `Begins.block_of_mem` : the plans that a request starts from.
-/

namespace StreamEngine
namespace Manager

variable {m : Manager} {e p : ElementId} {el : Element} {s : StreamId} {st : LiveStream}

/-! ## The element before -/

/-- The key before another in a chain. -/
def before? (chain : List ElementId) (e : ElementId) : Option ElementId :=
  match positionIn e chain with
  | some (i + 1) => chain[i]?
  | _ => none

theorem before?_ne {chain : List ElementId} (hnodup : chain.Nodup) (h : before? chain e = some p) :
    p ∈ chain ∧ p ≠ e := by
  rw [before?] at h
  cases hposition : positionIn e chain with
  | none =>
      rw [hposition] at h
      cases h
  | some n =>
      rw [hposition] at h
      cases n with
      | zero => cases h
      | succ i =>
          simp only at h
          refine ⟨List.mem_of_getElem? h, ?_⟩
          rintro rfl
          rcases List.findIdx?_eq_some_iff_getElem.1 hposition with ⟨hlt, heq, _⟩
          rcases List.getElem?_eq_some_iff.1 h with ⟨hlt', heq'⟩
          -- the key itself stands one place further on
          have hsame : chain[i] = chain[i + 1] := by
            rw [heq']
            exact (beq_iff_eq.1 heq).symm
          have hindex := (List.Nodup.getElem_inj_iff hnodup).1 hsame
          omega

theorem previous?_eq_ok {prev : Option ElementId} (h : m.previous? e = .ok prev) :
    ∃ el st, m.element? e = some el ∧ m.stream? el.stream = some st ∧
      prev = before? st.chain e := by
  rcases bind_eq_ok.1 h with ⟨el, hel, h⟩
  rcases bind_eq_ok.1 h with ⟨st, hst, h⟩
  refine ⟨el, st, element_eq_ok.1 hel, stream_eq_ok.1 hst, ?_⟩
  rw [before?]
  -- a key without a place in the chain is a fault
  cases hposition : positionIn e st.chain with
  | none =>
      rw [hposition] at h
      cases h
  | some n =>
      rw [hposition] at h
      cases n with
      | zero =>
          cases h
          rfl
      | succ i =>
          cases hp : st.chain[i]? with
          | none =>
              simp only [hp] at h
              cases h
          | some p =>
              simp only [hp] at h
              rcases bind_eq_ok.1 h with ⟨elp, _, h⟩
              by_cases hbroken : elp.next ≠ some e
              · rw [if_pos hbroken] at h
                cases h
              · rw [if_neg hbroken] at h
                cases h
                exact hp.symm

/-- The element before belongs to the same stream, and is another one. -/
theorem Registered.before (h : m.Registered) (hst : m.stream? s = some st)
    (hp : before? st.chain e = some p) :
    p ≠ e ∧ ∃ elp, m.element? p = some elp ∧ elp.stream = s := by
  rcases before?_ne (h.nodup s st hst) hp with ⟨hmem, hne⟩
  exact ⟨hne, h.chained s st hst p hmem⟩

/-! ## Plans -/

variable {coalesce : Bool} {prev : Option Element}

theorem mem_plansFrom {n i : Nat} {plan : IssuePlan} {blocks : List Block}
    (h : (i, plan) ∈ plansFrom coalesce prev n blocks) :
    ∃ j b, i = n + j ∧ blocks[j]? = some b ∧ b.state = .initialized ∧
      plan = planLine coalesce prev b.line := by
  induction blocks generalizing n with
  | nil => cases h
  | cons b rest ih =>
      have hlater : (i, plan) ∈ plansFrom coalesce prev (n + 1) rest →
          ∃ j c, i = n + j ∧ (b :: rest)[j]? = some c ∧ c.state = .initialized ∧
            plan = planLine coalesce prev c.line := by
        intro hmem
        rcases ih hmem with ⟨j, c, hi, hc, hstate, hplan⟩
        exact ⟨j + 1, c, by omega, hc, hstate, hplan⟩
      rw [plansFrom] at h
      by_cases hb : b.state = .initialized
      · simp only [if_pos hb] at h
        rcases List.mem_cons.1 h with heq | hmem
        · cases heq
          exact ⟨0, b, rfl, rfl, hb, rfl⟩
        · exact hlater hmem
      · simp only [if_neg hb] at h
        exact hlater h

/-- Every block that was not asked for gets a plan. -/
theorem mem_plansFrom_of_initialized {n j : Nat} {b : Block} {blocks : List Block}
    (hb : blocks[j]? = some b) (hstate : b.state = .initialized) :
    (n + j, planLine coalesce prev b.line) ∈ plansFrom coalesce prev n blocks := by
  induction blocks generalizing n j with
  | nil => cases hb
  | cons c rest ih =>
      rw [plansFrom]
      cases j with
      | zero =>
          cases hb
          simp only [if_pos hstate]
          exact List.mem_cons_self ..
      | succ j =>
          have hlater : (n + 1 + j, planLine coalesce prev b.line) ∈
              plansFrom coalesce prev (n + 1) rest := ih hb
          rw [Nat.add_assoc, Nat.add_comm 1 j] at hlater
          by_cases hc : c.state = .initialized
          · simp only [if_pos hc]
            exact List.mem_cons_of_mem _ hlater
          · simp only [if_neg hc]
            exact hlater

theorem le_of_mem_plansFrom {n : Nat} {blocks : List Block} {x : Nat × IssuePlan}
    (h : x ∈ plansFrom coalesce prev n blocks) : n ≤ x.1 := by
  rcases x with ⟨i, plan⟩
  rcases mem_plansFrom h with ⟨j, _, hi, _⟩
  exact hi ▸ Nat.le_add_right n j

theorem plans_nodup (n : Nat) (blocks : List Block) :
    ((plansFrom coalesce prev n blocks).map Prod.fst).Nodup := by
  induction blocks generalizing n with
  | nil => exact List.nodup_nil
  | cons b rest ih =>
      rw [plansFrom]
      by_cases hb : b.state = .initialized
      · simp only [if_pos hb, List.map_cons]
        refine List.nodup_cons.2 ⟨?_, ih (n + 1)⟩
        intro hmem
        rcases List.mem_map.1 hmem with ⟨x, hx, hn⟩
        have hle := le_of_mem_plansFrom hx
        omega
      · simp only [if_neg hb]
        exact ih (n + 1)

/-- A line is fetched, or what is to be done follows from the block of the line in the element before. -/
theorem planLine_cases (coalesce : Bool) (prev : Option Element) (line : UInt64) :
    planLine coalesce prev line = .fresh ∨ ∃ p b, prev = some p ∧
      p.blocks.find? (fun b => b.line = line) = some b ∧ planLine coalesce prev line = planBehind b := by
  cases prev with
  | none => exact Or.inl rfl
  | some p =>
      rw [planLine]
      by_cases hfresh : (!coalesce || !p.addrReady) = true
      · exact Or.inl (if_pos hfresh)
      · rw [if_neg hfresh]
        cases hfind : p.blocks.find? (fun b => b.line = line) with
        | none => exact Or.inl rfl
        | some b => exact Or.inr ⟨p, b, rfl, hfind, rfl⟩

/-- A line is shared only with a block of the same line that waits on the access. -/
theorem planLine_share {line : UInt64} {a : AccessId}
    (h : planLine coalesce prev line = .share a) :
    ∃ p b, prev = some p ∧ b ∈ p.blocks ∧ b.line = line ∧ b.access = some a := by
  rcases planLine_cases coalesce prev line with hfresh | ⟨p, b, hp, hfind, hbehind⟩
  · rw [hfresh] at h
    cases h
  · have hline := List.find?_some hfind
    refine ⟨p, b, hp, List.mem_of_find?_eq_some hfind, by simpa using hline, ?_⟩
    rw [hbehind, planBehind] at h
    cases hstate : b.state <;> cases haccess : b.access <;> simp_all

/-- A line is copied only from a block that is settled. -/
theorem planLine_copyPrevious {line : UInt64} (h : planLine coalesce prev line = .copyPrevious) :
    ∃ p, prev = some p ∧ p.Serves line := by
  rcases planLine_cases coalesce prev line with hfresh | ⟨p, b, hp, hfind, hbehind⟩
  · rw [hfresh] at h
    cases h
  · refine ⟨p, hp, b, hfind, ?_⟩
    rw [hbehind, planBehind] at h
    cases hstate : b.state <;> cases haccess : b.access <;> simp_all [BlockState.isSettled]

theorem room_of_checkRoom {plans : List (Nat × IssuePlan)} (h : m.checkRoom e plans = .ok (.ok ()))
    {i : Nat} {a : AccessId} (hmem : (i, IssuePlan.share a) ∈ plans) :
    ∃ access, m.accesses.find? a = some access ∧ access.receivers.hasRoomFor e = true := by
  induction plans with
  | nil => cases hmem
  | cons x rest ih =>
      rcases x with ⟨j, plan⟩
      cases plan with
      | share a' =>
          rw [checkRoom] at h
          rcases bind_eq_ok.1 h with ⟨access, hget, h⟩
          cases hroom : access.checkRoom e m.options.policy with
          | error f =>
              rw [hroom] at h
              cases f <;> cases h
          | ok u =>
              simp only [hroom] at h
              rcases List.mem_cons.1 hmem with heq | hmem
              · cases heq
                refine ⟨access, AccessPool.get_eq_ok.1 hget, ?_⟩
                rw [Access.checkRoom] at hroom
                by_cases hfull : access.receivers.hasRoomFor e = true
                · exact hfull
                · rw [if_neg hfull] at hroom
                  cases hroom
              · exact ih h hmem
      | fresh =>
          rcases List.mem_cons.1 hmem with heq | hmem
          · cases heq
          · exact ih h hmem
      | copyPrevious =>
          rcases List.mem_cons.1 hmem with heq | hmem
          · cases heq
          · exact ih h hmem

/-! ## The start of a request -/

theorem Begins.nodup {prev : Option ElementId} {plans : List (Nat × IssuePlan)}
    (h : m.Begins e prev el plans) : (plans.map Prod.fst).Nodup := by
  rw [h.plans_eq]
  exact plans_nodup 0 el.blocks

/-- A plan is about a block that was not asked for, and follows from its line. -/
theorem Begins.block_of_mem {prev : Option ElementId} {plans : List (Nat × IssuePlan)} {i : Nat}
    {plan : IssuePlan} (h : m.Begins e prev el plans) (hmem : (i, plan) ∈ plans) :
    ∃ b, el.blocks[i]? = some b ∧ b.state = .initialized ∧
      plan = planLine m.options.coalesce (prev.bind m.element?) b.line := by
  rw [h.plans_eq] at hmem
  rcases mem_plansFrom hmem with ⟨j, b, hi, hb, hstate, hplan⟩
  rw [Nat.zero_add] at hi
  exact ⟨b, hi ▸ hb, hstate, hplan⟩

theorem Begins.initialized {prev : Option ElementId} {plans : List (Nat × IssuePlan)}
    (h : m.Begins e prev el plans) (i : Nat) (plan : IssuePlan) (hmem : (i, plan) ∈ plans) :
    ∃ b, el.blocks[i]? = some b ∧ b.state = .initialized := by
  rcases h.block_of_mem hmem with ⟨b, hb, hstate, _⟩
  exact ⟨b, hb, hstate⟩

end Manager
end StreamEngine
