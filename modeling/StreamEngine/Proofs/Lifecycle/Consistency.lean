import StreamEngine.Proofs.Lifecycle.Leaving

/-!
# Faults that cannot happen

Between two operations the tables of a manager agree. An operation may still stop for what it was asked to
do, but never because the tables contradict each other.

- `Fault.Inconsistent` : what stops an operation when the tables contradict each other;
- `Element.avoids_setValue`, `Element.avoids_copyFromPrev` : writing to an element has other failures;
- `Connected.avoids_issue`, `Connected.avoids_answer`, `Connected.avoids_flush`.
-/

namespace StreamEngine

/-- The tables of a manager contradict each other. -/
def Fault.Inconsistent : Fault → Prop
  | .access _ => True
  | .graph _ => True
  | .element _ (.notWaiting _) => True
  | .element _ (.blockAttached _) => True
  | .element _ .notInChain => True
  | .element _ (.brokenChain _) => True
  | .stream (.noStream _) => True
  | .stream (.emptyChain _) => True
  | _ => False

/-! ## Elements -/

namespace Element

variable (el prev : Element)

theorem avoids_valueOffset (vaddr : UInt64) (size : Nat) :
    Avoids Fault.Inconsistent (el.valueOffset vaddr size) := by
  rw [valueOffset]
  cases el.blocks with
  | nil => exact avoids_error id
  | cons first rest => exact avoids_ite (avoids_error id) (avoids_ite (avoids_error id) (avoids_ok _))

theorem avoids_blockIndex (vaddr : UInt64) (size : Nat) :
    Avoids Fault.Inconsistent (el.blockIndex vaddr size) :=
  (el.avoids_valueOffset vaddr size).bind fun _ _ => avoids_ok _

theorem avoids_getValue (vaddr : UInt64) (size : Nat) :
    Avoids Fault.Inconsistent (el.getValue vaddr size) :=
  (el.avoids_valueOffset vaddr size).bind fun _ _ => avoids_ok _

theorem avoids_tryMarkValueReady : Avoids Fault.Inconsistent el.tryMarkValueReady :=
  avoids_ite (Avoids.bind (avoids_ite (avoids_error id) (avoids_ok _)) fun _ _ => avoids_ok _) (avoids_ok _)

theorem avoids_setValue (vaddr : UInt64) (data : List UInt8) :
    Avoids Fault.Inconsistent (el.setValue vaddr data) := by
  refine (el.avoids_valueOffset vaddr data.length).bind fun offset _ => ?_
  refine avoids_ite (avoids_tryMarkValueReady _) (avoids_ite (avoids_error id) ?_)
  exact avoids_tryMarkValueReady _

theorem avoids_faultBlock (i : Nat) : Avoids Fault.Inconsistent (el.faultBlock i) :=
  avoids_ite (avoids_tryMarkValueReady _) (avoids_error id)

theorem avoids_copyBlock (i : Nat) : Avoids Fault.Inconsistent (el.copyBlock prev i) := by
  rw [copyBlock]
  cases el.blocks[i]? with
  | none => exact avoids_error id
  | some b =>
      refine avoids_ite (avoids_ok _) ((prev.avoids_blockIndex b.line el.lineSize).bind fun j _ => ?_)
      cases prev.blocks[j]? with
      | none => exact avoids_error id
      | some source =>
          refine avoids_ite (el.avoids_faultBlock i) ?_
          exact (prev.avoids_getValue b.line el.lineSize).bind fun data _ => el.avoids_setValue b.line data

theorem avoids_copyFromPrev : Avoids Fault.Inconsistent (el.copyFromPrev prev) :=
  Avoids.foldlM (fun x i => (x.2.avoids_copyBlock prev i).bind fun _ _ => avoids_ok _) _ _

end Element

namespace Manager

variable {k : Nat} {m m' : Manager} {p : AccessPool} {a : AccessId} {access : Access} {e : ElementId}
  {ws : List ElementId}

theorem avoids_settleData (data : List UInt8) (el : Element) (i : Nat) :
    Avoids Fault.Inconsistent (settleData data el i) := by
  rw [settleData]
  cases el.blocks[i]? with
  | none => exact avoids_error id
  | some b => exact el.avoids_setValue b.line data

/-! ## Requests -/

theorem avoids_element (m : Manager) (e : ElementId) : Avoids Fault.Inconsistent (m.element e) := by
  rw [Manager.element]
  cases m.element? e with
  | none => exact avoids_error id
  | some el => exact avoids_ok el

/-- An operation on an element that is not allocated stops for that reason. -/
theorem avoids_of_allocated {α : Type} {f : Element → Except Fault α}
    (h : ∀ el, m.element? e = some el → ∃ x, m.element e >>= f = .ok x) :
    Avoids Fault.Inconsistent (m.element e >>= f) := by
  cases hel : m.element? e with
  | some el => exact avoids_of_ok (h el hel)
  | none =>
      refine (m.avoids_element e).bind fun el hget => ?_
      rw [element_eq_ok, hel] at hget
      cases hget

/-- The element before is found wherever there is an element. -/
theorem Owned.avoids_previous? (h : m.Owned) (e : ElementId) :
    Avoids Fault.Inconsistent (m.previous? e) :=
  avoids_of_allocated fun _ hel => h.previous?_ok hel

theorem Owned.avoids_setValueFromPrevious (h : m.Owned) (e : ElementId) :
    Avoids Fault.Inconsistent (m.setValueFromPrevious e) := by
  refine (h.avoids_previous? e).bind fun prev _ => ?_
  refine (m.avoids_element e).bind fun el _ => ?_
  cases prev with
  | none => exact avoids_error id
  | some before =>
      refine (m.avoids_element before).bind fun source _ => ?_
      exact (el.avoids_copyFromPrev source).bind fun _ _ => avoids_ok _

theorem avoids_checkIssue (el : Element) : Avoids Fault.Inconsistent (checkIssue el) :=
  avoids_ite (avoids_error id) (avoids_ite (avoids_error id) (avoids_ite (avoids_error id) (avoids_ok _)))

/-- A full access stops a request under one of the policies only, and then with an overflow. -/
theorem avoids_checkRoom {plans : List (Nat × IssuePlan)}
    (hshared : ∀ i a, (i, IssuePlan.share a) ∈ plans → ∃ access, m.accesses.find? a = some access) :
    Avoids Fault.Inconsistent (m.checkRoom e plans) := by
  induction plans with
  | nil => exact avoids_ok _
  | cons x rest ih =>
      have hrest := ih fun i a hmem => hshared i a (List.mem_cons_of_mem x hmem)
      rcases x with ⟨i, plan⟩
      cases plan with
      | fresh => exact hrest
      | copyPrevious => exact hrest
      | share a =>
          rcases hshared i a (List.mem_cons_self ..) with ⟨access, hfind⟩
          refine Avoids.bind (avoids_of_ok ⟨access, AccessPool.get_eq_ok.2 hfind⟩) fun access' _ => ?_
          rw [Access.checkRoom]
          by_cases hroom : access'.receivers.hasRoomFor e = true
          · rw [if_pos hroom]
            exact hrest
          · rw [if_neg hroom]
            cases m.options.policy with
            | report => exact avoids_ok _
            | abort => exact avoids_error id

theorem Connected.avoids_issue (h : m.Connected k) (howned : m.Owned) (e : ElementId) :
    Avoids Fault.Inconsistent (m.issue e) := by
  refine (howned.avoids_previous? e).bind fun prev hprev => ?_
  refine (m.avoids_element e).bind fun el hget => ?_
  have hel := element_eq_ok.1 hget
  refine (avoids_checkIssue el).bind fun _ hcheck => ?_
  have hshared : ∀ i a, (i, IssuePlan.share a) ∈
      plansFrom m.options.coalesce (prev.bind m.element?) 0 el.blocks →
      ∃ access, m.accesses.find? a = some access := by
    intro i a hmem
    rcases mem_plansFrom hmem with ⟨_, b, _, _, _, hplan⟩
    rcases h.share howned hel hprev hplan.symm with ⟨access, hfind, _⟩
    exact ⟨access, hfind⟩
  refine (avoids_checkRoom hshared).bind fun room hroom => ?_
  cases room with
  | error err => exact avoids_ok _
  | ok u =>
      -- with room for all of them the plans are carried out
      rcases (h.requesting howned ⟨hprev, hel, hcheck, rfl⟩ hroom).issueBlocks_ok with
        ⟨made, m₁, hblocks, _⟩
      refine Avoids.bind (avoids_of_ok ⟨_, hblocks⟩) fun x hblocks' => ?_
      rw [hblocks] at hblocks'
      cases hblocks'
      have howned₁ := howned.quiet (exchanges_issueBlocks hblocks).quiet
      refine Avoids.bind ((m₁.avoids_element e).bind fun _ _ => avoids_ok _) fun m₂ hmodify => ?_
      rcases modifyElement_eq_ok hmodify with ⟨el₁, hel₁, rfl⟩
      have hplace : ({ el₁ with reqIssued := true } : Element).place = el₁.place := rfl
      have howned₂ := howned₁.quiet (quiet_putElement hel₁ hplace)
      refine avoids_ite ?_ (avoids_ok _)
      exact (howned₂.avoids_setValueFromPrevious e).bind fun _ _ => avoids_ok _

/-! ## Answers -/

/-- Whoever is to be told waits for the answer. -/
theorem Linked.avoids_deliver {store : Bool} {settle : Element → Nat → Except Fault (Bool × Element)}
    (hsettle : SettlesBlocks settle) (havoids : ∀ el i, Avoids Fault.Inconsistent (settle el i))
    (hnodup : ws.Nodup) (h : m.Linked k (delivering p a access ws)) :
    Avoids Fault.Inconsistent (m.deliver a store settle ws) := by
  induction ws generalizing m with
  | nil => exact avoids_ok _
  | cons e ws ih =>
      rcases List.nodup_cons.1 hnodup with ⟨hnot, hnodup⟩
      rcases h.detach_ok hnot with ⟨el, i, hel, hdetach, h₁⟩
      refine Avoids.bind (avoids_of_ok ⟨_, hdetach⟩) fun x hdetach' => ?_
      rw [hdetach] at hdetach'
      cases hdetach'
      cases store with
      | true => exact ih hnodup h₁
      | false =>
          refine (avoids_element _ e).bind fun told hget => ?_
          refine (havoids told i).bind fun x hsettled => ?_
          have hadv := hsettle told i x.1 x.2 hsettled
          exact (ih hnodup (h₁.advances (element_eq_ok.1 hget) hadv)).bind fun _ _ => avoids_ok _

/-- An access in flight can be answered. -/
theorem Connected.avoids_answer (h : m.Connected k)
    {settle : Element → Nat → Except Fault (Bool × Element)} (hsettle : SettlesBlocks settle)
    (havoids : ∀ el i, Avoids Fault.Inconsistent (settle el i)) (hfind : m.accesses.find? a = some access) :
    Avoids Fault.Inconsistent (m.answer a settle) := by
  refine Avoids.bind (avoids_of_ok (exists_bind_ok (AccessPool.get_eq_ok.2 hfind) ⟨_, rfl⟩)) ?_
  rintro ⟨access', ws, pool⟩ hrespond
  rcases respond_eq_ok hrespond with ⟨access₀, hfind₀, rfl, rfl⟩
  exact (h.delivering hfind₀).avoids_deliver hsettle havoids
    (Receivers.nodup_drain (h.pool.receivers a access₀ hfind₀))

/-! ## Rewinding -/

theorem Connected.avoids_flush (h : m.Connected k) (e : ElementId) (aliased : Bool) :
    Avoids Fault.Inconsistent (m.flush e aliased) :=
  avoids_of_allocated fun _ hel => h.flush_ok hel aliased

end Manager
end StreamEngine
