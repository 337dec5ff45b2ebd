import StreamEngine.Proofs.Lifecycle.Numbering
import StreamEngine.Proofs.Lifecycle.Queueing

/-!
# The clock in steps

The clock commits what is due in the order in which it was scheduled. Taken in two steps it commits in
another order, the results of the first step before those of the second. Each result lands in an element of
its own, so the order of the commits makes no difference to what they leave.

- `commitAll_perm` : results for distinct elements can be committed in any order;
- `tick_eq_ok_iff` : the clock commits what is due, and then stands at its cycle;
- `Scheduled.tick_steps` : the clock in two steps comes to the same end as in one;
- `Manager.Ticked` : what the clock makes of a computation under way;
- `Manager.Scheduling` : the computations under way with the operations that began them;
- `run_tick_steps` : the clock in steps, after every run.
-/

namespace StreamEngine
namespace Manager

variable {m m' m₁ m₂ : Manager} {e e' : ElementId} {p q : PendingCompute} {op : Operation}
  {ops : List Operation} {o : Options} {now a b : Nat} {done first second : List ElementId}

/-! ## The order of commits -/

/-- Commits to two elements can be exchanged. -/
theorem commit_swap {v w : StreamValue} (hne : e ≠ e') (h : m.commit e v = .ok m₁)
    (h' : m₁.commit e' w = .ok m') : ∃ m₂, m.commit e' w = .ok m₂ ∧ m₂.commit e v = .ok m' := by
  rcases commit_eq_landing h with ⟨el, told, hel, hland, rfl⟩
  rcases commit_eq_landing h' with ⟨el', told', hel', hland', rfl⟩
  rw [element?_putElement_of_ne hel told hne.symm] at hel'
  have hlater : (m.putElement e' told').element? e = some el :=
    (element?_putElement_of_ne hel' told' hne).trans hel
  refine ⟨m.putElement e' told', (commit_iff hel').2 ⟨told', hland', rfl⟩, ?_⟩
  refine (commit_iff hlater).2 ⟨told, hland, ?_⟩
  have hkeys : e.val ≠ e'.val := fun hval => hne (congrArg ElementId.mk hval)
  simp only [putElement, Slab.replace, List.set_comm _ _ hkeys]

/-- Results for distinct elements can be committed in any order. -/
theorem commitAll_perm {due due' : List PendingCompute} (hperm : due.Perm due')
    (hnodup : (due.map PendingCompute.element).Nodup) (h : m.commitAll due = .ok m') :
    m.commitAll due' = .ok m' := by
  induction hperm generalizing m with
  | nil => exact h
  | cons p _ ih =>
      rw [commitAll, List.foldlM_cons] at h ⊢
      rcases bind_eq_ok.1 h with ⟨m₁, hfirst, hrest⟩
      exact bind_eq_ok.2 ⟨m₁, hfirst, ih (List.nodup_cons.1 hnodup).2 hrest⟩
  | swap p q due =>
      rw [commitAll, List.foldlM_cons] at h ⊢
      rcases bind_eq_ok.1 h with ⟨m₁, hfirst, h⟩
      rw [List.foldlM_cons] at h
      rcases bind_eq_ok.1 h with ⟨m₂, hsecond, hrest⟩
      have hne : q.element ≠ p.element := fun hsame =>
        (List.nodup_cons.1 hnodup).1 (hsame ▸ List.mem_cons_self)
      rcases commit_swap hne hfirst hsecond with ⟨m₃, hsecond, hfirst⟩
      refine bind_eq_ok.2 ⟨m₃, hsecond, ?_⟩
      rw [List.foldlM_cons]
      exact bind_eq_ok.2 ⟨m₂, hfirst, hrest⟩
  | trans hleft _ ih ih' => exact ih' ((hleft.map _).nodup_iff.1 hnodup) (ih hnodup h)

theorem commitAll_append {due due' : List PendingCompute} :
    m.commitAll (due ++ due') = .ok m' ↔ ∃ m₁, m.commitAll due = .ok m₁ ∧ m₁.commitAll due' = .ok m' := by
  rw [commitAll, List.foldlM_append]
  exact bind_eq_ok

/-! ## The clock and the commits -/

/-- The manager at another time, with another list of computations under way. -/
def setClock (m : Manager) (now : Nat) (pending : List PendingCompute) : Manager :=
  { m with now, pending }

/-- A commit does not look at the clock. -/
theorem commit_setClock {v : StreamValue} {pending : List PendingCompute} :
    (m.setClock now pending).commit e v = .ok m' ↔
      ∃ m₁, m.commit e v = .ok m₁ ∧ m' = m₁.setClock now pending := by
  constructor
  · intro h
    rcases commit_eq_landing h with ⟨el, told, hel, hland, rfl⟩
    have hel : m.element? e = some el := hel
    exact ⟨m.putElement e told, (commit_iff hel).2 ⟨told, hland, rfl⟩, rfl⟩
  · rintro ⟨m₁, h, rfl⟩
    rcases commit_eq_landing h with ⟨el, told, hel, hland, rfl⟩
    exact (commit_iff (m := m.setClock now pending) hel).2 ⟨told, hland, rfl⟩

theorem commitAll_setClock {pending due : List PendingCompute} :
    (m.setClock now pending).commitAll due = .ok m' ↔
      ∃ m₁, m.commitAll due = .ok m₁ ∧ m' = m₁.setClock now pending := by
  induction due generalizing m with
  | nil =>
      constructor
      · intro h
        cases h
        exact ⟨m, rfl, rfl⟩
      · rintro ⟨m₁, h, rfl⟩
        cases h
        rfl
  | cons p due ih =>
      rw [commitAll, commitAll, List.foldlM_cons, List.foldlM_cons]
      constructor
      · intro h
        rcases bind_eq_ok.1 h with ⟨m₁, hfirst, hrest⟩
        rcases commit_setClock.1 hfirst with ⟨m₂, hcommit, rfl⟩
        rcases ih.1 hrest with ⟨m₃, hall, rfl⟩
        exact ⟨m₃, bind_eq_ok.2 ⟨m₂, hcommit, hall⟩, rfl⟩
      · rintro ⟨m₂, h, rfl⟩
        rcases bind_eq_ok.1 h with ⟨m₁, hfirst, hrest⟩
        exact bind_eq_ok.2 ⟨_, commit_setClock.2 ⟨m₁, hfirst, rfl⟩, ih.2 ⟨m₂, hrest, rfl⟩⟩

/-- The clock commits what is due, and then stands at its cycle. -/
theorem tick_eq_ok_iff : m.tick now = .ok (done, m') ↔
    done = (m.pending.filter fun p => p.readyAt ≤ now).map PendingCompute.element ∧
      ∃ m₁, m.commitAll (m.pending.filter fun p => p.readyAt ≤ now) = .ok m₁ ∧
        m' = m₁.setClock now (m.pending.filter fun p => !decide (p.readyAt ≤ now)) := by
  have hlater : m.tick now = (m.setClock now (m.pending.filter fun p => !decide (p.readyAt ≤ now))).commitAll
      (m.pending.filter fun p => p.readyAt ≤ now) >>= fun m' =>
        .ok ((m.pending.filter fun p => p.readyAt ≤ now).map PendingCompute.element, m') := by
    rw [tick, List.partition_eq_filter_filter]
    rfl
  rw [hlater, bind_eq_ok]
  constructor
  · rintro ⟨m₂, hcommit, h⟩
    cases h
    exact ⟨rfl, commitAll_setClock.1 hcommit⟩
  · rintro ⟨rfl, hcommit⟩
    exact ⟨m', commitAll_setClock.2 hcommit, rfl⟩

/-! ## Two steps -/

/-- What is due by a cycle is due by an earlier one, or is due by then of what is left. -/
theorem due_perm (hab : a ≤ b) (l : List PendingCompute) :
    ((l.filter fun p => p.readyAt ≤ a) ++
      (l.filter fun p => !decide (p.readyAt ≤ a)).filter fun p => p.readyAt ≤ b).Perm
        (l.filter fun p => p.readyAt ≤ b) := by
  have hearly : (l.filter fun p => p.readyAt ≤ a) =
      (l.filter fun p => p.readyAt ≤ b).filter fun p => p.readyAt ≤ a := by
    rw [List.filter_filter]
    refine List.filter_congr fun p _ => ?_
    rw [← Bool.decide_and]
    exact decide_eq_decide.2 ⟨fun h => ⟨h, h.trans hab⟩, And.left⟩
  rw [hearly, List.filter_comm (fun p => decide (p.readyAt ≤ b)) _ l]
  exact List.filter_append_perm _ _

/-- What is left by a cycle is what is left by then of what an earlier one has left. -/
theorem left_twice (hab : a ≤ b) (l : List PendingCompute) :
    ((l.filter fun p => !decide (p.readyAt ≤ a)).filter fun p => !decide (p.readyAt ≤ b)) =
      l.filter fun p => !decide (p.readyAt ≤ b) := by
  rw [List.filter_filter]
  refine List.filter_congr fun p _ => ?_
  rw [← decide_not, ← decide_not, ← Bool.decide_and]
  exact decide_eq_decide.2 ⟨And.left, fun h => ⟨h, fun hle => h (hle.trans hab)⟩⟩

/-- The clock in two steps comes to the end to which it comes in one, if there is one. -/
theorem Scheduled.tick_steps (h : m.Scheduled) (hab : a ≤ b) :
    (∃ first m₁ second, m.tick a = .ok (first, m₁) ∧ m₁.tick b = .ok (second, m')) ↔
      ∃ done, m.tick b = .ok (done, m') := by
  have hperm := due_perm hab m.pending
  constructor
  · rintro ⟨first, m₁, second, hfirst, hsecond⟩
    rcases tick_eq_ok_iff.1 hfirst with ⟨_, m₂, hearly, rfl⟩
    rcases tick_eq_ok_iff.1 hsecond with ⟨_, m₃, hclock, rfl⟩
    rcases commitAll_setClock.1 hclock with ⟨m₄, hlate, rfl⟩
    have hboth := commitAll_append.2 ⟨m₂, hearly, hlate⟩
    have hnodup := (hperm.map PendingCompute.element).nodup_iff.2 (h.nodup_due b)
    refine ⟨_, tick_eq_ok_iff.2 ⟨rfl, m₄, commitAll_perm hperm hnodup hboth, ?_⟩⟩
    exact congrArg (m₄.setClock b) (left_twice hab m.pending)
  · rintro ⟨done, hdone⟩
    rcases tick_eq_ok_iff.1 hdone with ⟨_, m₄, hall, rfl⟩
    rcases commitAll_append.1 (commitAll_perm hperm.symm (h.nodup_due b) hall) with ⟨m₂, hearly, hlate⟩
    let waiting := m.pending.filter fun p => !decide (p.readyAt ≤ a)
    refine ⟨_, m₂.setClock a waiting, _, tick_eq_ok_iff.2 ⟨rfl, m₂, hearly, rfl⟩, tick_eq_ok_iff.2 ⟨rfl, ?_⟩⟩
    refine ⟨m₄.setClock a waiting, commitAll_setClock.2 ⟨m₄, hlate, rfl⟩, ?_⟩
    exact (congrArg (m₄.setClock b) (left_twice hab m.pending)).symm

/-! ## What the clock makes of a computation -/

/-- The clock has been moved to cycle `now`, which gave `done` and `m'`. The result of the computation is
committed to its element if it is due, and otherwise stays where it is. -/
structure Ticked (m : Manager) (now : Nat) (done : List ElementId) (m' : Manager) (p : PendingCompute) :
    Prop where
  due : p.readyAt ≤ now → p.element ∈ done ∧ p ∉ m'.pending ∧ ∃ el el', m.element? p.element = some el ∧
    m.landing el p.result = .ok el' ∧ m'.element? p.element = some el'
  early : now < p.readyAt → p.element ∉ done ∧ p ∈ m'.pending ∧
    m'.element? p.element = m.element? p.element

theorem Scheduled.ticked (h : m.Scheduled) (htick : m.tick now = .ok (done, m')) (hp : p ∈ m.pending) :
    m.Ticked now done m' p := by
  refine ⟨fun hdue => ⟨?_, ?_, h.landing_tick htick hp hdue⟩, fun hearly => ?_⟩
  · exact (mem_done_tick htick).2 ⟨p, hp, rfl, hdue⟩
  · rw [pending_tick htick, List.mem_filter, decide_eq_true_eq]
    exact fun hleft => hleft.2 hdue
  · have hnot : p.element ∉ done := by
      intro hdone
      rcases (mem_done_tick htick).1 hdone with ⟨q, hq, hsame, hdue⟩
      cases List.inj_on_of_nodup_map h.nodup hq hp hsame
      exact Nat.not_lt_of_le hdue hearly
    refine ⟨hnot, ?_, h.element?_tick_of_not_mem htick hnot⟩
    rw [pending_tick htick, List.mem_filter, decide_eq_true_eq]
    exact ⟨hp, Nat.not_le_of_lt hearly⟩

/-! ## The order of scheduling -/

/-- The list of computations under way, numbered by the operations that began them. -/
def Scheduling (o : Options) (ops : List Operation) (m : Manager) (timed : List (Nat × PendingCompute)) : Prop :=
  ({ options := o } : Manager).Numbered pending (fun op p => op = .compute p.element) ops m timed

theorem exists_scheduling (hrun : Manager.run { options := o } ops = .ok m) :
    ∃ timed, Scheduling o ops m timed :=
  exists_numbered rfl (fun _ _ _ _ _ happly => pending_apply happly) hrun

/-- What the clock gives, by number. -/
theorem Scheduling.done_eq {timed : List (Nat × PendingCompute)} (h : Scheduling o ops m timed)
    (htick : m.tick now = .ok (done, m')) :
    done = (timed.filter fun q => q.2.readyAt ≤ now).map fun q => q.2.element := by
  rw [done_tick htick, ← h.list, List.filter_map, List.map_map]
  rfl

/-- And what it gives in a second step. -/
theorem Scheduling.second_eq {timed : List (Nat × PendingCompute)} (h : Scheduling o ops m timed)
    (hfirst : m.tick a = .ok (first, m₁)) (hsecond : m₁.tick b = .ok (second, m₂)) :
    second = (timed.filter fun q => a < q.2.readyAt ∧ q.2.readyAt ≤ b).map fun q => q.2.element := by
  rw [done_tick hsecond, pending_tick hfirst, List.filter_filter, ← h.list, List.filter_map, List.map_map]
  refine congrArg _ (List.filter_congr fun q _ => ?_)
  rw [Function.comp_apply, ← Bool.decide_and]
  exact decide_eq_decide.2 ⟨fun hq => ⟨Nat.lt_of_not_le hq.2, hq.1⟩, fun hq => ⟨hq.2, Nat.not_le_of_lt hq.1⟩⟩

/-! ## Every run -/

/-- After every run the clock can be moved to a cycle in two steps exactly if it can be moved there in one, and
it leaves the same manager. The two steps give the elements that the one gives, each step in the order in
which the computations were begun. No step commits a result before its cycle, and none leaves one that has
reached it. -/
theorem run_tick_steps (hrun : Manager.run { options := o } ops = .ok m) (hab : a ≤ b) :
    (∀ m', (∃ first m₁ second, m.tick a = .ok (first, m₁) ∧ m₁.tick b = .ok (second, m')) ↔
      ∃ done, m.tick b = .ok (done, m')) ∧
    ∃ timed, Scheduling o ops m timed ∧ ∀ first m₁ second m₂ done m', m.tick a = .ok (first, m₁) →
      m₁.tick b = .ok (second, m₂) → m.tick b = .ok (done, m') →
      m₂ = m' ∧ (first ++ second).Perm done ∧
      (first = (timed.filter fun q => q.2.readyAt ≤ a).map fun q => q.2.element) ∧
      (second = (timed.filter fun q => a < q.2.readyAt ∧ q.2.readyAt ≤ b).map fun q => q.2.element) ∧
      (done = (timed.filter fun q => q.2.readyAt ≤ b).map fun q => q.2.element) ∧
      (∀ p ∈ m.pending, m.Ticked a first m₁ p ∧ m.Ticked b done m' p) ∧
      ∀ p ∈ m₁.pending, m₁.Ticked b second m₂ p := by
  have hscheduled := (scheduled_new o).run (owned_new o) hrun
  rcases exists_scheduling hrun with ⟨timed, htimed⟩
  refine ⟨fun m' => hscheduled.tick_steps hab, timed, htimed, ?_⟩
  intro first m₁ second m₂ done m' hfirst hsecond hdone
  refine ⟨?_, ?_, htimed.done_eq hfirst, htimed.second_eq hfirst hsecond, htimed.done_eq hdone, ?_, ?_⟩
  · rcases (hscheduled.tick_steps hab).1 ⟨first, m₁, second, hfirst, hsecond⟩ with ⟨done', hdone'⟩
    cases hdone.symm.trans hdone'
    rfl
  · have hperm := (due_perm hab m.pending).map PendingCompute.element
    rw [List.map_append, ← done_tick hfirst, ← done_tick hdone] at hperm
    rw [done_tick hsecond, pending_tick hfirst]
    simpa only [decide_not] using hperm
  · exact fun p hp => ⟨hscheduled.ticked hfirst hp, hscheduled.ticked hdone hp⟩
  · exact fun p hp => (hscheduled.tick hfirst).ticked hsecond hp

/-! ## A slow sum before a fast one -/

/-- Sums like `runningSum` that take nine cycles. -/
def slowSum : Declaration :=
  { staticId := 3, role := .reduction, elemSize := 8, formal := [.base 3, Param.word 3],
    generator := .computed { latency := 9, run := fun vs => vs.foldl StreamValue.add .zero },
    initialValue := .ofWord 5 }

/-- The computation of a slow sum begins, and then that of a fast one. -/
def sumsAtTwoSpeeds : List Operation :=
  let slow : StreamId := { core := 0, staticId := 3, instanceNo := 1 }
  let fast : StreamId := { core := 0, staticId := 2, instanceNo := 1 }
  [.configure slowSum, .configure runningSum, .allocate slow, .allocate slow, .allocate fast, .allocate fast] ++
    (List.range 4).flatMap fun i => [.markAddrReady { val := i }, .compute { val := i }]

/-- In two steps the fast sum is committed before the slow one, in one step after it. Both are 5 + 3. -/
theorem run_tick_steps_two_speeds :
    ∃ m m₁ m' fast slow, Manager.run { options := {} } sumsAtTwoSpeeds = .ok m ∧
      m.tick 3 = .ok ([{ val := 3 }], m₁) ∧ m₁.tick 20 = .ok ([{ val := 1 }], m') ∧
      m.tick 20 = .ok ([{ val := 1 }, { val := 3 }], m') ∧
      m₁.element? { val := 3 } = some fast ∧ fast.elementValue = .ok (.ofWord 8) ∧
      m'.element? { val := 1 } = some slow ∧ slow.elementValue = .ok (.ofWord 8) := by
  have hshape : (Manager.run { options := {} } sumsAtTwoSpeeds).toOption.bind (fun m =>
      (m.tick 3).toOption.bind fun first => (first.2.tick 20).toOption.bind fun second =>
        (m.tick 20).toOption.bind fun done => (first.2.element? { val := 3 }).bind fun fast =>
          (second.2.element? { val := 1 }).map fun slow => (first.1, second.1, done.1,
            decide (fast.elementValue = .ok (.ofWord 8) ∧ slow.elementValue = .ok (.ofWord 8)))) =
      some ([{ val := 3 }], [{ val := 1 }], [{ val := 1 }, { val := 3 }], true) := by
    decide +kernel
  rcases Option.bind_eq_some_iff.1 hshape with ⟨m, hrun, hshape⟩
  rcases Option.bind_eq_some_iff.1 hshape with ⟨⟨first, m₁⟩, hfirst, hshape⟩
  rcases Option.bind_eq_some_iff.1 hshape with ⟨⟨second, m₂⟩, hsecond, hshape⟩
  rcases Option.bind_eq_some_iff.1 hshape with ⟨⟨done, m'⟩, hdone, hshape⟩
  rcases Option.bind_eq_some_iff.1 hshape with ⟨fast, hfast, hshape⟩
  rcases Option.map_eq_some_iff.1 hshape with ⟨slow, hslow, hshape⟩
  simp only [Prod.mk.injEq, decide_eq_true_eq] at hshape
  rcases hshape with ⟨rfl, rfl, rfl, hvalues⟩
  have hfirst := toOption_eq_some hfirst
  have hsecond := toOption_eq_some hsecond
  have hdone := toOption_eq_some hdone
  rcases run_tick_steps (toOption_eq_some hrun) (by decide : 3 ≤ 20) with ⟨_, _, _, hall⟩
  cases (hall _ _ _ _ _ _ hfirst hsecond hdone).1
  exact ⟨m, m₁, m₂, fast, slow, toOption_eq_some hrun, hfirst, hsecond, hdone, hfast, hvalues.1, hslow,
    hvalues.2⟩

end Manager
end StreamEngine
