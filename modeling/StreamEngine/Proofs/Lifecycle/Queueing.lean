import StreamEngine.Proofs.Lifecycle.Bindings
import StreamEngine.Proofs.Lifecycle.Evolution

/-!
# Where the computations under way come from

A computation is put on the list under the key of its element, and keys are used again. It leaves the list
when its result is committed, and also when its element is rewound or released, so whatever is on the list
was put there for the element that the key holds now.

- `pending_apply` : an operation adds one computation to the list, or only takes some off it;
- `Manager.Queues` : the operation that puts a computation on the list;
- `Manager.Awaits` : a computation that is under way all through a run;
- `awaits_or_queues` : what is under way after a run was so all the time, or was begun on the way;
- `run_pending` : list, elements and clock, after every run.
-/

namespace StreamEngine
namespace Manager

variable {m m' : Manager} {e : ElementId} {s : StreamId} {p : PendingCompute} {op : Operation}
  {ops : List Operation}

/-! ## What an operation does to the list -/

theorem pending_releaseFront (h : m.releaseFront s = .ok m') : m'.pending.Sublist m.pending := by
  rcases releaseFront_eq_ok h with ⟨st, e, rest, el, pool, freed, graph, _, _, _, _, _, rfl⟩
  exact List.filter_sublist

theorem pending_allocate {r : Except EngineError ElementId} (h : m.allocate s = .ok (r, m')) :
    m'.pending = m.pending := by
  rcases allocate_eq_ok h with ⟨_, rfl⟩ | ⟨st, el, e, m₁, graph, _, _, _, _, _, hlink, _, rfl⟩
  · rfl
  · rcases linkLast_cases hlink with rfl | ⟨last, el', _, _, rfl⟩
    · rfl
    · rfl

theorem pending_commit {v : StreamValue} (h : m.commit e v = .ok m') : m'.pending = m.pending :=
  (read_commit h).1

/-- A computation that takes time is added behind the others. -/
theorem pending_compute (h : m.compute e = .ok m') :
    m'.pending = m.pending ∨ ∃ p, p.element = e ∧ m'.pending = m.pending ++ [p] := by
  rcases compute_cases h with ⟨v, hcommit⟩ | ⟨v, cycles, hschedule⟩
  · exact Or.inl (pending_commit hcommit)
  · rcases schedule_eq_ok hschedule with ⟨el, _, rfl⟩
    exact Or.inr ⟨_, rfl, rfl⟩

/-- What is due is taken off the list before it is committed. -/
theorem pending_tick {now : Nat} {done : List ElementId} (h : m.tick now = .ok (done, m')) :
    m'.pending = m.pending.filter fun p => decide (¬ p.readyAt ≤ now) := by
  have hkept := foldlM_keeps
    (fun _ m₁ => m₁.pending = m.pending.filter (not ∘ fun p => decide (p.readyAt ≤ now)))
    (fun _ _ _ _ hsame hcommit => (pending_commit hcommit).trans hsame) rfl (tick_eq_ok h)
  rw [hkept]
  refine List.filter_congr fun p _ => ?_
  exact decide_not.symm

/-- Rewinding an element takes its computation off the list. -/
theorem pending_flush {aliased : Bool} (h : m.flush e aliased = .ok m') :
    m'.pending = m.pending.filter fun p => p.element ≠ e := by
  rcases flush_eq_ok h with ⟨el, pool, _, _, rfl⟩
  rfl

theorem pending_apply (happly : m.apply op = .ok m') :
    m'.pending.Sublist m.pending ∨ ∃ p, op = .compute p.element ∧ m'.pending = m.pending ++ [p] := by
  have hkept : m'.pending = m.pending → m'.pending.Sublist m.pending ∨
      ∃ p, op = .compute p.element ∧ m'.pending = m.pending ++ [p] :=
    fun hsame => Or.inl (hsame ▸ List.Sublist.refl _)
  cases op with
  | configure d =>
      rcases map_snd_eq_ok happly with ⟨id, hop⟩
      rcases configure_eq_ok hop with ⟨_, config, graph, graph', bases, _, _, rfl⟩
      exact hkept rfl
  | allocate s =>
      rcases map_snd_eq_ok happly with ⟨r, hop⟩
      exact hkept (pending_allocate hop)
  | markAddrReady e =>
      rcases map_snd_eq_ok happly with ⟨r, hop⟩
      exact hkept (alike_computeScheduled_markAddrReady hop).pending_eq
  | issue _ | respond _ _ | respondFault _ | setValue _ _ _ | setValueFromPrevious _ =>
      exact hkept (by rw [(exchanges_apply happly trivial).shape])
  | compute e =>
      rcases pending_compute happly with hsame | ⟨p, rfl, hadded⟩
      · exact hkept hsame
      · exact Or.inr ⟨p, rfl, hadded⟩
  | tick now =>
      rcases map_snd_eq_ok happly with ⟨done, hop⟩
      exact Or.inl (pending_tick hop ▸ List.filter_sublist)
  | setFinalValue s idx w =>
      rcases map_snd_eq_ok happly with ⟨r, hop⟩
      rcases setFinalValue_eq_ok hop with rfl | ⟨st, _, _, rfl⟩
      · exact hkept rfl
      · exact hkept rfl
  | step s =>
      rcases map_snd_eq_ok happly with ⟨r, hop⟩
      exact hkept (alike_computeScheduled_step hop).pending_eq
  | flush e aliased => exact Or.inl (pending_flush happly ▸ List.filter_sublist)
  | release _ | releaseStepped _ | endStream _ =>
      have hleft : m'.pending.Sublist m.pending :=
        keeps_of_isRelease (I := fun m₁ => m₁.pending.Sublist m.pending)
          (fun _ _ _ hleft hfront => (pending_releaseFront hfront).trans hleft) (fun _ _ _ => id)
          (List.Sublist.refl _) happly trivial
      exact Or.inl hleft

/-! ## Runs -/

/-- After the operations `before`, the computation is put on the list, which leaves `queued`. -/
def Queues (m : Manager) (before : List Operation) (p : PendingCompute) (queued : Manager) : Prop :=
  ∃ found, m.run before = .ok found ∧ found.compute p.element = .ok queued ∧
    queued.pending = found.pending ++ [p]

/-- The computation is under way wherever the operations have got to. -/
def Awaits (m : Manager) (ops : List Operation) (p : PendingCompute) : Prop :=
  ∀ i m', m.run (ops.take i) = .ok m' → p ∈ m'.pending

theorem awaits_nil (hp : p ∈ m.pending) : m.Awaits [] p := by
  intro i m' hrun
  rw [List.take_nil] at hrun
  cases hrun
  exact hp

theorem Awaits.cons (hp : p ∈ m.pending) (happly : m.apply op = .ok m') (h : m'.Awaits ops p) :
    m.Awaits (op :: ops) p := by
  intro i m₁ hrun
  cases i with
  | zero =>
      cases hrun
      exact hp
  | succ i =>
      rw [List.take_succ_cons, run_cons_of_apply happly] at hrun
      exact h i m₁ hrun

/-- What is under way after a run was so all the time, or was begun on the way. -/
theorem awaits_or_queues (hrun : m.run ops = .ok m') (hp : p ∈ m'.pending) :
    p ∈ m.pending ∧ m.Awaits ops p ∨
      ∃ before after queued, ops = before ++ .compute p.element :: after ∧ m.Queues before p queued ∧
        queued.run after = .ok m' ∧ queued.Awaits after p := by
  induction ops generalizing m with
  | nil =>
      cases hrun
      exact Or.inl ⟨hp, awaits_nil hp⟩
  | cons op ops ih =>
      rcases run_cons hrun with ⟨m₁, happly, hrest⟩
      rcases ih hrest with
        ⟨hp₁, hawaits⟩ | ⟨before, after, queued, rfl, ⟨found, hfound, hqueued⟩, hlater⟩
      · -- it was under way after the first operation, so it was before or is of that operation
        rcases pending_apply happly with hleft | ⟨q, rfl, hadded⟩
        · exact Or.inl ⟨hleft.subset hp₁, hawaits.cons (hleft.subset hp₁) happly⟩
        · rw [hadded, List.mem_append, List.mem_singleton] at hp₁
          rcases hp₁ with hp | rfl
          · exact Or.inl ⟨hp, hawaits.cons hp happly⟩
          · exact Or.inr ⟨[], ops, m₁, rfl, ⟨m, rfl, happly, hadded⟩, hrest, hawaits⟩
      · refine Or.inr ⟨op :: before, after, queued, rfl, ⟨found, ?_, hqueued⟩, hlater⟩
        rw [run_cons_of_apply happly]
        exact hfound

/-- What is under way all through a run is not rewound in it. -/
theorem Awaits.not_flush (h : m.Awaits ops p) (hrun : m.run ops = .ok m') (aliased : Bool) :
    .flush p.element aliased ∉ ops := by
  intro hmem
  rcases List.append_of_mem hmem with ⟨before, after, rfl⟩
  rcases run_append_eq_ok.1 hrun with ⟨found, hfound, hrest⟩
  rcases run_cons hrest with ⟨next, hflush, _⟩
  have hnext : m.run ((before ++ .flush p.element aliased :: after).take (before.length + 1)) = .ok next := by
    rw [List.take_length_add_append, List.take_succ_cons, List.take_zero]
    refine run_append_eq_ok.2 ⟨found, hfound, ?_⟩
    rw [run_cons_of_apply hflush]
    rfl
  -- the flush has just taken it off the list
  have hp := h _ next hnext
  rw [pending_flush hflush, List.mem_filter] at hp
  exact of_decide_eq_true hp.2 rfl

theorem Scheduled.run (h : m.Scheduled) (howned : m.Owned) (hrun : m.run ops = .ok m') : m'.Scheduled :=
  (howned.run_keeps (P := Scheduled) (fun _ _ _ howned h => h.apply howned) h hrun).2

theorem Scheduled.mem_computing_iff (h : m.Scheduled) :
    e ∈ m.computing ↔ ∃ el, m.element? e = some el ∧ el.computeScheduled = true := by
  rw [← h.read_iff, read, Option.map_eq_some_iff]

/-- The key of a computation that is under way all through a run holds one element all the time. -/
theorem Awaits.retains (h : m.Awaits ops p) (hscheduled : m.Scheduled) (howned : m.Owned) :
    m.Retains ops p.element := by
  intro i m' hrun
  have hmem : p.element ∈ m'.computing := List.mem_map_of_mem (h i m' hrun)
  rcases (hscheduled.run howned hrun).mem_computing_iff.1 hmem with ⟨el, hel, _⟩
  exact ⟨el, hel⟩

/-! ## The clock -/

theorem done_tick {now : Nat} {done : List ElementId} (h : m.tick now = .ok (done, m')) :
    done = (m.pending.filter fun p => p.readyAt ≤ now).map PendingCompute.element := by
  rw [tick, List.partition_eq_filter_filter] at h
  rcases bind_eq_ok.1 h with ⟨m₁, _, h⟩
  cases h
  rfl

theorem mem_done_tick {now : Nat} {done : List ElementId} (h : m.tick now = .ok (done, m')) :
    e ∈ done ↔ ∃ p ∈ m.pending, p.element = e ∧ p.readyAt ≤ now := by
  rw [done_tick h, List.mem_map]
  constructor
  · rintro ⟨p, hp, rfl⟩
    rcases List.mem_filter.1 hp with ⟨hp, hdue⟩
    exact ⟨p, hp, rfl, of_decide_eq_true hdue⟩
  · rintro ⟨p, hp, rfl, hdue⟩
    exact ⟨p, List.mem_filter.2 ⟨hp, decide_eq_true hdue⟩, rfl⟩

/-- A result that is due lands in the element of its key. -/
theorem Scheduled.landing_tick (h : m.Scheduled) {now : Nat} {done : List ElementId}
    (htick : m.tick now = .ok (done, m')) (hp : p ∈ m.pending) (hdue : p.readyAt ≤ now) :
    ∃ el el', m.element? p.element = some el ∧ m.landing el p.result = .ok el' ∧
      m'.element? p.element = some el' := by
  rcases h.mem_computing_iff.1 (List.mem_map_of_mem hp) with ⟨el, hel, _⟩
  rcases h.element?_tick htick hel with ⟨hnone, _⟩ | ⟨q, hq, hsame, _, el', hland, hel'⟩
  · exact absurd hdue (hnone p hp rfl)
  · -- a key is on the list once
    cases List.inj_on_of_nodup_map h.nodup hq hp hsame
    exact ⟨el, el', hel, hland, hel'⟩

/-- Elements without a result that is due are left alone, and so are free keys. -/
theorem Scheduled.element?_tick_of_not_mem (h : m.Scheduled) {now : Nat} {done : List ElementId}
    (htick : m.tick now = .ok (done, m')) (he : e ∉ done) : m'.element? e = m.element? e := by
  cases hel : m.element? e with
  | none =>
      have hplace := (quiet_tick htick).place_eq e
      rw [place?, place?, hel, Option.map_none, Option.map_eq_none_iff] at hplace
      exact hplace
  | some el =>
      rcases h.element?_tick htick hel with ⟨_, hsame⟩ | ⟨p, hp, hself, hdue, _⟩
      · exact hsame
      · exact absurd ((mem_done_tick htick).2 ⟨p, hp, hself, hdue⟩) he

/-! ## Every run -/

/-- After every run, the keys on the list of computations are distinct and are those of the elements that
say that a computation of theirs is under way. Each computation was put on the list for the element that the
key still holds, which has not been rewound since. The clock commits exactly the results that are due, each
to its element and to no other, and takes them off the list. -/
theorem run_pending {o : Options} (hrun : Manager.run { options := o } ops = .ok m) :
    m.computing.Nodup ∧
    (∀ e, e ∈ m.computing ↔ ∃ el, m.element? e = some el ∧ el.computeScheduled = true) ∧
    (∀ p ∈ m.pending, ∃ before after queued el₀ el, ops = before ++ .compute p.element :: after ∧
      ({ options := o } : Manager).Queues before p queued ∧ queued.run after = .ok m ∧
      queued.Awaits after p ∧ queued.Retains after p.element ∧
      queued.element? p.element = some el₀ ∧ m.element? p.element = some el ∧ el.label = el₀.label ∧
      ∀ aliased, .flush p.element aliased ∉ after) ∧
    ∀ now done m', m.tick now = .ok (done, m') →
      done = (m.pending.filter fun p => p.readyAt ≤ now).map PendingCompute.element ∧ done.Nodup ∧
      m'.pending = (m.pending.filter fun p => decide (¬ p.readyAt ≤ now)) ∧
      (∀ p ∈ m.pending, p.readyAt ≤ now → ∃ el el', m.element? p.element = some el ∧
        m.landing el p.result = .ok el' ∧ m'.element? p.element = some el') ∧
      ∀ e, e ∉ done → m'.element? e = m.element? e := by
  have hscheduled := (scheduled_new o).run (owned_new o) hrun
  refine ⟨hscheduled.nodup, fun e => hscheduled.mem_computing_iff, ?_, ?_⟩
  · intro p hp
    rcases awaits_or_queues hrun hp with ⟨hnone, _⟩ | ⟨before, after, queued, hops, hqueues, hafter, hawaits⟩
    · exact absurd hnone List.not_mem_nil
    have hbegun : queued.Owned ∧ queued.Scheduled := by
      rcases hqueues with ⟨found, hfound, hcompute, _⟩
      have howned := (owned_new o).run hfound
      have happly : found.apply (.compute p.element) = .ok queued := hcompute
      exact ⟨howned.apply happly, ((scheduled_new o).run (owned_new o) hfound).apply howned happly⟩
    have hretains := hawaits.retains hbegun.2 hbegun.1
    rcases hretains.first with ⟨el₀, hel₀⟩
    rcases hretains.last hafter with ⟨el, hel⟩
    have horigin := hretains.origin_eq hbegun.1 hafter hel₀ hel
    refine ⟨before, after, queued, el₀, el, hops, hqueues, hafter, hawaits, hretains, hel₀, hel, ?_,
      hawaits.not_flush hafter⟩
    exact congrArg (fun o : Origin => ({ stream := o.stream, index := o.idx } : ElementLabel)) horigin
  · intro now done m' htick
    refine ⟨done_tick htick, done_tick htick ▸ hscheduled.nodup_due now, pending_tick htick, ?_, ?_⟩
    · exact fun p hp hdue => hscheduled.landing_tick htick hp hdue
    · exact fun e he => hscheduled.element?_tick_of_not_mem htick he

/-! ## A key used again -/

/-- Sums of what came before, from 5 on. -/
def runningSum : Declaration :=
  { staticId := 2, role := .reduction, elemSize := 8, formal := [.base 2, Param.word 3],
    generator := .computed { run := fun vs => vs.foldl StreamValue.add .zero }, initialValue := .ofWord 5 }

/-- Two words are released, the computation of a sum begins under the key of the first of them, and the
initial value stands under that of the second. -/
def recycledSums : List Operation :=
  let words : StreamId := { core := 0, staticId := 1, instanceNo := 1 }
  let sums : StreamId := { core := 0, staticId := 2, instanceNo := 1 }
  [.configure loadedWords, .configure runningSum, .allocate words, .allocate words, .step words, .step words,
    .releaseStepped words, .allocate sums, .allocate sums, .markAddrReady { val := 1 },
    .compute { val := 1 }, .markAddrReady { val := 0 }, .compute { val := 0 }]

/-- The sum was begun for the element that the key holds now, and the clock commits it to that element. -/
theorem run_pending_recycled :
    ∃ m p, Manager.run { options := {} } recycledSums = .ok m ∧ m.pending = [p] ∧ p.element = { val := 0 } ∧
      (∃ before after queued, recycledSums = before ++ .compute { val := 0 } :: after ∧
        ({ options := {} } : Manager).Queues before p queued ∧ queued.run after = .ok m ∧
        queued.Retains after { val := 0 }) ∧
      ∃ done m' el', m.tick 3 = .ok (done, m') ∧ done = [{ val := 0 }] ∧ m'.pending = [] ∧
        m'.element? { val := 0 } = some el' ∧ el'.elementValue = .ok (.ofWord 8) := by
  have hshape : (Manager.run { options := {} } recycledSums).toOption.bind (fun m =>
      (m.tick 3).toOption.bind fun r => (r.2.element? { val := 0 }).map fun el =>
        (m.pending.map PendingCompute.element, m.pending.all fun p => p.readyAt ≤ 3,
          decide (el.elementValue = .ok (.ofWord 8)))) =
      some ([{ val := 0 }], true, true) := by
    decide +kernel
  rcases Option.bind_eq_some_iff.1 hshape with ⟨m, hrun, hshape⟩
  rcases Option.bind_eq_some_iff.1 hshape with ⟨⟨done, m'⟩, htick, hshape⟩
  rcases Option.map_eq_some_iff.1 hshape with ⟨el', hel', hshape⟩
  simp only [Prod.mk.injEq, decide_eq_true_eq] at hshape
  rcases hshape with ⟨hkeys, hsoon, hvalue⟩
  rcases List.map_eq_singleton_iff.1 hkeys with ⟨p, hpending, he⟩
  rcases run_pending (toOption_eq_some hrun) with ⟨_, _, hqueued, hclock⟩
  rcases hqueued p (hpending ▸ List.mem_singleton_self p) with
    ⟨before, after, queued, _, _, hops, hqueues, hafter, _, hretains, _⟩
  rcases hclock 3 done m' (toOption_eq_some htick) with ⟨hdone, _, hleft, _⟩
  have hdue : p.readyAt ≤ 3 := by simpa [hpending] using hsoon
  rw [he] at hops hretains
  refine ⟨m, p, toOption_eq_some hrun, hpending, he, ⟨before, after, queued, hops, hqueues, hafter, hretains⟩,
    done, m', el', toOption_eq_some htick, ?_, ?_, hel', hvalue⟩
  · rw [hdone, hpending, List.filter_singleton, decide_eq_true hdue, cond_true, List.map_singleton, he]
  · rw [hleft, hpending, List.filter_singleton, decide_eq_false (not_not.2 hdue), cond_false]

end Manager
end StreamEngine
