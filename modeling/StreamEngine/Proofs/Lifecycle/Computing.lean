import StreamEngine.Proofs.Lifecycle.Soundness

/-!
# Results

What a computation gives goes beside the bytes of a load-compute element, and becomes the bytes of any
other element that is not a load. A load-compute element that floats would be written over with its
result, but it computes only once it is value ready, and then it cannot be written any more.

- `Sound.commit`, `Sound.commitAll` : results;
- `Coherent.compute`, `Coherent.tick`, `Coherent.setFinalValue`.
-/

namespace StreamEngine

namespace Manager

variable {k : Nat} {M : UInt64 → List UInt8} {failed : List FailedLine} {serves : Service}
  {m m' : Manager} {e : ElementId} {el : Element} {st : LiveStream} {s : StreamId}

/-! ## Committing -/

/-- Every element is still there, for its stream, and value ready if it was. -/
def Continues (m m' : Manager) : Prop :=
  m'.streams = m.streams ∧ ∀ e el, m.element? e = some el → ∃ el', m'.element? e = some el' ∧
    el'.stream = el.stream ∧ (el.valueReady = true → el'.valueReady = true)

theorem continues_putElement (hel : m.element? e = some el) {el' : Element}
    (hstream : el'.stream = el.stream) (hready : el.valueReady = true → el'.valueReady = true) :
    m.Continues (m.putElement e el') := by
  refine ⟨rfl, ?_⟩
  intro e₀ el₀ hel₀
  by_cases he : e₀ = e
  · rw [he, hel] at hel₀
    cases hel₀
    exact ⟨el', he ▸ element?_putElement_self hel el', hstream, hready⟩
  · exact ⟨el₀, (element?_putElement_of_ne hel el' he).trans hel₀, rfl, id⟩

/-- A result is committed to any element, but to a load only if it is value ready. -/
theorem Sound.commit (h : m.Sound k M failed serves) (hrest : m.Resting)
    (hready : ∀ el, m.element? e = some el → m.Loads el → el.valueReady = true) {v : StreamValue}
    (hcommit : m.commit e v = .ok m') :
    m'.Sound k M failed serves ∧ m'.Resting ∧ m'.accesses = m.accesses ∧ m.Continues m' := by
  rcases commit_eq_landing hcommit with ⟨el, el', hel, hland, rfl⟩
  have hsound := h.element e el hel
  rcases landing_eq_ok hland with ⟨_, _, rfl⟩ | ⟨_, became, hset⟩
  · -- the result goes beside the bytes
    refine ⟨?_, hrest.putElement hel (hrest e el hel), rfl, continues_putElement hel rfl id⟩
    exact h.putElement hel rfl (hsound.setOthers _ _ _ false _) fun _ _ => id
  · have hidle := hsound.setOthers el.next el.reqIssued el.stepped false el.result
    have hadv := Element.advances_setValue hset
    have hstream : el'.stream = el.stream := by rw [hadv.shape]
    refine ⟨?_, hrest.advances hel hadv rfl, rfl, continues_putElement hel hstream hadv.ready⟩
    refine h.putElement hel hstream (hidle.advances hadv ?_) fun _ _ => hadv.ready
    -- a load that is value ready cannot be written
    intro r hr hloads
    have hvalue := hready el hel ⟨r, hr, hloads⟩
    have hsettled := ((hsound.load r hr hloads).settled hvalue).2
    exact absurd hset (Element.setValue_ne_ok hvalue hsettled)

theorem Sound.commitAll {due : List PendingCompute} (h : m.Sound k M failed serves)
    (hrest : m.Resting)
    (hdue : ∀ p ∈ due, ∃ el, m.element? p.element = some el ∧ (m.Loads el → el.valueReady = true))
    (hcommit : m.commitAll due = .ok m') :
    m'.Sound k M failed serves ∧ m'.Resting ∧ m'.accesses = m.accesses := by
  let kept : List PendingCompute → Manager → Prop := fun due m₁ =>
    m₁.Sound k M failed serves ∧ m₁.Resting ∧ m₁.accesses = m.accesses ∧
      ∀ p ∈ due, ∃ el, m₁.element? p.element = some el ∧ (m₁.Loads el → el.valueReady = true)
  have hstep : ∀ p due m₁ m₂, kept (p :: due) m₁ → m₁.commit p.element p.result = .ok m₂ →
      kept due m₂ := by
    rintro p due m₁ m₂ ⟨h₁, hrest₁, haccesses, hdue₁⟩ hp
    have hready : ∀ el, m₁.element? p.element = some el → m₁.Loads el → el.valueReady = true := by
      intro el hel
      rcases hdue₁ p (List.mem_cons_self ..) with ⟨el₀, hel₀, hready₀⟩
      rw [hel] at hel₀
      cases hel₀
      exact hready₀
    rcases h₁.commit hrest₁ hready hp with ⟨h₂, hrest₂, haccesses₂, hstreams, hcontinues⟩
    refine ⟨h₂, hrest₂, haccesses₂.trans haccesses, ?_⟩
    -- the elements of the results that are left are still there
    intro q hq
    rcases hdue₁ q (List.mem_cons_of_mem _ hq) with ⟨el₀, hel₀, hready₀⟩
    rcases hcontinues q.element el₀ hel₀ with ⟨el₁, hel₁, hstream, hmono⟩
    refine ⟨el₁, hel₁, ?_⟩
    rintro ⟨r, hr, hloads⟩
    rw [hstream, role?, stream?, hstreams] at hr
    exact hmono (hready₀ ⟨r, hr, hloads⟩)
  rcases foldlM_keeps kept hstep ⟨h, hrest, rfl, hdue⟩ hcommit with ⟨hend, hrest', haccesses, _⟩
  exact ⟨hend, hrest', haccesses⟩

theorem Coherent.tick (h : m.Coherent k M failed) {now : Nat} {done : List ElementId}
    (htick : m.tick now = .ok (done, m')) : m'.Coherent k M failed := by
  have hpending := h.sound.pending
  let waiting := m.pending.filter (not ∘ fun p => decide (p.readyAt ≤ now))
  have hstart : ({ m with now, pending := waiting } : Manager).Sound k M failed
      m.accesses.Serves :=
    (h.sound.setOthers m.graph m.latest now).setPending fun p hp =>
      hpending p (List.mem_filter.1 hp).1
  rcases hstart.commitAll (fun e el hel => h.resting e el hel)
    (fun p hp => hpending p (List.mem_filter.1 hp).1) (tick_eq_ok htick) with ⟨hend, hrest, haccesses⟩
  refine ⟨?_, hrest⟩
  rw [haccesses]
  exact hend

/-! ## Computing -/

/-- An element that is one of its own bases can run a kernel only once its own bytes are there. -/
theorem valueReady_of_runKernel (hel : m.element? e = some el) (hst : m.stream? el.stream = some st)
    (hloads : st.decl.role.loads = true) (hself : ∃ b ∈ el.valueBases, b.element = e)
    {kernel : Kernel} {d : Declaration} {r : Evaluation} (hrun : m.runKernel e el d kernel = .ok r) :
    el.valueReady = true := by
  rcases bind_eq_ok.1 hrun with ⟨basesReady, hbases, hrun⟩
  cases basesReady with
  | false => cases hrun
  | true =>
      rcases bind_eq_ok.1 hbases with ⟨el', hget, hbases⟩
      rw [element_eq_ok, hel] at hget
      cases hget
      rcases bind_eq_ok.1 hbases with ⟨st', hget, hbases⟩
      rw [stream_eq_ok, hst] at hget
      cases hget
      rw [Declaration.terminal_of_loads hloads] at hbases
      by_cases hzero : st.decl.isZeroTripLast el.idx = true
      · simp only [if_pos hzero] at hbases
        cases hbases
      · simp only [if_neg hzero] at hbases
        rcases hself with ⟨b, hb, hself⟩
        rcases bind_eq_ok.1 (allM_eq_true hbases b hb) with ⟨base, hbase, hready⟩
        rw [baseElement, hself, hel] at hbase
        by_cases hmatches : b.matches el = true
        · simp only [if_pos hmatches] at hbase
          cases hbase
          rw [if_pos hself] at hready
          exact Except.ok.inj hready
        · simp only [if_neg hmatches] at hbase
          cases hbase

/-- A load never computes, and a load-compute element only once its own bytes are there. -/
theorem valueReady_of_evaluate (hel : m.element? e = some el) (hst : m.stream? el.stream = some st)
    (hloads : st.decl.role.loads = true)
    (hself : ∀ kernel, st.decl.role = .loadCompute kernel → ∃ b ∈ el.valueBases, b.element = e)
    {r : Evaluation} (heval : m.evaluate e el st.decl = .ok r) :
    el.valueReady = true ∧ st.decl.role.isCompute = true := by
  rw [evaluate] at heval
  cases hcase : st.decl.role with
  | load =>
      simp only [hcase] at heval
      cases heval
  | loadCompute kernel =>
      simp only [hcase] at heval
      exact ⟨valueReady_of_runKernel hel hst hloads (hself kernel hcase) heval, rfl⟩
  | store | induction | storeCompute kernel | pointerChase | reduction =>
      rw [hcase] at hloads
      cases hloads

theorem Coherent.commit (h : m.Coherent k M failed)
    (hready : ∀ el, m.element? e = some el → m.Loads el → el.valueReady = true) {v : StreamValue}
    (hcommit : m.commit e v = .ok m') : m'.Coherent k M failed := by
  rcases h.sound.commit h.resting hready hcommit with ⟨hsound, hrest, haccesses, _⟩
  refine ⟨?_, hrest⟩
  rw [haccesses]
  exact hsound

theorem Coherent.schedule (h : m.Coherent k M failed) (hel : m.element? e = some el)
    (hready : m.Loads el → el.valueReady = true) {v : StreamValue} {cycles : Nat}
    (hschedule : m.schedule e v cycles = .ok m') : m'.Coherent k M failed := by
  rcases schedule_eq_ok hschedule with ⟨el₀, hel₀, rfl⟩
  rw [hel] at hel₀
  cases hel₀
  let busy : Element := { el with computeScheduled := true }
  have hput : (m.putElement e busy).Sound k M failed m.accesses.Serves := by
    refine h.sound.putElement hel rfl ?_ fun _ _ => id
    exact (h.sound.element e el hel).setOthers el.next el.reqIssued el.stepped true el.result
  refine ⟨hput.setPending ?_, h.resting.putElement hel (h.resting e el hel)⟩
  intro p hp
  rcases List.mem_append.1 hp with hp | hp
  · exact hput.pending p hp
  · rw [List.mem_singleton.1 hp]
    exact ⟨_, element?_putElement_self hel _, hready⟩

theorem loads_of_stream (hst : m.stream? el.stream = some st) (hloads : m.Loads el) :
    st.decl.role.loads = true := by
  rcases hloads with ⟨r, hr, hloads⟩
  rw [role?, hst] at hr
  cases hr
  exact hloads

theorem Coherent.computeNormal (h : m.Coherent k M failed) (hel : m.element? e = some el)
    (hst : m.stream? el.stream = some st) (hcompute : m.computeNormal e el st.decl = .ok m') :
    m'.Coherent k M failed := by
  rcases bind_eq_ok.1 hcompute with ⟨r, heval, hcompute⟩
  -- a load that gets this far is value ready
  have hself : ∀ kernel, st.decl.role = .loadCompute kernel → ∃ b ∈ el.valueBases, b.element = e := by
    intro kernel hrole
    refine (h.sound.element e el hel).self kernel ?_
    rw [role?, hst, Option.map_some, hrole]
  have hready := fun hloads : m.Loads el =>
    valueReady_of_evaluate hel hst (loads_of_stream hst hloads) hself heval
  by_cases hlong : st.decl.role.isCompute = true
  · simp only [if_pos hlong] at hcompute
    exact h.schedule hel (fun hloads => (hready hloads).1) hcompute
  · simp only [if_neg hlong] at hcompute
    refine h.commit ?_ hcompute
    intro el' hel' hloads
    rw [hel] at hel'
    cases hel'
    exact absurd (hready hloads).2 hlong

theorem Coherent.compute (h : m.Coherent k M failed) (hcompute : m.compute e = .ok m') :
    m'.Coherent k M failed := by
  rcases compute_eq_ok hcompute with ⟨el, st, hel, hst, _, _, ⟨hidle, v, hcommit⟩ | hnormal⟩
  · refine h.commit ?_ hcommit
    intro el' hel' hloads
    rw [hel] at hel'
    cases hel'
    rw [loads_of_stream hst hloads] at hidle
    cases hidle
  · exact h.computeNormal hel hst hnormal

theorem Coherent.setFinalValue (h : m.Coherent k M failed) {idx : Nat} {w : UInt64}
    {r : Except EngineError Unit} (hset : m.setFinalValue s idx w = .ok (r, m')) :
    m'.Coherent k M failed := by
  rcases setFinalValue_eq_ok hset with rfl | ⟨st, hst, _, rfl⟩
  · exact h
  have hreg := h.sound.registered
  exact ⟨h.sound.putStream hst rfl (hreg.nodup s st hst) (hreg.chained s st hst),
    fun e el hel => h.resting e el hel⟩

end Manager
end StreamEngine
