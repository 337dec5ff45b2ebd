import StreamEngine.Proofs.Lifecycle.Pristine
import StreamEngine.Proofs.Lifecycle.Reading

/-!
# Results of ready elements

An element that passes the checks of readiness can be computed, and what is computed for it lands, as long
as it has a place for it. Three kinds of elements have none. A load-compute element that floats takes its
result as its bytes, which memory has brought in already. An element without bytes takes no value at all. The
bytes of a store may not reach the end of memory, and a store must not have become value ready by a request
in the meantime.

- `Declaration.Receives` : the element has a place for a computed value;
- `exists_landing_iff`, `givesValue_landing` : a result lands exactly then, and it can be taken after that;
- `Declaration.takesTime`, `Orderly.compute_eq` : a ready element is committed at once, or scheduled;
- `exists_tick_iff` : the clock moves on exactly if all that is due lands;
- `run_computed` : ready elements, after every run;
- `float_result_faults` : a floated element that is ready, and whose result stops the clock.
-/

namespace StreamEngine

theorem StreamValue.length_toBytes (v : StreamValue) : v.toBytes.length = width := by
  rw [toBytes, List.length_flatMap]
  simp [wordBytes, width]

/-! ## Places for results -/

/-- The element, which belongs to a stream declared like this, has a place for a computed value. -/
structure Declaration.Receives (d : Declaration) (el : Element) : Prop where
  unfloated : d.role.isLoadCompute = true → d.isFloated el.idx = false
  sized : d.role.isLoadCompute = false → 0 < el.size
  bounded : d.role.isStore = true → el.addr.toNat + el.size < 2 ^ 64

/-- The value of the element is under way for a while before it is committed. -/
def Declaration.takesTime (d : Declaration) (idx : Nat) : Bool :=
  d.role.isCompute && !(d.role.isOneIterBehind && idx == 0) && d.terminal idx == .normal

theorem Role.isStore_of_isLoadCompute {r : Role} (h : r.isLoadCompute = true) : r.isStore = false := by
  cases r <;> first | rfl | cases h

/-- Roles in memory that compute are those with a kernel, and nothing else is in memory. -/
theorem Role.isMem_eq {r : Role} (hrole : r ≠ .load ∧ r ≠ .store) :
    r.isMem = (r.isLoadCompute || r.isStore) := by
  cases r with
  | load => exact absurd rfl hrole.1
  | store => exact absurd rfl hrole.2
  | induction | storeCompute _ | loadCompute _ | pointerChase | reduction => rfl

theorem Role.loads_eq {r : Role} (hrole : r ≠ .load ∧ r ≠ .store) : r.loads = r.isLoadCompute := by
  cases r with
  | load => exact absurd rfl hrole.1
  | store => exact absurd rfl hrole.2
  | induction | storeCompute _ | loadCompute _ | pointerChase | reduction => rfl

namespace Manager

variable {k : Nat} {m m' : Manager} {e : ElementId} {el el' : Element} {st : LiveStream}
  {v : StreamValue} {ops : List Operation}

theorem givesResult_eq (hst : m.stream? el.stream = some st) :
    m.givesResult el = (st.decl.role.isLoadCompute && !st.decl.isFloated el.idx) := by
  rw [givesResult, hst]

/-! ## Landing -/

theorem length_taken (hsize : el.size ≤ StreamValue.width) : (v.toBytes.take el.size).length = el.size := by
  rw [List.length_take, v.length_toBytes, Nat.min_eq_left hsize]

/-- A value becomes the bytes of an element that has some and is not value ready. -/
theorem exists_commitBytes_iff {loads : Bool} (hregular : el.Regular loads) (haddr : el.addrReady = true)
    (hsize : el.size ≤ StreamValue.width) : (∃ el', commitBytes el v = .ok el') ↔
      0 < el.size ∧ (el.isMem = true → el.addr.toNat + el.size < 2 ^ 64) ∧ el.valueReady = false := by
  have hset : (∃ el', commitBytes el v = .ok el') ↔
      ∃ became el', el.setValue el.addr (v.toBytes.take el.size) = .ok (became, el') := by
    rw [commitBytes, if_neg (Nat.not_lt.2 hsize)]
    constructor
    · rintro ⟨el', h⟩
      rcases bind_eq_ok.1 h with ⟨⟨became, el₁⟩, hset, _⟩
      exact ⟨became, el₁, hset⟩
    · rintro ⟨became, el', hset⟩
      exact exists_bind_ok hset ⟨_, rfl⟩
  exact hset.trans (Element.exists_setValue_iff hregular.laid hregular.tight (hregular.covered haddr)
    (fun hready => (hregular.settled hready).2) (length_taken hsize))

/-- A first result lands if the element has a place for it. -/
theorem exists_landing_iff (hregular : el.Regular st.decl.role.loads) (hst : m.stream? el.stream = some st)
    (hrole : st.decl.role ≠ .load ∧ st.decl.role ≠ .store) (hmem : el.isMem = st.decl.role.isMem)
    (haddr : el.addrReady = true) (hsize : el.size ≤ StreamValue.width) (hresult : el.result = none)
    (hready : st.decl.role.isLoadCompute = true → el.valueReady = true) :
    (∃ el', m.landing el v = .ok el') ↔
      st.decl.Receives el ∧ (st.decl.role.isLoadCompute = false → el.valueReady = false) := by
  have hbytes := exists_commitBytes_iff (v := v) hregular.idle haddr hsize
  rw [landing, givesResult_eq hst]
  cases hloads : st.decl.role.isLoadCompute with
  | true =>
      have hstore := Role.isStore_of_isLoadCompute hloads
      cases hfloated : st.decl.isFloated el.idx with
      | false =>
          refine iff_of_true ⟨{ el with computeScheduled := false, result := some v }, ?_⟩
            ⟨⟨fun _ => hfloated, ?_, ?_⟩, fun hcontra => by cases hcontra⟩
          · simp only [Bool.not_false, Bool.and_self, if_true, commitResult, hresult]
            rfl
          · rw [hloads]
            exact fun hcontra => by cases hcontra
          · rw [hstore]
            exact fun hcontra => by cases hcontra
      | true =>
          -- the bytes are there already
          refine iff_of_false ?_ fun hreceives => ?_
          · intro hland
            exact Bool.false_ne_true ((hbytes.1 hland).2.2.symm.trans (hready hloads))
          · exact Bool.false_ne_true ((hreceives.1.unfloated hloads).symm.trans hfloated)
  | false =>
      have hstore : el.isMem = st.decl.role.isStore := by
        rw [hmem, Role.isMem_eq hrole, hloads, Bool.false_or]
      refine hbytes.trans ⟨?_, ?_⟩
      · rintro ⟨hpos, hend, hnot⟩
        refine ⟨⟨?_, fun _ => hpos, fun hs => hend (hstore.trans hs)⟩, fun _ => hnot⟩
        rw [hloads]
        exact fun hcontra => by cases hcontra
      · rintro ⟨hreceives, hnot⟩
        exact ⟨hreceives.sized hloads, fun hs => hreceives.bounded (hstore.symm.trans hs), hnot rfl⟩

/-- What has landed can be taken, unless it ends in the last line of memory. -/
theorem givesValue_landing (hregular : el.Regular st.decl.role.loads) (htidy : el.Tidy k)
    (hrole : st.decl.role ≠ .load ∧ st.decl.role ≠ .store)
    (hmem : el.isMem = st.decl.role.isMem) (hsize : el.size ≤ StreamValue.width)
    (hready : st.decl.role.isLoadCompute = true → el.valueReady = true)
    (hend : st.decl.role.isStore = true → el.addr.toNat + el.size + el.lineSize ≤ 2 ^ 64)
    (hland : m.landing el v = .ok el') : m.givesValue el' = true := by
  rcases landing_eq_ok hland with ⟨hgives, _, rfl⟩ | ⟨hgives, became, hset⟩
  · exact if_pos hgives
  · have hadv := Element.advances_setValue hset
    have hsame : m.givesResult el' = m.givesResult el := by rw [hadv.shape]; rfl
    rw [givesValue, hsame, if_neg (Bool.eq_false_iff.1 hgives)]
    cases hloads : st.decl.role.isLoadCompute with
    | true => exact hadv.ready (hready hloads)
    | false =>
        have hstore : el.isMem = st.decl.role.isStore := by
          rw [hmem, Role.isMem_eq hrole, hloads, Bool.false_or]
        have hpos : 0 < el.lineSize := htidy.size_eq ▸ Nat.two_pow_pos k
        refine Element.valueReady_setValue_own hregular.idle.laid hregular.idle.tight hpos
          (length_taken hsize) ?_ hset
        exact fun hinside => hend (hstore.symm.trans hinside)

/-! ## Computing -/

/-- What a computation does with an element whose address is ready and that is not busy. -/
theorem compute_eq (hel : m.element? e = some el) (hst : m.stream? el.stream = some st)
    (haddr : el.addrReady = true) (hidle : el.computeScheduled = false) :
    m.compute e =
      if st.decl.role.isOneIterBehind && el.idx == 0 then m.commit e st.decl.initialValue
      else
        match st.decl.terminal el.idx with
        | .finalValue =>
          match st.finals.find? el.idx with
          | some v => m.commit e v
          | none => el.fault .finalNotReady
        | .neverReady => el.fault .neverComputed
        | .normal => m.computeNormal e el st.decl := by
  rw [compute, element_eq_ok.2 hel]
  change (m.stream el.stream >>= _) = _
  rw [stream_eq_ok.2 hst]
  change (if (!el.addrReady) = true then _ else if el.computeScheduled = true then _ else _) = _
  rw [haddr, hidle]
  rfl

/-- An element in memory that computes takes its time. -/
theorem takesTime_of_isMem {d : Declaration} (hrole : d.role ≠ .load ∧ d.role ≠ .store)
    (hmem : d.role.isMem = true) (idx : Nat) : d.takesTime idx = true := by
  have hkernel : d.role.isCompute = true ∧ d.role.isOneIterBehind = false := by
    cases hcase : d.role with
    | load => exact absurd hcase hrole.1
    | store => exact absurd hcase hrole.2
    | storeCompute _ | loadCompute _ => exact ⟨rfl, rfl⟩
    | induction | pointerChase | reduction =>
        rw [hcase] at hmem
        cases hmem
  have hnormal : d.terminal idx = .normal := by
    rw [Declaration.terminal, hkernel.2]
    rfl
  rw [Declaration.takesTime, hkernel.1, hkernel.2, hnormal]
  rfl

/-- A ready element is committed at once, or its result is scheduled. -/
theorem Orderly.compute_ready (h : m.Orderly k)
    (hsizes : ∀ s st, m.stream? s = some st → st.decl.elemSize ≤ StreamValue.width)
    (hel : m.element? e = some el) (hst : m.stream? el.stream = some st)
    (hrole : st.decl.role ≠ .load ∧ st.decl.role ≠ .store) (hformal : st.decl.WellFormed)
    (haddr : el.addrReady = true) (hidle : el.computeScheduled = false)
    (haddrBases : m.addrBaseReady e = .ok true) (hvalueBases : m.valueBaseReady e = .ok true) :
    st.decl.takesTime el.idx = false ∧ (∃ v, m.compute e = m.commit e v) ∨
      st.decl.takesTime el.idx = true ∧ ∃ v cycles, m.compute e = m.schedule e v cycles := by
  rw [compute_eq hel hst haddr hidle]
  by_cases hinitial : (st.decl.role.isOneIterBehind && el.idx == 0) = true
  · refine Or.inl ⟨?_, _, if_pos hinitial⟩
    rw [Declaration.takesTime, hinitial, Bool.not_true, Bool.and_false, Bool.false_and]
  have hlater : st.decl.role.isOneIterBehind = true → 0 < el.idx := by
    intro hbehind
    rw [hbehind, Bool.true_and, beq_iff_eq] at hinitial
    exact Nat.pos_of_ne_zero hinitial
  rw [if_neg hinitial]
  rcases valueBaseReady_eq_true hel hst hvalueBases with ⟨hfinal, v, hv⟩ | ⟨hnormal, _⟩
  · rw [hfinal, hv]
    refine Or.inl ⟨?_, v, rfl⟩
    rw [Declaration.takesTime, hfinal]
    exact Bool.and_false _
  rcases h.exists_evaluate hsizes hel hst hrole hformal hlater haddrBases hvalueBases hnormal with
    ⟨r, hr⟩
  have htime : st.decl.takesTime el.idx = st.decl.role.isCompute := by
    rw [Declaration.takesTime, hnormal, Bool.eq_false_iff.2 hinitial, Bool.not_false, Bool.and_true]
    exact Bool.and_true _
  have hcompute : m.computeNormal e el st.decl =
      if st.decl.role.isCompute then m.schedule e r.value (delay m.options st.decl r.latency)
      else m.commit e r.value := by
    rw [computeNormal, hr]
    rfl
  rw [hnormal, htime]
  cases hlong : st.decl.role.isCompute with
  | true => exact Or.inr ⟨rfl, _, _, hcompute.trans (if_pos hlong)⟩
  | false => exact Or.inl ⟨rfl, _, hcompute.trans (if_neg (Bool.eq_false_iff.1 hlong))⟩

theorem exists_schedule (hel : m.element? e = some el) (v : StreamValue) (cycles : Nat) :
    m.schedule e v cycles = .ok { m.putElement e { el with computeScheduled := true } with
      pending := m.pending ++ [{ element := e, result := v, readyAt := m.now + cycles }] } := by
  rw [schedule, modifyElement, element_eq_ok.2 hel]
  rfl

/-! ## The clock -/

/-- The clock moves on exactly if all that is due lands. -/
theorem Scheduled.exists_tick_iff (h : m.Scheduled) {now : Nat} :
    (∃ r, m.tick now = .ok r) ↔ ∀ p ∈ m.pending, p.readyAt ≤ now → m.Lands p := by
  rw [Manager.tick, List.partition_eq_filter_filter]
  let later : Manager :=
    { m with now, pending := m.pending.filter (not ∘ fun p => decide (p.readyAt ≤ now)) }
  have hall : (∃ m', later.commitAll (m.pending.filter fun p => p.readyAt ≤ now) = .ok m') ↔
      ∀ p ∈ m.pending, p.readyAt ≤ now → m.Lands p := by
    rw [commitAll_iff (h.nodup_due now)]
    constructor
    · exact fun hdue p hp hready => hdue p (List.mem_filter.2 ⟨hp, decide_eq_true hready⟩)
    · intro hdue p hp
      rcases List.mem_filter.1 hp with ⟨hp, hready⟩
      exact hdue p hp (of_decide_eq_true hready)
  rw [← hall]
  constructor
  · rintro ⟨r, hr⟩
    rcases bind_eq_ok.1 hr with ⟨m', hcommit, _⟩
    exact ⟨m', hcommit⟩
  · rintro ⟨m', hcommit⟩
    exact exists_bind_ok hcommit ⟨_, rfl⟩

theorem isResultReady_of_givesValue (hel : m.element? e = some el) (h : m.givesValue el = true) :
    m.isResultReady e = .ok true := by
  rw [isResultReady, element_eq_ok.2 hel]
  exact congrArg Except.ok h

theorem givesValue_congr (hstream : ∀ s, m'.stream? s = m.stream? s) (el : Element) :
    m'.givesValue el = m.givesValue el := by
  rw [givesValue, givesValue, givesResult, givesResult, hstream]

/-- The result of a ready element lands if the element still has a place for it, and can be taken then. -/
theorem Orderly.tick_underway (h : m.Orderly k) {d : Declaration} (hunderway : m.Underway e el d)
    (hrole : d.role ≠ .load ∧ d.role ≠ .store) (hsize : el.size ≤ StreamValue.width)
    {p : PendingCompute} (hp : p ∈ m.pending) (he : p.element = e) {now : Nat} (hnow : p.readyAt ≤ now) :
    (m.Lands p ↔ d.Receives el ∧ (d.role.isStore = true → m.isValueReady e = .ok false)) ∧
      ∀ done m', m.tick now = .ok (done, m') →
        (d.role.isStore = true → el.addr.toNat + el.size + el.lineSize ≤ 2 ^ 64) →
          m'.isResultReady e = .ok true := by
  have hread := (h.scheduled.read_iff e).2 (he ▸ List.mem_map_of_mem hp)
  rcases Option.map_eq_some_iff.1 hread with ⟨el₂, hel₂, hbusy⟩
  rcases hunderway el₂ hel₂ hbusy with ⟨horigin, haddr, hpristine, st, hst, rfl⟩
  -- origin and address are what they were when the computation began, hence the room is the same
  have hstream : el₂.stream = el.stream := congrArg Origin.stream horigin
  have hidx : el₂.idx = el.idx := congrArg Origin.idx horigin
  have hsize₂ : el₂.size = el.size := congrArg Origin.size horigin
  have hline : el₂.lineSize = el.lineSize := congrArg Origin.lineSize horigin
  have hst₂ : m.stream? el₂.stream = some st := hstream ▸ hst
  have hregular := h.regular e el₂ st hel₂ hst₂
  have hmem : el₂.isMem = st.decl.role.isMem := (h.declared.fits e el₂ st hel₂ hst₂).isMem_eq
  have hloaded : st.decl.role.isLoadCompute = true → el₂.valueReady = true := fun hloads =>
    (hregular.busy hbusy).2 ((Role.loads_eq hrole).trans hloads)
  have hfits : el₂.size ≤ StreamValue.width := hsize₂ ▸ hsize
  have hvalue : m.isValueReady e = .ok el₂.valueReady := by
    rw [isValueReady, element_eq_ok.2 hel₂]
    rfl
  constructor
  · have hlands : m.Lands p ↔ ∃ el', m.landing el₂ p.result = .ok el' := by
      rw [Lands, he, hel₂]
      simp only [Option.some.injEq, exists_and_left, exists_eq_left']
    have hreceives : st.decl.Receives el₂ ↔ st.decl.Receives el := by
      constructor
      · rintro ⟨hfloat, hpos, hend⟩
        rw [hidx] at hfloat
        rw [hsize₂] at hpos hend
        rw [haddr] at hend
        exact ⟨hfloat, hpos, hend⟩
      · rintro ⟨hfloat, hpos, hend⟩
        rw [← hidx] at hfloat
        rw [← hsize₂] at hpos hend
        rw [← haddr] at hend
        exact ⟨hfloat, hpos, hend⟩
    rw [hlands, exists_landing_iff hregular hst₂ hrole hmem (hregular.busy hbusy).1 hfits hpristine.result
      hloaded, hreceives, hvalue, Except.ok.injEq]
    refine and_congr_right fun _ => ⟨?_, ?_⟩
    -- no role loads and stores at once, and with neither a pristine element is unready anyway
    · intro hnot hstore
      refine hnot (Bool.eq_false_iff.2 fun hloads => ?_)
      exact Bool.false_ne_true ((Role.isStore_of_isLoadCompute hloads).symm.trans hstore)
    · intro hnot hloads
      cases hstore : st.decl.role.isStore with
      | true => exact hnot hstore
      | false =>
          refine hpristine.unready (Or.inl ?_)
          rw [hmem, Role.isMem_eq hrole, hloads, hstore]
          rfl
  · intro done m' htick hend
    rcases h.scheduled.element?_tick htick hel₂ with ⟨hnone, _⟩ | ⟨q, _, _, _, el', hland, hel'⟩
    · exact absurd hnow (hnone p hp he)
    · refine isResultReady_of_givesValue hel' ?_
      rw [givesValue_congr (fun s => (quiet_tick htick).stream?_eq s)]
      refine givesValue_landing hregular (h.connected.linked.tidy e el₂ hel₂) hrole hmem hfits hloaded ?_ hland
      rw [haddr, hsize₂, hline]
      exact hend

/-! ## Ready elements -/

/-- An element outside memory that was not computed takes a value at once, unless it is empty. -/
theorem Orderly.commit_ready (h : m.Orderly k) (hel : m.element? e = some el)
    (hst : m.stream? el.stream = some st) (hrole : st.decl.role ≠ .load ∧ st.decl.role ≠ .store)
    (houtside : st.decl.role.isMem = false) (haddr : el.addrReady = true)
    (hsize : el.size ≤ StreamValue.width) (hpristine : el.Pristine st.decl.role.isStore) :
    ((∃ m₁, m.commit e v = .ok m₁) ↔ 0 < el.size) ∧
      ∀ m₁, m.commit e v = .ok m₁ → m₁.isResultReady e = .ok true := by
  have hmem : el.isMem = st.decl.role.isMem := (h.declared.fits e el st hel hst).isMem_eq
  have hregular := h.regular e el st hel hst
  have hkernels := (Role.isMem_eq hrole).symm.trans houtside
  rw [Bool.or_eq_false_iff] at hkernels
  rcases hkernels with ⟨hloads, hstore⟩
  have hloaded : st.decl.role.isLoadCompute = true → el.valueReady = true := fun hcontra =>
    absurd (hloads.symm.trans hcontra) Bool.false_ne_true
  have hland := exists_landing_iff (v := v) hregular hst hrole hmem haddr hsize hpristine.result hloaded
  refine ⟨⟨?_, ?_⟩, ?_⟩
  · rintro ⟨m₁, hcommit⟩
    rcases (commit_iff hel).1 hcommit with ⟨el', hlands, _⟩
    exact (hland.1 ⟨el', hlands⟩).1.sized hloads
  · intro hpos
    have hreceives : st.decl.Receives el :=
      ⟨fun hcontra => absurd (hloads.symm.trans hcontra) Bool.false_ne_true, fun _ => hpos,
        fun hcontra => absurd (hstore.symm.trans hcontra) Bool.false_ne_true⟩
    have hready := hpristine.unready (Or.inl (hmem.trans houtside))
    rcases hland.2 ⟨hreceives, fun _ => hready⟩ with ⟨el', hlands⟩
    exact ⟨_, (commit_iff hel).2 ⟨el', hlands, rfl⟩⟩
  · intro m₁ hcommit
    rcases (commit_iff hel).1 hcommit with ⟨el', hlands, rfl⟩
    have hkept : (m.putElement e el').givesValue el' = m.givesValue el' :=
      givesValue_congr (fun _ => rfl) el'
    refine isResultReady_of_givesValue (element?_putElement_self hel el') (hkept.trans ?_)
    refine givesValue_landing hregular (h.connected.linked.tidy e el hel) hrole hmem hsize hloaded ?_ hlands
    exact fun hcontra => absurd (hstore.symm.trans hcontra) Bool.false_ne_true

/-- When an element that was not computed is scheduled, its computation is the one under way. -/
theorem Orderly.underway_schedule (h : m.Orderly k) (hk : k < 64) {cycles : Nat}
    (hel : m.element? e = some el) (hst : m.stream? el.stream = some st)
    (hpristine : el.Pristine st.decl.role.isStore) (hstep : m.compute e = .ok m')
    (hschedule : m.schedule e v cycles = .ok m') : m'.Orderly k ∧ m'.Underway e el st.decl := by
  have happly : m.apply (.compute e) = .ok m' := hstep
  refine ⟨h.apply hk happly, ?_⟩
  rcases schedule_eq_ok hschedule with ⟨el₁, hel₁, rfl⟩
  cases (hel.symm.trans hel₁)
  intro el' hel' _
  cases ((element?_putElement_self hel { el with computeScheduled := true }).symm.trans hel')
  exact ⟨rfl, rfl, ⟨hpristine.result, hpristine.unready⟩, st, hst, rfl⟩

/-- After a run that writes to no element, take an element that was not computed since its last flush and
passes both checks of readiness. If its value takes no time, it can be computed unless it is empty, and is
ready then. If it takes time, it can be computed, and the clock that reaches the result moves on exactly if
everything else that is due lands, the element has a place for a computed value, and a store has not become
value ready by a request in the meantime. Unless it ends in the last line of memory, the result can be taken
then. -/
theorem run_computed (hk : k < 64) {o : Options} (hline : o.lineSize = 2 ^ k)
    (hrun : Manager.run { options := o } ops = .ok m) (hwrites : WritesNothing ops)
    (huncomputed : Uncomputed { options := o } ops e)
    (hsizes : ∀ s st, m.stream? s = some st → st.decl.elemSize ≤ StreamValue.width)
    (hel : m.element? e = some el) (hst : m.stream? el.stream = some st)
    (hrole : st.decl.role ≠ .load ∧ st.decl.role ≠ .store) (hformal : st.decl.WellFormed)
    (haddr : el.addrReady = true) (haddrBases : m.addrBaseReady e = .ok true)
    (hvalueBases : m.valueBaseReady e = .ok true) :
    (st.decl.takesTime el.idx = false →
      ((∃ m₁, m.compute e = .ok m₁) ↔ 0 < el.size) ∧
        ∀ m₁, m.compute e = .ok m₁ → m₁.isResultReady e = .ok true) ∧
    (st.decl.takesTime el.idx = true → ∃ m₁ p, m.compute e = .ok m₁ ∧
      m₁.pending = m.pending ++ [p] ∧ p.element = e ∧
      ∀ rest m₂ now, m₁.run rest = .ok m₂ → WritesNothing rest → .compute e ∉ rest →
        p ∈ m₂.pending → p.readyAt ≤ now →
        ((∃ r, m₂.tick now = .ok r) ↔
          (∀ q ∈ m₂.pending, q ≠ p → q.readyAt ≤ now → m₂.Lands q) ∧ st.decl.Receives el ∧
            (st.decl.role.isStore = true → m₂.isValueReady e = .ok false)) ∧
        ∀ done m₃, m₂.tick now = .ok (done, m₃) →
          (st.decl.role.isStore = true → el.addr.toNat + el.size + el.lineSize ≤ 2 ^ 64) →
            m₃.isResultReady e = .ok true) := by
  have horderly := orderly_run hk hline hrun
  rcases (orderly_new hline).blank_of_uncomputed hk hwrites huncomputed hrun el st hel hst with
    ⟨hidle, hpristine⟩
  have hsize : el.size ≤ StreamValue.width := by
    rw [show el.size = st.decl.elemSize from (horderly.declared.fits e el st hel hst).size_eq]
    exact hsizes _ st hst
  rcases horderly.compute_ready hsizes hel hst hrole hformal haddr hidle haddrBases hvalueBases with
    ⟨htime, v, hcompute⟩ | ⟨htime, v, cycles, hcompute⟩
  · refine ⟨fun _ => ?_, fun hcontra => absurd (htime.symm.trans hcontra) Bool.false_ne_true⟩
    have houtside : st.decl.role.isMem = false := by
      refine Bool.eq_false_iff.2 fun hcontra => ?_
      exact Bool.false_ne_true (htime.symm.trans (takesTime_of_isMem hrole hcontra el.idx))
    rw [hcompute]
    exact horderly.commit_ready hel hst hrole houtside haddr hsize hpristine
  · refine ⟨fun hcontra => absurd (hcontra.symm.trans htime) Bool.false_ne_true, fun _ => ?_⟩
    have hschedule := exists_schedule hel v cycles
    have hstep := hcompute.trans hschedule
    rcases horderly.underway_schedule hk hel hst hpristine hstep hschedule with ⟨h₁, hunderway⟩
    refine ⟨_, _, hstep, rfl, rfl, ?_⟩
    intro rest m₂ now hrest hwrites₂ hcompute₂ hp hnow
    -- the element stays under way for as long as the result is pending
    have h₂ := h₁.run hk hrest
    have hunderway₂ := h₁.underway_run hk hunderway hrest hwrites₂ hcompute₂
    rcases h₂.tick_underway hunderway₂ hrole hsize hp rfl hnow with ⟨hlands, hafter⟩
    refine ⟨?_, hafter⟩
    rw [h₂.scheduled.exists_tick_iff, ← hlands]
    constructor
    · exact fun hall => ⟨fun q hq _ hdue => hall q hq hdue, hall _ hp hnow⟩
    · rintro ⟨hothers, hself⟩ q hq hdue
      by_cases hsame : q = { element := e, result := v, readyAt := m.now + cycles }
      · exact hsame ▸ hself
      · exact hothers q hq hsame hdue

/-! ## Words that are computed from themselves -/

/-- Words that are loaded and then doubled, wherever they float to. -/
def doubledWords (changes : List (Nat × Machine)) : Declaration :=
  { staticId := 1, elemSize := 8, formal := Formal.ofWords [8, 0x1000], kernelFormal := [.base 1],
    role := .loadCompute { run := fun vs => vs.foldl (fun sum v => (sum.add v).add v) .zero },
    floatPlan := { changes } }

/-- The first word has come. -/
def doubledRun (changes : List (Nat × Machine)) : List Operation :=
  [.configure (doubledWords changes), .allocate { core := 0, staticId := 1, instanceNo := 1 },
    .markAddrReady { val := 0 }, .issue { val := 0 }, .respond { val := 0 } (List.replicate 64 7)]

/-- On the core, the doubled word is there once its time has come. -/
theorem run_computed_doubled :
    ∃ m m₁ done m₂, Manager.run { options := {} } (doubledRun []) = .ok m ∧
      m.compute { val := 0 } = .ok m₁ ∧ m₁.tick 5 = .ok (done, m₂) ∧
      m₂.isResultReady { val := 0 } = .ok true := by
  -- all that the general theorem asks for is read off one evaluation of the run
  have hshape : (Manager.run { options := {} } (doubledRun [])).toOption.bind (fun m =>
      (m.element? { val := 0 }).bind fun el => (m.stream? el.stream).map fun st =>
        m.streams.entries.all (fun entry => entry.2.decl.elemSize ≤ StreamValue.width) &&
          (st.decl.role.isLoadCompute && st.decl.takesTime el.idx && !st.decl.isFloated el.idx) &&
          (decide (2 ≤ st.decl.formal.length) && decide (st.decl.valueFormal.bases = [st.decl.staticId])) &&
          (el.addrReady && decide (m.addrBaseReady { val := 0 } = .ok true) &&
            decide (m.valueBaseReady { val := 0 } = .ok true)) &&
          (m.pending.isEmpty && (m.compute { val := 0 }).toOption.any fun m₁ =>
            m₁.pending.all fun p => p.readyAt ≤ 5)) =
      some true := by
    decide +kernel
  rcases Option.bind_eq_some_iff.1 hshape with ⟨m, hrun, hshape⟩
  rcases Option.bind_eq_some_iff.1 hshape with ⟨el, hel, hshape⟩
  rcases Option.map_eq_some_iff.1 hshape with ⟨st, hst, hshape⟩
  simp only [Bool.and_eq_true, Bool.not_eq_true', decide_eq_true_eq, List.all_eq_true,
    List.isEmpty_iff] at hshape
  rcases hshape with ⟨⟨⟨⟨hentries, ⟨hrole, htime⟩, hfloat⟩, hwords, hnames⟩, ⟨haddr, haddrBases⟩,
    hvalueBases⟩, hidle, hsoon⟩
  have hstore := Role.isStore_of_isLoadCompute hrole
  have hroles : st.decl.role ≠ .load ∧ st.decl.role ≠ .store := by
    constructor
    all_goals
      intro hcontra
      rw [hcontra] at hrole
      cases hrole
  have hsizes : ∀ s st, m.stream? s = some st → st.decl.elemSize ≤ StreamValue.width := by
    intro s st hs
    rcases Option.map_eq_some_iff.1 hs with ⟨entry, hentry, rfl⟩
    exact hentries entry (List.mem_of_find?_eq_some hentry)
  have hformal : st.decl.WellFormed := by
    refine ⟨fun _ => hwords, ?_⟩
    intro id hid
    rw [hnames, List.mem_singleton] at hid
    exact Or.inr ⟨Or.inr hrole, hid⟩
  have hwrites : WritesNothing (doubledRun []) := by simp [WritesNothing, doubledRun]
  have huncomputed : Uncomputed { options := {} } (doubledRun []) { val := 0 } :=
    ⟨[], doubledRun [], _, rfl, rfl, Or.inl rfl, by simp [doubledRun]⟩
  rcases (run_computed (by decide : 6 < 64) (o := {}) rfl (toOption_eq_some hrun) hwrites huncomputed hsizes
    hel hst hroles hformal haddr haddrBases hvalueBases).2 htime with ⟨m₁, p, hcompute, hpending, he, hlater⟩
  rw [hidle, List.nil_append] at hpending
  rw [hcompute] at hsoon
  have hp : p ∈ m₁.pending := hpending ▸ List.mem_singleton_self p
  have hdue : p.readyAt ≤ 5 := of_decide_eq_true (List.all_eq_true.1 hsoon p hp)
  rcases hlater [] m₁ 5 rfl (fun _ _ _ => List.not_mem_nil) List.not_mem_nil hp hdue with ⟨htick, hready⟩
  have hreceives : st.decl.Receives el := by
    refine ⟨fun _ => hfloat, fun hcontra => ?_, fun hcontra => ?_⟩
    · exact absurd (hcontra.symm.trans hrole) Bool.false_ne_true
    · exact absurd (hstore.symm.trans hcontra) Bool.false_ne_true
  have hothers : ∀ q ∈ m₁.pending, q ≠ p → q.readyAt ≤ 5 → m₁.Lands q := by
    intro q hq hne
    rw [hpending, List.mem_singleton] at hq
    exact absurd hq hne
  have hnever : st.decl.role.isStore = true → False := fun hcontra =>
    Bool.false_ne_true (hstore.symm.trans hcontra)
  rcases htick.2 ⟨hothers, hreceives, fun hcontra => (hnever hcontra).elim⟩ with ⟨⟨done, m₂⟩, hm₂⟩
  exact ⟨m, m₁, done, m₂, toOption_eq_some hrun, hcompute, hm₂,
    hready done m₂ hm₂ fun hcontra => (hnever hcontra).elim⟩

/-- Floated, it is ready as well, but its result stops the clock. -/
theorem float_result_faults :
    ∃ m m₁ el, Manager.run { options := {} } (doubledRun [(0, .l2)]) = .ok m ∧
      m.element? { val := 0 } = some el ∧ el.addrReady = true ∧ el.computeScheduled = false ∧
      m.addrBaseReady { val := 0 } = .ok true ∧ m.valueBaseReady { val := 0 } = .ok true ∧
      m.compute { val := 0 } = .ok m₁ ∧ ∀ r, m₁.tick 5 ≠ .ok r := by
  have hshape : (Manager.run { options := {} } (doubledRun [(0, .l2)])).toOption.bind (fun m =>
      (m.element? { val := 0 }).bind fun el => (m.compute { val := 0 }).toOption.map fun m₁ =>
        ((el.addrReady, el.computeScheduled), decide (m.addrBaseReady { val := 0 } = .ok true),
          decide (m.valueBaseReady { val := 0 } = .ok true), (m₁.tick 5).toOption.isNone)) =
      some ((true, false), true, true, true) := by
    decide +kernel
  rcases Option.bind_eq_some_iff.1 hshape with ⟨m, hrun, hshape⟩
  rcases Option.bind_eq_some_iff.1 hshape with ⟨el, hel, hshape⟩
  rcases Option.map_eq_some_iff.1 hshape with ⟨m₁, hcompute, hshape⟩
  simp only [Prod.mk.injEq, decide_eq_true_eq] at hshape
  rcases hshape with ⟨⟨haddr, hidle⟩, haddrBases, hvalueBases, hstopped⟩
  refine ⟨m, m₁, el, toOption_eq_some hrun, hel, haddr, hidle, haddrBases, hvalueBases,
    toOption_eq_some hcompute, ?_⟩
  intro r hr
  rw [hr] at hstopped
  cases hstopped

end Manager
end StreamEngine
