import StreamEngine.Proofs.Lifecycle.Operations
import StreamEngine.Proofs.Lifecycle.Registry

/-!
# What operations do

An operation that gives a result has passed its checks, and what it leaves behind is a few changes of
tables. Every operation is opened here once. What managers keep is derived from these lemmas.

- `configure_eq_ok`, `allocate_cases` : a new stream, and a new element at the end of its chain;
- `markAddrReady_eq_ok`, `setValue_eq_ok`, `setValueFromPrevious_eq_ok` : addresses and values;
- `attach_cases`, `issueBlock_cases`, `issue_eq_ok` : a registration, a plan that is carried out, and a
  request from its checks to its copies;
- `keeps_of_issueBlocks` : what every plan keeps;
- `deliver_cons_eq_ok`, `answer_eq_ok` : an answer, told to one element after another;
- `commit_iff`, `compute_eq_ok`, `tick_eq_ok` : values that are computed;
- `step_eq_ok`, `flush_eq_ok`, `releaseFront_eq_ok`, `release_eq_ok`, `endStream_eq_ok` : the way out;
- `keeps_of_isRelease` : what every release keeps.
-/

namespace StreamEngine

/-! ## Roles that load -/

/-- Elements of these roles bring in memory. -/
def Role.loads : Role → Bool
  | .load | .loadCompute _ => true
  | _ => false

theorem Role.isMem_of_loads {r : Role} (h : r.loads = true) : r.isMem = true := by
  cases r <;> first | rfl | cases h

theorem Declaration.terminal_of_loads {d : Declaration} (h : d.role.loads = true) (idx : Nat) :
    d.terminal idx = .normal := by
  have hbehind : d.role.isOneIterBehind = false := by
    cases hrole : d.role <;> rw [hrole] at h <;> first | rfl | cases h
  rw [terminal, hbehind]
  rfl

theorem Role.isOneIterBehind_of_loads {r : Role} (h : r.loads = true) : r.isOneIterBehind = false := by
  cases r <;> first | rfl | cases h

namespace Manager

variable {m m' : Manager} {p p' : AccessPool} {a : AccessId} {e : ElementId} {el : Element} {s : StreamId}
  {st : LiveStream} {v : StreamValue}

/-! ## New streams and new elements -/

/-- A base is bound to the latest instance of its static stream, and the two configurations are joined. -/
theorem bindBase_eq_ok {id : StreamId} {c : ConfigId} {base : BaseDecl} {bound : BoundBase}
    (h : m.bindBase id c base = .ok (bound, m')) :
    ∃ graph, ∃ c' : ConfigId, m' = { m with graph } ∧ bound.kind = base.kind ∧ bound.reuse = base.reuse ∧
      m.latest.find? (id.core, base.staticId) = some bound.stream ∧
      (m.graph.addUsedBy c' c base.reuse = .ok graph ∨ m.graph.addBaseOn c c' base.reuse 0 = .ok graph) := by
  rw [bindBase] at h
  cases hlatest : m.latest.find? (id.core, base.staticId) with
  | none =>
      rw [hlatest] at h
      cases h
  | some stream =>
      rw [hlatest] at h
      rcases bind_eq_ok.1 h with ⟨st, _, h⟩
      cases hkind : base.kind with
      | address =>
          simp only [hkind] at h
          rcases bind_eq_ok.1 h with ⟨graph, hgraph, h⟩
          cases h
          exact ⟨graph, st.config, rfl, rfl, rfl, rfl, Or.inl hgraph⟩
      | value =>
          simp only [hkind] at h
          rcases bind_eq_ok.1 h with ⟨graph, hgraph, h⟩
          cases h
          exact ⟨graph, st.config, rfl, rfl, rfl, rfl, Or.inr hgraph⟩

theorem bindBases_eq_ok {id : StreamId} {c : ConfigId} {bases : List BaseDecl}
    {bounds : List BoundBase} (h : m.bindBases id c bases = .ok (bounds, m')) :
    (∃ graph, m' = { m with graph }) ∧ ∀ base ∈ bases, ∃ bound ∈ bounds, bound.kind = base.kind ∧
      m.latest.find? (id.core, base.staticId) = some bound.stream := by
  induction bases generalizing m bounds with
  | nil =>
      cases h
      exact ⟨⟨_, rfl⟩, fun base hbase => absurd hbase List.not_mem_nil⟩
  | cons base rest ih =>
      rcases bind_eq_ok.1 h with ⟨⟨bound, m₁⟩, hbound, h⟩
      rcases bind_eq_ok.1 h with ⟨⟨more, m₂⟩, hmore, h⟩
      cases h
      rcases bindBase_eq_ok hbound with ⟨graph, _, rfl, hkind, _, hlatest, _⟩
      rcases ih hmore with ⟨⟨graph', rfl⟩, hrest⟩
      refine ⟨⟨graph', rfl⟩, ?_⟩
      intro base' hbase'
      rcases List.mem_cons.1 hbase' with rfl | hbase'
      · exact ⟨bound, List.mem_cons_self .., hkind, hlatest⟩
      · rcases hrest base' hbase' with ⟨bound', hbound', hlater⟩
        exact ⟨bound', List.mem_cons_of_mem bound hbound', hlater⟩

theorem configure_eq_ok {d : Declaration} {id : StreamId} (h : m.configure d = .ok (id, m')) :
    id = (m.instances.next d.core d.staticId).1 ∧ ∃ config graph graph' bases,
      m.graph.configure (d.config id) = .ok (config, graph) ∧
      ({ m with instances := (m.instances.next d.core d.staticId).2, graph } : Manager).bindBases id
        config d.bases = .ok (bases, { m with
          instances := (m.instances.next d.core d.staticId).2, graph := graph' }) ∧
      m' = { m with
        instances := (m.instances.next d.core d.staticId).2
        graph := graph'
        streams := m.streams.insert id { config, decl := d, bases }
        latest := m.latest.insert (d.core, d.staticId) id } := by
  rcases bind_eq_ok.1 h with ⟨⟨config, graph⟩, hconfig, h⟩
  rcases bind_eq_ok.1 h with ⟨⟨bases, m₁⟩, hbases, h⟩
  cases h
  rcases bindBases_eq_ok hbases with ⟨⟨graph', rfl⟩, _⟩
  exact ⟨rfl, config, graph, graph', bases, hconfig, hbases, rfl⟩

theorem linkLast_cases {chain : List ElementId} {e : ElementId} (h : m.linkLast chain e = .ok m') :
    m' = m ∨ ∃ last el, chain.getLast? = some last ∧ m.element? last = some el ∧
      m' = m.putElement last { el with next := some e } := by
  rw [linkLast] at h
  cases hlast : chain.getLast? with
  | none =>
      rw [hlast] at h
      cases h
      exact Or.inl rfl
  | some last =>
      rw [hlast] at h
      rcases modifyElement_eq_ok h with ⟨el, hel, rfl⟩
      exact Or.inr ⟨last, el, rfl, hel, rfl⟩

/-- A stream that runs behind gives its last element as a base, once it has one. -/
theorem ownBase_eq_ok {own : List BaseRef} (h : ownBase s st = .ok own) :
    (st.decl.role.isOneIterBehind && 0 < st.nextIdx) = false ∧ own = [] ∨
      (st.decl.role.isOneIterBehind && 0 < st.nextIdx) = true ∧ ∃ last, st.chain.getLast? = some last ∧
        own = [{ element := last, label := { stream := s, index := st.nextIdx - 1 } }] := by
  rw [ownBase] at h
  by_cases hbehind : (st.decl.role.isOneIterBehind && 0 < st.nextIdx) = true
  · rw [if_pos hbehind] at h
    cases hlast : st.chain.getLast? with
    | none =>
        rw [hlast] at h
        cases h
    | some last =>
        rw [hlast] at h
        cases h
        exact Or.inr ⟨hbehind, last, rfl, rfl⟩
  · rw [if_neg hbehind] at h
    cases h
    exact Or.inl ⟨Bool.eq_false_iff.2 hbehind, rfl⟩

/-- The element that a stream allocates next, under key `e`. -/
def newElement (m : Manager) (s : StreamId) (st : LiveStream) (bases : List (BaseKind × BaseRef))
    (own : List BaseRef) (e : ElementId) : Element where
  stream := s
  config := st.config
  idx := st.nextIdx
  size := st.decl.elemSize
  isMem := st.decl.role.isMem
  lineSize := m.options.lineSize
  addrBases := refsOf .address bases
  valueBases := refsOf .value bases ++ own ++
    selfBase st { element := e, label := { stream := s, index := st.nextIdx } }

theorem allocate_cases {r : Except EngineError ElementId} (h : m.allocate s = .ok (r, m')) :
    m.stream? s = none ∧ r = .error (.unknownStream s) ∧ m' = m ∨ ∃ st bases own e m₁ graph, m.stream? s = some st ∧
      m.boundBases st = .ok bases ∧ ownBase s st = .ok own ∧ r = .ok e ∧
      e = { val := (m.elements.insert (m.newElement s st bases own e)).1 } ∧
      ({ m with elements := (m.elements.insert (m.newElement s st bases own e)).2 } :
        Manager).linkLast st.chain e = .ok m₁ ∧
      m₁.graph.acquire st.config = .ok graph ∧
      m' = { m₁.putStream s { st with chain := st.chain ++ [e], nextIdx := st.nextIdx + 1 } with
        graph } := by
  rw [allocate] at h
  cases hst : m.stream? s with
  | none =>
      rw [hst] at h
      cases h
      exact Or.inl ⟨rfl, rfl, rfl⟩
  | some st =>
      rw [hst] at h
      rcases bind_eq_ok.1 h with ⟨bases, hbases, h⟩
      rcases bind_eq_ok.1 h with ⟨own, hown, h⟩
      rcases bind_eq_ok.1 h with ⟨m₁, hlink, h⟩
      rcases bind_eq_ok.1 h with ⟨graph, hgraph, h⟩
      cases h
      let fresh : Element :=
        { stream := s, config := st.config, idx := st.nextIdx, size := st.decl.elemSize,
          isMem := st.decl.role.isMem, lineSize := m.options.lineSize,
          addrBases := refsOf .address bases, valueBases := refsOf .value bases ++ own }
      let e : ElementId := { val := (m.elements.insert fresh).1 }
      let full := m.newElement s st bases own e
      have hlink' : (({ m with elements := (m.elements.insert fresh).2 } : Manager).putElement
          e full).linkLast st.chain e = .ok m₁ := hlink
      -- the bases of the new element are complete once its key is known
      rw [putElement, (Slab.replace_insert m.elements fresh full).1] at hlink'
      have hkey : e = { val := (m.elements.insert full).1 } :=
        congrArg ElementId.mk (Slab.replace_insert m.elements fresh full).2
      exact Or.inr ⟨st, bases, own, e, m₁, graph, rfl, hbases, hown, rfl, hkey, hlink', hgraph, rfl⟩

/-! ## Addresses and values -/

theorem markAddrReady_eq_ok {r : Except EngineError Unit} (h : m.markAddrReady e = .ok (r, m')) :
    m' = m ∨ ∃ el el' addr, m.element? e = some el ∧
      el.markAddrReady addr m.options.policy = .ok el' ∧ r = .ok () ∧ m' = m.putElement e el' := by
  rcases bind_eq_ok.1 h with ⟨el, hget, h⟩
  rcases bind_eq_ok.1 h with ⟨st, _, h⟩
  rcases bind_eq_ok.1 h with ⟨addr, _, h⟩
  cases hready : el.markAddrReady addr m.options.policy with
  | ok el' =>
      simp only [hready] at h
      cases h
      exact Or.inr ⟨el, el', addr, element_eq_ok.1 hget, hready, rfl, rfl⟩
  | error f =>
      simp only [hready] at h
      cases f with
      | fault f => cases h
      | refused err =>
          cases h
          exact Or.inl rfl

theorem setValue_eq_ok {vaddr : UInt64} {data : List UInt8} {became : Bool}
    (h : m.setValue e vaddr data = .ok (became, m')) :
    ∃ el el', m.element? e = some el ∧ el.setValue vaddr data = .ok (became, el') ∧
      m' = m.putElement e el' := by
  rcases bind_eq_ok.1 h with ⟨el, hget, h⟩
  rcases bind_eq_ok.1 h with ⟨⟨now, el'⟩, hset, h⟩
  cases h
  exact ⟨el, el', element_eq_ok.1 hget, hset, rfl⟩

theorem setValueFromPrevious_eq_ok {became : Bool}
    (h : m.setValueFromPrevious e = .ok (became, m')) :
    ∃ el el' p source, m.previous? e = .ok (some p) ∧ m.element? e = some el ∧
      m.element? p = some source ∧ el.copyFromPrev source = .ok (became, el') ∧
      m' = m.putElement e el' := by
  rcases bind_eq_ok.1 h with ⟨prev, hprev, h⟩
  rcases bind_eq_ok.1 h with ⟨el, hget, h⟩
  cases prev with
  | none => cases h
  | some p =>
      rcases bind_eq_ok.1 h with ⟨source, hsource, h⟩
      rcases bind_eq_ok.1 h with ⟨⟨now, el'⟩, hcopy, h⟩
      cases h
      exact ⟨el, el', p, source, hprev, element_eq_ok.1 hget, element_eq_ok.1 hsource, hcopy, rfl⟩

/-! ## Requests -/

theorem register_eq_ok {access access' : Access} {policy : OverflowPolicy}
    (h : access.register e policy = .ok access') :
    ∃ receivers, access.receivers.register e = .ok (some receivers) ∧
      access' = { access with receivers } := by
  rcases bind_eq_ok.1 h with ⟨found, hfound, h⟩
  cases hregister : access.receivers.register e with
  | error f =>
      rw [hregister] at hfound
      cases hfound
  | ok r =>
      rw [hregister] at hfound
      cases hfound
      cases found with
      | none => cases h
      | some receivers =>
          cases h
          exact ⟨receivers, rfl, rfl⟩

/-- A registration is refused, or a block waits on the access. -/
theorem attach_cases {i : Nat} {r : Except EngineError Unit} (h : m.attach e i a = .ok (r, m')) :
    (∃ access err, m.accesses.find? a = some access ∧
        access.register e m.options.policy = .error (.refused err) ∧ r = .error (.capacity err)) ∧ m' = m ∨
      r = .ok () ∧ ∃ access receivers el,
      m.accesses.find? a = some access ∧
      access.receivers.register e = .ok (some receivers) ∧ m.element? e = some el ∧
      m' = ({ m with accesses := m.accesses.put a { access with receivers } } : Manager).putElement e
        (el.setBlock i fun b => { b with access := some a, state := .issued }) := by
  rcases bind_eq_ok.1 h with ⟨access, hget, h⟩
  cases hregister : access.register e m.options.policy with
  | ok access' =>
      simp only [hregister] at h
      rcases bind_eq_ok.1 h with ⟨m₁, hmodify, h⟩
      cases h
      rcases register_eq_ok hregister with ⟨receivers, hreceivers, rfl⟩
      rcases modifyElement_eq_ok hmodify with ⟨el, hel, rfl⟩
      exact Or.inr ⟨rfl, access, receivers, el, AccessPool.get_eq_ok.1 hget, hreceivers, hel, rfl⟩
  | error f =>
      simp only [hregister] at h
      cases f with
      | fault f => cases h
      | refused err =>
          cases h
          exact Or.inl ⟨⟨access, err, AccessPool.get_eq_ok.1 hget, hregister, rfl⟩, rfl⟩

/-- A plan makes a block wait on an access in flight, or for the element before, or on a new access. -/
theorem issueBlock_cases {i : Nat} {plan : IssuePlan} {r : Except EngineError (Option AccessId)}
    (h : m.issueBlock e i plan = .ok (r, m')) :
    (∃ a r₁, plan = .share a ∧ m.attach e i a = .ok (r₁, m') ∧ r = r₁.map fun _ => none) ∨
      (plan = .copyPrevious ∧ r = .ok none ∧ ∃ el, m.element? e = some el ∧
        m' = m.putElement e (el.setBlock i fun b => { b with state := .prevElement })) ∨
      ∃ el b r₁, plan = .fresh ∧ m.element? e = some el ∧ el.blocks[i]? = some b ∧
        ({ m with accesses := (m.accesses.alloc (accessFor e el b)).2 } : Manager).attach e i
          (m.accesses.alloc (accessFor e el b)).1 = .ok (r₁, m') ∧
        r = r₁.map fun _ => some (m.accesses.alloc (accessFor e el b)).1 := by
  cases plan with
  | share a =>
      rcases bind_eq_ok.1 h with ⟨⟨r₁, m₁⟩, hattach, h⟩
      cases h
      exact Or.inl ⟨a, r₁, rfl, hattach, rfl⟩
  | copyPrevious =>
      rcases bind_eq_ok.1 h with ⟨m₁, hmodify, h⟩
      cases h
      rcases modifyElement_eq_ok hmodify with ⟨el, hel, rfl⟩
      exact Or.inr (Or.inl ⟨rfl, rfl, el, hel, rfl⟩)
  | fresh =>
      rcases bind_eq_ok.1 h with ⟨el, hget, h⟩
      cases hb : el.blocks[i]? with
      | none =>
          rw [hb] at h
          cases h
      | some b =>
          rw [hb] at h
          rcases bind_eq_ok.1 h with ⟨⟨r₁, m₁⟩, hattach, h⟩
          cases h
          exact Or.inr (Or.inr ⟨el, b, r₁, rfl, element_eq_ok.1 hget, hb, hattach, rfl⟩)

/-- Plans are carried out one after another, until one is refused. -/
theorem issueBlocks_cons_eq_ok {i : Nat} {plan : IssuePlan} {rest : List (Nat × IssuePlan)}
    {r : Except EngineError (List AccessId)} (h : m.issueBlocks e ((i, plan) :: rest) = .ok (r, m')) :
    ∃ first m₁, m.issueBlock e i plan = .ok (first, m₁) ∧
      ((∃ err, first = .error err ∧ r = .error err) ∧ m' = m₁ ∨
        ∃ made more, first = .ok made ∧ m₁.issueBlocks e rest = .ok (more, m') ∧
          r = more.map (made.toList ++ ·)) := by
  rcases bind_eq_ok.1 h with ⟨⟨first, m₁⟩, hblock, h⟩
  refine ⟨first, m₁, hblock, ?_⟩
  cases first with
  | error err =>
      cases h
      exact Or.inl ⟨⟨err, rfl, rfl⟩, rfl⟩
  | ok made =>
      rcases bind_eq_ok.1 h with ⟨⟨more, m₂⟩, hrest, h⟩
      cases h
      exact Or.inr ⟨made, more, rfl, hrest, rfl⟩

/-- If the first of the plans that are left is never refused, and what holds goes on to hold of the others,
then no plan is refused and it holds in the end. -/
theorem keeps_of_issueBlocks {I : List (Nat × IssuePlan) → Manager → Prop}
    (hstep : ∀ i plan rest m m' r, I ((i, plan) :: rest) m → m.issueBlock e i plan = .ok (r, m') →
      (∃ made, r = .ok made) ∧ I rest m')
    {plans : List (Nat × IssuePlan)} {r : Except EngineError (List AccessId)} (h : I plans m)
    (hissue : m.issueBlocks e plans = .ok (r, m')) : (∃ made, r = .ok made) ∧ I [] m' := by
  induction plans generalizing m r with
  | nil =>
      cases hissue
      exact ⟨⟨[], rfl⟩, h⟩
  | cons x rest ih =>
      rcases x with ⟨i, plan⟩
      rcases issueBlocks_cons_eq_ok hissue with ⟨first, m₁, hblock, hcase⟩
      rcases hstep i plan rest m m₁ first h hblock with ⟨⟨made, rfl⟩, h₁⟩
      rcases hcase with ⟨⟨err, hrefused, _⟩, _⟩ | ⟨made', more, _, hrest, rfl⟩
      · cases hrefused
      · rcases ih h₁ hrest with ⟨⟨others, rfl⟩, hlast⟩
        exact ⟨⟨made'.toList ++ others, rfl⟩, hlast⟩

/-- What a request starts from: the element before, the element itself, and a plan for each of its blocks
that was not asked for. -/
structure Begins (m : Manager) (e : ElementId) (prev : Option ElementId) (el : Element)
    (plans : List (Nat × IssuePlan)) : Prop where
  previous : m.previous? e = .ok prev
  element : m.element? e = some el
  check : checkIssue el = .ok ()
  plans_eq : plans = plansFrom m.options.coalesce (prev.bind m.element?) 0 el.blocks

/-- How a request ends when all plans are carried out: what was to be copied is copied. -/
def Ends (m : Manager) (e : ElementId) (plans : List (Nat × IssuePlan)) (m' : Manager) : Prop :=
  ∃ el, m.element? e = some el ∧
    ((∀ i, (i, IssuePlan.copyPrevious) ∉ plans) ∧
        m' = m.putElement e { el with reqIssued := true } ∨
      (∃ i, (i, IssuePlan.copyPrevious) ∈ plans) ∧ ∃ became,
        (m.putElement e { el with reqIssued := true }).setValueFromPrevious e = .ok (became, m'))

/-- A request is refused before anything is asked for, or in the middle, or it is carried out. -/
theorem issue_eq_ok {r : Except EngineError (List AccessId)} (h : m.issue e = .ok (r, m')) :
    ∃ prev el plans, m.Begins e prev el plans ∧
      ((∃ err, m.checkRoom e plans = .ok (.error err)) ∧ m' = m ∨
        m.checkRoom e plans = .ok (.ok ()) ∧ ∃ r₁ m₁, m.issueBlocks e plans = .ok (r₁, m₁) ∧
          ((∃ err, r₁ = .error err) ∧ m' = m₁ ∨
            (∃ made, r₁ = .ok made ∧ r = .ok made) ∧ m₁.Ends e plans m')) := by
  rcases bind_eq_ok.1 h with ⟨prev, hprev, h⟩
  rcases bind_eq_ok.1 h with ⟨el, hget, h⟩
  rcases bind_eq_ok.1 h with ⟨_, hcheck, h⟩
  rcases bind_eq_ok.1 h with ⟨room, hroom, h⟩
  refine ⟨prev, el, _, ⟨hprev, element_eq_ok.1 hget, hcheck, rfl⟩, ?_⟩
  cases room with
  | error err =>
      cases h
      exact Or.inl ⟨⟨err, hroom⟩, rfl⟩
  | ok u =>
      rcases bind_eq_ok.1 h with ⟨⟨r₁, m₁⟩, hblocks, h⟩
      refine Or.inr ⟨hroom, r₁, m₁, hblocks, ?_⟩
      cases r₁ with
      | error err =>
          cases h
          exact Or.inl ⟨⟨err, rfl⟩, rfl⟩
      | ok made =>
          rcases bind_eq_ok.1 h with ⟨m₂, hmodify, h⟩
          rcases modifyElement_eq_ok hmodify with ⟨el₁, hel₁, rfl⟩
          by_cases hany : (plansFrom m.options.coalesce (prev.bind m.element?) 0 el.blocks).any
              (fun p => p.2 = .copyPrevious) = true
          · simp only [if_pos hany] at h
            rcases bind_eq_ok.1 h with ⟨⟨became, m₃⟩, hset, h⟩
            cases h
            rcases List.any_eq_true.1 hany with ⟨⟨i, plan⟩, hmem, hplan⟩
            rw [decide_eq_true_eq] at hplan
            exact Or.inr ⟨⟨made, rfl, rfl⟩, el₁, hel₁, Or.inr ⟨⟨i, hplan ▸ hmem⟩, became, hset⟩⟩
          · simp only [if_neg hany] at h
            cases h
            refine Or.inr ⟨⟨made, rfl, rfl⟩, el₁, hel₁, Or.inl ⟨fun i hmem => hany ?_, rfl⟩⟩
            exact List.any_eq_true.2 ⟨_, hmem, decide_eq_true rfl⟩

/-! ## Answers -/

/-- The block that is settled is there, and its line is written. -/
theorem settleData_eq_ok {data : List UInt8} {i : Nat} {became : Bool} {el' : Element}
    (h : settleData data el i = .ok (became, el')) :
    ∃ b, el.blocks[i]? = some b ∧ el.setValue b.line data = .ok (became, el') := by
  rw [settleData] at h
  cases hb : el.blocks[i]? with
  | none =>
      rw [hb] at h
      cases h
  | some b =>
      rw [hb] at h
      exact ⟨b, rfl, h⟩

/-- The element without the access that its block `i` waited on. -/
def detached (el : Element) (i : Nat) : Element :=
  el.setBlock i fun b => { b with access := none }

theorem detach_eq_ok {i : Nat} (h : m.detach e a = .ok (i, m')) :
    ∃ el b, m.element? e = some el ∧ el.blocks[i]? = some b ∧ b.access = some a ∧
      m' = m.putElement e (detached el i) := by
  rcases bind_eq_ok.1 h with ⟨el, hget, h⟩
  cases hfind : el.blocks.findIdx? (fun b => b.access == some a) with
  | none =>
      rw [hfind] at h
      cases h
  | some j =>
      rw [hfind] at h
      cases h
      rcases List.findIdx?_eq_some_iff_getElem.1 hfind with ⟨hlt, haccess, _⟩
      exact ⟨el, el.blocks[i], element_eq_ok.1 hget, List.getElem?_eq_getElem hlt,
        beq_iff_eq.1 haccess, rfl⟩

/-- An answer is delivered to one element, and to the others from there. The element is reported if it
became value ready. -/
theorem deliver_cons_eq_ok {store : Bool} {settle : Element → Nat → Except Fault (Bool × Element)}
    {ws ready : List ElementId} (h : m.deliver a store settle (e :: ws) = .ok (ready, m')) :
    ∃ el told i b became others, m.element? e = some el ∧ el.blocks[i]? = some b ∧ b.access = some a ∧
      (store = true ∧ told = detached el i ∧ became = false ∨
        store = false ∧ settle (detached el i) i = .ok (became, told)) ∧
      (m.putElement e told).deliver a store settle ws = .ok (others, m') ∧
      ready = if became then e :: others else others := by
  rcases bind_eq_ok.1 h with ⟨⟨i, m₁⟩, hdetach, h⟩
  rcases detach_eq_ok hdetach with ⟨el, b, hel, hb, ha, rfl⟩
  cases store with
  | true => exact ⟨el, detached el i, i, b, false, ready, hel, hb, ha, Or.inl ⟨rfl, rfl, rfl⟩, h, rfl⟩
  | false =>
      rcases bind_eq_ok.1 h with ⟨el₁, hget, h⟩
      rcases bind_eq_ok.1 h with ⟨⟨became, told⟩, hsettle, h⟩
      rcases bind_eq_ok.1 h with ⟨⟨others, m₂⟩, hothers, h⟩
      cases h
      rw [element_eq_ok, element?_putElement_self hel] at hget
      cases hget
      rw [putElement_putElement] at hothers
      exact ⟨el, told, i, b, became, others, hel, hb, ha, Or.inr ⟨rfl, hsettle⟩, hothers, rfl⟩

/-- Nothing but elements is told. -/
theorem deliver_shape {store : Bool} {settle : Element → Nat → Except Fault (Bool × Element)}
    {ws ready : List ElementId} (h : m.deliver a store settle ws = .ok (ready, m')) :
    m' = { m with elements := m'.elements } := by
  induction ws generalizing m ready with
  | nil =>
      cases h
      rfl
  | cons w ws ih =>
      rcases deliver_cons_eq_ok h with ⟨el, told, i, b, became, others, _, _, _, _, hothers, _⟩
      have hshape := ih hothers
      exact hshape

theorem respond_eq_ok {access' : Access} {ws : List ElementId}
    (h : p.respond a = .ok (access', ws, p')) :
    ∃ access, p.find? a = some access ∧ ws = access.receivers.drain.1 ∧
      p' = { slab := p.slab.erase a.val } := by
  rcases bind_eq_ok.1 h with ⟨access, hget, h⟩
  cases h
  exact ⟨access, AccessPool.get_eq_ok.1 hget, rfl, rfl⟩

/-- An access that is answered is taken out of flight, and those who were registered with it are told. -/
theorem answer_eq_ok {settle : Element → Nat → Except Fault (Bool × Element)} {ready : List ElementId}
    (h : m.answer a settle = .ok (ready, m')) : ∃ access, m.accesses.find? a = some access ∧
      ({ m with accesses := { slab := m.accesses.slab.erase a.val } } : Manager).deliver a
        (match m.stream? access.stream with
          | some st => st.decl.role.isStore
          | none => false) settle access.receivers.drain.1 = .ok (ready, m') := by
  rcases bind_eq_ok.1 h with ⟨⟨access', ws, pool⟩, hrespond, h⟩
  rcases bind_eq_ok.1 hrespond with ⟨access, hget, hrespond⟩
  cases hrespond
  exact ⟨access, AccessPool.get_eq_ok.1 hget, h⟩

/-! ## Results -/

theorem commitResult_eq_ok {v : StreamValue} {el' : Element} (h : commitResult el v = .ok el') :
    el.result = none ∧ el' = { el with result := some v } := by
  rw [commitResult] at h
  cases hresult : el.result with
  | some v₁ =>
      rw [hresult] at h
      cases h
  | none =>
      rw [hresult] at h
      cases h
      exact ⟨rfl, rfl⟩

theorem commitBytes_eq_ok {v : StreamValue} {el' : Element} (h : commitBytes el v = .ok el') :
    ∃ became, el.setValue el.addr (v.toBytes.take el.size) = .ok (became, el') := by
  rw [commitBytes] at h
  by_cases hwide : StreamValue.width < el.size
  · rw [if_pos hwide] at h
    cases h
  · rw [if_neg hwide] at h
    rcases bind_eq_ok.1 h with ⟨⟨became, el₁⟩, hset, h⟩
    cases h
    exact ⟨became, hset⟩

/-- The element with a computed value in its place. -/
def landing (m : Manager) (el : Element) (v : StreamValue) : Except Fault Element :=
  if m.givesResult el then commitResult { el with computeScheduled := false } v
  else commitBytes { el with computeScheduled := false } v

theorem commit_iff (hel : m.element? e = some el) :
    m.commit e v = .ok m' ↔ ∃ el', m.landing el v = .ok el' ∧ m' = m.putElement e el' := by
  have hcommit : m.commit e v = m.landing el v >>= fun el' => .ok (m.putElement e el') := by
    rw [commit, element_eq_ok.2 hel, landing]
    by_cases hgives : m.givesResult el = true
    · rw [if_pos hgives]
      exact if_pos hgives
    · rw [if_neg hgives]
      exact if_neg hgives
  rw [hcommit, bind_eq_ok]
  constructor
  · rintro ⟨el', hland, hput⟩
    cases hput
    exact ⟨el', hland, rfl⟩
  · rintro ⟨el', hland, rfl⟩
    exact ⟨el', hland, rfl⟩

theorem commit_eq_landing (h : m.commit e v = .ok m') :
    ∃ el el', m.element? e = some el ∧ m.landing el v = .ok el' ∧ m' = m.putElement e el' := by
  rcases bind_eq_ok.1 h with ⟨el, hget, _⟩
  have hel := element_eq_ok.1 hget
  rcases (commit_iff hel).1 h with ⟨el', hland, hput⟩
  exact ⟨el, el', hel, hland, hput⟩

/-- What lands becomes the result of the element or its bytes. -/
theorem landing_eq_ok {el' : Element} (h : m.landing el v = .ok el') :
    m.givesResult el = true ∧ el.result = none ∧
        el' = { el with computeScheduled := false, result := some v } ∨
      m.givesResult el = false ∧ ∃ became,
        ({ el with computeScheduled := false } : Element).setValue el.addr (v.toBytes.take el.size) =
          .ok (became, el') := by
  rw [landing] at h
  by_cases hgives : m.givesResult el = true
  · rw [if_pos hgives] at h
    exact Or.inl ⟨hgives, commitResult_eq_ok h⟩
  · rw [if_neg hgives] at h
    exact Or.inr ⟨Bool.eq_false_iff.2 hgives, commitBytes_eq_ok h⟩

theorem commit_eq_ok (h : m.commit e v = .ok m') :
    ∃ el el', m.element? e = some el ∧ m' = m.putElement e el' ∧
      (el' = { el with computeScheduled := false, result := some v } ∨
        ({ el with computeScheduled := false } : Element).Advances el') := by
  rcases commit_eq_landing h with ⟨el, el', hel, hland, rfl⟩
  refine ⟨el, el', hel, rfl, ?_⟩
  rcases landing_eq_ok hland with ⟨_, _, hresult⟩ | ⟨_, became, hset⟩
  · exact Or.inl hresult
  · exact Or.inr (Element.advances_setValue hset)

theorem schedule_eq_ok {v : StreamValue} {cycles : Nat} (h : m.schedule e v cycles = .ok m') :
    ∃ el, m.element? e = some el ∧
      m' = { m.putElement e { el with computeScheduled := true } with
        pending := m.pending ++ [{ element := e, result := v, readyAt := m.now + cycles }] } := by
  rcases bind_eq_ok.1 h with ⟨m₁, hmodify, h⟩
  rcases modifyElement_eq_ok hmodify with ⟨el, hel, rfl⟩
  cases h
  exact ⟨el, hel, rfl⟩

/-- A computation delivers a fixed value to an element whose stream does not load, or computes the
element like any other of its role. -/
theorem compute_eq_ok (hcompute : m.compute e = .ok m') :
    ∃ el st, m.element? e = some el ∧ m.stream? el.stream = some st ∧ el.addrReady = true ∧
      el.computeScheduled = false ∧ (st.decl.role.loads = false ∧ (∃ v, m.commit e v = .ok m') ∨
        m.computeNormal e el st.decl = .ok m') := by
  rcases bind_eq_ok.1 hcompute with ⟨el, hget, hcompute⟩
  rcases bind_eq_ok.1 hcompute with ⟨st, hstream, hcompute⟩
  -- faults first, then the two kinds of fixed values
  by_cases hnoAddr : (!el.addrReady) = true
  · simp only [if_pos hnoAddr] at hcompute
    cases hcompute
  simp only [if_neg hnoAddr] at hcompute
  by_cases hscheduled : el.computeScheduled = true
  · simp only [if_pos hscheduled] at hcompute
    cases hcompute
  simp only [if_neg hscheduled] at hcompute
  refine ⟨el, st, element_eq_ok.1 hget, stream_eq_ok.1 hstream, by simpa using hnoAddr,
    Bool.eq_false_iff.2 hscheduled, ?_⟩
  by_cases hinitial : (st.decl.role.isOneIterBehind && el.idx == 0) = true
  · simp only [if_pos hinitial] at hcompute
    refine Or.inl ⟨Bool.eq_false_iff.2 ?_, _, hcompute⟩
    intro hloads
    rw [Role.isOneIterBehind_of_loads hloads] at hinitial
    cases hinitial
  simp only [if_neg hinitial] at hcompute
  cases hterminal : st.decl.terminal el.idx with
  | finalValue =>
      simp only [hterminal] at hcompute
      cases hfinal : st.finals.find? el.idx with
      | none =>
          rw [hfinal] at hcompute
          cases hcompute
      | some v =>
          simp only [hfinal] at hcompute
          refine Or.inl ⟨Bool.eq_false_iff.2 ?_, v, hcompute⟩
          intro hloads
          rw [Declaration.terminal_of_loads hloads] at hterminal
          cases hterminal
  | neverReady =>
      simp only [hterminal] at hcompute
      cases hcompute
  | normal =>
      simp only [hterminal] at hcompute
      exact Or.inr hcompute

/-- A computation commits its value at once, or puts it off. -/
theorem compute_cases (h : m.compute e = .ok m') :
    (∃ v, m.commit e v = .ok m') ∨ ∃ v cycles, m.schedule e v cycles = .ok m' := by
  rcases compute_eq_ok h with ⟨el, st, _, _, _, _, ⟨_, hcommit⟩ | hnormal⟩
  · exact Or.inl hcommit
  rcases bind_eq_ok.1 hnormal with ⟨r, _, hnormal⟩
  by_cases hlong : st.decl.role.isCompute = true
  · simp only [if_pos hlong] at hnormal
    exact Or.inr ⟨_, _, hnormal⟩
  · simp only [if_neg hlong] at hnormal
    exact Or.inl ⟨_, hnormal⟩

/-- The results that are due are committed by a manager that has only moved its clock. -/
theorem tick_eq_ok {now : Nat} {done : List ElementId} (h : m.tick now = .ok (done, m')) :
    ({ m with now, pending := m.pending.filter (not ∘ fun p => decide (p.readyAt ≤ now)) } :
      Manager).commitAll (m.pending.filter fun p => p.readyAt ≤ now) = .ok m' := by
  rw [tick, List.partition_eq_filter_filter] at h
  rcases bind_eq_ok.1 h with ⟨m₁, hcommit, h⟩
  cases h
  exact hcommit

theorem setFinalValue_eq_ok {idx : Nat} {w : UInt64} {r : Except EngineError Unit}
    (h : m.setFinalValue s idx w = .ok (r, m')) :
    m' = m ∨ ∃ st, m.stream? s = some st ∧ r = .ok () ∧
      m' = m.putStream s { st with finals := st.finals.insert idx (.ofWord w) } := by
  rw [setFinalValue] at h
  cases hst : m.stream? s with
  | none =>
      rw [hst] at h
      cases h
      exact Or.inl rfl
  | some st =>
      simp only [hst] at h
      by_cases htwice : st.finals.contains idx = true
      · rw [if_pos htwice] at h
        cases h
      · rw [if_neg htwice] at h
        cases h
        exact Or.inr ⟨st, rfl, rfl, rfl⟩

/-! ## Stepping and rewinding -/

/-- The oldest element that was not stepped over ends the prefix of those that were. -/
theorem step_eq_ok {r : Except EngineError ElementId} (h : m.step s = .ok (r, m')) :
    m.stream? s = none ∧ m' = m ∨ ∃ st e el, ∃ i : Nat, m.stream? s = some st ∧
      st.chain[i]? = some e ∧ m.element? e = some el ∧ el.stepped = false ∧
      (∀ (j : Nat) e' el', j < i → st.chain[j]? = some e' → m.element? e' = some el' →
        el'.stepped = true) ∧
      r = .ok e ∧ m' = m.putElement e { el with stepped := true } := by
  rw [step] at h
  cases hst : m.stream? s with
  | none =>
      rw [hst] at h
      cases h
      exact Or.inl ⟨rfl, rfl⟩
  | some st =>
      rw [hst] at h
      rcases bind_eq_ok.1 h with ⟨next, hnext, h⟩
      cases next with
      | none => cases h
      | some e =>
          rcases bind_eq_ok.1 h with ⟨m₁, hmodify, h⟩
          cases h
          rcases modifyElement_eq_ok hmodify with ⟨el, hel, rfl⟩
          rcases findM?_eq_some hnext with ⟨i, hi, hfound, hbefore⟩
          have hread : ∀ {e' el' unstepped}, m.element? e' = some el' →
              (do let el ← m.element e'; return !el.stepped) = (.ok unstepped : Except Fault Bool) →
              el'.stepped = !unstepped := by
            intro e' el' unstepped hel' htest
            rcases bind_eq_ok.1 htest with ⟨el₁, hget, htest⟩
            rw [element_eq_ok, hel'] at hget
            cases hget
            cases htest
            exact (Bool.not_not _).symm
          refine Or.inr ⟨st, e, el, i, rfl, hi, hel, hread hel hfound, ?_, rfl, rfl⟩
          intro j e' el' hj hj' hel'
          exact hread hel' (hbefore j e' hj hj')

theorem deregisterAll_eq_ok {accesses : List AccessId}
    (h : m.deregisterAll e accesses = .ok m') :
    ∃ pool, accesses.foldlM (fun p a => p.deregister a e) m.accesses = .ok pool ∧
      m' = { m with accesses := pool } := by
  rcases bind_eq_ok.1 h with ⟨pool, hfold, h⟩
  cases h
  exact ⟨pool, hfold, rfl⟩

theorem flush_eq_ok {aliased : Bool} (h : m.flush e aliased = .ok m') :
    ∃ el pool, m.element? e = some el ∧
      el.takeAccesses.1.foldlM (fun p a => p.deregister a e) m.accesses = .ok pool ∧
      m' = { (m.dropPending e).putElement e (el.flush aliased).2 with accesses := pool } := by
  rcases bind_eq_ok.1 h with ⟨el, hget, h⟩
  rcases bind_eq_ok.1 h with ⟨_, _, h⟩
  rcases bind_eq_ok.1 h with ⟨m₁, hderegister, h⟩
  cases h
  rcases deregisterAll_eq_ok hderegister with ⟨pool, hfold, rfl⟩
  exact ⟨el, pool, element_eq_ok.1 hget, hfold, rfl⟩

/-! ## Releasing -/

theorem releaseFront_eq_ok (h : m.releaseFront s = .ok m') :
    ∃ st e rest el pool freed graph, m.stream? s = some st ∧ st.chain = e :: rest ∧
      m.element? e = some el ∧
      el.takeAccesses.1.foldlM (fun p a => p.deregister a e) m.accesses = .ok pool ∧
      m.graph.release st.config = .ok (freed, graph) ∧
      m' = { (m.putStream s { st with chain := rest }).dropPending e with
        elements := m.elements.erase e.val, accesses := pool, graph } := by
  rcases bind_eq_ok.1 h with ⟨st, hget, h⟩
  cases hchain : st.chain with
  | nil =>
      rw [hchain] at h
      cases h
  | cons e rest =>
      rw [hchain] at h
      rcases bind_eq_ok.1 h with ⟨el, hel, h⟩
      rcases bind_eq_ok.1 h with ⟨m₁, hderegister, h⟩
      rcases deregisterAll_eq_ok hderegister with ⟨pool, hfold, rfl⟩
      rcases bind_eq_ok.1 h with ⟨_, _, h⟩
      rcases bind_eq_ok.1 h with ⟨⟨freed, graph⟩, hgraph, h⟩
      cases h
      refine ⟨st, e, rest, el, pool, freed, graph, stream_eq_ok.1 hget, hchain,
        element_eq_ok.1 hel, hfold, hgraph, ?_⟩
      rw [← Slab.erase_replace m.elements e.val el.takeAccesses.2]
      rfl

/-- Releasing an element by its key releases the head of a chain. -/
theorem release_eq_ok (h : m.release e = .ok m') :
    ∃ el st, m.element? e = some el ∧ m.stream? el.stream = some st ∧ st.chain.head? = some e ∧
      el.stepped = true ∧ m.releaseFront el.stream = .ok m' := by
  rcases bind_eq_ok.1 h with ⟨el, hel, h⟩
  rcases bind_eq_ok.1 h with ⟨st, hst, h⟩
  by_cases hhead : st.chain.head? ≠ some e
  · simp only [if_pos hhead] at h
    cases h
  simp only [if_neg hhead] at h
  by_cases hstepped : (!el.stepped) = true
  · simp only [if_pos hstepped] at h
    cases h
  simp only [if_neg hstepped] at h
  exact ⟨el, st, element_eq_ok.1 hel, stream_eq_ok.1 hst, not_not.1 hhead, by simpa using hstepped, h⟩

/-- What releasing the head of a chain keeps, releasing several heads keeps. -/
theorem releaseWhileStepped_keeps {I : Manager → Prop}
    (hfront : ∀ m m', I m → m.releaseFront s = .ok m' → I m') {chain : List ElementId} {n : Nat}
    (h : I m) (hrelease : m.releaseWhileStepped s chain = .ok (n, m')) : I m' := by
  induction chain generalizing m n with
  | nil =>
      cases hrelease
      exact h
  | cons e rest ih =>
      rcases bind_eq_ok.1 hrelease with ⟨el, _, hrelease⟩
      by_cases hstepped : el.stepped = true
      · simp only [if_pos hstepped] at hrelease
        rcases bind_eq_ok.1 hrelease with ⟨m₁, hhead, hrelease⟩
        rcases bind_eq_ok.1 hrelease with ⟨⟨count, m₂⟩, hrest, hrelease⟩
        cases hrelease
        exact ih (hfront m m₁ h hhead) hrest
      · simp only [if_neg hstepped] at hrelease
        cases hrelease
        exact h

theorem releaseStepped_keeps {I : Manager → Prop}
    (hfront : ∀ m m', I m → m.releaseFront s = .ok m' → I m') {r : Except EngineError Nat} (h : I m)
    (hrelease : m.releaseStepped s = .ok (r, m')) : I m' := by
  rw [releaseStepped] at hrelease
  cases hst : m.stream? s with
  | none =>
      rw [hst] at hrelease
      cases hrelease
      exact h
  | some st =>
      rw [hst] at hrelease
      rcases bind_eq_ok.1 hrelease with ⟨⟨n, m₁⟩, hwhile, hrelease⟩
      cases hrelease
      exact releaseWhileStepped_keeps hfront h hwhile

theorem releaseMany_keeps {I : Manager → Prop}
    (hfront : ∀ m m', I m → m.releaseFront s = .ok m' → I m') {n : Nat} (h : I m)
    (hrelease : m.releaseMany s n = .ok m') : I m' := by
  induction n generalizing m with
  | zero =>
      cases hrelease
      exact h
  | succ n ih =>
      rcases bind_eq_ok.1 hrelease with ⟨m₁, hhead, hrelease⟩
      exact ih (hfront m m₁ h hhead) hrelease

/-- A stream ends once its chain is empty. Only its own configuration goes. -/
theorem endStream_eq_ok {r : Except EngineError Bool} (h : m.endStream s = .ok (r, m')) :
    m.stream? s = none ∧ m' = m ∨ ∃ st m₁ freed graph, m.stream? s = some st ∧
      m.releaseMany s st.chain.length = .ok m₁ ∧
      m₁.graph.endStream st.config = .ok (freed, graph) ∧ r = .ok freed ∧
      m' = { m₁.dropStream s with graph } := by
  rw [endStream] at h
  cases hst : m.stream? s with
  | none =>
      rw [hst] at h
      cases h
      exact Or.inl ⟨rfl, rfl⟩
  | some st =>
      rw [hst] at h
      rcases bind_eq_ok.1 h with ⟨m₁, hmany, h⟩
      rcases bind_eq_ok.1 h with ⟨⟨freed, graph⟩, hgraph, h⟩
      cases h
      exact Or.inr ⟨st, m₁, freed, graph, rfl, hmany, hgraph, rfl, rfl⟩

/-- What releasing the head of a chain keeps, and forgetting a stream, every release keeps. -/
theorem keeps_of_isRelease {I : Manager → Prop}
    (hfront : ∀ s m m', I m → m.releaseFront s = .ok m' → I m')
    (hdrop : ∀ (s : StreamId) (m : Manager) (graph : Graph), I m → I { m.dropStream s with graph })
    (h : I m) {op : Operation} (happly : m.apply op = .ok m') (hop : op.IsRelease) : I m' := by
  cases op with
  | release e =>
      rcases release_eq_ok happly with ⟨_, _, _, _, _, _, hhead⟩
      exact hfront _ m m' h hhead
  | releaseStepped s =>
      rcases map_snd_eq_ok happly with ⟨r, hrelease⟩
      exact releaseStepped_keeps (hfront s) h hrelease
  | endStream s =>
      rcases map_snd_eq_ok happly with ⟨r, hend⟩
      rcases endStream_eq_ok hend with ⟨_, rfl⟩ | ⟨st, m₁, freed, graph, _, hmany, _, _, rfl⟩
      · exact h
      · exact hdrop s m₁ graph (releaseMany_keeps (hfront s) h hmany)
  | _ => exact hop.elim

end Manager
end StreamEngine
