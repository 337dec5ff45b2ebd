import StreamEngine.Proofs.Lifecycle.Pending
import StreamEngine.Proofs.Lifecycle.Stores

/-!
# What an operation does to an element

Most operations concern one element or the elements that wait for an answer, and leave all others alone.
What they do to an element that they concern depends on this element, and on little else.

- `commitAll_iff`, `element?_commitAll` : results that are due land each in its own element;
- `Manager.Answered` : an element after the answer to an access that it waited on;
- `Manager.Evolves` : an element before and after an operation, case by case;
- `Connected.evolves` : these are all the cases.
-/

namespace StreamEngine
namespace Manager

variable {k : Nat} {m m' : Manager} {e e' : ElementId} {el el' : Element} {s : StreamId}
  {st : LiveStream} {v : StreamValue} {a : AccessId} {op : Operation}

/-! ## Results -/

/-- A computation under way whose result lands in its element. -/
def Lands (m : Manager) (p : PendingCompute) : Prop :=
  ∃ el el', m.element? p.element = some el ∧ m.landing el p.result = .ok el'

theorem lands_putElement (hel : m.element? e = some el) (el' : Element) {p : PendingCompute}
    (hne : p.element ≠ e) : (m.putElement e el').Lands p ↔ m.Lands p := by
  rw [Lands, element?_putElement_of_ne hel el' hne]
  rfl

/-- Results for elements of their own can be committed if every one of them lands. -/
theorem commitAll_iff {due : List PendingCompute} (hnodup : (due.map PendingCompute.element).Nodup) :
    (∃ m', m.commitAll due = .ok m') ↔ ∀ p ∈ due, m.Lands p := by
  induction due generalizing m with
  | nil => exact iff_of_true ⟨m, rfl⟩ fun p hp => absurd hp List.not_mem_nil
  | cons p due ih =>
      rw [List.map_cons, List.nodup_cons] at hnodup
      have hothers : ∀ q ∈ due, q.element ≠ p.element := by
        intro q hq hsame
        exact hnodup.1 (hsame ▸ List.mem_map_of_mem hq)
      constructor
      · rintro ⟨m', hcommit⟩
        rw [commitAll, List.foldlM_cons] at hcommit
        rcases bind_eq_ok.1 hcommit with ⟨m₁, hfirst, hrest⟩
        rcases commit_eq_landing hfirst with ⟨el, el', hel, hland, rfl⟩
        intro q hq
        rcases List.mem_cons.1 hq with rfl | hq
        · exact ⟨el, el', hel, hland⟩
        · exact (lands_putElement hel el' (hothers q hq)).1 ((ih hnodup.2).1 ⟨m', hrest⟩ q hq)
      · intro hall
        rcases hall p (List.mem_cons_self ..) with ⟨el, el', hel, hland⟩
        have hrest : ∀ q ∈ due, (m.putElement p.element el').Lands q := fun q hq =>
          (lands_putElement hel el' (hothers q hq)).2 (hall q (List.mem_cons_of_mem p hq))
        exact exists_bind_ok ((commit_iff hel).2 ⟨el', hland, rfl⟩) ((ih hnodup.2).2 hrest)

/-- A commit of results for elements of their own reaches just these elements. -/
theorem element?_commitAll {due : List PendingCompute}
    (hnodup : (due.map PendingCompute.element).Nodup) (h : m.commitAll due = .ok m')
    (hel : m.element? e = some el) :
    (∀ p ∈ due, p.element ≠ e) ∧ m'.element? e = some el ∨
      ∃ p ∈ due, p.element = e ∧ ∃ el', m.landing el p.result = .ok el' ∧ m'.element? e = some el' := by
  induction due generalizing m el with
  | nil =>
      cases h
      exact Or.inl ⟨fun p hp => absurd hp List.not_mem_nil, hel⟩
  | cons p due ih =>
      rw [List.map_cons, List.nodup_cons] at hnodup
      rw [commitAll, List.foldlM_cons] at h
      rcases bind_eq_ok.1 h with ⟨m₁, hfirst, hrest⟩
      rcases commit_eq_landing hfirst with ⟨el₀, el₁, hel₀, hland, rfl⟩
      by_cases he : p.element = e
      · subst he
        cases (hel.symm.trans hel₀)
        -- no other result is for this element
        rcases ih hnodup.2 hrest (element?_putElement_self hel el₁) with ⟨_, hlast⟩ | ⟨q, hq, hsame, _⟩
        · exact Or.inr ⟨p, List.mem_cons_self .., rfl, el₁, hland, hlast⟩
        · exact absurd (hsame ▸ List.mem_map_of_mem hq) hnodup.1
      · have hel₁ := (element?_putElement_of_ne hel₀ el₁ (Ne.symm he)).trans hel
        rcases ih hnodup.2 hrest hel₁ with ⟨hnone, hlast⟩ | ⟨q, hq, hsame, el', hland', hlast⟩
        · refine Or.inl ⟨?_, hlast⟩
          intro q hq
          rcases List.mem_cons.1 hq with rfl | hq
          · exact he
          · exact hnone q hq
        · exact Or.inr ⟨q, List.mem_cons_of_mem p hq, hsame, el', hland', hlast⟩

theorem Scheduled.nodup_due (h : m.Scheduled) (now : Nat) :
    ((m.pending.filter fun p => p.readyAt ≤ now).map PendingCompute.element).Nodup :=
  h.nodup.sublist (List.filter_sublist.map _)

/-- The clock reaches the elements of results that are due, each by one result. -/
theorem Scheduled.element?_tick (h : m.Scheduled) {now : Nat} {done : List ElementId}
    (htick : m.tick now = .ok (done, m')) (hel : m.element? e = some el) :
    (∀ p ∈ m.pending, p.element = e → ¬ p.readyAt ≤ now) ∧ m'.element? e = some el ∨
      ∃ p ∈ m.pending, p.element = e ∧ p.readyAt ≤ now ∧
        ∃ el', m.landing el p.result = .ok el' ∧ m'.element? e = some el' := by
  rcases element?_commitAll (h.nodup_due now) (tick_eq_ok htick) hel with
    ⟨hnone, hlast⟩ | ⟨p, hp, hsame, el', hland, hlast⟩
  · refine Or.inl ⟨?_, hlast⟩
    intro p hp hsame hdue
    exact hnone p (List.mem_filter.2 ⟨hp, decide_eq_true hdue⟩) hsame
  · rcases List.mem_filter.1 hp with ⟨hp, hdue⟩
    exact Or.inr ⟨p, hp, hsame, of_decide_eq_true hdue, el', hland, hlast⟩

/-! ## Answers -/

/-- The element belongs to a store. -/
def ofStore (m : Manager) (el : Element) : Bool :=
  match m.stream? el.stream with
  | some st => st.decl.role.isStore
  | none => false

/-- What an answer makes of an element with a block that waited for it. In a store it only stops
waiting. -/
def Answered (m : Manager) (a : AccessId) (settle : Element → Nat → Except Fault (Bool × Element))
    (el el' : Element) : Prop :=
  ∃ i b, el.blocks[i]? = some b ∧ b.access = some a ∧
    (m.ofStore el = true ∧ el' = detached el i ∨
      m.ofStore el = false ∧ ∃ became, settle (detached el i) i = .ok (became, el'))

/-- Elements that are told once each are told, and no others. -/
theorem element?_deliver {store : Bool} {settle : Element → Nat → Except Fault (Bool × Element)}
    {ws ready : List ElementId} (hnodup : ws.Nodup) (h : m.deliver a store settle ws = .ok (ready, m'))
    (hel : m.element? e = some el) :
    e ∉ ws ∧ m'.element? e = some el ∨ e ∈ ws ∧ ∃ i b el', el.blocks[i]? = some b ∧ b.access = some a ∧
      m'.element? e = some el' ∧ (store = true ∧ el' = detached el i ∨
        store = false ∧ ∃ became, settle (detached el i) i = .ok (became, el')) := by
  induction ws generalizing m el ready with
  | nil =>
      cases h
      exact Or.inl ⟨List.not_mem_nil, hel⟩
  | cons w ws ih =>
      rcases List.nodup_cons.1 hnodup with ⟨hnot, hlater⟩
      rcases deliver_cons_eq_ok h with
        ⟨elw, told, i, b, became, others, helw, hb, ha, hcase, hrest, _⟩
      by_cases he : e = w
      · subst he
        cases (hel.symm.trans helw)
        rcases ih hlater hrest (element?_putElement_self hel told) with ⟨_, hlast⟩ | ⟨hmem, _⟩
        · refine Or.inr ⟨List.mem_cons_self .., i, b, told, hb, ha, hlast, ?_⟩
          rcases hcase with ⟨hstore, htold, _⟩ | ⟨hstore, hsettle⟩
          · exact Or.inl ⟨hstore, htold⟩
          · exact Or.inr ⟨hstore, became, hsettle⟩
        · exact absurd hmem hnot
      · rcases ih hlater hrest ((element?_putElement_of_ne helw told he).trans hel) with ⟨hout, hlast⟩ | ⟨hmem, hlast⟩
        · exact Or.inl ⟨fun hmem => (List.mem_cons.1 hmem).elim he hout, hlast⟩
        · exact Or.inr ⟨List.mem_cons_of_mem w hmem, hlast⟩

/-- An answer reaches the elements that wait on its access, and no others. -/
theorem Connected.element?_answer (h : m.Connected k)
    {settle : Element → Nat → Except Fault (Bool × Element)} {ready : List ElementId}
    (hanswer : m.answer a settle = .ok (ready, m')) (hel : m.element? e = some el) :
    (¬ ∃ line, el.WaitsOn a line) ∧ m'.element? e = some el ∨
      (∃ line, el.WaitsOn a line) ∧ ∃ el', m'.element? e = some el' ∧ m.Answered a settle el el' := by
  rcases answer_eq_ok hanswer with ⟨access, hfind, hdeliver⟩
  have htidy := h.pool.receivers a access hfind
  have hserves : ∀ s line, m.accesses.Serves a e s line ↔ el.stream = s ∧ el.WaitsOn a line :=
    fun _ _ => h.linked.serves_iff hel
  have hold : ({ m with accesses := { slab := m.accesses.slab.erase a.val } } : Manager).element? e =
      some el := hel
  rcases element?_deliver (Receivers.nodup_drain htidy) hdeliver hold with
    ⟨hout, hlast⟩ | ⟨hmem, i, b, el', hb, ha, hlast, hcase⟩
  · refine Or.inl ⟨?_, hlast⟩
    rintro ⟨line, hwaits⟩
    rcases (AccessPool.serves_iff hfind).1 ((hserves el.stream line).2 ⟨rfl, hwaits⟩) with ⟨_, _, hears⟩
    exact hout ((Receivers.mem_drain_iff htidy).2 hears)
  · have hears := (Receivers.mem_drain_iff htidy).1 hmem
    rcases (hserves _ _).1 ((AccessPool.serves_iff hfind).2 ⟨rfl, rfl, hears⟩) with ⟨hstream, hwaits⟩
    refine Or.inr ⟨⟨access.line, hwaits⟩, el', hlast, i, b, hb, ha, ?_⟩
    rw [ofStore, hstream]
    exact hcase

/-! ## Requests -/

/-- A request is refused, or it carries out the plans for all blocks and then copies what is to be
copied. -/
theorem Connected.element?_issue_self (h : m.Connected k) (howned : m.Owned)
    {r : Except EngineError (List AccessId)} (hissue : m.issue e = .ok (r, m'))
    (hel : m.element? e = some el) :
    m' = m ∨ ∃ prev plans el₁ el', m.Begins e prev el plans ∧ Asked plans el el₁ ∧
      m'.element? e = some el' ∧
      ((∀ i, (i, IssuePlan.copyPrevious) ∉ plans) ∧ el' = { el₁ with reqIssued := true } ∨
        (∃ i, (i, IssuePlan.copyPrevious) ∈ plans) ∧ ∃ p source became, prev = some p ∧
          m.element? p = some source ∧ ({ el₁ with reqIssued := true } : Element).Copied el' ∧
          ({ el₁ with reqIssued := true } : Element).copyFromPrev source = .ok (became, el')) := by
  rcases h.issue_cases howned hissue with
    ⟨prev, el₀, plans, hbegins, ⟨_, rfl⟩ | ⟨made, m₁, hblocks, hdone, el₁, hel₁, hends⟩⟩
  · exact Or.inl rfl
  cases (hel.symm.trans hbegins.element)
  rcases issueBlocks_asked hbegins.nodup hel hblocks with ⟨el₂, hel₂, hasked⟩
  cases (hel₁.symm.trans hel₂)
  have hself := element?_putElement_self hel₁ { el₁ with reqIssued := true }
  rcases hends with ⟨hnone, rfl⟩ | ⟨hcopies, became, hset⟩
  · exact Or.inr ⟨prev, plans, el₁, _, hbegins, hasked, hself, Or.inl ⟨hnone, rfl⟩⟩
  rcases setValueFromPrevious_eq_ok hset with ⟨el₃, el', p, source, hprev, hel₃, hsource, hcopy, rfl⟩
  cases (hself.symm.trans hel₃)
  have hcopied : ({ el₁ with reqIssued := true } : Element).Copied el' := by
    rcases hcopies with ⟨i, hmem⟩
    rcases hbegins.block_of_mem hmem with ⟨b, hb, _, _⟩
    rcases hasked.block i b hb with ⟨b', hb', _⟩
    have hwaits := (hbegins.waits_iff (h.resting e el hel) hasked hb hb').1.2
      ((hbegins.copiesLine_iff hb).2 hmem)
    have hmem : el₁.isMem = true := by
      rw [hasked.shape]
      exact isMem_of_checkIssue hbegins.check
    have htidy := (hdone.setIssued hel₁).linked.tidy e _ hself
    exact htidy.copied_copyFromPrev hmem ⟨b', List.mem_of_getElem? hb', hwaits⟩ hcopy
  refine Or.inr ⟨prev, plans, el₁, el', hbegins, hasked, element?_putElement_self hself el',
    Or.inr ⟨hcopies, p, source, became, ?_, ?_, hcopied, hcopy⟩⟩
  all_goals
    rcases previous?_eq_ok hprev with ⟨el₄, st, hel₄, hst, hbefore⟩
    rcases previous?_eq_ok hbegins.previous with ⟨el₅, st', hel₅, hst', hbefore'⟩
    cases (hself.symm.trans hel₄)
    cases (hel.symm.trans hel₅)
    -- the request leaves streams alone, so the element before is the same
    have hstream : el₁.stream = el.stream := by rw [hasked.shape]
    have hst₁ : m.stream? el.stream = some st := by
      rw [← hstream]
      exact ((exchanges_issueBlocks hblocks).quiet.stream?_eq _).symm.trans hst
    cases (hst'.symm.trans hst₁)
  · rw [hbefore', hbefore]
  · have hne := (howned.before hst' hbefore.symm).1
    rw [element?_putElement_of_ne hel₁ _ hne, hdone.others p hne] at hsource
    exact hsource

/-! ## All operations -/

/-- The operation is about the element. -/
def Concerns (m : Manager) (e : ElementId) (el : Element) : Operation → Prop
  | .markAddrReady e' => e' = e
  | .issue e' => e' = e
  | .respond a _ => ∃ line, el.WaitsOn a line
  | .respondFault a => ∃ line, el.WaitsOn a line
  | .setValue e' _ _ => e' = e
  | .compute e' => e' = e
  | .tick now => ∃ p ∈ m.pending, p.element = e ∧ p.readyAt ≤ now
  | .flush e' _ => e' = e
  | _ => False

/-- What an operation makes of an element that is there before and after it. -/
inductive Evolves (m : Manager) (e : ElementId) (el : Element) : Operation → Element → Prop
  /-- Only chains and steps reach elements that an operation is not about. -/
  | kept {op : Operation} (next : Option ElementId) (stepped : Bool) :
      ¬ m.Concerns e el op → Evolves m e el op { el with next, stepped }
  | refusedAddress : Evolves m e el (.markAddrReady e) el
  | addressed {addr : UInt64} {el' : Element} :
      el.markAddrReady addr m.options.policy = .ok el' → Evolves m e el (.markAddrReady e) el'
  | refusedRequest : Evolves m e el (.issue e) el
  | requested {prev : Option ElementId} {plans : List (Nat × IssuePlan)} {el₁ : Element} :
      m.Begins e prev el plans → Asked plans el el₁ → (∀ i, (i, IssuePlan.copyPrevious) ∉ plans) →
        Evolves m e el (.issue e) { el₁ with reqIssued := true }
  | copied {p : ElementId} {plans : List (Nat × IssuePlan)} {el₁ el' source : Element} {became : Bool} :
      m.Begins e (some p) el plans → Asked plans el el₁ → (∃ i, (i, IssuePlan.copyPrevious) ∈ plans) →
        m.element? p = some source → ({ el₁ with reqIssued := true } : Element).Copied el' →
        ({ el₁ with reqIssued := true } : Element).copyFromPrev source = .ok (became, el') →
        Evolves m e el (.issue e) el'
  | responded {a : AccessId} {data : List UInt8} {el' : Element} :
      m.Answered a (settleData data) el el' → Evolves m e el (.respond a data) el'
  | failed {a : AccessId} {el' : Element} :
      m.Answered a Element.faultBlock el el' → Evolves m e el (.respondFault a) el'
  | written {vaddr : UInt64} {data : List UInt8} {el' : Element} {became : Bool} :
      el.setValue vaddr data = .ok (became, el') → Evolves m e el (.setValue e vaddr data) el'
  /-- A fixed value, or one that takes no time, lands at once. -/
  | delivered {st : LiveStream} {v : StreamValue} {el' : Element} :
      m.stream? el.stream = some st → el.addrReady = true → st.decl.role.loads = false →
        m.landing el v = .ok el' → Evolves m e el (.compute e) el'
  | scheduled {st : LiveStream} {r : Evaluation} :
      m.stream? el.stream = some st → el.addrReady = true → el.computeScheduled = false →
        m.evaluate e el st.decl = .ok r → st.decl.role.isCompute = true →
        Evolves m e el (.compute e) { el with computeScheduled := true }
  | landed {now : Nat} {p : PendingCompute} {el' : Element} :
      p ∈ m.pending → p.element = e → p.readyAt ≤ now → m.landing el p.result = .ok el' →
        Evolves m e el (.tick now) el'
  | flushed {aliased : Bool} : Evolves m e el (.flush e aliased) (el.flush aliased).2

theorem evolves_same (hnot : ¬ m.Concerns e el op) : m.Evolves e el op el :=
  .kept el.next el.stepped hnot

/-- A change of another element does not concern this one. -/
theorem evolves_put {el₁ el₂ : Element} (hel₁ : m.element? e' = some el₁)
    (hel : m.element? e = some el) (hel' : (m.putElement e' el₂).element? e = some el')
    (hnot : e' ≠ e → ¬ m.Concerns e el op) (hself : e' = e → el₁ = el → m.Evolves e el op el₂) :
    m.Evolves e el op el' := by
  rcases element?_putElement_cases hel₁ hel' with ⟨rfl, rfl⟩ | ⟨he, hold⟩
  · exact hself rfl (Option.some.inj (hel₁.symm.trans hel))
  · cases (hel.symm.trans hold)
    exact evolves_same (hnot fun hsame => he hsame.symm)

theorem Connected.evolves_issue (h : m.Connected k) (howned : m.Owned)
    {r : Except EngineError (List AccessId)} (hissue : m.issue e' = .ok (r, m'))
    (hel : m.element? e = some el) (hel' : m'.element? e = some el') :
    m.Evolves e el (.issue e') el' := by
  by_cases he : e' = e
  · subst he
    rcases h.element?_issue_self howned hissue hel with
      rfl | ⟨prev, plans, el₁, el₂, hbegins, hasked, hself, hcase⟩
    · cases (hel.symm.trans hel')
      exact .refusedRequest
    cases (hself.symm.trans hel')
    rcases hcase with ⟨hnone, rfl⟩ | ⟨hcopies, p, source, became, rfl, hsource, hcopied, hcopy⟩
    · exact .requested hbegins hasked hnone
    · exact .copied hbegins hasked hcopies hsource hcopied hcopy
  · rw [h.element?_issue howned hissue (Ne.symm he), hel] at hel'
    cases hel'
    exact evolves_same he

theorem evolves_compute (hcompute : m.compute e' = .ok m') (hel : m.element? e = some el)
    (hel' : m'.element? e = some el') : m.Evolves e el (.compute e') el' := by
  rcases compute_eq_ok hcompute with
    ⟨el₁, st, hel₁, hst, haddr, hbusy, ⟨hidle, v, hcommit⟩ | hnormal⟩
  · rcases (commit_iff hel₁).1 hcommit with ⟨el₂, hland, rfl⟩
    refine evolves_put hel₁ hel hel' id ?_
    rintro rfl rfl
    exact .delivered hst haddr hidle hland
  rcases bind_eq_ok.1 hnormal with ⟨r, heval, hnormal⟩
  by_cases hlong : st.decl.role.isCompute = true
  · simp only [if_pos hlong] at hnormal
    rcases schedule_eq_ok hnormal with ⟨el₂, hel₂, rfl⟩
    cases (hel₁.symm.trans hel₂)
    refine evolves_put hel₁ hel hel' id ?_
    rintro rfl rfl
    exact .scheduled hst haddr hbusy heval hlong
  · simp only [if_neg hlong] at hnormal
    rcases (commit_iff hel₁).1 hnormal with ⟨el₂, hland, rfl⟩
    refine evolves_put hel₁ hel hel' id ?_
    rintro rfl rfl
    refine .delivered hst haddr ?_ hland
    -- a role that loads either computes nothing or takes its time
    cases hrole : st.decl.role <;> simp_all [Role.loads, Role.isCompute, evaluate, Element.fault]

theorem Owned.evolves_allocate (h : m.Owned) {r : Except EngineError ElementId}
    (hallocate : m.allocate s = .ok (r, m')) (hel : m.element? e = some el)
    (hel' : m'.element? e = some el') : m.Evolves e el (.allocate s) el' := by
  rcases h.allocate_cases hallocate with
    ⟨_, _, rfl⟩ | ⟨st, bases, own, e₁, _, _, _, _, hnone, _, hothers⟩
  · cases (hel.symm.trans hel')
    exact evolves_same id
  have hne : e ≠ e₁ := by
    rintro rfl
    cases (hel.symm.trans hnone)
  rw [hothers e hne, hel, Option.map_some] at hel'
  cases hel'
  by_cases hlast : st.chain.getLast? = some e
  · rw [if_pos hlast]
    exact .kept (some e₁) el.stepped id
  · rw [if_neg hlast]
    exact evolves_same id

theorem evolves_markAddrReady {r : Except EngineError Unit} (h : m.markAddrReady e' = .ok (r, m'))
    (hel : m.element? e = some el) (hel' : m'.element? e = some el') :
    m.Evolves e el (.markAddrReady e') el' := by
  rcases markAddrReady_eq_ok h with rfl | ⟨el₁, el₂, addr, hel₁, hready, _, rfl⟩
  · cases (hel.symm.trans hel')
    by_cases he : e' = e
    · subst he
      exact .refusedAddress
    · exact evolves_same he
  · refine evolves_put hel₁ hel hel' id ?_
    rintro rfl rfl
    exact .addressed hready

/-- Either the element waits for the answer, or it is not concerned. -/
theorem Connected.evolves_answer (h : m.Connected k)
    {settle : Element → Nat → Except Fault (Bool × Element)} {ready : List ElementId}
    (hanswer : m.answer a settle = .ok (ready, m')) (hel : m.element? e = some el)
    (hel' : m'.element? e = some el') (hconcerns : m.Concerns e el op → ∃ line, el.WaitsOn a line)
    (hanswered : m.Answered a settle el el' → m.Evolves e el op el') : m.Evolves e el op el' := by
  rcases h.element?_answer hanswer hel with ⟨hnot, hsame⟩ | ⟨_, el₁, hel₁, htold⟩
  · cases (hsame.symm.trans hel')
    exact evolves_same fun hconcerned => hnot (hconcerns hconcerned)
  · cases (hel₁.symm.trans hel')
    exact hanswered htold

theorem Scheduled.evolves_tick (h : m.Scheduled) {now : Nat} {done : List ElementId}
    (htick : m.tick now = .ok (done, m')) (hel : m.element? e = some el)
    (hel' : m'.element? e = some el') : m.Evolves e el (.tick now) el' := by
  rcases h.element?_tick htick hel with ⟨hnone, hsame⟩ | ⟨p, hp, he, hdue, el₁, hland, hel₁⟩
  · cases (hsame.symm.trans hel')
    refine evolves_same ?_
    rintro ⟨p, hp, he, hdue⟩
    exact hnone p hp he hdue
  · cases (hel₁.symm.trans hel')
    exact .landed hp he hdue hland

theorem evolves_flush {aliased : Bool} (h : m.flush e' aliased = .ok m') (hel : m.element? e = some el)
    (hel' : m'.element? e = some el') : m.Evolves e el (.flush e' aliased) el' := by
  rcases flush_eq_ok h with ⟨el₁, pool, hel₁, _, rfl⟩
  rcases element?_putElement_cases (m := m.dropPending e') hel₁ hel' with ⟨rfl, rfl⟩ | ⟨he, hold⟩
  · cases (hel.symm.trans hel₁)
    exact .flushed
  · cases (hel.symm.trans hold)
    exact evolves_same (Ne.symm he)

theorem Connected.evolves (h : m.Connected k) (howned : m.Owned) (hscheduled : m.Scheduled)
    (happly : m.apply op = .ok m') (hel : m.element? e = some el) (hel' : m'.element? e = some el') :
    m.Evolves e el op el' := by
  have hleft : m.element? e = some el' → (¬ m.Concerns e el op) → m.Evolves e el op el' := by
    intro hsame hnot
    cases (hel.symm.trans hsame)
    exact evolves_same hnot
  cases op with
  | configure d =>
      rcases map_snd_eq_ok happly with ⟨_, hop⟩
      rcases configure_eq_ok hop with ⟨_, config, graph, graph', bases, _, _, rfl⟩
      exact hleft hel' id
  | allocate s =>
      rcases map_snd_eq_ok happly with ⟨r, hop⟩
      exact howned.evolves_allocate hop hel hel'
  | markAddrReady e₁ =>
      rcases map_snd_eq_ok happly with ⟨r, hop⟩
      exact evolves_markAddrReady hop hel hel'
  | issue e₁ =>
      rcases map_snd_eq_ok happly with ⟨r, hop⟩
      exact h.evolves_issue howned hop hel hel'
  | respond a data =>
      rcases map_snd_eq_ok happly with ⟨ready, hop⟩
      exact h.evolves_answer hop hel hel' id .responded
  | respondFault a =>
      rcases map_snd_eq_ok happly with ⟨ready, hop⟩
      exact h.evolves_answer hop hel hel' id .failed
  | setValue e₁ vaddr data =>
      rcases map_snd_eq_ok happly with ⟨became, hop⟩
      rcases setValue_eq_ok hop with ⟨el₁, el₂, hel₁, hset, rfl⟩
      refine evolves_put hel₁ hel hel' id ?_
      rintro rfl rfl
      exact .written hset
  | setValueFromPrevious e₁ =>
      -- between two operations nothing waits for the element before
      rcases map_snd_eq_ok happly with ⟨became, hop⟩
      rcases setValueFromPrevious_eq_ok hop with ⟨el₁, el₂, p, source, _, hel₁, _, hcopy, rfl⟩
      refine evolves_put hel₁ hel hel' (fun _ => id) ?_
      rintro rfl rfl
      rw [Element.copyFromPrev_resting (h.resting _ _ hel₁) hcopy]
      exact evolves_same id
  | compute e₁ => exact evolves_compute happly hel hel'
  | tick now =>
      rcases map_snd_eq_ok happly with ⟨done, hop⟩
      exact hscheduled.evolves_tick hop hel hel'
  | setFinalValue s idx w =>
      rcases map_snd_eq_ok happly with ⟨r, hop⟩
      rcases setFinalValue_eq_ok hop with rfl | ⟨st, _, _, rfl⟩
      · exact hleft hel' id
      · exact hleft hel' id
  | step s =>
      rcases map_snd_eq_ok happly with ⟨r, hop⟩
      rcases step_eq_ok hop with ⟨_, rfl⟩ | ⟨st, e₁, el₁, i, _, _, hel₁, _, _, _, rfl⟩
      · exact hleft hel' id
      · refine evolves_put hel₁ hel hel' (fun _ => id) ?_
        rintro rfl rfl
        exact .kept _ true id
  | flush e₁ aliased => exact evolves_flush happly hel hel'
  | release _ | releaseStepped _ | endStream _ =>
      exact hleft (element?_of_isRelease happly trivial hel') id

end Manager
end StreamEngine
