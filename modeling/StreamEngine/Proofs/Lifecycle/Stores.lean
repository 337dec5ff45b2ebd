import StreamEngine.Proofs.Lifecycle.Completing
import StreamEngine.Proofs.Lifecycle.Contents
import StreamEngine.Proofs.Lifecycle.Leaving

/-!
# What makes the element of a store value ready

The value of a store comes from the core or from a computation. Answers keep out of it. A request does not:
it copies a line that the element before holds already, and an element all of whose lines are copied or
settled becomes value ready by its own request.

- `issueBlocks_asked` : the blocks of an element after its plans were carried out;
- `Manager.CopiesLine`, `Manager.Completes` : requests that copy, and those that complete the element;
- `Connected.valueReady_issue` : a request completes an element in no other way;
- `Connected.content_eq` : what leaves the element of a store alone;
- `run_stores` : where readiness comes from, after every run.
-/

namespace StreamEngine
namespace Manager

variable {k i : Nat} {m m' : Manager} {e e' : ElementId} {el el' : Element} {s : StreamId}
  {st : LiveStream} {plan : IssuePlan} {plans : List (Nat × IssuePlan)}

/-! ## Plans that were carried out -/

/-- State of a block whose plan was carried out. -/
def IssuePlan.blockState : IssuePlan → BlockState
  | .fresh => .issued
  | .share _ => .issued
  | .copyPrevious => .prevElement

/-- The element after the plans for its blocks were carried out. -/
structure Asked (plans : List (Nat × IssuePlan)) (el el' : Element) : Prop where
  shape : el' = { el with blocks := el'.blocks }
  length_eq : el'.blocks.length = el.blocks.length
  block : ∀ (j : Nat) (b : Block), el.blocks[j]? = some b → ∃ b', el'.blocks[j]? = some b' ∧
    b'.line = b.line ∧ ((∃ plan, (j, plan) ∈ plans ∧ b'.state = plan.blockState) ∨
      (∀ plan, (j, plan) ∉ plans) ∧ b'.state = b.state)

theorem attach_eq_put {a : AccessId} (h : m.attach e i a = .ok (.ok (), m')) :
    ∃ el pool, m.element? e = some el ∧ m' = ({ m with accesses := pool } : Manager).putElement e
      (el.setBlock i fun b => { b with access := some a, state := .issued }) := by
  rcases attach_cases h with ⟨⟨_, _, _, _, herr⟩, _⟩ | ⟨_, access, receivers, el, _, _, hel, rfl⟩
  · cases herr
  · exact ⟨el, _, hel, rfl⟩

/-- Carrying out a plan changes its block, and which accesses are in flight. -/
theorem issueBlock_eq_ok {made : Option AccessId} (h : m.issueBlock e i plan = .ok (.ok made, m')) :
    ∃ el pool f, m.element? e = some el ∧
      (∀ b : Block, (f b).line = b.line ∧ (f b).state = plan.blockState) ∧
      m' = ({ m with accesses := pool } : Manager).putElement e (el.setBlock i f) := by
  rcases issueBlock_cases h with
    ⟨a, r, rfl, hattach, hr⟩ | ⟨rfl, _, el, hel, rfl⟩ | ⟨el, b, r, rfl, _, _, hattach, hr⟩
  · cases r with
    | error err => cases hr
    | ok u =>
        rcases attach_eq_put hattach with ⟨el, pool, hel, hput⟩
        refine ⟨el, pool, fun b => { b with access := some a, state := .issued }, hel, ?_, hput⟩
        exact fun b => ⟨rfl, rfl⟩
  · exact ⟨el, m.accesses, fun b => { b with state := .prevElement }, hel, fun b => ⟨rfl, rfl⟩, rfl⟩
  · cases r with
    | error err => cases hr
    | ok u =>
        rcases attach_eq_put hattach with ⟨el', pool, hel', hput⟩
        let a := (m.accesses.alloc (accessFor e el b)).1
        refine ⟨el', pool, fun b => { b with access := some a, state := .issued }, hel', ?_, hput⟩
        exact fun b => ⟨rfl, rfl⟩

theorem asked_nil (el : Element) : Asked [] el el :=
  ⟨rfl, rfl, fun _ b hb => ⟨b, hb, rfl, Or.inr ⟨fun _ => List.not_mem_nil, rfl⟩⟩⟩

/-- The first plan changes its own block, which the other plans are not about. -/
theorem Asked.cons {f : Block → Block} (hf : ∀ b, (f b).line = b.line ∧ (f b).state = plan.blockState)
    (hnot : i ∉ plans.map Prod.fst) (h : Asked plans (el.setBlock i f) el') :
    Asked ((i, plan) :: plans) el el' where
  shape := h.shape
  length_eq := h.length_eq.trans (List.length_modify _ _ _)
  block := by
    intro j b hb
    by_cases hji : j = i
    · subst hji
      rcases h.block j (f b) (Element.getElem?_setBlock hb) with ⟨b', hb', hline, hstate⟩
      refine ⟨b', hb', hline.trans (hf b).1, Or.inl ⟨plan, List.mem_cons_self .., ?_⟩⟩
      rcases hstate with ⟨plan', hmem, _⟩ | ⟨_, hsame⟩
      · exact absurd (List.mem_map.2 ⟨_, hmem, rfl⟩) hnot
      · exact hsame.trans (hf b).2
    · rcases h.block j b ((Element.getElem?_setBlock_of_ne hji).trans hb) with
        ⟨b', hb', hline, hstate⟩
      refine ⟨b', hb', hline, ?_⟩
      rcases hstate with ⟨plan', hmem, hstate⟩ | ⟨hnone, hsame⟩
      · exact Or.inl ⟨plan', List.mem_cons_of_mem _ hmem, hstate⟩
      · refine Or.inr ⟨?_, hsame⟩
        intro plan' hmem
        rcases List.mem_cons.1 hmem with heq | hmem
        · exact hji (congrArg Prod.fst heq)
        · exact hnone plan' hmem

theorem issueBlocks_asked {made : List AccessId} (hnodup : (plans.map Prod.fst).Nodup)
    (hel : m.element? e = some el) (h : m.issueBlocks e plans = .ok (.ok made, m')) :
    ∃ el', m'.element? e = some el' ∧ Asked plans el el' := by
  induction plans generalizing m el made with
  | nil =>
      cases h
      exact ⟨el, hel, asked_nil el⟩
  | cons x rest ih =>
      rcases x with ⟨i, plan⟩
      rcases List.nodup_cons.1 hnodup with ⟨hnot, hnodup⟩
      rcases issueBlocks_cons_eq_ok h with
        ⟨first, m₁, hblock, ⟨⟨err, _, hrefused⟩, _⟩ | ⟨one, more, rfl, hrest, hmore⟩⟩
      · cases hrefused
      cases more with
      | error err => cases hmore
      | ok others =>
          rcases issueBlock_eq_ok hblock with ⟨el₀, pool, f, hel₀, hf, rfl⟩
          rw [hel] at hel₀
          cases hel₀
          have hel₁ := element?_putElement_self (m := { m with accesses := pool }) hel (el.setBlock i f)
          rcases ih hnodup hel₁ hrest with ⟨el', hel', hasked⟩
          exact ⟨el', hel', hasked.cons hf hnot⟩

/-! ## Requests that copy -/

/-- A request for the block takes its line from the element before. -/
def CopiesLine (m : Manager) (e : ElementId) (b : Block) : Prop :=
  b.state = .initialized ∧ ∃ prev, m.previous? e = .ok prev ∧
    planLine m.options.coalesce (prev.bind m.element?) b.line = .copyPrevious

/-- A request takes a line from the element before, and every block is settled or filled in this way. -/
def Completes (m : Manager) (e : ElementId) (el : Element) : Prop :=
  (∃ b ∈ el.blocks, m.CopiesLine e b) ∧
    ∀ b ∈ el.blocks, b.state.isSettled = true ∨ m.CopiesLine e b

theorem Begins.copiesLine_iff {prev : Option ElementId} (h : m.Begins e prev el plans) {j : Nat} {b : Block}
    (hb : el.blocks[j]? = some b) : m.CopiesLine e b ↔ (j, IssuePlan.copyPrevious) ∈ plans := by
  constructor
  · rintro ⟨hstate, prev', hprev, hplan⟩
    cases (h.previous.symm.trans hprev)
    have hmem : (0 + j, planLine m.options.coalesce (prev.bind m.element?) b.line) ∈
        plansFrom m.options.coalesce (prev.bind m.element?) 0 el.blocks :=
      mem_plansFrom_of_initialized hb hstate
    rw [hplan, Nat.zero_add] at hmem
    rw [h.plans_eq]
    exact hmem
  · intro hmem
    rcases h.block_of_mem hmem with ⟨b', hb', hstate, hplan⟩
    cases (hb.symm.trans hb')
    exact ⟨hstate, prev, h.previous, hplan.symm⟩

/-- A request is refused only where some line is to be shared. -/
theorem share_of_checkRoom {err : EngineError} (h : m.checkRoom e plans = .ok (.error err)) :
    ∃ i a, (i, IssuePlan.share a) ∈ plans := by
  induction plans with
  | nil => cases h
  | cons x rest ih =>
      have hlater : m.checkRoom e rest = .ok (.error err) → ∃ i a, (i, IssuePlan.share a) ∈ x :: rest := by
        intro hrest
        rcases ih hrest with ⟨i, a, hmem⟩
        exact ⟨i, a, List.mem_cons_of_mem x hmem⟩
      rcases x with ⟨i, plan⟩
      cases plan with
      | fresh => exact hlater h
      | copyPrevious => exact hlater h
      | share a => exact ⟨i, a, List.mem_cons_self ..⟩

/-- A block whose line is to be shared is not filled by the request. -/
theorem Begins.not_completes {prev : Option ElementId} {a : AccessId} (h : m.Begins e prev el plans)
    (hshare : (i, IssuePlan.share a) ∈ plans) : ¬ m.Completes e el := by
  rintro ⟨_, hall⟩
  rcases h.block_of_mem hshare with ⟨b, hb, hstate, hplan⟩
  rcases hall b (List.mem_of_getElem? hb) with hsettled | ⟨_, prev', hprev, hcopy⟩
  · rw [hstate] at hsettled
    cases hsettled
  · cases (h.previous.symm.trans hprev)
    cases hplan.trans hcopy

/-- After the plans were carried out, exactly the blocks of lines that are copied wait for the element
before. -/
theorem Begins.waits_iff {prev : Option ElementId} (h : m.Begins e prev el plans)
    (hrest : ∀ b ∈ el.blocks, b.state ≠ .prevElement) (hasked : Asked plans el el') {j : Nat} {b b' : Block}
    (hb : el.blocks[j]? = some b) (hb' : el'.blocks[j]? = some b') :
    (b'.state = .prevElement ↔ m.CopiesLine e b) ∧
      (b'.state.isSettled = true ↔ b.state.isSettled = true) := by
  rcases hasked.block j b hb with ⟨b₁, hb₁, _, hstate⟩
  cases (hb'.symm.trans hb₁)
  rw [h.copiesLine_iff hb]
  rcases hstate with ⟨plan, hmem, hstate⟩ | ⟨hnone, hstate⟩
  · -- a block with a plan was not asked for before, and has one plan only
    have hbefore : b.state = .initialized := by
      rcases h.block_of_mem hmem with ⟨b₀, hb₀, hinitialized, _⟩
      cases (hb.symm.trans hb₀)
      exact hinitialized
    have honly : (j, IssuePlan.copyPrevious) ∈ plans ↔ plan = .copyPrevious := by
      constructor
      · intro hcopy
        have hsame := List.inj_on_of_nodup_map h.nodup hmem hcopy rfl
        exact congrArg Prod.snd hsame
      · rintro rfl
        exact hmem
    rw [honly, hstate, hbefore]
    cases plan <;> simp [IssuePlan.blockState, BlockState.isSettled]
  · rw [hstate]
    exact ⟨iff_of_false (hrest b (List.mem_of_getElem? hb)) (hnone _), Iff.rfl⟩

theorem Begins.forall_iff {prev : Option ElementId} (h : m.Begins e prev el plans)
    (hrest : ∀ b ∈ el.blocks, b.state ≠ .prevElement) (hasked : Asked plans el el') :
    (∀ b ∈ el'.blocks, b.state.isSettled = true ∨ b.state = .prevElement) ↔
      ∀ b ∈ el.blocks, b.state.isSettled = true ∨ m.CopiesLine e b := by
  constructor
  · intro hall b hb
    rcases List.mem_iff_getElem?.1 hb with ⟨j, hj⟩
    rcases hasked.block j b hj with ⟨b', hb', _⟩
    rcases h.waits_iff hrest hasked hj hb' with ⟨hcopies, hsettled⟩
    rw [← hcopies, ← hsettled]
    exact hall b' (List.mem_of_getElem? hb')
  · intro hall b' hb'
    rcases List.mem_iff_getElem?.1 hb' with ⟨j, hj'⟩
    have hlt := (List.getElem?_eq_some_iff.1 hj').1
    rw [hasked.length_eq] at hlt
    have hj := List.getElem?_eq_getElem hlt
    rcases h.waits_iff hrest hasked hj hj' with ⟨hcopies, hsettled⟩
    rw [hcopies, hsettled]
    exact hall _ (List.getElem_mem hlt)

theorem isMem_of_checkIssue (h : checkIssue el = .ok ()) : el.isMem = true := by
  by_cases hmem : el.isMem = true
  · exact hmem
  · rw [checkIssue, if_pos (by simpa using hmem)] at h
    cases h

/-- Where a request copies a line, the copies complete the element if they fill what is not settled. -/
theorem Begins.valueReady_copied {prev : Option ElementId} {el₁ source : Element} {became : Bool}
    (h : m.Begins e prev el plans) (hrest : ∀ b ∈ el.blocks, b.state ≠ .prevElement)
    (hasked : Asked plans el el₁) (htidy : ({ el₁ with reqIssued := true } : Element).Tidy k)
    (hcopies : (i, IssuePlan.copyPrevious) ∈ plans)
    (hcopy : ({ el₁ with reqIssued := true } : Element).copyFromPrev source = .ok (became, el')) :
    (el'.valueReady = true ↔ el.valueReady = true ∨ m.Completes e el) ∧
      ∃ b ∈ el.blocks, m.CopiesLine e b := by
  rcases h.block_of_mem hcopies with ⟨b, hb, _, _⟩
  have hline := (h.copiesLine_iff hb).2 hcopies
  have hmem : el₁.isMem = true := by
    rw [hasked.shape]
    exact isMem_of_checkIssue h.check
  have hready : el₁.valueReady = el.valueReady := by rw [hasked.shape]
  have hwaits : ∃ b ∈ el₁.blocks, b.state = .prevElement := by
    rcases hasked.block i b hb with ⟨b', hb', _⟩
    exact ⟨b', List.mem_of_getElem? hb', (h.waits_iff hrest hasked hb hb').1.2 hline⟩
  refine ⟨?_, b, List.mem_of_getElem? hb, hline⟩
  calc
    el'.valueReady = true ↔
        el₁.valueReady = true ∨ ∀ b ∈ el₁.blocks, b.state.isSettled = true ∨ b.state = .prevElement :=
      htidy.valueReady_copyFromPrev hmem hwaits hcopy
    _ ↔ el.valueReady = true ∨ ∀ b ∈ el.blocks, b.state.isSettled = true ∨ m.CopiesLine e b := by
      rw [hready, h.forall_iff hrest hasked]
    _ ↔ el.valueReady = true ∨ m.Completes e el := by
      rw [Completes, and_iff_right ⟨b, List.mem_of_getElem? hb, hline⟩]

/-- A request completes an element by copies or not at all. Without copies it leaves the content alone. -/
theorem Connected.valueReady_issue (h : m.Connected k) (howned : m.Owned)
    {r : Except EngineError (List AccessId)} (hissue : m.issue e = .ok (r, m'))
    (hel : m.element? e = some el) (hel' : m'.element? e = some el') :
    (el'.valueReady = true ↔ el.valueReady = true ∨ m.Completes e el) ∧
      ((∀ b ∈ el.blocks, ¬ m.CopiesLine e b) → el'.content = el.content) := by
  rcases h.issue_cases howned hissue with
    ⟨prev, el₀, plans, hbegins, ⟨⟨err, hroom⟩, rfl⟩ | ⟨made, m₁, hblocks, hdone, el₁, hel₁, hends⟩⟩
  · cases (hel.symm.trans hbegins.element)
    cases (hel.symm.trans hel')
    rcases share_of_checkRoom hroom with ⟨i, a, hshare⟩
    refine ⟨⟨Or.inl, fun hor => hor.resolve_right (hbegins.not_completes hshare)⟩, fun _ => rfl⟩
  cases (hel.symm.trans hbegins.element)
  rcases issueBlocks_asked hbegins.nodup hel hblocks with ⟨el₂, hel₂, hasked⟩
  cases (hel₁.symm.trans hel₂)
  have hrest := h.resting e el hel
  have hready : el₁.valueReady = el.valueReady := by rw [hasked.shape]
  have hbuffer : el₁.buffer = el.buffer := by rw [hasked.shape]
  rcases hends with ⟨hnone, rfl⟩ | ⟨⟨i, hcopy⟩, became, hset⟩
  · cases ((element?_putElement_self hel₁ _).symm.trans hel')
    refine ⟨?_, fun _ => Prod.ext hready hbuffer⟩
    change el₁.valueReady = true ↔ _
    rw [hready]
    refine ⟨Or.inl, fun hor => hor.resolve_right ?_⟩
    rintro ⟨⟨b, hb, hcopies⟩, _⟩
    rcases List.mem_iff_getElem?.1 hb with ⟨j, hj⟩
    exact hnone j ((hbegins.copiesLine_iff hj).1 hcopies)
  · rcases setValueFromPrevious_eq_ok hset with ⟨el₃, el₄, p, source, _, hel₃, _, hcopied, rfl⟩
    cases ((element?_putElement_self hel₁ _).symm.trans hel₃)
    cases ((element?_putElement_self (element?_putElement_self hel₁ _) _).symm.trans hel')
    have htidy := (hdone.setIssued hel₁).linked.tidy e _ (element?_putElement_self hel₁ _)
    rcases hbegins.valueReady_copied hrest hasked htidy hcopy hcopied with ⟨hiff, b, hb, hline⟩
    exact ⟨hiff, fun hnone => absurd hline (hnone b hb)⟩

/-! ## Operations that leave the element of a store alone -/

/-- A request changes no other element. -/
theorem Connected.element?_issue (h : m.Connected k) (howned : m.Owned)
    {r : Except EngineError (List AccessId)} (hissue : m.issue e = .ok (r, m')) (hne : e' ≠ e) :
    m'.element? e' = m.element? e' := by
  rcases h.issue_cases howned hissue with
    ⟨prev, el, plans, _, ⟨_, rfl⟩ | ⟨made, m₁, _, hdone, el₁, hel₁, hends⟩⟩
  · rfl
  have hothers := hdone.others e' hne
  have hput := (element?_putElement_of_ne hel₁ { el₁ with reqIssued := true } hne).trans hothers
  rcases hends with ⟨_, rfl⟩ | ⟨_, became, hset⟩
  · exact hput
  · rcases setValueFromPrevious_eq_ok hset with ⟨el₂, el₃, p, source, _, hel₂, _, _, rfl⟩
    exact (element?_putElement_of_ne hel₂ el₃ hne).trans hput

/-- An answer that reaches an element belongs to its stream. If that is a store, the answer is not used. -/
theorem Connected.content?_answer (h : m.Connected k) (hel : m.element? e = some el)
    (hst : m.stream? el.stream = some st) (hstore : st.decl.role.isStore = true) {a : AccessId}
    {settle : Element → Nat → Except Fault (Bool × Element)} {ready : List ElementId}
    (hanswer : m.answer a settle = .ok (ready, m')) : m'.content? e = m.content? e := by
  rcases answer_eq_ok hanswer with ⟨access, hfind, hdeliver⟩
  refine content?_deliver (m := { m with accesses := { slab := m.accesses.slab.erase a.val } }) ?_ hdeliver
  by_cases hmem : e ∈ access.receivers.drain.1
  · left
    have hears := (Receivers.mem_drain_iff (h.pool.receivers a access hfind)).1 hmem
    have hstream := ((h.linked.serves_iff hel).1 ⟨access, hfind, rfl, rfl, hears⟩).1
    rw [hstream] at hst
    simp only [hst, hstore]
  · exact Or.inr hmem

/-- The core or a computation gives the element its value. -/
def Writes (m : Manager) (e : ElementId) : Operation → Prop
  | .setValue e' _ _ => e' = e
  | .compute e' => e' = e
  | .tick now => ∃ p ∈ m.pending, p.element = e ∧ p.readyAt ≤ now
  | _ => False

/-- Apart from what gives it its value, an element changes when its address is fixed, when it asks for its
lines and when it is rewound. Nothing else changes what the element of a store holds. -/
theorem Connected.content?_apply (h : m.Connected k) (howned : m.Owned) {op : Operation}
    (happly : m.apply op = .ok m') (hel : m.element? e = some el) (hel' : m'.element? e = some el')
    (hst : m.stream? el.stream = some st) (hstore : st.decl.role.isStore = true)
    (hwrites : ¬ m.Writes e op) (hmark : op ≠ .markAddrReady e) (hissue : op ≠ .issue e)
    (hflush : ∀ aliased, op ≠ .flush e aliased) : m'.content? e = m.content? e := by
  -- an element that is left after a release is as it was
  have hleft : m.element? e = some el' → m'.content? e = m.content? e := by
    intro hsame
    rw [content?, content?, hel', hsame]
  cases op with
  | configure d =>
      rcases map_snd_eq_ok happly with ⟨id, hop⟩
      rcases configure_eq_ok hop with ⟨_, config, graph, graph', bases, _, _, rfl⟩
      exact content?_congr rfl e
  | allocate s =>
      rcases map_snd_eq_ok happly with ⟨r, hop⟩
      exact content?_allocate howned hop hel
  | markAddrReady e₁ =>
      rcases map_snd_eq_ok happly with ⟨r, hop⟩
      rcases markAddrReady_eq_ok hop with rfl | ⟨el₁, el₂, addr, hel₁, _, _, rfl⟩
      · rfl
      · exact content?_put_of_ne hel₁ el₂ fun he => hmark (by rw [he])
  | issue e₁ =>
      rcases map_snd_eq_ok happly with ⟨r, hop⟩
      have hne : e ≠ e₁ := fun he => hissue (by rw [he])
      rw [content?, content?, h.element?_issue howned hop hne]
  | respond a data =>
      rcases map_snd_eq_ok happly with ⟨ready, hop⟩
      exact h.content?_answer hel hst hstore hop
  | respondFault a =>
      rcases map_snd_eq_ok happly with ⟨ready, hop⟩
      exact h.content?_answer hel hst hstore hop
  | setValue e₁ vaddr data =>
      rcases map_snd_eq_ok happly with ⟨became, hop⟩
      rcases setValue_eq_ok hop with ⟨el₁, el₂, hel₁, _, rfl⟩
      exact content?_put_of_ne hel₁ el₂ fun he => hwrites he.symm
  | setValueFromPrevious e₁ =>
      -- between two operations nothing waits for the element before
      rcases map_snd_eq_ok happly with ⟨became, hop⟩
      rcases setValueFromPrevious_eq_ok hop with ⟨el₁, el₂, p, source, _, hel₁, _, hcopy, rfl⟩
      rw [Element.copyFromPrev_resting (h.resting e₁ el₁ hel₁) hcopy]
      exact content?_put hel₁ rfl e
  | compute e₁ => exact content?_compute happly fun he => hwrites he.symm
  | tick now =>
      rcases map_snd_eq_ok happly with ⟨done, hop⟩
      exact content?_tick hop fun p hp he hdue => hwrites ⟨p, hp, he, hdue⟩
  | setFinalValue s idx w =>
      rcases map_snd_eq_ok happly with ⟨r, hop⟩
      rcases setFinalValue_eq_ok hop with rfl | ⟨st₁, _, _, rfl⟩ <;> rfl
  | step s =>
      rcases map_snd_eq_ok happly with ⟨r, hop⟩
      exact content?_step hop e
  | flush e₁ aliased =>
      rcases flush_eq_ok happly with ⟨el₁, pool, hel₁, _, rfl⟩
      have hne : e ≠ e₁ := fun he => hflush aliased (by rw [he])
      exact content?_put_of_ne hel₁ (el₁.flush aliased).2 hne
  | release _ | releaseStepped _ | endStream _ => exact hleft (element?_of_isRelease happly trivial hel')

/-! ## Runs -/

theorem valueReady_markAddrReady {r : Except EngineError Unit} (h : m.markAddrReady e = .ok (r, m'))
    (hel : m.element? e = some el) (hel' : m'.element? e = some el') :
    el'.valueReady = el.valueReady := by
  rcases markAddrReady_eq_ok h with rfl | ⟨el₁, el₂, addr, hel₁, hready, _, rfl⟩
  · cases (hel.symm.trans hel')
    rfl
  · cases (hel.symm.trans hel₁)
    cases ((element?_putElement_self hel el₂).symm.trans hel')
    rcases Element.markAddrReady_eq_ok hready with ⟨_, start, blocks, _, rfl⟩
    rfl

theorem valueReady_flush {aliased : Bool} (h : m.flush e aliased = .ok m')
    (hel' : m'.element? e = some el') : el'.valueReady = false := by
  rcases flush_eq_ok h with ⟨el₁, pool, hel₁, _, rfl⟩
  cases ((element?_putElement_self (m := m.dropPending e) hel₁ (el₁.flush aliased).2).symm.trans hel')
  rfl

/-- Requests for lines and their answers. -/
def IsTraffic : Operation → Prop
  | .issue _ => True
  | .respond _ _ => True
  | .respondFault _ => True
  | _ => False

/-- Whatever the operations before, the element of a store becomes value ready by a write, by a computation of
its own, or by a request that completes it. Answers leave it alone, and so does a request that copies no
line. -/
theorem run_stores (hk : k < 64) {o : Options} (hline : o.lineSize = 2 ^ k) {ops : List Operation}
    (hrun : Manager.run { options := o } ops = .ok m) {op : Operation} (happly : m.apply op = .ok m')
    (hel : m.element? e = some el) (hel' : m'.element? e = some el')
    (hst : m.stream? el.stream = some st) (hstore : st.decl.role.isStore = true) :
    (el.valueReady = false → el'.valueReady = true →
        m.Writes e op ∨ op = .issue e ∧ m.Completes e el) ∧
      (op = .issue e → (el'.valueReady = true ↔ el.valueReady = true ∨ m.Completes e el)) ∧
      (IsTraffic op → (op = .issue e → ∀ b ∈ el.blocks, ¬ m.CopiesLine e b) →
        el'.valueReady = el.valueReady ∧ el'.buffer = el.buffer) := by
  rcases connected_run hk hline hrun with ⟨howned, hconnected⟩
  have hrequest : op = .issue e →
      (el'.valueReady = true ↔ el.valueReady = true ∨ m.Completes e el) ∧
        ((∀ b ∈ el.blocks, ¬ m.CopiesLine e b) → el'.content = el.content) := by
    rintro rfl
    rcases map_snd_eq_ok happly with ⟨r, hop⟩
    exact hconnected.valueReady_issue howned hop hel hel'
  have hkept : ¬ m.Writes e op → op ≠ .markAddrReady e → op ≠ .issue e →
      (∀ aliased, op ≠ .flush e aliased) → el'.content = el.content := by
    intro hwrites hmark hissue hflush
    have hsame := hconnected.content?_apply howned happly hel hel' hst hstore hwrites hmark hissue hflush
    rw [content?, content?, hel, hel'] at hsame
    exact Option.some.inj hsame
  refine ⟨?_, fun hissue => (hrequest hissue).1, ?_⟩
  · intro hbefore hafter
    by_contra hnot
    rcases not_or.1 hnot with ⟨hwrites, hcompletes⟩
    have hissue : op ≠ .issue e := by
      intro hop
      rcases (hrequest hop).1.1 hafter with hready | hcomplete
      · exact Bool.false_ne_true (hbefore.symm.trans hready)
      · exact hcompletes ⟨hop, hcomplete⟩
    have hmark : op ≠ .markAddrReady e := by
      rintro rfl
      rcases map_snd_eq_ok happly with ⟨r, hop⟩
      exact Bool.false_ne_true (hbefore.symm.trans ((valueReady_markAddrReady hop hel hel').symm.trans hafter))
    have hflush : ∀ aliased, op ≠ .flush e aliased := by
      rintro aliased rfl
      exact Bool.false_ne_true ((valueReady_flush happly hel').symm.trans hafter)
    have hready := congrArg Prod.fst (hkept hwrites hmark hissue hflush)
    exact Bool.false_ne_true (hbefore.symm.trans (hready.symm.trans hafter))
  · intro htraffic hcopies
    by_cases hissue : op = .issue e
    · have hsame := (hrequest hissue).2 (hcopies hissue)
      exact ⟨congrArg Prod.fst hsame, congrArg Prod.snd hsame⟩
    · have hsame : el'.content = el.content := by
        refine hkept ?_ ?_ hissue ?_ <;> cases op <;> simp_all [IsTraffic, Writes]
      exact ⟨congrArg Prod.fst hsame, congrArg Prod.snd hsame⟩

/-! ## Two words on one line -/

/-- What is observed of an element before and after one more operation. -/
def observe {α : Type} (ops : List Operation) (op : Operation) (e : ElementId)
    (look : Element → Element → LiveStream → α) : Option α :=
  (Manager.run { options := {} } ops).toOption.bind fun m =>
    (m.apply op).toOption.bind fun m' =>
      (m.element? e).bind fun el =>
        (m'.element? e).bind fun el' => (m.stream? el.stream).map (look el el')

theorem observe_eq_some {α : Type} {ops : List Operation} {op : Operation}
    {look : Element → Element → LiveStream → α} {x : α} (h : observe ops op e look = some x) :
    ∃ m m' el el' st, Manager.run { options := {} } ops = .ok m ∧ m.apply op = .ok m' ∧
      m.element? e = some el ∧ m'.element? e = some el' ∧ m.stream? el.stream = some st ∧
      look el el' st = x := by
  have hok : ∀ {β : Type} {r : Except Fault β} {b : β}, r.toOption = some b → r = .ok b := by
    intro β r b hr
    cases r with
    | error f => cases hr
    | ok c =>
        cases hr
        rfl
  rcases Option.bind_eq_some_iff.1 h with ⟨m, hm, h⟩
  rcases Option.bind_eq_some_iff.1 h with ⟨m', hm', h⟩
  rcases Option.bind_eq_some_iff.1 h with ⟨el, hel, h⟩
  rcases Option.bind_eq_some_iff.1 h with ⟨el', hel', h⟩
  rcases Option.map_eq_some_iff.1 h with ⟨st, hst, h⟩
  exact ⟨m, m', el, el', st, hok hm, hok hm', hel, hel', hst, h⟩

/-- Words behind each other, to be stored. -/
def storedWords : Declaration :=
  { staticId := 1, role := .store, elemSize := 8, formal := Formal.ofWords [8, 0x1000] }

/-- Two elements whose addresses are ready, on one line. -/
def storesRun : List Operation :=
  let s : StreamId := { core := 0, staticId := 1, instanceNo := 1 }
  [.configure storedWords, .allocate s, .allocate s, .markAddrReady { val := 0 },
    .markAddrReady { val := 1 }]

/-- Both elements wait for one answer, which reaches neither of them. -/
theorem run_stores_answered :
    ∃ m m' el el',
      Manager.run { options := {} } (storesRun ++ [.issue { val := 0 }, .issue { val := 1 }]) = .ok m ∧
      m.apply (.respond { val := 0 } (List.replicate 64 7)) = .ok m' ∧
      m.element? { val := 1 } = some el ∧ m'.element? { val := 1 } = some el' ∧
      el'.valueReady = false ∧ el'.buffer = List.replicate 64 0 := by
  have hshape : observe (storesRun ++ [.issue { val := 0 }, .issue { val := 1 }])
      (.respond { val := 0 } (List.replicate 64 7)) { val := 1 }
      (fun el _ st => (el.valueReady, el.buffer, st.decl.role.isStore)) =
      some (false, List.replicate 64 0, true) := by
    decide +kernel
  rcases observe_eq_some hshape with ⟨m, m', el, el', st, hrun, happly, hel, hel', hst, hlook⟩
  rcases Prod.mk.inj hlook with ⟨hready, hlook⟩
  rcases Prod.mk.inj hlook with ⟨hbuffer, hstore⟩
  have hholds := run_stores (by decide : 6 < 64) (o := {}) rfl hrun happly hel hel' hst hstore
  rcases hholds.2.2 trivial (fun hcontra => by cases hcontra) with ⟨hready', hbuffer'⟩
  exact ⟨m, m', el, el', hrun, happly, hel, hel', hready'.trans hready, hbuffer'.trans hbuffer⟩

/-- Once the first word is written, the request of the second element takes the line over. The element is
value ready without a value of its own, and its bytes are overwritten. -/
theorem request_completes_store :
    ∃ m m' el el' st,
      Manager.run { options := {} }
        (storesRun ++ [.setValue { val := 0 } 0x1000 (List.replicate 8 7)]) = .ok m ∧
      m.apply (.issue { val := 1 }) = .ok m' ∧ m.element? { val := 1 } = some el ∧
      m'.element? { val := 1 } = some el' ∧ m.stream? el.stream = some st ∧
      (st.decl.role.isStore, el.valueReady, el'.valueReady) = (true, false, true) ∧
      el'.buffer ≠ el.buffer ∧
      el'.setValue 0x1008 (List.replicate 8 9) = .error (.element el'.label .valueReady) := by
  have hshape : observe (storesRun ++ [.setValue { val := 0 } 0x1000 (List.replicate 8 7)])
      (.issue { val := 1 }) { val := 1 } (fun el el' st =>
        ((st.decl.role.isStore, el.valueReady, el'.valueReady), decide (el'.buffer = el.buffer),
          match el'.setValue 0x1008 (List.replicate 8 9) with
          | .error f => decide (f = .element el'.label .valueReady)
          | .ok _ => false)) =
      some ((true, false, true), false, true) := by
    decide +kernel
  rcases observe_eq_some hshape with ⟨m, m', el, el', st, hrun, happly, hel, hel', hst, hlook⟩
  rcases Prod.mk.inj hlook with ⟨hready, hlook⟩
  rcases Prod.mk.inj hlook with ⟨hbuffer, hwrite⟩
  refine ⟨m, m', el, el', st, hrun, happly, hel, hel', hst, hready, of_decide_eq_false hbuffer, ?_⟩
  -- the core cannot give the element its own value any more
  cases hset : el'.setValue 0x1008 (List.replicate 8 9) with
  | ok x =>
      rw [hset] at hwrite
      cases hwrite
  | error f =>
      rw [hset] at hwrite
      rw [of_decide_eq_true hwrite]

end Manager
end StreamEngine
