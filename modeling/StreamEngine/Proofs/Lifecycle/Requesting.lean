import StreamEngine.Proofs.Lifecycle.Departures
import StreamEngine.Proofs.Lifecycle.Links

/-!
# Requests and what waits for them

A request makes every block of an element wait that was not asked for yet. The element cannot be known to
an access that it is about to wait on: it would wait on it with a block of the same line already.

- `Manager.Connected` : blocks and accesses agree, and nothing waits for the previous element;
- `Linked.attach_ok` : a block can always begin to wait on an access of its line with room;
- `Requesting` : a manager in the middle of a request;
- `Requesting.issueBlocks_ok` : plans are carried out without a fault;
- `Connected.issue`.
-/

namespace StreamEngine
namespace Manager

variable {k : Nat} {m m' : Manager} {e p : ElementId} {el el' : Element} {s : StreamId}
  {st : LiveStream} {a : AccessId} {access : Access} {i : Nat} {b : Block}

/-! ## Between two operations -/

structure Connected (k : Nat) (m : Manager) : Prop where
  size_eq : m.options.lineSize = 2 ^ k
  linked : m.Linked k m.accesses.Serves
  pool : m.accesses.Tidy
  resting : m.Resting

theorem connected_new {o : Options} (h : o.lineSize = 2 ^ k) :
    ({ options := o } : Manager).Connected k where
  size_eq := h
  linked := by
    refine ⟨?_, ?_⟩
    · intro e el hel
      cases hel
    · intro a e s line
      constructor
      · rintro ⟨el, hel, _⟩
        cases hel
      · rintro ⟨access, hfind, _⟩
        cases hfind
  pool := AccessPool.tidy_empty
  resting := resting_new o

/-- Streams, configurations, instances, computations and the clock do not matter. -/
theorem Connected.congr (h : m.Connected k) (hoptions : m'.options = m.options)
    (helements : m'.elements = m.elements) (haccesses : m'.accesses = m.accesses) :
    m'.Connected k := by
  have helement : ∀ e, m'.element? e = m.element? e := fun e => by rw [element?, helements]; rfl
  refine ⟨hoptions ▸ h.size_eq, ?_, haccesses ▸ h.pool, ?_⟩
  · exact h.linked.congr helement fun _ _ _ _ => by rw [haccesses]
  · exact fun e el hel => h.resting e el (helement e ▸ hel)

/-- An element may be replaced by one that waits for the same. -/
theorem Connected.putSame (h : m.Connected k) (hel : m.element? e = some el)
    (hstream : el'.stream = el.stream) (htidy : el'.Tidy k)
    (hwaits : ∀ a line, el'.WaitsOn a line ↔ el.WaitsOn a line)
    (hrest : ∀ b ∈ el'.blocks, b.state ≠ .prevElement) : (m.putElement e el').Connected k :=
  ⟨h.size_eq, h.linked.putSame hel hstream htidy hwaits, h.pool, h.resting.putElement hel hrest⟩

/-- What is not about blocks may change. -/
theorem Connected.putBlocks (h : m.Connected k) (hel : m.element? e = some el)
    (hshape : el'.stream = el.stream ∧ el'.lineSize = el.lineSize ∧ el'.addrReady = el.addrReady ∧
      el'.blocks = el.blocks) : (m.putElement e el').Connected k := by
  rcases hshape with ⟨hstream, hsize, hready, hblocks⟩
  have htidy := h.linked.tidy e el hel
  refine h.putSame hel hstream (htidy.congr hsize hready hblocks) ?_ ?_
  · intro a line
    simp only [Element.WaitsOn, hblocks]
  · rw [hblocks]
    exact h.resting e el hel

theorem Connected.advances (h : m.Connected k) (hel : m.element? e = some el)
    (hadv : el.Advances el') : (m.putElement e el').Connected k :=
  ⟨h.size_eq, h.linked.advances hel hadv, h.pool, h.resting.advances hel hadv rfl⟩

/-! ## The element before -/

/-- The element before belongs to the same stream, and is another one. -/
theorem Owned.before (h : m.Owned) (hst : m.stream? s = some st) (hp : before? st.chain e = some p) :
    p ≠ e ∧ ∃ elp, m.element? p = some elp ∧ elp.stream = s := by
  have hchained := h.chained s st hst
  rcases before?_ne hchained.nodup hp with ⟨hmem, hne⟩
  exact ⟨hne, hchained.exists_element hmem⟩

/-- An allocated element is in the chain of its stream, so it is known which one is before it. -/
theorem Owned.previous?_ok (h : m.Owned) (hel : m.element? e = some el) :
    ∃ prev, m.previous? e = .ok prev := by
  rcases h.home e el.place (place?_eq hel) with ⟨st, hst, hmem⟩
  rcases (h.chained _ st hst).placed with ⟨n, _, hplaced⟩
  have hposition : ∃ i, positionIn e st.chain = some i := by
    cases hnone : positionIn e st.chain with
    | some i => exact ⟨i, rfl⟩
    | none =>
        have hnot := List.findIdx?_eq_none_iff.1 hnone e hmem
        simp at hnot
  rcases hposition with ⟨i, hi⟩
  have hei : st.chain[i]? = some e := by
    rcases List.findIdx?_eq_some_iff_getElem.1 hi with ⟨hlt, heq, _⟩
    rw [List.getElem?_eq_getElem hlt, beq_iff_eq.1 heq]
  cases i with
  | zero =>
      refine ⟨none, bind_eq_ok.2 ⟨el, element_eq_ok.2 hel, bind_eq_ok.2 ⟨st, stream_eq_ok.2 hst, ?_⟩⟩⟩
      rw [hi]
      rfl
  | succ i =>
      have hlt : i < st.chain.length := by
        have hlt' := (List.getElem?_eq_some_iff.1 hei).1
        omega
      have hpi := List.getElem?_eq_getElem hlt
      rcases place?_eq_some.1 (hplaced i _ hpi) with ⟨prev, hprev, hplace⟩
      refine ⟨some st.chain[i], bind_eq_ok.2 ⟨el, element_eq_ok.2 hel,
        bind_eq_ok.2 ⟨st, stream_eq_ok.2 hst, ?_⟩⟩⟩
      simp only [hi, hpi]
      refine bind_eq_ok.2 ⟨prev, element_eq_ok.2 hprev, ?_⟩
      -- the successor of a member is the one behind it in the chain
      have hnext : prev.next = some e := by
        have hplaceNext := congrArg Place.next hplace
        simp only [Element.place, LiveStream.placeAt] at hplaceNext
        rw [hplaceNext, hei]
      rw [if_neg (not_not.2 hnext)]
      rfl

/-! ## Registering with an access -/

theorem attach_eq {receivers : Receivers} (hfind : m.accesses.find? a = some access)
    (hregister : access.receivers.register e = .ok (some receivers))
    (hel : m.element? e = some el) (i : Nat) :
    m.attach e i a = .ok (.ok (),
      ({ m with accesses := m.accesses.put a { access with receivers } } : Manager).putElement e
        (el.setBlock i fun b => { b with access := some a, state := .issued })) := by
  refine bind_eq_ok.2 ⟨access, AccessPool.get_eq_ok.2 hfind, ?_⟩
  have haccess : access.register e m.options.policy = .ok { access with receivers } := by
    rw [Access.register, hregister]
    rfl
  rw [haccess]
  exact bind_eq_ok.2 ⟨_, bind_eq_ok.2 ⟨el, element_eq_ok.2 hel, rfl⟩, rfl⟩

/-- An element that waits on an access of the line of a block waits on it with this block. -/
theorem Linked.not_mem_of_initialized (h : m.Linked k m.accesses.Serves) (hel : m.element? e = some el)
    (hb : el.blocks[i]? = some b) (hstate : b.state = .initialized)
    (hfind : m.accesses.find? a = some access) (hline : access.line = b.line) :
    a ∉ el.blocks.filterMap Block.access := by
  have htidy := h.tidy e el hel
  have hmem := List.mem_of_getElem? hb
  intro hwaits
  rcases Element.exists_waitsOn hwaits with ⟨line, hwaits⟩
  rcases (h.serves_iff hel).2 ⟨rfl, hwaits⟩ with ⟨found, hfound, _, hl, _⟩
  rw [hfind] at hfound
  cases hfound
  rcases hwaits with ⟨c, hc, hcl, hca⟩
  have hsame : c = b := List.inj_on_of_nodup_map htidy.lines hc hmem (hcl.trans (hl.symm.trans hline))
  rw [hsame, htidy.idle b hmem hstate] at hca
  cases hca

/-- A block that was not asked for can begin to wait on an access of its line. -/
theorem Linked.attach_ok (h : m.Linked k m.accesses.Serves) (hpool : m.accesses.Tidy)
    (hel : m.element? e = some el) (hb : el.blocks[i]? = some b) (hstate : b.state = .initialized)
    (hfind : m.accesses.find? a = some access) (hline : access.line = b.line)
    (hstream : access.stream = el.stream) (hroom : access.receivers.hasRoomFor e = true) :
    ∃ receivers, access.receivers.register e = .ok (some receivers) ∧
      (m.accesses.put a { access with receivers }).Tidy ∧
      (({ m with accesses := m.accesses.put a { access with receivers } } : Manager).putElement e
        (el.setBlock i fun b => { b with access := some a, state := .issued })).Linked k
        (m.accesses.put a { access with receivers }).Serves := by
  have htidy := h.tidy e el hel
  have hidle := htidy.idle b (List.mem_of_getElem? hb) hstate
  have hfree := h.not_mem_of_initialized hel hb hstate hfind hline
  have hunheard : ¬ access.receivers.Hears e := by
    intro hears
    have hserves : m.accesses.Serves a e access.stream access.line := ⟨access, hfind, rfl, rfl, hears⟩
    exact hfree (Element.waitsOn_mem ((h.serves_iff hel).1 hserves).2)
  rcases Receivers.register_ok hunheard hroom with ⟨receivers, hregister⟩
  refine ⟨receivers, hregister, hpool.put hfind ((hpool.receivers a access hfind).register hregister),
    ?_⟩
  have hset : (el.setBlock i fun b => { b with access := some a, state := .issued }).Tidy k := by
    refine htidy.setBlock hb (fun _ => rfl) ?_ ?_
    · intro hinitialized
      cases hinitialized
    · intro a' ha' _
      cases ha'
      exact hfree
  have h' : ({ m with accesses := m.accesses.put a { access with receivers } } : Manager).Linked k
      m.accesses.Serves := h.congr (fun _ => rfl) fun _ _ _ _ => Iff.rfl
  refine h'.putElement hel rfl hset ?_ ?_
  -- the element waits for one line more, the one that the access now serves it
  · intro a' s line
    rw [AccessPool.serves_register hfind hregister, h.serves_iff hel,
      htidy.waitsOn_setBlock (f := fun b => { b with access := some a, state := .issued }) hb
        fun _ => rfl]
    simp only [hidle, Option.some.injEq, true_and, reduceCtorEq, ne_eq, not_false_eq_true, hline,
      hstream]
    constructor
    · rintro (⟨hs, hwaits⟩ | ⟨rfl, rfl, rfl⟩)
      · exact ⟨hs, Or.inr hwaits⟩
      · exact ⟨rfl, Or.inl ⟨rfl, rfl⟩⟩
    · rintro ⟨hs, ⟨ha, hl⟩ | hwaits⟩
      · exact Or.inr ⟨ha.symm, hs.symm, hl⟩
      · exact Or.inl ⟨hs, hwaits⟩
  · intro a' e' s line hne
    rw [AccessPool.serves_register hfind hregister]
    simp only [hne, false_and, and_false, or_false]

/-! ## Carrying out plans -/

/-- A manager in the middle of a request by element `e` of stream `s`: it can carry out the plans that are
left, and only the element has changed. -/
structure Requesting (k : Nat) (m₀ : Manager) (e : ElementId) (s : StreamId) (prev : Option Element)
    (copies : Prop) (plans : List (Nat × IssuePlan)) (m : Manager) : Prop where
  linked : m.Linked k m.accesses.Serves
  pool : m.accesses.Tidy
  others : ∀ e', e' ≠ e → m.element? e' = m₀.element? e'
  nodup : (plans.map Prod.fst).Nodup
  own : ∃ el, m.element? e = some el ∧ el.stream = s ∧
    (∀ b ∈ el.blocks, b.state = .prevElement → copies) ∧
    ∀ (i : Nat) (plan : IssuePlan), (i, plan) ∈ plans → ∃ b : Block, el.blocks[i]? = some b ∧
      b.state = .initialized ∧ m.CarriesOut e s prev copies b.line plan

section Steps

variable {m₀ : Manager} {prev : Option Element} {copies : Prop} {plan : IssuePlan}
  {rest plans : List (Nat × IssuePlan)}

/-- Once the block of the first plan has changed, the other plans can still be carried out. -/
theorem Requesting.next (h : Requesting k m₀ e s prev copies ((i, plan) :: rest) m)
    (hel : m.element? e = some el) {f : Block → Block}
    (hprev : ∀ b, el.blocks[i]? = some b → (f b).state = .prevElement → copies) {p : AccessPool}
    (hgrows : Grows e m.accesses p) (hpool : p.Tidy)
    (hlinked : (({ m with accesses := p } : Manager).putElement e (el.setBlock i f)).Linked k
      p.Serves) :
    Requesting k m₀ e s prev copies rest
      (({ m with accesses := p } : Manager).putElement e (el.setBlock i f)) where
  linked := hlinked
  pool := hpool
  others := by
    intro e' he'
    exact (element?_putElement_of_ne (m := { m with accesses := p }) hel _ he').trans
      (h.others e' he')
  nodup := (List.nodup_cons.1 h.nodup).2
  own := by
    rcases h.own with ⟨el₀, hel₀, hs, hcopies, hplans⟩
    rw [hel] at hel₀
    cases hel₀
    exact ⟨el.setBlock i f, element?_putElement_self (m := { m with accesses := p }) hel _, hs,
      Element.forall_setBlock hprev hcopies, carriesOut_rest h.nodup hplans hgrows f⟩

/-- Waiting on an access of the line carries out the first plan. -/
theorem Requesting.attach (h : Requesting k m₀ e s prev copies ((i, plan) :: rest) m)
    (hel : m.element? e = some el) (hb : el.blocks[i]? = some b) (hstate : b.state = .initialized)
    {pool : AccessPool} (hgrows : Grows e m.accesses pool) (hpool : pool.Tidy)
    (hlinked : ({ m with accesses := pool } : Manager).Linked k pool.Serves)
    (hfind : pool.find? a = some access) (hline : access.line = b.line)
    (hstream : access.stream = el.stream) (hroom : access.receivers.hasRoomFor e = true) :
    ∃ m', ({ m with accesses := pool } : Manager).attach e i a = .ok (.ok (), m') ∧
      Requesting k m₀ e s prev copies rest m' := by
  rcases hlinked.attach_ok (m := { m with accesses := pool }) hpool hel hb hstate hfind hline
      hstream hroom with
    ⟨receivers, hregister, hpool', hlinked'⟩
  refine ⟨_, attach_eq (m := { m with accesses := pool }) hfind hregister hel i, ?_⟩
  refine h.next (f := fun b => { b with access := some a, state := .issued }) hel ?_
    (hgrows.trans (grows_put hfind hregister)) hpool' hlinked'
  intro _ _ hcontra
  cases hcontra

theorem Requesting.issueBlock_ok (h : Requesting k m₀ e s prev copies ((i, plan) :: rest) m) :
    ∃ made m', m.issueBlock e i plan = .ok (.ok made, m') ∧
      Requesting k m₀ e s prev copies rest m' := by
  rcases h.own with ⟨el, hel, hs, _, hplans⟩
  rcases hplans i plan (List.mem_cons_self ..) with ⟨b, hb, hstate, hcarries⟩
  cases plan with
  | share a =>
      rcases hcarries with ⟨access, hfind, hline, hstream, hroom⟩
      rcases h.attach hel hb hstate (fun _ access hfind => ⟨access, hfind, rfl, rfl, id⟩) h.pool
        h.linked hfind hline (hstream.trans hs.symm) hroom with ⟨m', hattach, hnext⟩
      exact ⟨none, m', bind_eq_ok.2 ⟨_, hattach, rfl⟩, hnext⟩
  | copyPrevious =>
      have htidy := h.linked.tidy e el hel
      have hidle := htidy.idle b (List.mem_of_getElem? hb) hstate
      let awaiting := el.setBlock i fun b => { b with state := .prevElement }
      refine ⟨none, m.putElement e awaiting, ?_, ?_⟩
      · exact bind_eq_ok.2 ⟨_, bind_eq_ok.2 ⟨el, element_eq_ok.2 hel, rfl⟩, rfl⟩
      · refine h.next (f := fun b => { b with state := .prevElement }) (p := m.accesses) hel
          (fun _ _ _ => hcarries.1) (fun _ access hfind => ⟨access, hfind, rfl, rfl, id⟩) h.pool ?_
        refine h.linked.putSame hel rfl ?_ ?_
        · refine htidy.setBlock hb (fun _ => rfl) (fun hinitialized => by cases hinitialized) ?_
          exact fun a ha hne => absurd ha hne
        · intro a line
          rw [htidy.waitsOn_setBlock (f := fun b => { b with state := .prevElement }) hb fun _ => rfl]
          simp [hidle]
  | fresh =>
      have hsound := h.pool.slab.sound
      have hfind : (m.accesses.alloc (accessFor e el b)).2.find?
          (m.accesses.alloc (accessFor e el b)).1 = some (accessFor e el b) := by
        rw [AccessPool.find?_alloc hsound, if_pos rfl]
      -- nobody waits on the new access yet
      have hlinked : ({ m with accesses := (m.accesses.alloc (accessFor e el b)).2 } : Manager).Linked
          k (m.accesses.alloc (accessFor e el b)).2.Serves :=
        h.linked.congr (fun _ => rfl) fun _ _ _ _ => AccessPool.serves_alloc hsound rfl
      rcases h.attach hel hb hstate (grows_alloc hsound _) (h.pool.alloc Receivers.tidy_empty) hlinked
        hfind rfl rfl rfl with ⟨m', hattach, hnext⟩
      refine ⟨some (m.accesses.alloc (accessFor e el b)).1, m', ?_, hnext⟩
      refine bind_eq_ok.2 ⟨el, element_eq_ok.2 hel, ?_⟩
      simp only [hb]
      exact bind_eq_ok.2 ⟨_, hattach, rfl⟩

theorem Requesting.issueBlocks_ok (h : Requesting k m₀ e s prev copies plans m) :
    ∃ made m', m.issueBlocks e plans = .ok (.ok made, m') ∧
      Requesting k m₀ e s prev copies [] m' := by
  induction plans generalizing m with
  | nil => exact ⟨[], m, rfl, h⟩
  | cons x rest ih =>
      rcases x with ⟨i, plan⟩
      rcases h.issueBlock_ok with ⟨made, m₁, hblock, h₁⟩
      rcases ih h₁ with ⟨more, m₂, hrest, h₂⟩
      refine ⟨made.toList ++ more, m₂, ?_, h₂⟩
      exact bind_eq_ok.2 ⟨_, hblock, bind_eq_ok.2 ⟨_, hrest, rfl⟩⟩

end Steps

/-! ## Whole requests -/

/-- A line is shared only with an access of this line and stream. -/
theorem Connected.share (h : m.Connected k) (howned : m.Owned) (hel : m.element? e = some el)
    {prev : Option ElementId} (hprev : m.previous? e = .ok prev) {line : UInt64}
    (hplan : planLine m.options.coalesce (prev.bind m.element?) line = .share a) :
    ∃ access, m.accesses.find? a = some access ∧ access.line = line ∧ access.stream = el.stream := by
  rcases planLine_share hplan with ⟨source, b, hsource, hb, rfl, ha⟩
  rcases Option.bind_eq_some_iff.1 hsource with ⟨p, hp, hsource⟩
  rcases previous?_eq_ok hprev with ⟨el₀, st, hel₀, hst, hbefore⟩
  rw [hel] at hel₀
  cases hel₀
  rcases (howned.before hst (hbefore ▸ hp)).2 with ⟨source', hsource', hstream⟩
  rw [hsource] at hsource'
  cases hsource'
  rcases (h.linked.serves_iff hsource).2 ⟨rfl, b, hb, rfl, ha⟩ with ⟨access, hfind, hs, hl, _⟩
  exact ⟨access, hfind, hl, hs.trans hstream⟩

/-- At the start of a request every plan can be carried out. -/
theorem Connected.requesting (h : m.Connected k) (howned : m.Owned) {prev : Option ElementId}
    {plans : List (Nat × IssuePlan)} (hbegins : m.Begins e prev el plans)
    (hroom : m.checkRoom e plans = .ok (.ok ())) :
    Requesting k m e el.stream (prev.bind m.element?) (∃ i, (i, IssuePlan.copyPrevious) ∈ plans)
      plans m where
  linked := h.linked
  pool := h.pool
  others := fun _ _ => rfl
  nodup := hbegins.nodup
  own := by
    have hel := hbegins.element
    exact ⟨el, hel, rfl, fun b hb hstate => absurd hstate (h.resting e el hel b hb),
      hbegins.carriesOut hroom fun _ _ => h.share howned hel hbegins.previous⟩

theorem Requesting.setIssued {m₀ : Manager} {prev : Option Element} {copies : Prop}
    (h : Requesting k m₀ e s prev copies [] m) (hel : m.element? e = some el) :
    Requesting k m₀ e s prev copies [] (m.putElement e { el with reqIssued := true }) where
  linked := by
    have htidy := h.linked.tidy e el hel
    refine h.linked.putSame hel rfl ?_ fun _ _ => Iff.rfl
    exact htidy.congr rfl rfl rfl
  pool := h.pool
  others := by
    intro e' he'
    rw [element?_putElement_of_ne hel _ he']
    exact h.others e' he'
  nodup := List.nodup_nil
  own := by
    rcases h.own with ⟨el₀, hel₀, hs, hcopies, _⟩
    rw [hel] at hel₀
    cases hel₀
    exact ⟨_, element?_putElement_self hel _, hs, hcopies, fun _ _ hmem => by cases hmem⟩

/-- At the end of a request nothing waits for the previous element any more. -/
theorem Requesting.connected {m₀ : Manager} {prev : Option Element} {plans : List (Nat × IssuePlan)}
    (h : Requesting k m₀ e s prev (∃ i, (i, IssuePlan.copyPrevious) ∈ plans) [] m)
    (h₀ : m₀.Connected k) (hoptions : m.options = m₀.options) (hends : m.Ends e plans m') :
    m'.Connected k := by
  rcases hends with ⟨el, hel, hends⟩
  have hasked := h.setIssued hel
  rcases hasked.own with ⟨el₁, hel₁, _, hcopies, _⟩
  have hothers : ∀ e' el', e' ≠ e →
      (m.putElement e { el with reqIssued := true }).element? e' = some el' →
      ∀ b ∈ el'.blocks, b.state ≠ .prevElement := by
    intro e' el' he hel'
    rw [hasked.others e' he] at hel'
    exact h₀.resting e' el' hel'
  rcases hends with ⟨hnone, rfl⟩ | ⟨_, became, hset⟩
  · refine ⟨hoptions ▸ h₀.size_eq, hasked.linked, hasked.pool, ?_⟩
    intro e' el' hel'
    by_cases he : e' = e
    · -- no plan was a copy, so nothing waits for one
      rw [he, hel₁] at hel'
      cases hel'
      intro b hb hstate
      rcases hcopies b hb hstate with ⟨i, hmem⟩
      exact hnone i hmem
    · exact hothers e' el' he hel'
  · rcases setValueFromPrevious_eq_ok hset with ⟨el₂, el', p, source, _, hel₂, _, hcopy, rfl⟩
    have hpos : 0 < el₂.lineSize := by
      rw [(hasked.linked.tidy e el₂ hel₂).size_eq]
      exact Nat.two_pow_pos k
    have hadv := Element.advances_copyFromPrev hcopy
    refine ⟨hoptions ▸ h₀.size_eq, hasked.linked.advances hel₂ hadv, hasked.pool, ?_⟩
    intro e' el₃ hel₃
    rcases element?_putElement_cases hel₂ hel₃ with ⟨_, rfl⟩ | ⟨he, hold⟩
    · exact Element.not_prevElement_of_copyFromPrev hpos hcopy
    · exact hothers e' el₃ he hold

/-- A request is refused before anything is asked for, or all its plans are carried out. -/
theorem Connected.issue_cases (h : m.Connected k) (howned : m.Owned)
    {r : Except EngineError (List AccessId)} (hissue : m.issue e = .ok (r, m')) :
    ∃ prev el plans, m.Begins e prev el plans ∧
      ((∃ err, m.checkRoom e plans = .ok (.error err)) ∧ m' = m ∨
        ∃ made m₁, m.issueBlocks e plans = .ok (.ok made, m₁) ∧
          Requesting k m e el.stream (prev.bind m.element?)
            (∃ i, (i, IssuePlan.copyPrevious) ∈ plans) [] m₁ ∧ m₁.Ends e plans m') := by
  rcases issue_eq_ok hissue with ⟨prev, el, plans, hbegins, hrefused | ⟨hroom, r₁, m₁, hblocks, hcase⟩⟩
  · exact ⟨prev, el, plans, hbegins, Or.inl hrefused⟩
  rcases (h.requesting howned hbegins hroom).issueBlocks_ok with ⟨made, m₂, hblocks', hdone⟩
  cases (hblocks.symm.trans hblocks')
  rcases hcase with ⟨⟨err, hcontra⟩, _⟩ | ⟨_, hends⟩
  · cases hcontra
  · exact ⟨prev, el, plans, hbegins, Or.inr ⟨made, m₁, hblocks, hdone, hends⟩⟩

theorem Connected.issue (h : m.Connected k) (howned : m.Owned)
    {r : Except EngineError (List AccessId)} (hissue : m.issue e = .ok (r, m')) : m'.Connected k := by
  rcases h.issue_cases howned hissue with
    ⟨prev, el, plans, _, ⟨_, rfl⟩ | ⟨made, m₁, hblocks, hdone, hends⟩⟩
  · exact h
  · have hoptions : m₁.options = m.options := by rw [(exchanges_issueBlocks hblocks).shape]
    exact hdone.connected h hoptions hends

end Manager
end StreamEngine
