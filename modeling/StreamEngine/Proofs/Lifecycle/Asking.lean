import StreamEngine.Proofs.Lifecycle.Planning

/-!
# Addresses and requests

An address that becomes ready gives an element blocks that hold nothing yet. Its requests then make every
block wait, for an access of its line or for the element before, and what waits for the element before is
copied at once.

- `Coherent.markAddrReady`, `Coherent.setValueFromPrevious`, `Coherent.issue`.
-/

namespace StreamEngine

variable {k : Nat} {M : UInt64 → List UInt8} {failed : List FailedLine} {serves : Service}
  {m m' : Manager} {e : ElementId} {el : Element} {role : Option Role}

/-! ## Addresses -/

/-- Without an address there are no blocks, so a load is not value ready, and the new blocks hold
nothing yet. -/
theorem Element.Sound.markAddrReady (hk : k < 64) (h : el.Sound k M failed serves role e)
    {addr : UInt64} {policy : OverflowPolicy} {el' : Element}
    (hmark : el.markAddrReady addr policy = .ok el') : el'.Sound k M failed serves role e := by
  have hlaid := Element.laid_markAddrReady hk h.size_eq hmark
  rcases Element.markAddrReady_eq_ok hmark with ⟨hpending, start, blocks, hblocks, rfl⟩
  have hfree := mem_of_blocksFrom hblocks
  -- a load that is value ready has an address already
  have hidle : ∀ r, role = some r → r.loads = true → el.valueReady = false := by
    intro r hr hloads
    cases hvalue : el.valueReady with
    | false => rfl
    | true => exact absurd (h.bare hpending) ((h.load r hr hloads).settled hvalue).1
  refine ⟨h.size_eq, hlaid, ?_, ?_, ?_, h.self⟩
  · intro hcontra
    cases hcontra
  · exact Element.waits_of_free fun b hb => (hfree b hb).1
  · intro r hr hloads
    refine ⟨(h.load r hr hloads).mem, ?_, ?_, ?_⟩
    · intro b hb hstate
      rw [(hfree b hb).2] at hstate
      cases hstate
    · intro b hb hstate
      rw [(hfree b hb).2] at hstate
      cases hstate
    · intro hvalue
      rw [show el.valueReady = true from hvalue] at hidle
      cases hidle r hr hloads

namespace Manager

theorem Coherent.markAddrReady (hk : k < 64) (h : m.Coherent k M failed)
    {r : Except EngineError Unit} (hmark : m.markAddrReady e = .ok (r, m')) :
    m'.Coherent k M failed := by
  rcases markAddrReady_eq_ok hmark with rfl | ⟨el, el', addr, hel, hready, _, rfl⟩
  · exact h
  have hsound := (h.sound.element e el hel).markAddrReady hk hready
  rcases Element.markAddrReady_eq_ok hready with ⟨_, start, blocks, hblocks, rfl⟩
  refine ⟨h.sound.putElement hel rfl hsound fun _ _ => id, h.resting.putElement hel ?_⟩
  intro b hb hstate
  rw [(mem_of_blocksFrom hblocks b hb).2] at hstate
  cases hstate

/-! ## Copies -/

/-- Filling an element from the one before it, where everything that waits for it can be copied. -/
theorem Sound.setValueFromPrevious (hk : k < 64) (hM : ∀ line, (M line).length = 2 ^ k)
    (h : m.Sound k M failed serves) (hel : m.element? e = some el)
    (hawaits : ∀ st p source, m.stream? el.stream = some st → before? st.chain e = some p →
      m.element? p = some source → el.Awaits source)
    {became : Bool} (hset : m.setValueFromPrevious e = .ok (became, m')) :
    ∃ el', m' = m.putElement e el' ∧ m'.Sound k M failed serves ∧
      ∀ b ∈ el'.blocks, b.state ≠ .prevElement := by
  rcases setValueFromPrevious_eq_ok hset with ⟨el₀, el', p, source, hprev, hel₀, hsource, hcopy, rfl⟩
  rw [hel] at hel₀
  cases hel₀
  rcases previous?_eq_ok hprev with ⟨el₁, st, hel₁, hst, hbefore⟩
  rw [hel] at hel₁
  cases hel₁
  rcases (h.registered.before hst hbefore.symm).2 with ⟨source', hsource', hstream⟩
  rw [hsource] at hsource'
  cases hsource'
  have hsound := h.element e el hel
  have hsoundSource := h.element p source hsource
  have hpos : 0 < el.lineSize := by
    rw [hsound.size_eq]
    exact Nat.two_pow_pos k
  have hadv := Element.advances_copyFromPrev hcopy
  refine ⟨el', rfl, ?_, Element.not_prevElement_of_copyFromPrev hpos hcopy⟩
  refine h.putElement hel (by rw [hadv.shape]) (hsound.advances hadv ?_) fun _ _ => hadv.ready
  intro r hr hloads
  refine (hsound.load r hr hloads).copyFromPrev hsound.laid hk hsound.size_eq ?_
    (hsoundSource.load r (hstream ▸ hr) hloads) hsoundSource.laid
    (hsoundSource.size_eq.trans hsound.size_eq.symm) hstream
    (hawaits st p source hst hbefore.symm hsource) hcopy
  intro line
  rw [hsound.size_eq, hM]

/-- Between two operations nothing waits for the element before, so there is nothing to copy. -/
theorem Coherent.setValueFromPrevious (hk : k < 64) (hM : ∀ line, (M line).length = 2 ^ k)
    (h : m.Coherent k M failed) {became : Bool}
    (hset : m.setValueFromPrevious e = .ok (became, m')) : m'.Coherent k M failed := by
  rcases setValueFromPrevious_eq_ok hset with ⟨el, _, _, _, _, hel, _, _, _⟩
  have hawaits : ∀ st p source, m.stream? el.stream = some st → before? st.chain e = some p →
      m.element? p = some source → el.Awaits source := by
    intro _ _ _ _ _ _ b hb hstate
    exact absurd hstate (h.resting e el hel b hb)
  rcases h.sound.setValueFromPrevious hk hM hel hawaits hset with ⟨el', rfl, hsound, hrest⟩
  exact ⟨hsound, h.resting.putElement hel hrest⟩

/-! ## Registering with an access -/

theorem register_ne_refused {access : Access} {policy : OverflowPolicy} {err : CapacityError}
    (hroom : access.receivers.hasRoomFor e = true) :
    access.register e policy ≠ .error (.refused err) := by
  intro hrefused
  rw [Access.register] at hrefused
  cases hregister : access.receivers.register e with
  | error f =>
      rw [hregister] at hrefused
      cases hrefused
  | ok r =>
      rw [hregister] at hrefused
      cases r with
      | none => exact Receivers.register_ne_none hroom hregister
      | some receivers => cases hrefused

theorem attach_eq_ok {i : Nat} {a : AccessId} {access : Access} {r : Except EngineError Unit}
    (hfind : m.accesses.find? a = some access) (hroom : access.receivers.hasRoomFor e = true)
    (h : m.attach e i a = .ok (r, m')) :
    r = .ok () ∧ ∃ receivers el, access.receivers.register e = .ok (some receivers) ∧
      m.element? e = some el ∧
      m' = ({ m with accesses := m.accesses.put a { access with receivers } } : Manager).putElement e
        (el.setBlock i fun b => { b with access := some a, state := .issued }) := by
  rcases attach_cases h with ⟨⟨access₀, err, hfind₀, hrefused, _⟩, _⟩ | ⟨hr, access₀, receivers, el, hfind₀, hrest⟩
  · rw [hfind] at hfind₀
    cases hfind₀
    exact absurd hrefused (register_ne_refused hroom)
  · rw [hfind] at hfind₀
    cases hfind₀
    exact ⟨hr, receivers, el, hrest⟩

theorem not_valueReady (h : el.Sound k M failed serves role e) {b : Block} (hb : b ∈ el.blocks)
    (hstate : b.state.isSettled = false) :
    ∀ r, role = some r → r.loads = true → el.valueReady = false := by
  intro r hr hloads
  cases hready : el.valueReady with
  | false => rfl
  | true =>
      have hsettled := ((h.load r hr hloads).settled hready).2
      rw [Element.isSettled, List.all_eq_true] at hsettled
      have hb' := hsettled b hb
      rw [hstate] at hb'
      cases hb'

/-- A block that has not been asked for waits on an access of its line. -/
theorem Sound.attach (h : m.Sound k M failed m.accesses.Serves) (hel : m.element? e = some el)
    {i : Nat} {b : Block} (hb : el.blocks[i]? = some b) (hstate : b.state = .initialized)
    {a : AccessId} {access : Access} {receivers : Receivers}
    (hfind : m.accesses.find? a = some access) (hline : access.line = b.line)
    (hstream : access.stream = el.stream)
    (hregister : access.receivers.register e = .ok (some receivers)) :
    (({ m with accesses := m.accesses.put a { access with receivers } } : Manager).putElement e
      (el.setBlock i fun b => { b with access := some a, state := .issued })).Sound k M failed
      (m.accesses.put a { access with receivers }).Serves := by
  rcases Receivers.hears_register hregister with ⟨hnot, hnew, hold⟩
  have hsound := h.element e el hel
  -- whoever was served by the access still is
  have hserves : ∀ a' e' s line, m.accesses.Serves a' e' s line →
      (m.accesses.put a { access with receivers }).Serves a' e' s line := by
    intro a' e' s line hs
    exact hs.put hfind rfl rfl fun _ => hold e'
  have hmid := (h.setServes fun e' el' _ hwaits => hwaits.mono fun a' => hserves a' e').setAccesses
    (p := m.accesses.put a { access with receivers }) (h.registered.accesses.replace hfind _)
  refine hmid.putElement hel rfl ?_ fun _ _ => id
  refine hsound.setBlock (fun _ => rfl) ?_ ?_
  · intro b' hb'
    rw [hb] at hb'
    cases hb'
    refine Or.inr ⟨rfl, not_valueReady hsound (List.mem_of_getElem? hb) ?_⟩
    rw [hstate]
    rfl
  · refine (hsound.waits.mono fun a' => hserves a' e).attach hb ?_ ?_
    · -- the access did not know the element, so none of its blocks waits on it
      intro c hc ha
      rcases hsound.waits.served c hc a ha with ⟨access', hfind', _, _, hears⟩
      rw [hfind] at hfind'
      cases hfind'
      exact hnot hears
    · refine ⟨{ access with receivers }, ?_, hstream, hline, hnew⟩
      rw [AccessPool.find?_put hfind, if_pos rfl]

/-! ## Carrying out plans -/

/-- Accesses stay in flight, and keep their room for the element. -/
def Grows (e : ElementId) (p p' : AccessPool) : Prop :=
  ∀ a access, p.find? a = some access → ∃ access', p'.find? a = some access' ∧
    access'.line = access.line ∧ access'.stream = access.stream ∧
    (access.receivers.hasRoomFor e = true → access'.receivers.hasRoomFor e = true)

theorem Grows.trans {p p' p'' : AccessPool} (h : Grows e p p') (h' : Grows e p' p'') :
    Grows e p p'' := by
  intro a access hfind
  rcases h a access hfind with ⟨access', hfind', hline, hstream, hroom⟩
  rcases h' a access' hfind' with ⟨access'', hfind'', hline', hstream', hroom'⟩
  exact ⟨access'', hfind'', hline'.trans hline, hstream'.trans hstream, fun hr => hroom' (hroom hr)⟩

theorem grows_put {p : AccessPool} {a : AccessId} {access : Access} {receivers : Receivers}
    (hfind : p.find? a = some access) (hregister : access.receivers.register e = .ok (some receivers)) :
    Grows e p (p.put a { access with receivers }) := by
  intro a' access₀ hfind₀
  by_cases ha : a' = a
  · rw [ha, hfind] at hfind₀
    cases hfind₀
    refine ⟨{ access with receivers }, ?_, rfl, rfl, fun _ => ?_⟩
    · rw [AccessPool.find?_put hfind, if_pos ha]
    · exact Receivers.hasRoomFor_of_hears (Receivers.hears_register hregister).2.1
  · refine ⟨access₀, ?_, rfl, rfl, id⟩
    rw [AccessPool.find?_put hfind, if_neg ha]
    exact hfind₀

theorem find?_alloc_of_some {p : AccessPool} (hp : p.slab.Sound) {a : AccessId} {access : Access}
    (fresh : Access) (hfind : p.find? a = some access) :
    (p.alloc fresh).2.find? a = some access := by
  rw [AccessPool.find?_alloc hp, if_neg]
  · exact hfind
  · intro ha
    have hnone := AccessPool.find?_alloc_eq_none hp fresh
    rw [← ha, hfind] at hnone
    cases hnone

theorem grows_alloc {p : AccessPool} (hp : p.slab.Sound) (fresh : Access) :
    Grows e p (p.alloc fresh).2 :=
  fun _ access hfind => ⟨access, find?_alloc_of_some hp fresh hfind, rfl, rfl, id⟩

theorem Sound.alloc (h : m.Sound k M failed m.accesses.Serves) (fresh : Access) :
    ({ m with accesses := (m.accesses.alloc fresh).2 } : Manager).Sound k M failed
      (m.accesses.alloc fresh).2.Serves := by
  have hpool := h.registered.accesses
  refine (h.setServes ?_).setAccesses (hpool.insert fresh)
  intro e' el' _ hwaits
  refine hwaits.mono ?_
  rintro a s line ⟨access, hfound, hrest⟩
  exact ⟨access, find?_alloc_of_some hpool fresh hfound, hrest⟩

/-- What a plan for a line needs. -/
def CarriesOut (m : Manager) (e : ElementId) (s : StreamId) (prev : Option Element) (copies : Prop)
    (line : UInt64) : IssuePlan → Prop
  | .fresh => True
  | .share a => ∃ access, m.accesses.find? a = some access ∧ access.line = line ∧
      access.stream = s ∧ access.receivers.hasRoomFor e = true
  | .copyPrevious => copies ∧ ∃ p, prev = some p ∧ p.Serves line

/-- What can be carried out stays so while accesses keep their room. -/
theorem CarriesOut.grows {s : StreamId} {prev : Option Element} {copies : Prop} {line : UInt64}
    {plan : IssuePlan} (h : m.CarriesOut e s prev copies line plan)
    (hgrows : Grows e m.accesses m'.accesses) : m'.CarriesOut e s prev copies line plan := by
  cases plan with
  | fresh => exact trivial
  | copyPrevious => exact h
  | share a =>
      rcases h with ⟨access, hfind, hline, hstream, hroom⟩
      rcases hgrows a access hfind with ⟨access', hfind', hline', hstream', hroom'⟩
      exact ⟨access', hfind', hline'.trans hline, hstream'.trans hstream, hroom' hroom⟩

/-- Once the block of the first plan has changed, the other plans can still be carried out: every block has
one plan, so their blocks are as they were. -/
theorem carriesOut_rest {s : StreamId} {prev : Option Element} {copies : Prop} {i : Nat} {plan : IssuePlan}
    {rest : List (Nat × IssuePlan)} (hnodup : (((i, plan) :: rest).map Prod.fst).Nodup)
    (hplans : ∀ (j : Nat) (plan' : IssuePlan), (j, plan') ∈ (i, plan) :: rest →
      ∃ b : Block, el.blocks[j]? = some b ∧ b.state = .initialized ∧
        m.CarriesOut e s prev copies b.line plan')
    (hgrows : Grows e m.accesses m'.accesses) (f : Block → Block) :
    ∀ (j : Nat) (plan' : IssuePlan), (j, plan') ∈ rest →
      ∃ b : Block, (el.setBlock i f).blocks[j]? = some b ∧ b.state = .initialized ∧
        m'.CarriesOut e s prev copies b.line plan' := by
  intro j plan' hmem
  have hji : j ≠ i := by
    rintro rfl
    exact (List.nodup_cons.1 hnodup).1 (List.mem_map.2 ⟨_, hmem, rfl⟩)
  rcases hplans j plan' (List.mem_cons_of_mem _ hmem) with ⟨b, hb, hstate, hcarries⟩
  exact ⟨b, (Element.getElem?_setBlock_of_ne hji).trans hb, hstate, hcarries.grows hgrows⟩

/-- At the start of a request every plan can be carried out, if the accesses to be shared are known to be of
the right line and stream. -/
theorem Begins.carriesOut {prev : Option ElementId} {plans : List (Nat × IssuePlan)}
    (h : m.Begins e prev el plans) (hroom : m.checkRoom e plans = .ok (.ok ()))
    (hshare : ∀ a line, planLine m.options.coalesce (prev.bind m.element?) line = .share a →
      ∃ access, m.accesses.find? a = some access ∧ access.line = line ∧ access.stream = el.stream) :
    ∀ (i : Nat) (plan : IssuePlan), (i, plan) ∈ plans → ∃ b : Block, el.blocks[i]? = some b ∧
      b.state = .initialized ∧ m.CarriesOut e el.stream (prev.bind m.element?)
        (∃ i, (i, IssuePlan.copyPrevious) ∈ plans) b.line plan := by
  intro i plan hmem
  rcases h.block_of_mem hmem with ⟨b, hb, hstate, hplan⟩
  refine ⟨b, hb, hstate, ?_⟩
  cases plan with
  | fresh => exact trivial
  | copyPrevious => exact ⟨⟨i, hmem⟩, planLine_copyPrevious hplan.symm⟩
  | share a =>
      rcases hshare a b.line hplan.symm with ⟨access, hfind, hline, hstream⟩
      rcases room_of_checkRoom hroom hmem with ⟨access', hfind', hfree⟩
      rw [hfind] at hfind'
      cases hfind'
      exact ⟨access, hfind, hline, hstream, hfree⟩

/-- A manager in the middle of a request: it can carry out the plans that are left, and only element `e`
has changed. -/
structure Asking (k : Nat) (M : UInt64 → List UInt8) (failed : List FailedLine) (m₀ : Manager)
    (e : ElementId) (s : StreamId) (prev : Option Element) (copies : Prop)
    (plans : List (Nat × IssuePlan)) (m : Manager) : Prop where
  sound : m.Sound k M failed m.accesses.Serves
  streams : m.streams = m₀.streams
  others : ∀ e', e' ≠ e → m.element? e' = m₀.element? e'
  nodup : (plans.map Prod.fst).Nodup
  own : ∃ el, m.element? e = some el ∧ el.stream = s ∧
    (∀ b ∈ el.blocks, b.state = .prevElement → copies ∧ ∃ p, prev = some p ∧ p.Serves b.line) ∧
    ∀ (i : Nat) (plan : IssuePlan), (i, plan) ∈ plans → ∃ b : Block, el.blocks[i]? = some b ∧
      b.state = .initialized ∧ m.CarriesOut e s prev copies b.line plan

section Steps

variable {m₀ : Manager} {s : StreamId} {prev : Option Element} {copies : Prop} {i : Nat}
  {plan : IssuePlan} {rest : List (Nat × IssuePlan)}

/-- Once the block of the first plan has changed, the other plans can still be carried out. -/
theorem Asking.next (h : Asking k M failed m₀ e s prev copies ((i, plan) :: rest) m)
    (hel : m.element? e = some el) {f : Block → Block} (hline : ∀ b, (f b).line = b.line)
    (hprev : ∀ b, el.blocks[i]? = some b → (f b).state = .prevElement →
      copies ∧ ∃ p, prev = some p ∧ p.Serves b.line)
    {p : AccessPool} (hgrows : Grows e m.accesses p)
    (hsound : (({ m with accesses := p } : Manager).putElement e (el.setBlock i f)).Sound
      k M failed p.Serves) :
    Asking k M failed m₀ e s prev copies rest
      (({ m with accesses := p } : Manager).putElement e (el.setBlock i f)) where
  sound := hsound
  streams := h.streams
  others := by
    intro e' he'
    exact (element?_putElement_of_ne (m := { m with accesses := p }) hel _ he').trans
      (h.others e' he')
  nodup := (List.nodup_cons.1 h.nodup).2
  own := by
    rcases h.own with ⟨el₀, hel₀, hs, hcopies, hplans⟩
    rw [hel] at hel₀
    cases hel₀
    refine ⟨el.setBlock i f, element?_putElement_self (m := { m with accesses := p }) hel _, hs,
      Element.forall_setBlock (fun b hb => ?_) hcopies, carriesOut_rest h.nodup hplans hgrows f⟩
    rw [hline]
    exact hprev b hb

/-- The block of the first plan, and what carrying out that plan needs. -/
theorem Asking.first (h : Asking k M failed m₀ e s prev copies ((i, plan) :: rest) m)
    (hel : m.element? e = some el) : ∃ b, el.blocks[i]? = some b ∧ b.state = .initialized ∧
      m.CarriesOut e el.stream prev copies b.line plan := by
  rcases h.own with ⟨el₀, hel₀, hs, _, hplans⟩
  rw [hel] at hel₀
  cases hel₀
  rw [hs]
  exact hplans i plan (List.mem_cons_self ..)

theorem Asking.exists_element {plans : List (Nat × IssuePlan)}
    (h : Asking k M failed m₀ e s prev copies plans m) : ∃ el, m.element? e = some el := by
  rcases h.own with ⟨el, hel, _⟩
  exact ⟨el, hel⟩

/-- Sharing an access registers the element with it. -/
theorem Asking.share {a : AccessId}
    (h : Asking k M failed m₀ e s prev copies ((i, .share a) :: rest) m)
    {r : Except EngineError Unit} (hattach : m.attach e i a = .ok (r, m')) :
    r = .ok () ∧ Asking k M failed m₀ e s prev copies rest m' := by
  rcases h.exists_element with ⟨el, hel⟩
  rcases h.first hel with ⟨b, hb, hstate, access, hfind, hline, hstream, hroom⟩
  rcases attach_eq_ok hfind hroom hattach with ⟨rfl, receivers, el₀, hregister, hel₀, rfl⟩
  rw [hel] at hel₀
  cases hel₀
  refine ⟨rfl, h.next (f := fun b => { b with access := some a, state := .issued }) hel
    (fun _ => rfl) ?_ (grows_put hfind hregister) ?_⟩
  · intro _ _ hcontra
    cases hcontra
  · exact h.sound.attach hel hb hstate hfind hline hstream hregister

/-- A block that is to be copied waits for the element before. -/
theorem Asking.copy (h : Asking k M failed m₀ e s prev copies ((i, .copyPrevious) :: rest) m)
    (hel : m.element? e = some el) :
    Asking k M failed m₀ e s prev copies rest
      (m.putElement e (el.setBlock i fun b => { b with state := .prevElement })) := by
  rcases h.first hel with ⟨b, hb, hstate, hcarries⟩
  have hsound := h.sound.element e el hel
  refine h.next (f := fun b => { b with state := .prevElement }) (p := m.accesses) hel
    (fun _ => rfl) ?_ (fun _ access hfind => ⟨access, hfind, rfl, rfl, id⟩) ?_
  · intro b' hb' _
    rw [hb] at hb'
    cases hb'
    exact hcarries
  · refine h.sound.putElement hel rfl ?_ fun _ _ => id
    refine hsound.setBlock (fun _ => rfl) ?_ (hsound.waits.setState i .prevElement)
    intro b' hb'
    rw [hb] at hb'
    cases hb'
    refine Or.inr ⟨rfl, not_valueReady hsound (List.mem_of_getElem? hb) ?_⟩
    rw [hstate]
    rfl

/-- A new access is made for the line of the block, and the element is the first to wait for it. -/
theorem Asking.fresh (h : Asking k M failed m₀ e s prev copies ((i, .fresh) :: rest) m)
    (hel : m.element? e = some el) {b : Block} (hb : el.blocks[i]? = some b)
    {r : Except EngineError Unit}
    (hattach : ({ m with accesses := (m.accesses.alloc (accessFor e el b)).2 } : Manager).attach e i
      (m.accesses.alloc (accessFor e el b)).1 = .ok (r, m')) :
    r = .ok () ∧ Asking k M failed m₀ e s prev copies rest m' := by
  rcases h.first hel with ⟨b', hb', hstate, _⟩
  rw [hb] at hb'
  cases hb'
  have hpool := h.sound.registered.accesses
  let fresh := accessFor e el b
  have hfind : (m.accesses.alloc fresh).2.find? (m.accesses.alloc fresh).1 = some fresh := by
    rw [AccessPool.find?_alloc hpool, if_pos rfl]
  rcases attach_eq_ok (m := { m with accesses := (m.accesses.alloc fresh).2 }) hfind rfl hattach
    with ⟨rfl, receivers, el₀, hregister, hel₀, rfl⟩
  have hel₁ : m.element? e = some el₀ := hel₀
  rw [hel] at hel₁
  cases hel₁
  refine ⟨rfl, h.next (f := fun b =>
      { b with access := some (m.accesses.alloc fresh).1, state := .issued })
    hel (fun _ => rfl) ?_ ((grows_alloc hpool fresh).trans (grows_put hfind hregister)) ?_⟩
  · intro _ _ hcontra
    cases hcontra
  · exact (h.sound.alloc fresh).attach hel₀ hb hstate hfind rfl rfl hregister

/-- A plan can be carried out, and leaves the others as they are. -/
theorem Asking.issueBlock (h : Asking k M failed m₀ e s prev copies ((i, plan) :: rest) m)
    {r : Except EngineError (Option AccessId)} (hissue : m.issueBlock e i plan = .ok (r, m')) :
    (∃ made, r = .ok made) ∧ Asking k M failed m₀ e s prev copies rest m' := by
  rcases issueBlock_cases hissue with
    ⟨a, r₁, rfl, hattach, rfl⟩ | ⟨rfl, rfl, el, hel, rfl⟩ | ⟨el, b, r₁, rfl, hel, hb, hattach, rfl⟩
  · rcases h.share hattach with ⟨rfl, hnext⟩
    exact ⟨⟨none, rfl⟩, hnext⟩
  · exact ⟨⟨none, rfl⟩, h.copy hel⟩
  · rcases h.fresh hel hb hattach with ⟨rfl, hnext⟩
    exact ⟨⟨some _, rfl⟩, hnext⟩

theorem Asking.issueBlocks {plans : List (Nat × IssuePlan)}
    (h : Asking k M failed m₀ e s prev copies plans m) {r : Except EngineError (List AccessId)}
    (hissue : m.issueBlocks e plans = .ok (r, m')) :
    (∃ made, r = .ok made) ∧ Asking k M failed m₀ e s prev copies [] m' :=
  keeps_of_issueBlocks (fun _ _ _ _ _ _ h hblock => h.issueBlock hblock) h hissue

end Steps

/-! ## Requests -/

/-- A line is shared only with an access of this line and stream. -/
theorem Coherent.share (h : m.Coherent k M failed) (hel : m.element? e = some el)
    {prev : Option ElementId} (hprev : m.previous? e = .ok prev) {a : AccessId} {line : UInt64}
    (hplan : planLine m.options.coalesce (prev.bind m.element?) line = .share a) :
    ∃ access, m.accesses.find? a = some access ∧ access.line = line ∧ access.stream = el.stream := by
  rcases planLine_share hplan with ⟨p, b, hp, hb, hline, ha⟩
  rcases Option.bind_eq_some_iff.1 hp with ⟨key, hkey, hp⟩
  rcases previous?_eq_ok hprev with ⟨el₀, st, hel₀, hst, hbefore⟩
  rw [hel] at hel₀
  cases hel₀
  rcases (h.sound.registered.before hst (hbefore ▸ hkey)).2 with ⟨p', hp', hstream⟩
  rw [hp] at hp'
  cases hp'
  rcases (h.sound.element key p hp).waits.served b hb a ha with ⟨access, hfind, hs, hl, _⟩
  exact ⟨access, hfind, hl.trans hline, hs.trans hstream⟩

/-- At the start of a request every plan can be carried out. -/
theorem Coherent.asking (h : m.Coherent k M failed) {prev : Option ElementId}
    {plans : List (Nat × IssuePlan)} (hbegins : m.Begins e prev el plans)
    (hroom : m.checkRoom e plans = .ok (.ok ())) :
    Asking k M failed m e el.stream (prev.bind m.element?)
      (∃ i, (i, IssuePlan.copyPrevious) ∈ plans) plans m where
  sound := h.sound
  streams := rfl
  others := fun _ _ => rfl
  nodup := hbegins.nodup
  own := by
    have hel := hbegins.element
    exact ⟨el, hel, rfl, fun b hb hstate => absurd hstate (h.resting e el hel b hb),
      hbegins.carriesOut hroom fun _ _ => h.share hel hbegins.previous⟩

theorem Asking.setIssued {m₀ : Manager} {s : StreamId} {prev : Option Element} {copies : Prop}
    (h : Asking k M failed m₀ e s prev copies [] m) (hel : m.element? e = some el) :
    Asking k M failed m₀ e s prev copies [] (m.putElement e { el with reqIssued := true }) where
  sound := h.sound.putElement hel rfl
    ((h.sound.element e el hel).setOthers _ true _ _ _) fun _ _ => id
  streams := h.streams
  others := by
    intro e' he'
    rw [element?_putElement_of_ne hel _ he']
    exact h.others e' he'
  nodup := List.nodup_nil
  own := by
    rcases h.own with ⟨el₀, hel₀, hs, hcopies, _⟩
    rw [hel] at hel₀
    cases hel₀
    exact ⟨_, element?_putElement_self hel _, hs, hcopies, fun _ _ hmem => by cases hmem⟩

theorem Asking.resting {m₀ : Manager} {s : StreamId} {prev : Option Element} {copies : Prop}
    {plans : List (Nat × IssuePlan)} (h : Asking k M failed m₀ e s prev copies plans m)
    (hrest : m₀.Resting)
    (hown : ∀ el, m.element? e = some el → ∀ b ∈ el.blocks, b.state ≠ .prevElement) :
    m.Resting := by
  intro e' el hel
  by_cases he' : e' = e
  · exact hown el (he' ▸ hel)
  · rw [h.others e' he'] at hel
    exact hrest e' el hel

/-- The element before is still the one that the plans were made for. -/
theorem Asking.awaits {m₀ : Manager} {el₀ : Element} {prev : Option ElementId} {copies : Prop}
    (h : Asking k M failed m₀ e el₀.stream (prev.bind m₀.element?) copies [] m)
    (hreg : m₀.Registered) (hel₀ : m₀.element? e = some el₀) (hprev : m₀.previous? e = .ok prev)
    (hel : m.element? e = some el) {st : LiveStream} {p : ElementId} {source : Element}
    (hst : m.stream? el.stream = some st) (hbefore : before? st.chain e = some p)
    (hsource : m.element? p = some source) : el.Awaits source := by
  intro b hb hstate
  rcases h.own with ⟨el₁, hel₁, hs, hcopies, _⟩
  rw [hel] at hel₁
  cases hel₁
  rcases (hcopies b hb hstate).2 with ⟨source', hsource', hserves⟩
  rcases previous?_eq_ok hprev with ⟨el₁, st₀, hel₁, hst₀, hprev₀⟩
  rw [hel₀] at hel₁
  cases hel₁
  have hst' : m₀.stream? el₀.stream = some st := by
    rw [stream?, ← h.streams, ← hs]
    exact hst
  rw [hst₀] at hst'
  cases hst'
  have hne := (before?_ne (hreg.nodup _ _ hst₀) hbefore).2
  rw [h.others p hne] at hsource
  rw [hprev₀, hbefore, Option.bind_some, hsource] at hsource'
  cases hsource'
  exact hserves

theorem Coherent.issue (hk : k < 64) (hM : ∀ line, (M line).length = 2 ^ k)
    (h : m.Coherent k M failed) {r : Except EngineError (List AccessId)}
    (hissue : m.issue e = .ok (r, m')) : m'.Coherent k M failed := by
  rcases issue_eq_ok hissue with ⟨prev, el, plans, hbegins, ⟨_, rfl⟩ | ⟨hroom, r₁, m₁, hblocks, hcase⟩⟩
  · exact h
  rcases (h.asking hbegins hroom).issueBlocks hblocks with ⟨⟨made, rfl⟩, h₁⟩
  rcases hcase with ⟨⟨err, herr⟩, _⟩ | ⟨_, el₁, hel₁, hends⟩
  · cases herr
  let asked : Element := { el₁ with reqIssued := true }
  have hasked : (m₁.putElement e asked).element? e = some asked := element?_putElement_self hel₁ asked
  have h₂ := h₁.setIssued hel₁
  rcases hends with ⟨hnone, rfl⟩ | ⟨_, became, hset⟩
  · -- no plan was a copy, so nothing waits for one
    refine ⟨h₂.sound, h₂.resting h.resting ?_⟩
    intro el₂ hel₂ b hb hstate
    rcases h₂.own with ⟨el₃, hel₃, _, hcopies, _⟩
    rw [hel₂] at hel₃
    cases hel₃
    rcases (hcopies b hb hstate).1 with ⟨i, hmem⟩
    exact hnone i hmem
  · have hawaits : ∀ st p source, (m₁.putElement e asked).stream? asked.stream = some st →
        before? st.chain e = some p → (m₁.putElement e asked).element? p = some source →
        asked.Awaits source :=
      fun _ _ _ => h₂.awaits h.sound.registered hbegins.element hbegins.previous hasked
    rcases h₂.sound.setValueFromPrevious hk hM hasked hawaits hset with ⟨el', rfl, hsound', hrest⟩
    refine ⟨hsound', ?_⟩
    intro e' el₂ hel₂
    rcases element?_putElement_cases hasked hel₂ with ⟨_, rfl⟩ | ⟨he', hold⟩
    · exact hrest
    · rw [h₂.others e' he'] at hold
      exact h.resting e' el₂ hold

end Manager
end StreamEngine
