import StreamEngine.Proofs.Element.Copying
import StreamEngine.Proofs.Lifecycle.Inversion

/-!
# Elements that agree with memory

In every state that the operations of a manager reach, the elements of loads hold memory on the blocks
that are ready. This file says what that takes of a whole manager, and that each update of a table keeps
it.

- `Element.Sound` : one element, for the role of its stream;
- `Manager.Sound` : all elements, and the computations that wait for their results;
- `Manager.Resting` : no block is left waiting for the previous element;
- `Sound.putElement` and the lemmas behind it : what every update of a table keeps.
-/

namespace StreamEngine

/-- Whom the accesses in flight serve. -/
abbrev Service := AccessId → ElementId → StreamId → UInt64 → Prop

namespace Element

variable {k : Nat} {M : UInt64 → List UInt8} {failed failed' : List FailedLine}
  {serves serves' : Service} {role : Option Role} {e : ElementId} {el el' : Element}

/-- What is known of one element: how it is laid out, what it waits for, and what it has loaded, if its
stream loads at all. A load-compute element is a base of its own. -/
structure Sound (k : Nat) (M : UInt64 → List UInt8) (failed : List FailedLine)
    (serves : Service) (role : Option Role) (e : ElementId) (el : Element) : Prop where
  size_eq : el.lineSize = 2 ^ k
  laid : el.Laid
  bare : el.addrReady = false → el.blocks = []
  waits : el.Waits serves e
  load : ∀ r, role = some r → r.loads = true → el.Loaded M failed
  self : ∀ kernel, role = some (.loadCompute kernel) → ∃ b ∈ el.valueBases, b.element = e

theorem loaded_of_nil (hmem : el.isMem = true) (hnil : el.blocks = []) (hready : el.valueReady = false) :
    el.Loaded M failed where
  mem := hmem
  ready := by
    intro b hb
    rw [hnil] at hb
    cases hb
  faulted := by
    intro b hb
    rw [hnil] at hb
    cases hb
  settled := by
    intro hcontra
    rw [hready] at hcontra
    cases hcontra

theorem sound_of_nil (hsize : el.lineSize = 2 ^ k) (hnil : el.blocks = [])
    (hready : el.valueReady = false)
    (hmem : ∀ r, role = some r → r.loads = true → el.isMem = true)
    (hself : ∀ kernel, role = some (.loadCompute kernel) → ∃ b ∈ el.valueBases, b.element = e) :
    el.Sound k M failed serves role e where
  size_eq := hsize
  laid := laid_of_nil hnil
  bare := fun _ => hnil
  waits := by
    apply waits_of_free
    intro b hb
    rw [hnil] at hb
    cases hb
  load := fun r hr hloads => loaded_of_nil (hmem r hr hloads) hnil hready
  self := hself

theorem Loaded.mono (h : el.Loaded M failed) (hsub : failed ⊆ failed') : el.Loaded M failed' :=
  ⟨h.mem, h.ready, fun b hb hstate => hsub (h.faulted b hb hstate), h.settled⟩

theorem Sound.mono (h : el.Sound k M failed serves role e) (hsub : failed ⊆ failed') :
    el.Sound k M failed' serves role e :=
  { h with load := fun r hr hloads => (h.load r hr hloads).mono hsub }

theorem Sound.setServes (h : el.Sound k M failed serves role e)
    (hwaits : el.Waits serves e → el.Waits serves' e) : el.Sound k M failed serves' role e :=
  { h with waits := hwaits h.waits }

theorem Sound.advances (h : el.Sound k M failed serves role e) (hadv : el.Advances el')
    (hload : ∀ r, role = some r → r.loads = true → el'.Loaded M failed) :
    el'.Sound k M failed serves role e where
  size_eq := by
    rw [hadv.shape]
    exact h.size_eq
  laid := hadv.laid h.laid
  bare := by
    intro hready
    have hold : el.addrReady = false := by rwa [hadv.shape] at hready
    have hlen := hadv.length_eq
    rw [h.bare hold, List.length_nil] at hlen
    exact List.eq_nil_of_length_eq_zero hlen
  waits := h.waits.advances hadv
  load := hload
  self := by
    rw [hadv.shape]
    exact h.self

/-- A block is changed in a way that keeps its line. -/
theorem Sound.setBlock (h : el.Sound k M failed serves role e) {i : Nat} {f : Block → Block}
    (hline : ∀ b, (f b).line = b.line)
    (hstate : ∀ b, el.blocks[i]? = some b →
      (f b).state = b.state ∨
        (f b).state.isSettled = false ∧
          ∀ r, role = some r → r.loads = true → el.valueReady = false)
    (hwaits : (el.setBlock i f).Waits serves' e) :
    (el.setBlock i f).Sound k M failed serves' role e where
  size_eq := h.size_eq
  laid := h.laid.setBlock i hline
  bare := by
    intro hready
    have hlen : (el.setBlock i f).blocks.length = el.blocks.length := List.length_modify _ _ _
    rw [h.bare hready, List.length_nil] at hlen
    exact List.eq_nil_of_length_eq_zero hlen
  waits := hwaits
  load := by
    intro r hr hloads
    refine (h.load r hr hloads).setBlock hline ?_
    intro b hb
    rcases hstate b hb with hsame | ⟨hnot, hready⟩
    · exact Or.inl hsame
    · exact Or.inr ⟨hnot, hready r hr hloads⟩
  self := h.self

/-- Fields that memory has no part in may change. -/
theorem Sound.setOthers (h : el.Sound k M failed serves role e) (next : Option ElementId)
    (reqIssued stepped scheduled : Bool) (result : Option StreamValue) :
    ({ el with next, reqIssued, stepped, computeScheduled := scheduled, result } : Element).Sound
      k M failed serves role e where
  size_eq := h.size_eq
  laid := ⟨h.laid.line_eq, h.laid.covers, h.laid.room⟩
  bare := h.bare
  waits := ⟨h.waits.served, h.waits.once⟩
  load := by
    intro r hr hloads
    rcases h.load r hr hloads with ⟨hmem, hready, hfaulted, hsettled⟩
    refine ⟨hmem, ?_, hfaulted, hsettled⟩
    intro b hb hstate
    rcases hready b hb hstate with ⟨hend, hread⟩
    exact ⟨hend, getValue_eq_ok.2 (getValue_eq_ok.1 hread)⟩
  self := h.self

end Element

namespace Manager

/-- The role of a configured stream. -/
def role? (m : Manager) (s : StreamId) : Option Role :=
  (m.stream? s).map fun st => st.decl.role

/-- The element belongs to a stream that loads. -/
def Loads (m : Manager) (el : Element) : Prop :=
  ∃ r, m.role? el.stream = some r ∧ r.loads = true

structure Sound (k : Nat) (M : UInt64 → List UInt8) (failed : List FailedLine) (serves : Service)
    (m : Manager) : Prop where
  size_eq : m.options.lineSize = 2 ^ k
  registered : m.Registered
  element : ∀ e el, m.element? e = some el →
    el.Sound k M failed serves (m.role? el.stream) e
  pending : ∀ p ∈ m.pending, ∃ el, m.element? p.element = some el ∧
    (m.Loads el → el.valueReady = true)

/-- No block waits for the previous element. -/
def Resting (m : Manager) : Prop :=
  ∀ e el, m.element? e = some el → ∀ b ∈ el.blocks, b.state ≠ .prevElement

variable {k : Nat} {M : UInt64 → List UInt8} {failed failed' : List FailedLine}
  {serves serves' : Service} {m m' : Manager} {e e' : ElementId} {el el' : Element} {s : StreamId}
  {st st' : LiveStream}

theorem sound_new {o : Options} (h : o.lineSize = 2 ^ k) :
    ({ options := o } : Manager).Sound k M failed serves where
  size_eq := h
  registered := registered_new o
  element := by
    intro e el hel
    cases hel
  pending := by
    intro p hp
    cases hp

theorem resting_new (o : Options) : ({ options := o } : Manager).Resting := by
  intro e el hel
  cases hel

/-! ## What updates keep -/

theorem Sound.mono (h : m.Sound k M failed serves) (hsub : failed ⊆ failed') :
    m.Sound k M failed' serves :=
  { h with element := fun e el hel => (h.element e el hel).mono hsub }

theorem Sound.setServes (h : m.Sound k M failed serves)
    (hwaits : ∀ e el, m.element? e = some el → el.Waits serves e → el.Waits serves' e) :
    m.Sound k M failed serves' :=
  { h with element := fun e el hel => (h.element e el hel).setServes (hwaits e el hel) }

theorem Sound.setOthers (h : m.Sound k M failed serves) (graph : Graph)
    (latest : Table (Int × StaticId) StreamId) (now : Nat) :
    ({ m with graph, latest, now } : Manager).Sound k M failed serves :=
  ⟨h.size_eq, h.registered.setOthers graph latest m.pending now, h.element, h.pending⟩

theorem Sound.setAccesses (h : m.Sound k M failed serves) {p : AccessPool} (hp : p.slab.Sound) :
    ({ m with accesses := p } : Manager).Sound k M failed serves :=
  ⟨h.size_eq, h.registered.setAccesses hp, h.element, h.pending⟩

theorem Sound.setPending (h : m.Sound k M failed serves) {pending : List PendingCompute}
    (hpending : ∀ p ∈ pending, ∃ el, m.element? p.element = some el ∧
      (m.Loads el → el.valueReady = true)) :
    ({ m with pending } : Manager).Sound k M failed serves :=
  ⟨h.size_eq, h.registered.setOthers m.graph m.latest pending m.now, h.element, hpending⟩

theorem Sound.dropPending (h : m.Sound k M failed serves) (e : ElementId) :
    (m.dropPending e).Sound k M failed serves :=
  h.setPending fun p hp => h.pending p (List.mem_filter.1 hp).1

theorem Sound.putElement (h : m.Sound k M failed serves) (hel : m.element? e = some el)
    (hstream : el'.stream = el.stream)
    (hsound : el'.Sound k M failed serves (m.role? el.stream) e)
    (hready : (∃ p ∈ m.pending, p.element = e) → m.Loads el → el.valueReady = true →
      el'.valueReady = true) :
    (m.putElement e el').Sound k M failed serves where
  size_eq := h.size_eq
  registered := h.registered.putElement hel hstream
  element := by
    intro e' el₁ hel₁
    rcases element?_putElement_cases hel hel₁ with ⟨rfl, rfl⟩ | ⟨_, hold⟩
    · rw [hstream]
      exact hsound
    · exact h.element e' el₁ hold
  pending := by
    intro p hp
    rcases h.pending p hp with ⟨el₁, hel₁, hready₁⟩
    by_cases he : p.element = e
    · rw [he, hel] at hel₁
      cases hel₁
      refine ⟨el', he ▸ element?_putElement_self hel el', ?_⟩
      rintro ⟨r, hr, hloads⟩
      rw [hstream] at hr
      have hold : m.Loads el := ⟨r, hr, hloads⟩
      exact hready ⟨p, hp, he⟩ hold (hready₁ hold)
    · exact ⟨el₁, (element?_putElement_of_ne hel el' he).trans hel₁, hready₁⟩

/-- A stream may get another chain of its own live elements, as long as its role stays. -/
theorem Sound.putStream (h : m.Sound k M failed serves) (hst : m.stream? s = some st)
    (hrole : st'.decl.role = st.decl.role) (hnodup : st'.chain.Nodup)
    (hchain : ∀ e ∈ st'.chain, ∃ el, m.element? e = some el ∧ el.stream = s) :
    (m.putStream s st').Sound k M failed serves := by
  have hroles : ∀ s', (m.putStream s st').role? s' = m.role? s' := by
    intro s'
    rw [role?, role?, stream?_putStream]
    by_cases hsame : s = s'
    · rw [if_pos hsame, ← hsame, hst, Option.map_some, Option.map_some, hrole]
    · rw [if_neg hsame]
  refine ⟨h.size_eq, h.registered.putStream (h.registered.streams s st hst) hnodup hchain, ?_, ?_⟩
  · intro e el hel
    rw [hroles]
    exact h.element e el hel
  · intro p hp
    rcases h.pending p hp with ⟨el, hel, hready⟩
    refine ⟨el, hel, ?_⟩
    rintro ⟨r, hr, hloads⟩
    rw [hroles] at hr
    exact hready ⟨r, hr, hloads⟩

theorem Sound.eraseStream (h : m.Sound k M failed serves) (s : StreamId) :
    ({ m with streams := m.streams.erase s } : Manager).Sound k M failed serves := by
  -- fewer roles are known, so less has to be shown
  have hroles : ∀ s' r, ({ m with streams := m.streams.erase s } : Manager).role? s' = some r →
      m.role? s' = some r := by
    intro s' r hr
    rcases Option.map_eq_some_iff.1 hr with ⟨st, hst, hrole⟩
    exact Option.map_eq_some_iff.2 ⟨st, (stream?_of_erase hst).2, hrole⟩
  refine ⟨h.size_eq, h.registered.eraseStream s, ?_, ?_⟩
  · intro e el hel
    have hsound := h.element e el hel
    exact { hsound with
      load := fun r hr => hsound.load r (hroles _ _ hr)
      self := fun kernel hr => hsound.self kernel (hroles _ _ hr) }
  · intro p hp
    rcases h.pending p hp with ⟨el, hel, hready⟩
    refine ⟨el, hel, ?_⟩
    rintro ⟨r, hr, hloads⟩
    exact hready ⟨r, hroles _ _ hr, hloads⟩

theorem Sound.insertElement (h : m.Sound k M failed serves) (hs : el.stream ∈ m.instances.issued)
    (hsound : el.Sound k M failed serves (m.role? el.stream)
      { val := (m.elements.insert el).1 }) :
    ({ m with elements := (m.elements.insert el).2 } : Manager).Sound k M failed serves where
  size_eq := h.size_eq
  registered := h.registered.insertElement hs
  element := by
    intro e' el₁ hel₁
    rw [element?_insert h.registered.elements] at hel₁
    by_cases he : e' = { val := (m.elements.insert el).1 }
    · rw [if_pos he] at hel₁
      cases hel₁
      rw [he]
      exact hsound
    · rw [if_neg he] at hel₁
      exact h.element e' el₁ hel₁
  pending := by
    intro p hp
    rcases h.pending p hp with ⟨el₁, hel₁, hready⟩
    exact ⟨el₁, element?_insert_of_some h.registered.elements el hel₁, hready⟩

/-- An element in no chain and without computations under way may be freed. -/
theorem Sound.eraseElement (h : m.Sound k M failed serves) (hel : m.element? e = some el)
    (hfree : ∀ s st, m.stream? s = some st → e ∉ st.chain)
    (hidle : ∀ p ∈ m.pending, p.element ≠ e) :
    ({ m with elements := m.elements.erase e.val } : Manager).Sound k M failed serves where
  size_eq := h.size_eq
  registered := h.registered.eraseElement hel hfree
  element := fun e' el₁ hel₁ => h.element e' el₁ (element?_of_erase hel hel₁).2
  pending := by
    intro p hp
    rcases h.pending p hp with ⟨el₁, hel₁, hready⟩
    refine ⟨el₁, ?_, hready⟩
    rw [element?_erase hel, if_neg (hidle p hp)]
    exact hel₁

theorem Resting.putElement (h : m.Resting) (hel : m.element? e = some el)
    (hrest : ∀ b ∈ el'.blocks, b.state ≠ .prevElement) : (m.putElement e el').Resting := by
  intro e' el₁ hel₁
  rcases element?_putElement_cases hel hel₁ with ⟨_, rfl⟩ | ⟨_, hold⟩
  · exact hrest
  · exact h e' el₁ hold

/-- Only a request makes blocks wait for the element before. -/
theorem Resting.advances (h : m.Resting) (hel : m.element? e = some el) {mid : Element}
    (hadv : mid.Advances el') (hblocks : mid.blocks = el.blocks) :
    (m.putElement e el').Resting := by
  refine h.putElement hel ?_
  intro b' hb'
  rcases List.mem_iff_getElem?.1 hb' with ⟨j, hj⟩
  refine Element.not_prevElement_of_advances hadv ?_ hj
  intro b hb
  rw [hblocks] at hb
  exact h e el hel b (List.mem_of_getElem? hb)

/-- A manager agrees with memory, between two operations. -/
structure Coherent (k : Nat) (M : UInt64 → List UInt8) (failed : List FailedLine) (m : Manager) :
    Prop where
  sound : m.Sound k M failed m.accesses.Serves
  resting : m.Resting

theorem coherent_new {o : Options} (h : o.lineSize = 2 ^ k) :
    ({ options := o } : Manager).Coherent k M failed :=
  ⟨sound_new h, resting_new o⟩

end Manager
end StreamEngine
