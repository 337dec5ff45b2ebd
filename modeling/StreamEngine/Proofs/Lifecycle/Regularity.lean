import StreamEngine.Proofs.Element.Writing
import StreamEngine.Proofs.Lifecycle.Declared
import StreamEngine.Proofs.Lifecycle.Evolution

/-!
# What holds of every element

Apart from its history, an element is always laid out in its buffer, it is value ready only with all blocks
settled, and only memory can fault it. All of that follows from how elements evolve.

- `Element.Regular` : what holds of an element of a stream that loads, or of one that does not;
- `Regular.advances`, `Regular.asked` : settled blocks and requests;
- `Manager.Orderly` : everything that holds between two operations;
- `Orderly.apply`, `orderly_run` : every operation keeps it.
-/

namespace StreamEngine
namespace Element

variable {k : Nat} {el el' : Element} {loads became : Bool} {vaddr : UInt64} {data : List UInt8}

/-- Only an element of a stream that loads can have faulted blocks, and its computation begins once it is
value ready. -/
structure Regular (loads : Bool) (el : Element) : Prop where
  laid : el.Laid
  tight : el.Tight
  covered : el.addrReady = true → 0 < el.size → el.blocks ≠ []
  filled : el.valueReady = true → el.blocks ≠ []
  settled : el.valueReady = true → el.addrReady = true ∧ el.isSettled = true
  waits : ∀ b ∈ el.blocks, b.access ≠ none → el.isMem = true
  clean : loads = false → el.Clean
  busy : el.computeScheduled = true → el.addrReady = true ∧ (loads = true → el.valueReady = true)

theorem Regular.setOthers (h : el.Regular loads) (next : Option ElementId) (reqIssued stepped : Bool) :
    ({ el with next, reqIssued, stepped } : Element).Regular loads :=
  ⟨⟨h.laid.line_eq, h.laid.covers, h.laid.room⟩, h.tight, h.covered, h.filled, h.settled, h.waits, h.clean,
    h.busy⟩

/-- A computation may begin where the address is ready, or end. -/
theorem Regular.setComputing (h : el.Regular loads) (computeScheduled : Bool) (result : Option StreamValue)
    (hbusy : computeScheduled = true → el.addrReady = true ∧ (loads = true → el.valueReady = true)) :
    ({ el with computeScheduled, result } : Element).Regular loads :=
  ⟨⟨h.laid.line_eq, h.laid.covers, h.laid.room⟩, h.tight, h.covered, h.filled, h.settled, h.waits, h.clean,
    hbusy⟩

theorem Regular.idle (h : el.Regular loads) :
    ({ el with computeScheduled := false } : Element).Regular loads :=
  h.setComputing false el.result fun hcontra => absurd hcontra Bool.false_ne_true

/-- An element without blocks that is neither ready nor busy. -/
theorem regular_of_nil (hnil : el.blocks = []) (haddr : el.addrReady = false)
    (hready : el.valueReady = false) (hidle : el.computeScheduled = false) : el.Regular loads where
  laid := laid_of_nil hnil
  tight := fun hne => absurd hnil hne
  covered := fun h => absurd (haddr.symm.trans h) Bool.false_ne_true
  filled := fun h => absurd (hready.symm.trans h) Bool.false_ne_true
  settled := fun h => absurd (hready.symm.trans h) Bool.false_ne_true
  waits := by
    intro b hb
    rw [hnil] at hb
    cases hb
  clean := by
    intro _ b hb
    rw [hnil] at hb
    cases hb
  busy := fun h => absurd (hidle.symm.trans h) Bool.false_ne_true

theorem Tidy.addrReady_of_ne_nil (h : el.Tidy k) (hne : el.blocks ≠ []) : el.addrReady = true := by
  cases haddr : el.addrReady with
  | true => rfl
  | false => exact absurd (h.bare haddr) hne

/-- Blocks may settle, as long as faults stay where they may be. -/
theorem Regular.advances (h : el.Regular loads) (haddr : el.addrReady = true) (hne : el.blocks ≠ [])
    (hadv : el.Advances el')
    (hready : el'.valueReady = true → el.valueReady = true ∨ el'.isSettled = true)
    (hclean : loads = false → el'.Clean) : el'.Regular loads where
  laid := hadv.laid h.laid
  tight := hadv.tight h.tight
  covered := fun _ _ => ne_nil_of_length_eq hadv.length_eq hne
  filled := fun _ => ne_nil_of_length_eq hadv.length_eq hne
  settled := by
    intro hnow
    have hsame : el'.addrReady = el.addrReady := by rw [hadv.shape]
    refine ⟨hsame.trans haddr, ?_⟩
    rcases hready hnow with hold | hsettled
    · exact hadv.settled (h.settled hold).2
    · exact hsettled
  waits := by
    intro b' hb' haccess
    have hmem : el'.isMem = el.isMem := by rw [hadv.shape]
    rcases List.mem_iff_getElem?.1 hb' with ⟨j, hj⟩
    rcases hadv.block j b' hj with ⟨b, hb, hblock⟩
    rw [hblock.access_eq] at haccess
    exact hmem.trans (h.waits b (List.mem_of_getElem? hb) haccess)
  clean := hclean
  busy := by
    intro hbusy
    have hsame : el'.computeScheduled = el.computeScheduled ∧ el'.addrReady = el.addrReady := by
      rw [hadv.shape]
      exact ⟨rfl, rfl⟩
    exact ⟨hsame.2.trans haddr, fun hl => hadv.ready ((h.busy (hsame.1.symm.trans hbusy)).2 hl)⟩

theorem Regular.setValue (h : el.Regular loads) (htidy : el.Tidy k)
    (hset : el.setValue vaddr data = .ok (became, el')) : el'.Regular loads := by
  have hne := blocks_ne_nil_of_setValue hset
  exact h.advances (htidy.addrReady_of_ne_nil hne) hne (advances_setValue hset)
    (valueReady_setValue hset) fun hloads => clean_setValue (h.clean hloads) hset

/-- A block may stop waiting. -/
theorem Regular.detached (h : el.Regular loads) (i : Nat) : (Manager.detached el i).Regular loads := by
  have hblock : ∀ (j : Nat) (b' : Block), (Manager.detached el i).blocks[j]? = some b' → ∃ b ∈ el.blocks,
      b'.state = b.state ∧ (b'.access ≠ none → b.access ≠ none) := by
    intro j b' hj
    rcases setBlock_block hj with ⟨b, hb, ⟨_, rfl⟩ | ⟨_, rfl⟩⟩
    · exact ⟨b, List.mem_of_getElem? hb, rfl, fun hcontra => absurd rfl hcontra⟩
    · exact ⟨b', List.mem_of_getElem? hb, rfl, id⟩
  refine ⟨h.laid.setBlock i fun _ => rfl, ?_, ?_, ?_, ?_, ?_, ?_, h.busy⟩
  · exact h.tight.congr (List.length_modify _ _ _) rfl rfl rfl
  · exact fun haddr hsize => setBlock_ne_nil (h.covered haddr hsize)
  · exact fun hready => setBlock_ne_nil (h.filled hready)
  · intro hready
    refine ⟨(h.settled hready).1, List.all_eq_true.2 ?_⟩
    intro b' hb'
    rcases List.mem_iff_getElem?.1 hb' with ⟨j, hj⟩
    rcases hblock j b' hj with ⟨b, hb, hstate, _⟩
    rw [hstate]
    exact List.all_eq_true.1 (h.settled hready).2 b hb
  · intro b' hb' haccess
    rcases List.mem_iff_getElem?.1 hb' with ⟨j, hj⟩
    rcases hblock j b' hj with ⟨b, hb, _, hwaits⟩
    exact h.waits b hb (hwaits haccess)
  · intro hloads b' hb'
    rcases List.mem_iff_getElem?.1 hb' with ⟨j, hj⟩
    rcases hblock j b' hj with ⟨b, hb, hstate, _⟩
    rw [hstate]
    exact h.clean hloads b hb

/-- The plans of a request are about blocks that are not settled. -/
theorem Regular.asked {plans : List (Nat × Manager.IssuePlan)} (h : el.Regular loads)
    (hmem : el.isMem = true) (hasked : Manager.Asked plans el el')
    (hplans : ∀ i plan, (i, plan) ∈ plans → ∃ b, el.blocks[i]? = some b ∧ b.state = .initialized) :
    el'.Regular loads := by
  -- a block with a plan was initialized, and one without is what it was
  have hblock : ∀ (j : Nat) (b' : Block), el'.blocks[j]? = some b' → ∃ b, el.blocks[j]? = some b ∧
      b'.line = b.line ∧ (b'.state = b.state ∨
        b.state = .initialized ∧ ∃ plan : Manager.IssuePlan, b'.state = plan.blockState) := by
    intro j b' hj'
    have hlt := (List.getElem?_eq_some_iff.1 hj').1
    rw [hasked.length_eq] at hlt
    have hj := List.getElem?_eq_getElem hlt
    rcases hasked.block j _ hj with ⟨b₁, hb₁, hline, hstate⟩
    cases (hj'.symm.trans hb₁)
    refine ⟨_, hj, hline, ?_⟩
    rcases hstate with ⟨plan, hplan, hstate⟩ | ⟨_, hsame⟩
    · rcases hplans j plan hplan with ⟨b, hb, hinitialized⟩
      cases (hj.symm.trans hb)
      exact Or.inr ⟨hinitialized, plan, hstate⟩
    · exact Or.inl hsame
  have hlength := hasked.length_eq
  rw [hasked.shape] at hblock hlength ⊢
  refine ⟨⟨?_, ?_, ?_⟩, ?_, ?_, ?_, ?_, fun _ _ _ => hmem, ?_, h.busy⟩
  · intro j b' hj
    rcases hblock j b' hj with ⟨b, hb, hline, _⟩
    exact hline.trans (h.laid.line_eq j b hb)
  · intro hne
    refine Nat.le_trans (h.laid.covers ?_) (Nat.le_of_eq (congrArg (· * el.lineSize) hlength.symm))
    exact ne_nil_of_length_eq hlength.symm hne
  · exact Nat.le_trans (Nat.le_of_eq (congrArg (· * el.lineSize) hlength)) h.laid.room
  · exact h.tight.congr hlength rfl rfl rfl
  · exact fun haddr hsize => ne_nil_of_length_eq hlength (h.covered haddr hsize)
  · exact fun hready => ne_nil_of_length_eq hlength (h.filled hready)
  · intro hready
    refine ⟨(h.settled hready).1, List.all_eq_true.2 ?_⟩
    intro b' hb'
    rcases List.mem_iff_getElem?.1 hb' with ⟨j, hj⟩
    rcases hblock j b' hj with ⟨b, hb, _, hstate⟩
    have hold := List.all_eq_true.1 (h.settled hready).2 b (List.mem_of_getElem? hb)
    rcases hstate with hsame | ⟨hinitialized, _⟩
    · rw [hsame]
      exact hold
    · rw [hinitialized] at hold
      cases hold
  · intro hloads b' hb'
    rcases List.mem_iff_getElem?.1 hb' with ⟨j, hj⟩
    rcases hblock j b' hj with ⟨b, hb, _, hsame | ⟨_, plan, hstate⟩⟩
    · rw [hsame]
      exact h.clean hloads b (List.mem_of_getElem? hb)
    · rw [hstate]
      cases plan <;> simp [Manager.IssuePlan.blockState]

theorem Regular.markAddrReady {addr : UInt64} {policy : OverflowPolicy} (h : el.Regular loads)
    (hk : k < 64) (hsize : el.lineSize = 2 ^ k) (hmark : el.markAddrReady addr policy = .ok el') :
    el'.Regular loads := by
  have hlaid := laid_markAddrReady hk hsize hmark
  rcases markAddrReady_eq_ok hmark with ⟨hnot, start, blocks, hblocks, rfl⟩
  have hnew := mem_of_blocksFrom hblocks
  refine ⟨hlaid, ?_, ?_, ?_, ?_, ?_, ?_, ?_⟩
  · intro hne
    rw [hsize] at hblocks
    simp only [hsize]
    exact blocksFrom_tight hk hblocks hne
  · intro _ hpos hnil
    rw [show blocks = [] from hnil] at hblocks
    exact Nat.ne_of_gt hpos (left_of_blocksFrom_nil hblocks)
  · intro hready
    exact absurd (hnot.symm.trans (h.settled hready).1) Bool.false_ne_true
  · intro hready
    exact absurd (hnot.symm.trans (h.settled hready).1) Bool.false_ne_true
  · intro b hb haccess
    exact absurd (hnew b hb).1 haccess
  · intro _ b hb
    rw [(hnew b hb).2]
    intro hcontra
    cases hcontra
  · intro hbusy
    exact absurd (hnot.symm.trans (h.busy hbusy).1) Bool.false_ne_true

end Element

/-! ## All elements -/

theorem Role.loads_of_isMem {r : Role} (hmem : r.isMem = true) (hstore : r.isStore = false) :
    r.loads = true := by
  cases r <;> simp_all [isMem, isStore, loads]

namespace Manager

variable {k : Nat} {m m' : Manager} {e : ElementId} {el el' : Element} {s : StreamId} {st : LiveStream}
  {v : StreamValue} {op : Operation} {ops : List Operation}

/-- Everything that holds between two operations. -/
structure Orderly (k : Nat) (m : Manager) : Prop where
  owned : m.Owned
  connected : m.Connected k
  scheduled : m.Scheduled
  declared : m.Declared
  regular : ∀ e el st, m.element? e = some el → m.stream? el.stream = some st →
    el.Regular st.decl.role.loads

theorem orderly_new {o : Options} (h : o.lineSize = 2 ^ k) : ({ options := o } : Manager).Orderly k where
  owned := owned_new o
  connected := connected_new h
  scheduled := scheduled_new o
  declared := declared_new o
  regular := by
    intro e el st hel
    cases hel

theorem Orderly.evolves (h : m.Orderly k) (happly : m.apply op = .ok m') (hel : m.element? e = some el)
    (hel' : m'.element? e = some el') : m.Evolves e el op el' :=
  h.connected.evolves h.owned h.scheduled happly hel hel'

/-- The stream of an element is there. -/
theorem Owned.exists_stream (h : m.Owned) (hel : m.element? e = some el) :
    ∃ st, m.stream? el.stream = some st := by
  rcases h.home e el.place (place?_eq hel) with ⟨st, hst, _⟩
  exact ⟨st, hst⟩

/-- An element that is there before and after an operation is the same one, and so is its stream. -/
theorem Owned.continues (h : m.Owned) (happly : m.apply op = .ok m') (hel : m.element? e = some el)
    (hel' : m'.element? e = some el') : el'.origin = el.origin ∧ ∃ st st', m.stream? el.stream = some st ∧
      m'.stream? el.stream = some st' ∧ st.Continues st' := by
  have horigin : el'.origin = el.origin := by
    rcases h.inherits happly hel' with ⟨el₁, hel₁, hsame⟩ | ⟨_, _, _, _, _, _, _, _, _, hnone, _⟩
    · cases (hel.symm.trans hel₁)
      exact hsame
    · cases (hel.symm.trans hnone)
  refine ⟨horigin, ?_⟩
  have hstream : el'.stream = el.stream := congrArg Origin.stream horigin
  rcases (h.apply happly).exists_stream hel' with ⟨st', hst'⟩
  rcases h.exists_stream hel with ⟨st, hst⟩
  rw [hstream] at hst'
  by_cases hop : ∃ d, op = .configure d
  · rcases hop with ⟨d, rfl⟩
    rcases map_snd_eq_ok happly with ⟨id, hop⟩
    rcases configure_eq_ok hop with ⟨hid, config, graph, graph', bases, _, _, rfl⟩
    have hother : id ≠ el.stream := by
      intro hsame
      refine InstanceCounter.not_mem_next h.counted d.core d.staticId ?_
      rw [← hid, hsame]
      exact h.issued el.stream st hst
    have hold := (stream?_putStream m id el.stream { config, decl := d, bases }).symm.trans hst'
    rw [if_neg hother, hst] at hold
    cases hold
    exact ⟨st', st', hst, hst', st'.continues_refl⟩
  · have hproceeds := h.proceeds happly fun d hd => hop ⟨d, hd⟩
    rcases hproceeds.streams _ st' hst' with ⟨st₁, hst₁, hcontinues⟩
    exact ⟨st₁, st', hst₁, hst', hcontinues⟩

/-! ## Operations -/

theorem regular_landing {loads : Bool} (h : el.Regular loads) (htidy : el.Tidy k)
    (hland : m.landing el v = .ok el') : el'.Regular loads := by
  rcases landing_eq_ok hland with ⟨_, _, rfl⟩ | ⟨_, became, hset⟩
  · exact h.setComputing false (some v) fun hcontra => absurd hcontra Bool.false_ne_true
  · have htidy' : ({ el with computeScheduled := false } : Element).Tidy k := htidy.congr rfl rfl rfl
    exact h.idle.setValue htidy' hset

/-- An element with a block that waits belongs to a store or to a stream that loads. -/
theorem Orderly.loads_of_waits (h : m.Orderly k) (hel : m.element? e = some el)
    (hst : m.stream? el.stream = some st) {b : Block} (hb : b ∈ el.blocks) (haccess : b.access ≠ none)
    (hstore : m.ofStore el = false) : st.decl.role.loads = true := by
  have hmem := (h.regular e el st hel hst).waits b hb haccess
  have hrole : el.isMem = st.decl.role.isMem := (h.declared.fits e el st hel hst).isMem_eq
  rw [ofStore, hst] at hstore
  exact Role.loads_of_isMem (hrole.symm.trans hmem) hstore

theorem Orderly.regular_answered (h : m.Orderly k) (hel : m.element? e = some el)
    (hst : m.stream? el.stream = some st) {a : AccessId}
    {settle : Element → Nat → Except Fault (Bool × Element)}
    (hsettle : ∀ el₁ el₂ : Element, ∀ i became, el₁.Regular st.decl.role.loads → el₁.Tidy k →
      st.decl.role.loads = true → el₁.blocks ≠ [] → settle el₁ i = .ok (became, el₂) →
        el₂.Regular st.decl.role.loads)
    (hanswered : m.Answered a settle el el') : el'.Regular st.decl.role.loads := by
  rcases hanswered with ⟨i, b, hb, ha, ⟨_, rfl⟩ | ⟨hstore, became, hset⟩⟩
  · exact (h.regular e el st hel hst).detached i
  have hmem := List.mem_of_getElem? hb
  have hloads := h.loads_of_waits hel hst hmem (by rw [ha]; exact Option.some_ne_none a) hstore
  have htidy : (detached el i).Tidy k := by
    refine (h.connected.linked.tidy e el hel).setBlock hb (fun _ => rfl) (fun _ => rfl) ?_
    intro a' ha'
    cases ha'
  exact hsettle _ _ i became ((h.regular e el st hel hst).detached i) htidy hloads
    (Element.setBlock_ne_nil (List.ne_nil_of_mem hmem)) hset

/-- The element before has no faulted blocks, if its stream does not load. -/
theorem Orderly.clean_previous (h : m.Orderly k) (hel : m.element? e = some el)
    (hst : m.stream? el.stream = some st) {p : ElementId} {source : Element}
    (hprev : m.previous? e = .ok (some p)) (hsource : m.element? p = some source)
    (hloads : st.decl.role.loads = false) : source.Clean := by
  rcases previous?_eq_ok hprev with ⟨el₁, st₁, hel₁, hst₁, hbefore⟩
  cases (hel.symm.trans hel₁)
  cases (hst.symm.trans hst₁)
  rcases (h.owned.before hst hbefore.symm).2 with ⟨source₁, hsource₁, hstream⟩
  cases (hsource.symm.trans hsource₁)
  exact (h.regular p source st hsource (hstream ▸ hst)).clean hloads

theorem Orderly.regular_evolves (h : m.Orderly k) (hk : k < 64) (hel : m.element? e = some el)
    (hst : m.stream? el.stream = some st) (hevolves : m.Evolves e el op el') :
    el'.Regular st.decl.role.loads := by
  have hregular := h.regular e el st hel hst
  have htidy := h.connected.linked.tidy e el hel
  cases hevolves with
  | kept next stepped _ => exact hregular.setOthers next el.reqIssued stepped
  | refusedAddress => exact hregular
  | addressed hmark => exact hregular.markAddrReady hk htidy.size_eq hmark
  | refusedRequest => exact hregular
  | @requested prev plans el₁ hbegins hasked _ =>
      have hplans := hregular.asked (isMem_of_checkIssue hbegins.check) hasked hbegins.initialized
      exact hplans.setOthers el₁.next true el₁.stepped
  | @copied p plans el₁ _ source became hbegins hasked hcopies hsource hcopied hcopy =>
      have hplans := hregular.asked (isMem_of_checkIssue hbegins.check) hasked hbegins.initialized
      have hissued := hplans.setOthers el₁.next true el₁.stepped
      rcases hcopies with ⟨i, hmem⟩
      rcases hbegins.block_of_mem hmem with ⟨b, hb, _⟩
      rcases hasked.block i b hb with ⟨b', hb', _⟩
      have hne : el₁.blocks ≠ [] := List.ne_nil_of_mem (List.mem_of_getElem? hb')
      have haddr : el₁.addrReady = true := by
        rw [hasked.shape]
        exact htidy.addrReady_of_ne_nil (List.ne_nil_of_mem (List.mem_of_getElem? hb))
      refine hissued.advances haddr hne hcopied.advances hcopied.only ?_
      intro hloads
      refine Element.clean_copyFromPrev (hissued.clean hloads) ?_ hcopy
      exact h.clean_previous hel hst hbegins.previous hsource hloads
  | responded hanswered =>
      refine h.regular_answered hel hst ?_ hanswered
      intro el₁ el₂ i became hreg htidy₁ _ _ hset
      rcases settleData_eq_ok hset with ⟨b, _, hset⟩
      exact hreg.setValue htidy₁ hset
  | failed hanswered =>
      refine h.regular_answered hel hst ?_ hanswered
      intro el₁ el₂ i became hreg htidy₁ hloads hne hset
      refine hreg.advances (htidy₁.addrReady_of_ne_nil hne) hne (Element.advances_faultBlock hset)
        (Element.valueReady_faultBlock hset) ?_
      intro hnot
      exact absurd (hnot.symm.trans hloads) Bool.false_ne_true
  | written hset => exact hregular.setValue htidy hset
  | delivered _ _ _ hland => exact regular_landing hregular htidy hland
  | @scheduled st₁ r hst₁ haddr _ heval _ =>
      cases (hst.symm.trans hst₁)
      refine hregular.setComputing true el.result fun _ => ⟨haddr, fun hloads => ?_⟩
      refine (valueReady_of_evaluate hel hst hloads ?_ heval).1
      intro kernel hrole
      rcases h.declared.reads_self hel hst (by rw [hrole]; rfl) with ⟨r, hr, hself, _⟩
      exact ⟨r, hr, hself⟩
  | landed _ _ _ hland => exact regular_landing hregular htidy hland
  | flushed => exact Element.regular_of_nil rfl rfl rfl rfl

theorem Orderly.apply (h : m.Orderly k) (hk : k < 64) (happly : m.apply op = .ok m') : m'.Orderly k where
  owned := h.owned.apply happly
  connected := h.connected.apply hk h.owned happly
  scheduled := h.scheduled.apply h.owned happly
  declared := h.declared.apply h.owned happly
  regular := by
    intro e el' st' hel' hst'
    rcases h.owned.inherits happly hel' with
      ⟨el, hel, horigin⟩ | ⟨s, st, bases, own, _, _, _, _, _, _, rfl⟩
    · rcases (h.owned.continues happly hel hel').2 with ⟨st, st₁, hst, hst₁, hcontinues⟩
      have hstream : el'.stream = el.stream := congrArg Origin.stream horigin
      cases (hst'.symm.trans (hstream ▸ hst₁))
      rw [hcontinues.decl_eq]
      exact h.regular_evolves hk hel hst (h.evolves happly hel hel')
    · exact Element.regular_of_nil rfl rfl rfl rfl

theorem Orderly.run (h : m.Orderly k) (hk : k < 64) (hrun : m.run ops = .ok m') : m'.Orderly k :=
  run_keeps (Q := fun _ _ => True) (fun _ _ _ h _ => h.apply hk) (fun _ _ _ => trivial) h hrun

theorem orderly_run (hk : k < 64) {o : Options} (hline : o.lineSize = 2 ^ k)
    (hrun : Manager.run { options := o } ops = .ok m) : m.Orderly k :=
  (orderly_new hline).run hk hrun

end Manager
end StreamEngine
