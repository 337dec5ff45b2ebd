import StreamEngine.Proofs.Lifecycle.Folding
import StreamEngine.Proofs.Lifecycle.Labels
import StreamEngine.Proofs.Lifecycle.Offers
import StreamEngine.Proofs.Lifecycle.Queueing
import StreamEngine.Proofs.Lifecycle.Results

/-!
# Reductions

Element `i + 1` of a reduction is computed from element `i` and from the element of the base that serves
`i`, and the first computation of every inner loop starts again from the initial value. Computations end at
any time and in any order. Still, an element can begin only once the one before it is there, so the words
that are committed are those that a loop over the values of the base would go through.

References are found by their static streams, so this takes a base that is no instance of the static stream
of the reduction itself.

- `Reducing.accumulates_evaluate` : a computation takes one value into the word before;
- `Totals`, `Orderly.totals_apply` : every operation keeps what the elements hold, and what is under way;
- `run_reduction` : reductions, after every run;
- `run_reduction_older` : a base that is an older instance of the static stream.
-/

namespace StreamEngine
namespace Manager

variable {d : Declaration} {f : Kernel} {b : StaticId} {c : Nat} {w : UInt64}
  {gave : Nat → StreamValue → Prop} {k : Nat} {m m' : Manager} {e : ElementId} {el el' : Element}
  {s source : StreamId} {st : LiveStream} {v : StreamValue} {op : Operation} {ops : List Operation}
  {r : Evaluation}

/-! ## Elements of a reduction -/

theorem givesResult_reduction (hst : m.stream? el.stream = some st) (hd : st.decl.Reduces f b c w) :
    m.givesResult el = false := by
  rw [givesResult_eq hst, hd.role]
  rfl

theorem Orderly.isMem_reduction (h : m.Orderly k) (hel : m.element? e = some el)
    (hst : m.stream? el.stream = some st) (hd : st.decl.Reduces f b c w) : el.isMem = false := by
  have hrole : el.isMem = st.decl.role.isMem := (h.declared.fits e el st hel hst).isMem_eq
  rw [hrole, hd.role]
  rfl

/-- A value that lands leaves its first lane in the element, which is ready then. -/
theorem Orderly.landing_reduction (h : m.Orderly k) (hel : m.element? e = some el)
    (hst : m.stream? el.stream = some st) (hd : st.decl.Reduces f b c w) (hland : m.landing el v = .ok el') :
    el'.valueReady = true ∧ el'.elementValue = .ok (.ofWord v.front) := by
  have hfits := h.declared.fits e el st hel hst
  have hsize : el.size = 8 := hfits.size_eq.trans hd.size
  have hwide : el.size ≤ StreamValue.width := by
    rw [hsize]
    decide
  let idle : Element := { el with computeScheduled := false }
  have hlength : (v.toBytes.take idle.size).length = idle.size := length_taken hwide
  have hregular := (h.regular e el st hel hst).idle
  have htidy := h.connected.linked.tidy e el hel
  rw [landing, if_neg (Bool.eq_false_iff.1 (givesResult_reduction hst hd)), commitBytes,
    if_neg (Nat.not_lt.2 hwide)] at hland
  rcases bind_eq_ok.1 hland with ⟨⟨became, el₁⟩, hset, hland⟩
  cases hland
  constructor
  · refine Element.valueReady_setValue_own hregular.laid hregular.tight ?_ hlength ?_ hset
    · exact htidy.size_eq ▸ Nat.two_pow_pos k
    · exact fun hcontra => absurd ((h.isMem_reduction hel hst hd).symm.trans hcontra) Bool.false_ne_true
  · have hfits : idle.size ≤ StreamValue.width := hwide
    rw [Element.elementValue_setValue hfits hlength hset, ← StreamValue.ofBytes_take, ← hsize]

/-- Element 0 takes the initial value at once, and all others wait for what is evaluated for them. -/
theorem compute_reduction (hel : m.element? e = some el) (hst : m.stream? el.stream = some st)
    (hd : st.decl.Reduces f b c w) (hcompute : m.compute e = .ok m') :
    el.idx = 0 ∧ m.commit e (.ofWord w) = .ok m' ∨
      0 < el.idx ∧ ∃ r cycles, m.evaluate e el st.decl = .ok r ∧ m.schedule e r.value cycles = .ok m' := by
  have hready : el.addrReady = true ∧ el.computeScheduled = false := by
    rcases compute_eq_ok hcompute with ⟨el₁, _, hel₁, _, haddr, hidle, _⟩
    cases (hel.symm.trans hel₁)
    exact ⟨haddr, hidle⟩
  rw [compute_eq hel hst hready.1 hready.2, hd.role] at hcompute
  by_cases hfirst : el.idx = 0
  · simp only [hfirst, Role.isOneIterBehind, beq_self_eq_true, Bool.and_self, if_true, hd.initial] at hcompute
    exact Or.inl ⟨hfirst, hcompute⟩
  · simp only [Role.isOneIterBehind, Bool.true_and, beq_iff_eq, hfirst, if_false, hd.normal] at hcompute
    rcases bind_eq_ok.1 hcompute with ⟨r, heval, hcompute⟩
    rw [hd.role] at hcompute
    exact Or.inr ⟨Nat.pos_of_ne_zero hfirst, r, _, heval, hcompute⟩

theorem evaluate_reduction (hd : d.Reduces f b c w) (heval : m.evaluate e el d = .ok r) :
    ∃ own v, m.reductionBase e el d d.staticId = .ok own ∧ m.reductionBase e el d b = .ok v ∧
      r.value = f.run [own, v] := by
  rw [evaluate, hd.role] at heval
  rcases bind_eq_ok.1 heval with ⟨value, hvalue, heval⟩
  cases heval
  rw [Generator.generate, hd.formal, hd.generator, Formal.resolve] at hvalue
  rcases bind_eq_ok.1 hvalue with ⟨params, hparams, hvalue⟩
  rw [List.mapM_cons, List.mapM_cons, List.mapM_nil] at hparams
  rcases bind_eq_ok.1 hparams with ⟨own, hown, hparams⟩
  rcases bind_eq_ok.1 hparams with ⟨rest, hrest, hparams⟩
  rcases bind_eq_ok.1 hrest with ⟨v, hv, hrest⟩
  cases hrest
  cases hparams
  cases hvalue
  exact ⟨own, v, hown, hv, rfl⟩

/-- Stream `s`, declared as `d`, reduces the values of the stream `source`, which is an instance of another
static stream. -/
structure Reducing (m : Manager) (s source : StreamId) (d : Declaration) (f : Kernel) (c : Nat) (w : UInt64) :
    Prop where
  stream : ∃ st, m.stream? s = some st ∧ st.decl = d ∧
    st.bases = [{ kind := .value, stream := source, reuse := .times c }]
  reduces : d.Reduces f source.staticId c w
  apart : source.staticId ≠ d.staticId

/-- Label of the base element that is used for `i`. -/
def sourceLabel (source : StreamId) (c i : Nat) : ElementLabel :=
  { stream := source, index := (Reuse.times c).depToBase i }

/-- The base is found under its static stream, one iteration behind, and the element before under that of the
reduction. -/
theorem Reducing.exists_refs (h : m.Reducing s source d f c w) (horderly : m.Orderly k)
    (hlabelled : m.Labelled) (hel : m.element? e = some el) (hs : el.stream = s) (hpos : 0 < el.idx) :
    ∃ base own : BaseRef, base.label = sourceLabel source c (el.idx - 1) ∧
      own.label = { stream := s, index := el.idx - 1 } ∧
      el.valueBases.find? (fun b => b.label.stream.staticId = source.staticId) = some base ∧
      el.valueBases.find? (fun b => b.label.stream.staticId = d.staticId) = some own := by
  rcases h.stream with ⟨st, hst, rfl, hbases⟩
  have hlabels := hlabelled.values e el st hel (hs ▸ hst)
  have hlater : (el.idx == 0) = false := beq_false_of_ne (Nat.ne_of_gt hpos)
  rw [hs, LiveStream.valueLabels, hbases, h.reduces.role] at hlabels
  simp only [Role.isOneIterBehind, Role.isLoadCompute, hlater, hpos, Bool.and_false, Bool.true_and,
    decide_true, Bool.false_eq_true, if_false, if_true, List.filter_cons, List.filter_nil, List.map_cons,
    List.map_nil, List.append_nil] at hlabels
  -- the base comes first, then the element before
  rcases List.map_eq_cons_iff.1 hlabels with ⟨base, refs, hrefs, hbase, hrest⟩
  rcases List.map_eq_cons_iff.1 hrest with ⟨own, refs', rfl, hown, hnil⟩
  cases List.map_eq_nil_iff.1 hnil
  have hsource : base.label = sourceLabel source c (el.idx - 1) := by
    rw [hbase, LiveStream.baseLabel, h.reduces.role]
    rfl
  have hsourceId : base.label.stream.staticId = source.staticId := by
    rw [hsource]
    rfl
  have hownId : own.label.stream.staticId = st.decl.staticId := by
    rw [hown]
    exact horderly.declared.named s st hst
  refine ⟨base, own, hsource, hown, ?_, ?_⟩
  · rw [hrefs, List.find?_cons, hsourceId, decide_eq_true rfl]
  · rw [hrefs, List.find?_cons, hsourceId, decide_eq_false h.apart, List.find?_cons, hownId,
      decide_eq_true rfl]

/-- What the base offers one iteration behind is given for this iteration. -/
def Gives (m : Manager) (source : StreamId) (c : Nat) (gave : Nat → StreamValue → Prop) : Prop :=
  ∀ i e el v, m.element? e = some el → el.label = sourceLabel source c i → m.offer? el = some v → gave i v

/-- Every element of the stream that is value ready holds the word that accumulates up to it, and so do the
results under way. -/
structure Totals (m : Manager) (s : StreamId) (d : Declaration) (f : Kernel) (w : UInt64)
    (gave : Nat → StreamValue → Prop) : Prop where
  held : ∀ e el, m.element? e = some el → el.stream = s → el.valueReady = true →
    ∃ word, el.elementValue = .ok (.ofWord word) ∧ Accumulates d f w gave el.idx word
  due : ∀ p ∈ m.pending, ∀ el, m.element? p.element = some el → el.stream = s →
    Accumulates d f w gave el.idx p.result.front

/-! ## One computation -/

/-- A computation reads what the base offers. -/
theorem Reducing.gave_of_reductionBase (h : m.Reducing s source d f c w) (horderly : m.Orderly k)
    (hlabelled : m.Labelled) (hgives : m.Gives source c gave) (hel : m.element? e = some el)
    (hs : el.stream = s) (hpos : 0 < el.idx)
    (hread : m.reductionBase e el d source.staticId = .ok v) : gave (el.idx - 1) v := by
  rcases h.exists_refs horderly hlabelled hel hs hpos with ⟨base, _, hlabel, _, hfind, _⟩
  rw [reductionBase, if_neg fun hboth : source.staticId = d.staticId ∧ _ => h.apart hboth.1] at hread
  rcases baseValue_eq_ok hread with ⟨found, el₁, hfound, hel₁, hsame, hoffer⟩
  cases (hfind.symm.trans hfound)
  have hlabel₁ := hsame.trans hlabel
  refine hgives (el.idx - 1) base.element el₁ v hel₁ hlabel₁ (hoffer fun hself => ?_)
  -- the element itself is of another static stream
  rw [hself, hel] at hel₁
  cases hel₁
  rcases h.stream with ⟨st, hst, rfl, _⟩
  have hstream : el.stream = source := congrArg ElementLabel.stream hlabel₁
  rw [← hs, hstream] at hst
  exact h.apart (horderly.declared.named source st hst)

/-- Unless an inner loop begins, it reads the word of the element before. -/
theorem Reducing.accumulates_of_reductionBase (h : m.Reducing s source d f c w) (horderly : m.Orderly k)
    (hlabelled : m.Labelled) (htotals : m.Totals s d f w gave) (hel : m.element? e = some el)
    (hs : el.stream = s) (hpos : 0 < el.idx) (hlater : d.isInnerSecond el.idx = false)
    (hread : m.reductionBase e el d d.staticId = .ok v) :
    ∃ word, v = .ofWord word ∧ Accumulates d f w gave (el.idx - 1) word := by
  rcases h.exists_refs horderly hlabelled hel hs hpos with ⟨_, own, _, hlabel, _, hfind⟩
  rw [reductionBase, hlater, if_neg fun hboth : _ ∧ _ => Bool.false_ne_true hboth.2] at hread
  rcases baseValue_eq_ok hread with ⟨found, el₁, hfound, hel₁, hsame, hoffer⟩
  cases (hfind.symm.trans hfound)
  have hlabel₁ := hsame.trans hlabel
  have hstream : el₁.stream = s := congrArg ElementLabel.stream hlabel₁
  have hidx : el₁.idx = el.idx - 1 := congrArg ElementLabel.index hlabel₁
  have hother : own.element ≠ e := by
    intro hself
    rw [hself, hel] at hel₁
    cases hel₁
    omega
  rcases h.stream with ⟨st, hst, rfl, _⟩
  have hgives := givesResult_reduction (hstream ▸ hst) h.reduces
  rcases (offer?_eq_some_iff hgives).1 (hoffer hother) with ⟨hready, hvalue⟩
  rcases htotals.held own.element el₁ hel₁ hstream hready with ⟨word, hword, hacc⟩
  cases (hvalue.symm.trans hword)
  exact ⟨word, rfl, hidx ▸ hacc⟩

/-- A computation takes the value of the base into the word of the element before, or into the initial value
where an inner loop begins. -/
theorem Reducing.accumulates_evaluate (h : m.Reducing s source d f c w) (horderly : m.Orderly k)
    (hlabelled : m.Labelled) (hgives : m.Gives source c gave) (htotals : m.Totals s d f w gave)
    (hel : m.element? e = some el) (hs : el.stream = s) (hpos : 0 < el.idx)
    (heval : m.evaluate e el d = .ok r) : Accumulates d f w gave el.idx r.value.front := by
  rcases evaluate_reduction h.reduces heval with ⟨acc, v, hacc, hv, hvalue⟩
  have hgave := h.gave_of_reductionBase horderly hlabelled hgives hel hs hpos hv
  have hidx : el.idx = el.idx - 1 + 1 := (Nat.sub_add_cancel hpos).symm
  rw [hvalue, hidx]
  cases hsecond : d.isInnerSecond el.idx with
  | true =>
      rw [reductionBase, if_pos ⟨rfl, hsecond⟩, h.reduces.initial] at hacc
      cases hacc
      exact .restart (hidx ▸ hsecond) hgave
  | false =>
      rcases h.accumulates_of_reductionBase horderly hlabelled htotals hel hs hpos hsecond hacc with
        ⟨word, rfl, hbefore⟩
      exact .next (hidx ▸ hsecond) hbefore hgave

/-- The computation of element 0 ends at once with the initial value, and that of any other element leaves its
word under way. -/
theorem Reducing.compute_cases (h : m.Reducing s source d f c w) (horderly : m.Orderly k)
    (hlabelled : m.Labelled) (hgives : m.Gives source c gave) (htotals : m.Totals s d f w gave)
    (hel : m.element? e = some el) (hs : el.stream = s) (hcompute : m.compute e = .ok m') :
    (el.idx = 0 ∧ ∃ el', m'.element? e = some el' ∧
        (el'.valueReady = true ∧ el'.elementValue = .ok (.ofWord w)) ∧ m'.pending = m.pending) ∨
      0 < el.idx ∧ ∃ p, m'.pending = m.pending ++ [p] ∧ p.element = e ∧
        Accumulates d f w gave el.idx p.result.front := by
  rcases h.stream with ⟨st, hst, rfl, _⟩
  have hst₁ : m.stream? el.stream = some st := hs ▸ hst
  rcases compute_reduction hel hst₁ h.reduces hcompute with
    ⟨hfirst, hcommit⟩ | ⟨hpos, r, cycles, heval, hschedule⟩
  · rcases (commit_iff hel).1 hcommit with ⟨el', hland, rfl⟩
    exact Or.inl ⟨hfirst, el', element?_putElement_self hel el',
      horderly.landing_reduction hel hst₁ h.reduces hland, rfl⟩
  · rcases schedule_eq_ok hschedule with ⟨el₁, _, rfl⟩
    refine Or.inr ⟨hpos, _, rfl, rfl, ?_⟩
    exact h.accumulates_evaluate horderly hlabelled hgives htotals hel hs hpos heval

/-! ## One operation -/

/-- Outside memory, elements become value ready by writes, computations and the clock. -/
theorem Orderly.readied (h : m.Orderly k) (hel : m.element? e = some el) (hmem : el.isMem = false)
    (happly : m.apply op = .ok m') (hel' : m'.element? e = some el') (hnot : el.valueReady = false)
    (hready : el'.valueReady = true) : (∃ vaddr data, op = .setValue e vaddr data) ∨ op = .compute e ∨
      ∃ p ∈ m.pending, p.element = e ∧ m.landing el p.result = .ok el' := by
  rcases h.owned.exists_stream hel with ⟨st, hst⟩
  have hregular := h.regular e el st hel hst
  have hnever : el.isMem ≠ true := Bool.eq_false_iff.1 hmem
  have hsame : el.valueReady ≠ el'.valueReady := by
    rw [hready, hnot]
    exact Bool.false_ne_true
  have hunanswered : ∀ {a settle}, m.Answered a settle el el' → False := by
    rintro a settle ⟨i, b, hb, ha, _⟩
    refine hnever (hregular.waits b (List.mem_of_getElem? hb) ?_)
    rw [ha]
    exact Option.some_ne_none a
  cases h.evolves happly hel hel' with
  | kept next stepped _ => exact absurd rfl hsame
  | refusedAddress => exact absurd rfl hsame
  | addressed hmark =>
      rcases Element.markAddrReady_eq_ok hmark with ⟨_, start, blocks, _, rfl⟩
      exact absurd rfl hsame
  | refusedRequest => exact absurd rfl hsame
  | requested hbegins _ _ => exact absurd (isMem_of_checkIssue hbegins.check) hnever
  | copied hbegins _ _ _ _ _ => exact absurd (isMem_of_checkIssue hbegins.check) hnever
  | responded hanswered => exact (hunanswered hanswered).elim
  | failed hanswered => exact (hunanswered hanswered).elim
  | written _ => exact Or.inl ⟨_, _, rfl⟩
  | delivered => exact Or.inr (Or.inl rfl)
  | scheduled => exact Or.inr (Or.inl rfl)
  | landed hp he _ hland => exact Or.inr (Or.inr ⟨_, hp, he, hland⟩)
  | flushed => cases hready

/-- A stream that has an element was there before, as it is. -/
theorem Reducing.of_apply (h : m'.Reducing s source d f c w) (howned : m.Owned)
    (happly : m.apply op = .ok m') (hel : m.element? e = some el) (hel' : m'.element? e = some el')
    (hs : el'.stream = s) : m.Reducing s source d f c w ∧ el.stream = s ∧ el'.idx = el.idx := by
  rcases howned.continues happly hel hel' with ⟨horigin, st, st', hst, hst', hcontinues⟩
  have hstream : el'.stream = el.stream := congrArg Origin.stream horigin
  have hidx : el'.idx = el.idx := congrArg Origin.idx horigin
  rcases h.stream with ⟨st₁, hst₁, hdecl, hbases⟩
  have hs' : el.stream = s := hstream.symm.trans hs
  rw [hs'] at hst hst'
  cases (hst'.symm.trans hst₁)
  refine ⟨⟨⟨st, hst, ?_, ?_⟩, h.reduces, h.apart⟩, hs', hidx⟩
  · exact hcontinues.decl_eq.symm.trans hdecl
  · exact hcontinues.bases_eq.symm.trans hbases

/-- Elements of the reduction are not written from outside. -/
def Spares (m : Manager) (s : StreamId) (op : Operation) : Prop :=
  ∀ e vaddr data el, op = .setValue e vaddr data → m.element? e = some el → el.stream ≠ s

/-- An element that becomes value ready takes the initial value at once, or a result that was under way. -/
theorem Reducing.held_readied (h : m.Reducing s source d f c w) (horderly : m.Orderly k)
    (htotals : m.Totals s d f w gave) (happly : m.apply op = .ok m') (hspares : m.Spares s op)
    (hel : m.element? e = some el) (hs : el.stream = s) (hel' : m'.element? e = some el')
    (hnot : el.valueReady = false) (hready : el'.valueReady = true) :
    ∃ word, el'.elementValue = .ok (.ofWord word) ∧ Accumulates d f w gave el.idx word := by
  rcases h.stream with ⟨st, hst, rfl, _⟩
  rw [← hs] at hst
  have hmem := horderly.isMem_reduction hel hst h.reduces
  rcases horderly.readied hel hmem happly hel' hnot hready with
    ⟨vaddr, data, rfl⟩ | rfl | ⟨p, hp, rfl, hland⟩
  · exact absurd hs (hspares e vaddr data el rfl hel)
  · rcases compute_reduction hel hst h.reduces happly with
      ⟨hfirst, hcommit⟩ | ⟨_, r, cycles, _, hschedule⟩
    · rcases (commit_iff hel).1 hcommit with ⟨el₁, hland, rfl⟩
      cases ((element?_putElement_self hel el₁).symm.trans hel')
      refine ⟨w, (horderly.landing_reduction hel hst h.reduces hland).2, ?_⟩
      rw [hfirst]
      exact .first
    · rcases schedule_eq_ok hschedule with ⟨el₁, hel₁, rfl⟩
      cases (hel.symm.trans hel₁)
      cases ((element?_putElement_self hel { el with computeScheduled := true }).symm.trans hel')
      exact absurd (hnot.symm.trans hready) Bool.false_ne_true
  · exact ⟨_, (horderly.landing_reduction hel hst h.reduces hland).2, htotals.due p hp el hel hs⟩

theorem Orderly.totals_apply (h : m.Orderly k) (hlabelled : m.Labelled) (hgives : m.Gives source c gave)
    (htotals : m.Reducing s source d f c w → m.Totals s d f w gave) (happly : m.apply op = .ok m')
    (hflush : ∀ e aliased, op ≠ .flush e aliased) (hspares : m.Spares s op)
    (hred' : m'.Reducing s source d f c w) : m'.Totals s d f w gave where
  held := by
    intro e el' hel' hs' hready'
    rcases h.owned.inherits happly hel' with ⟨el, hel, _⟩ | ⟨_, _, _, _, _, _, _, _, _, _, rfl⟩
    · rcases hred'.of_apply h.owned happly hel hel' hs' with ⟨hred, hs, hidx⟩
      rw [hidx]
      cases hready : el.valueReady with
      | true =>
          rcases (htotals hred).held e el hel hs hready with ⟨word, hword, hacc⟩
          exact ⟨word, ((h.keeps hel happly hel' (hflush e)).value hready).2 _ hword, hacc⟩
      | false => exact hred.held_readied h (htotals hred) happly hspares hel hs hel' hready hready'
    · cases hready'
  due := by
    intro p hp el' hel' hs'
    have hold : p ∈ m.pending → Accumulates d f w gave el'.idx p.result.front := by
      intro hbefore
      rcases h.scheduled.mem_computing_iff.1 (List.mem_map_of_mem hbefore) with ⟨el, hel, _⟩
      rcases hred'.of_apply h.owned happly hel hel' hs' with ⟨hred, hs, hidx⟩
      rw [hidx]
      exact (htotals hred).due p hbefore el hel hs
    rcases pending_apply happly with hleft | ⟨q, rfl, hadded⟩
    · exact hold (hleft.subset hp)
    rw [hadded, List.mem_append, List.mem_singleton] at hp
    rcases hp with hbefore | rfl
    · exact hold hbefore
    -- the result is of this computation
    have hcompute : m.compute p.element = .ok m' := happly
    rcases compute_eq_ok hcompute with ⟨el, _, hel, _⟩
    rcases hred'.of_apply h.owned happly hel hel' hs' with ⟨hred, hs, hidx⟩
    rcases hred.compute_cases h hlabelled hgives (htotals hred) hel hs hcompute with
      ⟨_, _, _, _, hpending⟩ | ⟨_, q, hpending, _, hacc⟩
    · rw [hpending] at hadded
      exact absurd hadded (by simp)
    · cases List.append_cancel_left (hadded.symm.trans hpending)
      exact hidx ▸ hacc

/-! ## Every run -/

/-- The bases of a reduction are bound as declared. -/
theorem Labelled.exists_source (h : m.Labelled) (hst : m.stream? s = some st) (hd : st.decl.Reduces f b c w) :
    ∃ source : StreamId, source.staticId = b ∧
      st.bases = [{ kind := .value, stream := source, reuse := .times c }] := by
  have hbases := h.bases s st hst
  rw [hd.bases] at hbases
  rcases List.map_eq_singleton_iff.1 hbases with ⟨bound, hbound, hdeclared⟩
  refine ⟨bound.stream, congrArg BaseDecl.staticId hdeclared, ?_⟩
  have hkind : bound.kind = .value := congrArg BaseDecl.kind hdeclared
  have hreuse : bound.reuse = .times c := congrArg BaseDecl.reuse hdeclared
  rw [hbound, ← hkind, ← hreuse]

/-- The word of element `idx` of a reduction, as a fold over what the elements of `source` offer in the
run. -/
def FoldsOffered (m : Manager) (ops : List Operation) (source : StreamId) (d : Declaration) (f : Kernel)
    (c : Nat) (w : UInt64) (idx : Nat) (word : UInt64) : Prop :=
  d.Folds f w (fun i v => m.Offered ops (sourceLabel source c i) v) idx word

theorem Orderly.totals_run (h : m.Orderly k) (hk : k < 64) (hlabelled : m.Labelled)
    (hnone : ∀ st, m.stream? s ≠ some st) (hrun : m.run ops = .ok m')
    (hflush : ∀ e aliased, .flush e aliased ∉ ops)
    (hspares : ∀ found op, m.Applies ops found op → found.Spares s op)
    (hred : m'.Reducing s source d f c w) :
    m'.Totals s d f w fun i v => m.Offered ops (sourceLabel source c i) v := by
  let gave : Nat → StreamValue → Prop := fun i v => m.Offered ops (sourceLabel source c i) v
  -- until the reduction is configured there is nothing to keep
  have hkept := run_keeps
    (P := fun m₁ => m₁.Orderly k ∧ m₁.Labelled ∧ (m₁.Reducing s source d f c w → m₁.Totals s d f w gave))
    (Q := fun found op => m.Applies ops found op)
    (fun m₁ m₂ op hm happlies happly => ?_) (fun _ _ => id) ⟨h, hlabelled, fun hcontra => ?_⟩ hrun
  · exact hkept.2.2 hred
  · rcases hm with ⟨h₁, hlabelled₁, htotals₁⟩
    refine ⟨h₁.apply hk happly, hlabelled₁.apply h₁.owned happly, ?_⟩
    have hgives : m₁.Gives source c gave := by
      intro i e el v hel hlabel hoffer
      rcases applies_iff.1 happlies with ⟨before, after, hops, hfound⟩
      exact ⟨before, op :: after, m₁, e, el, hops, hfound, hel, hlabel, hoffer⟩
    refine h₁.totals_apply hlabelled₁ hgives htotals₁ happly ?_ (hspares m₁ op happlies)
    exact fun e aliased hop => hflush e aliased (hop ▸ happlies.mem)
  · rcases hcontra.stream with ⟨st, hst, _⟩
    exact absurd hst (hnone st)

/-- Take a run without a flush that writes to no element of a reduction from outside, in which all else may
happen in any order. What dependents read of an element of the base is then the same at all times. Every
element of the reduction that is value ready, and every result under way, has the word that is due to it: the
initial value for element 0, and for the others the left fold over what the base offers to their inner loop
so far. The computation of element 0 ends at once with the initial value, that of any other element leaves
such a result under way, and the clock leaves the results that are due in their elements. -/
theorem run_reduction (hk : k < 64) {o : Options} (hline : o.lineSize = 2 ^ k)
    (hrun : Manager.run { options := o } ops = .ok m) (hst : m.stream? s = some st)
    (hd : st.decl.Reduces f b c w) (hother : b ≠ st.decl.staticId)
    (hflush : ∀ e aliased, .flush e aliased ∉ ops)
    (hspares : ∀ found op, ({ options := o } : Manager).Applies ops found op → found.Spares s op) :
    ∃ source : StreamId, source.staticId = b ∧
      st.bases = [{ kind := .value, stream := source, reuse := .times c }] ∧
      (∀ l v v', ({ options := o } : Manager).Offered ops l v →
        ({ options := o } : Manager).Offered ops l v' → v = v') ∧
      ∀ e el, m.element? e = some el → el.stream = s →
        (el.valueReady = true → ∃ word, el.elementValue = .ok (.ofWord word) ∧
          ({ options := o } : Manager).FoldsOffered ops source st.decl f c w el.idx word) ∧
        (∀ p ∈ m.pending, p.element = e →
          ({ options := o } : Manager).FoldsOffered ops source st.decl f c w el.idx p.result.front) ∧
        (∀ m', m.compute e = .ok m' →
          (el.idx = 0 → ∃ el', m'.element? e = some el' ∧ el'.valueReady = true ∧
            el'.elementValue = .ok (.ofWord w)) ∧
          (0 < el.idx → ∃ p, m'.pending = m.pending ++ [p] ∧ p.element = e ∧
            ({ options := o } : Manager).FoldsOffered ops source st.decl f c w el.idx p.result.front)) ∧
        ∀ now done m', m.tick now = .ok (done, m') → ∀ p ∈ m.pending, p.element = e → p.readyAt ≤ now →
          ∃ el', m'.element? e = some el' ∧ el'.valueReady = true ∧
            el'.elementValue = .ok (.ofWord p.result.front) := by
  have horderly := orderly_run hk hline hrun
  have hlabelled := (labelled_new o).run (owned_new o) hrun
  rcases hlabelled.exists_source hst hd with ⟨source, rfl, hbases⟩
  have hred : m.Reducing s source st.decl f c w := ⟨⟨st, hst, rfl, hbases⟩, hd, hother⟩
  have htotals := (orderly_new hline).totals_run hk (labelled_new o)
    (fun _ hcontra => by cases hcontra) hrun hflush hspares hred
  have hgives : m.Gives source c fun i v => ({ options := o } : Manager).Offered ops (sourceLabel source c i) v :=
    fun i e el v hel hlabel hoffer =>
      ⟨ops, [], m, e, el, (List.append_nil ops).symm, hrun, hel, hlabel, hoffer⟩
  refine ⟨source, rfl, hbases, fun l v v' => (orderly_new hline).offered_unique hk hflush, ?_⟩
  intro e el hel hs
  have hst₁ : m.stream? el.stream = some st := hs ▸ hst
  refine ⟨fun hready => ?_, ?_, ?_, ?_⟩
  · rcases htotals.held e el hel hs hready with ⟨word, hword, hacc⟩
    exact ⟨word, hword, hacc.folds⟩
  · rintro p hp rfl
    exact (htotals.due p hp el hel hs).folds
  · intro m' hcompute
    rcases hred.compute_cases horderly hlabelled hgives htotals hel hs hcompute with
      ⟨hfirst, el', hel', hvalue, _⟩ | ⟨hpos, p, hpending, he, hacc⟩
    · exact ⟨fun _ => ⟨el', hel', hvalue⟩, fun hpos => absurd hfirst (Nat.ne_of_gt hpos)⟩
    · exact ⟨fun hfirst => absurd hfirst (Nat.ne_of_gt hpos), fun _ => ⟨p, hpending, he, hacc.folds⟩⟩
  · rintro now done m' htick p hp rfl hdue
    rcases horderly.scheduled.landing_tick htick hp hdue with ⟨el₁, el', hel₁, hland, hel'⟩
    cases (hel.symm.trans hel₁)
    exact ⟨el', hel', horderly.landing_reduction hel hst₁ hd hland⟩

/-! ## Sums -/

/-- Instance `n` of a static stream. -/
def instanceOf (id : StaticId) (n : Nat) : StreamId :=
  { core := 0, staticId := id, instanceNo := n }

/-- The sum of all parameters. -/
def summing : Kernel :=
  { run := fun vs => vs.foldl StreamValue.add .zero }

/-- Words counted on from `first`. -/
def countedWords (first : UInt64) : Declaration :=
  { staticId := 1, role := .induction, elemSize := 8, formal := Formal.ofWords [1, first] }

/-- The static stream `id` sums up those words, in inner loops of two if there is a trip. -/
def countedSums (id : StaticId) (init : UInt64) (trip : Option Nat) : Declaration :=
  { staticId := id, role := .reduction, elemSize := 8, formal := [.base id, .base 1], innerTrip := trip,
    generator := .computed summing, initialValue := .ofWord init,
    bases := [{ staticId := 1, kind := .value, reuse := .times 1 }] }

theorem reduces_countedSums (id : StaticId) (init : UInt64) (trip : Option Nat) :
    (countedSums id init trip).Reduces summing 1 1 init where
  role := rfl
  size := rfl
  formal := rfl
  generator := rfl
  bases := rfl
  count := Nat.le_refl 1
  initial := rfl
  normal := fun _ => rfl

/-- Inner loops of two, where the second loop is computed before the first one ends. -/
def nestedRun : List Operation :=
  let allocated : List Operation :=
    List.replicate 3 (.allocate (instanceOf 1 1)) ++ List.replicate 4 (.allocate (instanceOf 2 1))
  let addressed : List Operation := (List.range 7).map fun i => .markAddrReady { val := i }
  let computed : List Operation := [0, 1, 2, 3, 4, 6].map fun i => .compute { val := i }
  .configure (countedWords 0) :: .configure (countedSums 2 10 (some 2)) :: allocated ++ addressed ++ computed ++
    [.tick 10, .compute { val := 5 }, .tick 20]

/-- The first loop sums up 0 and 1, and the second one begins with 2. -/
theorem run_reduction_nested :
    ∃ m st source el el', Manager.run { options := {} } nestedRun = .ok m ∧
      m.stream? (instanceOf 2 1) = some st ∧ m.element? { val := 5 } = some el ∧
      el.elementValue = .ok (.ofWord 11) ∧
      ({ options := {} } : Manager).FoldsOffered nestedRun source st.decl summing 1 10 2 11 ∧
      m.element? { val := 6 } = some el' ∧ el'.elementValue = .ok (.ofWord 12) ∧
      ({ options := {} } : Manager).FoldsOffered nestedRun source st.decl summing 1 10 3 12 := by
  have hshape : (Manager.run { options := {} } nestedRun).toOption.bind (fun m =>
      (m.element? { val := 5 }).bind fun el => (m.element? { val := 6 }).map fun el' =>
        ((decide (el.stream = instanceOf 2 1), el.idx, el.valueReady, decide (el.elementValue = .ok (.ofWord 11))),
          decide (el'.stream = instanceOf 2 1), el'.idx, el'.valueReady,
          decide (el'.elementValue = .ok (.ofWord 12)))) =
      some ((true, 2, true, true), true, 3, true, true) := by
    decide +kernel
  -- a declaration holds functions, so that of the stream cannot be decided with the rest
  have hstreams : (Manager.run { options := {} } nestedRun).toOption.bind (fun m =>
      (m.stream? (instanceOf 2 1)).map LiveStream.decl) = some (countedSums 2 10 (some 2)) := by
    with_unfolding_all rfl
  rcases Option.bind_eq_some_iff.1 hshape with ⟨m, hrun, hshape⟩
  rcases Option.bind_eq_some_iff.1 hshape with ⟨el, hel, hshape⟩
  rcases Option.map_eq_some_iff.1 hshape with ⟨el', hel', hshape⟩
  simp only [Prod.mk.injEq, decide_eq_true_eq] at hshape
  rcases hshape with ⟨⟨hs, hidx, hready, hvalue⟩, hs', hidx', hready', hvalue'⟩
  rw [hrun] at hstreams
  rcases Option.map_eq_some_iff.1 hstreams with ⟨st, hst, hdecl⟩
  have hd : st.decl.Reduces summing 1 1 10 := hdecl ▸ reduces_countedSums 2 10 (some 2)
  have hother : 1 ≠ st.decl.staticId := by
    rw [hdecl]
    decide
  have hflush : ∀ e aliased, .flush e aliased ∉ nestedRun := by simp [nestedRun]
  have hspares : ∀ found op, ({ options := {} } : Manager).Applies nestedRun found op →
      found.Spares (instanceOf 2 1) op := by
    rintro found op happlies e vaddr data _ rfl
    exact absurd happlies.mem (by simp [nestedRun])
  rcases run_reduction (by decide : 6 < 64) (o := {}) rfl (toOption_eq_some hrun) hst hd hother hflush hspares
    with ⟨source, _, _, _, hwords⟩
  have hword : ∀ e el word idx, m.element? e = some el → el.stream = instanceOf 2 1 → el.idx = idx →
      el.valueReady = true → el.elementValue = .ok (.ofWord word) →
      ({ options := {} } : Manager).FoldsOffered nestedRun source st.decl summing 1 10 idx word := by
    rintro e el word _ hel hs rfl hready hvalue
    rcases (hwords e el hel hs).1 hready with ⟨word', hvalue', hfolds⟩
    have hsame : StreamValue.ofWord word = .ofWord word' := Except.ok.inj (hvalue.symm.trans hvalue')
    have hfront : word = word' := congrArg StreamValue.front hsame
    exact hfront ▸ hfolds
  exact ⟨m, st, source, el, el', toOption_eq_some hrun, hst, hel, hvalue, hword _ el 11 2 hel hs hidx hready hvalue,
    hel', hvalue', hword _ el' 12 3 hel' hs' hidx' hready' hvalue'⟩

/-- The same words under the static stream of the sums. -/
def olderRun : List Operation :=
  [.configure (countedWords 7), .configure (countedSums 1 5 none), .allocate (instanceOf 1 1),
    .allocate (instanceOf 1 2), .allocate (instanceOf 1 2), .markAddrReady { val := 0 },
    .markAddrReady { val := 1 }, .markAddrReady { val := 2 }, .compute { val := 0 }, .compute { val := 1 },
    .compute { val := 2 }, .tick 10]

/-- An older instance of its own static stream may be the base of a reduction. Where an inner loop begins,
the initial value then stands in for the value of the base as well: 5 and 7 give 10. -/
theorem run_reduction_older :
    ∃ m st el, Manager.run { options := {} } olderRun = .ok m ∧ (∀ e aliased, .flush e aliased ∉ olderRun) ∧
      (∀ e vaddr data, .setValue e vaddr data ∉ olderRun) ∧
      m.stream? (instanceOf 1 2) = some st ∧ st.decl.Reduces summing 1 1 5 ∧
      st.bases = [{ kind := .value, stream := instanceOf 1 1, reuse := .times 1 }] ∧
      m.element? { val := 2 } = some el ∧ el.stream = instanceOf 1 2 ∧ el.idx = 1 ∧ el.valueReady = true ∧
      el.elementValue = .ok (.ofWord 10) ∧ ¬ ∃ word, el.elementValue = .ok (.ofWord word) ∧
        ({ options := {} } : Manager).FoldsOffered olderRun (instanceOf 1 1) st.decl summing 1 5 el.idx word := by
  have hshape : (Manager.run { options := {} } olderRun).toOption.bind (fun m =>
      (m.element? { val := 0 }).bind fun base => (m.element? { val := 2 }).map fun el =>
        ((decide (base.label = { stream := instanceOf 1 1, index := 0 }), decide (m.offer? base = some (.ofWord 7))),
          decide (el.stream = instanceOf 1 2), el.idx, el.valueReady, decide (el.elementValue = .ok (.ofWord 10)))) =
      some ((true, true), true, 1, true, true) := by
    decide +kernel
  have hstreams : (Manager.run { options := {} } olderRun).toOption.bind (fun m =>
      (m.stream? (instanceOf 1 2)).map fun st => (st.decl, st.bases)) =
      some (countedSums 1 5 none, [{ kind := .value, stream := instanceOf 1 1, reuse := .times 1 }]) := by
    with_unfolding_all rfl
  rcases Option.bind_eq_some_iff.1 hshape with ⟨m, hrun, hshape⟩
  rcases Option.bind_eq_some_iff.1 hshape with ⟨base, hbase, hshape⟩
  rcases Option.map_eq_some_iff.1 hshape with ⟨el, hel, hshape⟩
  simp only [Prod.mk.injEq, decide_eq_true_eq] at hshape
  rcases hshape with ⟨⟨hlabel, hoffer⟩, hs, hidx, hready, hvalue⟩
  rw [hrun] at hstreams
  rcases Option.map_eq_some_iff.1 hstreams with ⟨st, hst, hdecl⟩
  rcases Prod.mk.inj hdecl with ⟨hdecl, hbases⟩
  have hrun := toOption_eq_some hrun
  have hflush : ∀ e aliased, .flush e aliased ∉ olderRun := by simp [olderRun]
  refine ⟨m, st, el, hrun, hflush, by simp [olderRun], hst, hdecl ▸ reduces_countedSums 1 5 none, hbases, hel, hs,
    hidx, hready, hvalue, ?_⟩
  rintro ⟨word, hword, hfolds⟩
  have hsame : StreamValue.ofWord 10 = .ofWord word := Except.ok.inj (hvalue.symm.trans hword)
  have hten : 10 = word := congrArg StreamValue.front hsame
  -- the loop has got one value, and the base offers 7
  rw [hidx] at hfolds
  have hloop : st.decl.InLoop 0 1 := by
    rw [hdecl]
    exact ⟨Nat.le_refl 1, rfl⟩
  rcases hfolds.loop 0 1 hloop rfl with ⟨vs, hlength, hoffered, hfold⟩
  rcases List.length_eq_one_iff.1 hlength with ⟨v, rfl⟩
  have hseven : ({ options := {} } : Manager).Offered olderRun (sourceLabel (instanceOf 1 1) 1 0) (.ofWord 7) :=
    ⟨olderRun, [], m, _, base, (List.append_nil _).symm, hrun, hbase, hlabel, hoffer⟩
  have horderly : ({ options := {} } : Manager).Orderly 6 := orderly_new rfl
  rw [horderly.offered_unique (by decide) hflush (hoffered 0 v rfl) hseven, ← hten] at hfold
  exact absurd hfold (by decide +kernel)

end Manager
end StreamEngine
