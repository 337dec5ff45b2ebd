import StreamEngine.Proofs.Lifecycle.Origins

/-!
# What a base reference leads to

Keys of elements are used again, the one freed last first, so a reference that outlives its element mostly
finds another element under the key. Labels are not used again: instances of a static stream are numbered
on, and so are the elements of an instance. A reference keeps both and therefore finds the element that it
was made for, or none.

- `Manager.Spent` : a label that no element is allocated under any more;
- `Manager.Retains` : a key that holds an element all through a run, hence one and the same;
- `Owned.retains_or_allocates` : an element after a run was there all the time or was allocated on the way;
- `Owned.bound` : a new element refers to elements that are there, by their labels;
- `run_bases` : what a base reference leads to, after every run.
-/

namespace StreamEngine
namespace Manager

variable {m m' : Manager} {e e' : ElementId} {el el' base : Element} {s : StreamId} {st : LiveStream}
  {b : BaseRef} {l : ElementLabel} {op : Operation} {ops : List Operation}

/-! ## Labels -/

/-- No element is allocated under the label any more: the instance was numbered, and the next index of its
stream, if that has not ended, lies behind. -/
def Spent (m : Manager) (l : ElementLabel) : Prop :=
  l.stream ∈ m.instances.issued ∧ ∀ st, m.stream? l.stream = some st → l.index < st.nextIdx

/-- The label of an element is spent. -/
theorem Owned.spent (h : m.Owned) (hel : m.element? e = some el) : m.Spent el.label := by
  rcases h.home e el.place (place?_eq hel) with ⟨st, hst, he⟩
  refine ⟨h.issued el.stream st hst, ?_⟩
  intro st' hst'
  cases (hst.symm.trans hst')
  rcases (h.chained el.stream st hst).placed with ⟨n, _, hplaced⟩
  rcases List.mem_iff_getElem?.1 he with ⟨i, hi⟩
  have hidx := congrArg Place.idx (Option.some.inj ((place?_eq hel).symm.trans (hplaced i e hi)))
  have hlt := (List.getElem?_eq_some_iff.1 hi).1
  have hle := (h.chained el.stream st hst).length_le
  change el.idx < st.nextIdx
  change el.idx = st.nextIdx - st.chain.length + i at hidx
  omega

/-- A new stream has another instance number, and an old one never goes back. -/
theorem Spent.apply (h : m.Spent l) (howned : m.Owned) (happly : m.apply op = .ok m') :
    m'.Spent l := by
  by_cases hop : ∃ d, op = .configure d
  · rcases hop with ⟨d, rfl⟩
    rcases map_snd_eq_ok happly with ⟨id, hop⟩
    rcases configure_eq_ok hop with ⟨hid, config, graph, graph', bases, _, _, rfl⟩
    refine ⟨List.mem_cons_of_mem _ h.1, ?_⟩
    intro st hst
    have hother : id ≠ l.stream := by
      intro hsame
      refine InstanceCounter.not_mem_next howned.counted d.core d.staticId ?_
      rw [← hid, hsame]
      exact h.1
    have hold := (stream?_putStream m id l.stream { config, decl := d, bases }).symm.trans hst
    rw [if_neg hother] at hold
    exact h.2 st hold
  · have hproceeds := howned.proceeds happly fun d hd => hop ⟨d, hd⟩
    refine ⟨hproceeds.issued _ h.1, ?_⟩
    intro st' hst'
    rcases hproceeds.streams _ st' hst' with ⟨st, hst, hcontinues⟩
    exact Nat.lt_of_lt_of_le (h.2 st hst) hcontinues.nextIdx_le

theorem Spent.run (h : m.Spent l) (howned : m.Owned) (hrun : m.run ops = .ok m') : m'.Spent l :=
  (howned.run_keeps (P := fun m => m.Spent l) (fun _ _ _ howned h => h.apply howned) h hrun).2

/-- The label of a new element was not spent. -/
theorem Owned.label_of_allocate (h : m.Owned) (hallocate : m.allocate s = .ok (.ok e, m'))
    (hel : m'.element? e = some el) : el.stream = s ∧ ¬ m.Spent el.label := by
  rcases h.allocate_cases hallocate with
    ⟨_, hr, _⟩ | ⟨st, bases, own, e₁, hst, _, _, hr, _, hself, _⟩
  · cases hr
  cases hr
  cases (hself.symm.trans hel)
  exact ⟨rfl, fun hspent => Nat.lt_irrefl _ (hspent.2 st hst)⟩

/-! ## Runs -/

/-- The key holds an element wherever the operations have got to. -/
def Retains (m : Manager) (ops : List Operation) (e : ElementId) : Prop :=
  ∀ i m', m.run (ops.take i) = .ok m' → ∃ el, m'.element? e = some el

/-- After the operations `before`, the element `e` of stream `s` is allocated, which leaves `made`. -/
def Allocates (m : Manager) (before : List Operation) (s : StreamId) (e : ElementId)
    (made : Manager) : Prop :=
  ∃ found, m.run before = .ok found ∧ found.allocate s = .ok (.ok e, made)

theorem run_cons_of_apply (happly : m.apply op = .ok m') : m.run (op :: ops) = m'.run ops := by
  rw [run, List.foldlM_cons, happly]
  rfl

theorem retains_nil (hel : m.element? e = some el) : m.Retains [] e := by
  intro i m' hrun
  rw [List.take_nil] at hrun
  cases hrun
  exact ⟨el, hel⟩

theorem Retains.cons (hel : m.element? e = some el) (happly : m.apply op = .ok m')
    (h : m'.Retains ops e) : m.Retains (op :: ops) e := by
  intro i m₁ hrun
  cases i with
  | zero =>
      cases hrun
      exact ⟨el, hel⟩
  | succ i =>
      rw [List.take_succ_cons, run_cons_of_apply happly] at hrun
      exact h i m₁ hrun

theorem Retains.first (h : m.Retains ops e) : ∃ el, m.element? e = some el :=
  h 0 m rfl

theorem Retains.at {before after : List Operation} (h : m.Retains (before ++ after) e)
    (hrun : m.run before = .ok m') : ∃ el, m'.element? e = some el := by
  refine h before.length m' ?_
  rw [List.take_left]
  exact hrun

/-- What holds an element all through a run holds it through every part of the run. -/
theorem Retains.segment {before between after : List Operation}
    (h : m.Retains (before ++ between ++ after) e) (hrun : m.run before = .ok m') :
    m'.Retains between e := by
  intro i m₁ hi
  have hsplit : before ++ between ++ after = before ++ between.take i ++ (between.drop i ++ after) := by
    rw [List.append_assoc before, List.append_assoc, ← List.append_assoc (between.take i),
      List.take_append_drop]
  exact (hsplit ▸ h).at (run_append_eq_ok.2 ⟨m', hrun, hi⟩)

theorem Retains.last (h : m.Retains ops e) (hrun : m.run ops = .ok m') :
    ∃ el, m'.element? e = some el := by
  refine h ops.length m' ?_
  rw [List.take_length]
  exact hrun

/-- An element that is there after a run was there all the time, or was allocated on the way. -/
theorem Owned.retains_or_allocates (h : m.Owned) (hrun : m.run ops = .ok m')
    (hel' : m'.element? e = some el') :
    (∃ el, m.element? e = some el ∧ el'.origin = el.origin ∧ m.Retains ops e) ∨
      ∃ before s after made el, ops = before ++ .allocate s :: after ∧ m.Allocates before s e made ∧
        made.run after = .ok m' ∧ made.Retains after e ∧ made.element? e = some el ∧
        el'.origin = el.origin := by
  induction ops generalizing m with
  | nil =>
      cases hrun
      exact Or.inl ⟨el', hel', rfl, retains_nil hel'⟩
  | cons op ops ih =>
      rcases run_cons hrun with ⟨m₁, happly, hrest⟩
      rcases ih (h.apply happly) hrest with
        ⟨el₁, hel₁, horigin, hretains⟩ | ⟨before, s, after, made, el₁, rfl, ⟨found, hfound, hmade⟩, hlater⟩
      · rcases h.inherits happly hel₁ with
          ⟨el, hel, hsame⟩ | ⟨s, st, bases, own, rfl, hmade, _⟩
        · exact Or.inl ⟨el, hel, horigin.trans hsame, hretains.cons hel happly⟩
        · exact Or.inr ⟨[], s, ops, m₁, el₁, rfl, ⟨m, rfl, hmade⟩, hrest, hretains, hel₁, horigin⟩
      · refine Or.inr ⟨op :: before, s, after, made, el₁, rfl, ⟨found, ?_, hmade⟩, hlater⟩
        rw [run_cons_of_apply happly]
        exact hfound

theorem Owned.of_allocates {before : List Operation} {made : Manager} (h : m.Owned)
    (hallocates : m.Allocates before s e made) : made.Owned := by
  rcases hallocates with ⟨found, hfound, hmade⟩
  exact (h.run hfound).allocate hmade

/-- A key that holds an element all through a run holds the same element. -/
theorem Retains.origin_eq (h : m.Retains ops e) (howned : m.Owned) (hrun : m.run ops = .ok m')
    (hel : m.element? e = some el) (hel' : m'.element? e = some el') : el'.origin = el.origin := by
  rcases howned.retains_or_allocates hrun hel' with
    ⟨el₁, hel₁, horigin, _⟩ | ⟨before, s, after, made, _, rfl, ⟨found, hfound, hmade⟩, _⟩
  · cases (hel.symm.trans hel₁)
    exact horigin
  -- the key of an element that is allocated was free
  rcases (howned.run hfound).allocate_cases hmade with
    ⟨_, hr, _⟩ | ⟨st, bases, own, e₁, _, _, _, hr, hnone, _, _⟩
  · cases hr
  cases hr
  have htake : m.run ((before ++ .allocate s :: after).take before.length) = .ok found := by
    rw [List.take_left]
    exact hfound
  rcases h _ found htake with ⟨el₁, hel₁⟩
  rw [hnone] at hel₁
  cases hel₁

/-- An element whose label was spent when a run began was there all the time. -/
theorem Spent.retains (h : m.Spent el'.label) (howned : m.Owned) (hrun : m.run ops = .ok m')
    (hel' : m'.element? e = some el') : m.Retains ops e := by
  rcases howned.retains_or_allocates hrun hel' with
    ⟨_, _, _, hretains⟩ | ⟨before, s, after, made, el, rfl, ⟨found, hfound, hmade⟩, _, _, hel, horigin⟩
  · exact hretains
  have hlabel : el'.label = el.label :=
    congrArg (fun o : Origin => ({ stream := o.stream, index := o.idx } : ElementLabel)) horigin
  have hlater := h.run howned hfound
  rw [hlabel] at hlater
  exact absurd hlater ((howned.run hfound).label_of_allocate hmade hel).2

/-! ## Bases -/

theorem findElement_eq_ok (h : m.findElement l = .ok e) :
    ∃ st el, m.stream? l.stream = some st ∧ e ∈ st.chain ∧ m.element? e = some el ∧
      el.idx = l.index := by
  rw [findElement] at h
  cases hst : m.stream? l.stream with
  | none =>
      rw [hst] at h
      cases h
  | some st =>
      rw [hst] at h
      rcases bind_eq_ok.1 h with ⟨found, hfound, h⟩
      cases found with
      | none => cases h
      | some e₁ =>
          cases h
          rcases findM?_eq_some hfound with ⟨i, hi, htest, _⟩
          rcases bind_eq_ok.1 htest with ⟨el, hget, htest⟩
          have hidx : el.idx = l.index := by simpa using Except.ok.inj htest
          exact ⟨st, el, rfl, List.mem_of_getElem? hi, element_eq_ok.1 hget, hidx⟩

/-- What is found under a label has that label. -/
theorem Owned.findElement (h : m.Owned) (hfind : m.findElement l = .ok e) :
    ∃ el, m.element? e = some el ∧ el.label = l := by
  rcases findElement_eq_ok hfind with ⟨st, el, hst, he, hel, hidx⟩
  rcases (h.chained l.stream st hst).exists_element he with ⟨el', hel', hs⟩
  cases (hel.symm.trans hel')
  refine ⟨el, hel, ?_⟩
  rw [Element.label, hs, hidx]

/-- A reference to a base of the stream leads to an element that was found under its label. -/
theorem boundBases_eq_ok {bases : List (BaseKind × BaseRef)} {kind : BaseKind}
    (h : m.boundBases st = .ok bases) (hb : (kind, b) ∈ bases) :
    ∃ bound ∈ st.bases, bound.kind = kind ∧ b.label.stream = bound.stream ∧
      m.findElement b.label = .ok b.element := by
  rw [boundBases] at h
  by_cases hfirst : (st.decl.role.isOneIterBehind && st.nextIdx == 0) = true
  · simp only [if_pos hfirst] at h
    cases h
    cases hb
  simp only [if_neg hfirst] at h
  rcases bind_eq_ok.1 h with ⟨refs, hrefs, h⟩
  cases h
  rcases List.mem_iff_getElem?.1 hb with ⟨i, hi⟩
  rcases List.getElem?_zip_eq_some.1 hi with ⟨hkind, href⟩
  rw [List.getElem?_map] at hkind
  rcases Option.map_eq_some_iff.1 hkind with ⟨bound, hbound, hkind⟩
  rcases (mapM_eq_ok hrefs).2 i bound hbound with ⟨b', hb', hmade⟩
  cases (href.symm.trans hb')
  rcases bind_eq_ok.1 hmade with ⟨e, hfind, hmade⟩
  cases hmade
  exact ⟨bound, List.mem_of_getElem? hbound, hkind, rfl, hfind⟩

theorem mem_refsOf {kind : BaseKind} {bases : List (BaseKind × BaseRef)} :
    b ∈ refsOf kind bases ↔ (kind, b) ∈ bases := by
  simp [refsOf]

/-- The previous element of the chain is what it is called. -/
theorem Owned.ownBase (h : m.Owned) (hst : m.stream? s = some st) {own : List BaseRef}
    (hown : ownBase s st = .ok own) (hb : b ∈ own) :
    ∃ el, m.element? b.element = some el ∧ el.label = b.label := by
  rw [Manager.ownBase] at hown
  by_cases hbehind : (st.decl.role.isOneIterBehind && 0 < st.nextIdx) = true
  · rw [if_pos hbehind] at hown
    cases hlast : st.chain.getLast? with
    | none =>
        rw [hlast] at hown
        cases hown
    | some last =>
        rw [hlast] at hown
        cases hown
        cases List.mem_singleton.1 hb
        have hchained := h.chained s st hst
        rcases hchained.placed with ⟨n, _, hplaced⟩
        rw [List.getLast?_eq_getElem?] at hlast
        rcases place?_eq_some.1 (hplaced _ _ hlast) with ⟨el, hel, hplace⟩
        refine ⟨el, hel, ?_⟩
        have hlt := (List.getElem?_eq_some_iff.1 hlast).1
        have hle := hchained.length_le
        have hidx : el.idx = st.nextIdx - st.chain.length + (st.chain.length - 1) :=
          congrArg Place.idx hplace
        have hprevious : el.idx = st.nextIdx - 1 := by omega
        have hstream : el.stream = s := congrArg Place.stream hplace
        rw [Element.label, hprevious, hstream]
  · rw [if_neg hbehind] at hown
    cases hown
    cases hb

/-- A new element refers to elements that are there, by their labels. -/
theorem Owned.bound (h : m.Owned) (hallocate : m.allocate s = .ok (.ok e, m'))
    (hel : m'.element? e = some el) (hb : b ∈ el.addrBases ++ el.valueBases) :
    ∃ base, m'.element? b.element = some base ∧ base.label = b.label := by
  rcases h.allocate_cases hallocate with
    ⟨_, hr, _⟩ | ⟨st, bases, own, e₁, hst, hbases, hown, hr, hnone, hself, hothers⟩
  · cases hr
  cases hr
  cases (hself.symm.trans hel)
  -- an element that was there before still is, under its label
  have hkept : (∃ base, m.element? b.element = some base ∧ base.label = b.label) →
      ∃ base, m'.element? b.element = some base ∧ base.label = b.label := by
    rintro ⟨base, hbase, hlabel⟩
    have hother : b.element ≠ e := by
      intro hsame
      rw [hsame, hnone] at hbase
      cases hbase
    rw [hothers _ hother, hbase]
    refine ⟨_, rfl, ?_⟩
    rw [← hlabel]
    split <;> rfl
  have hfound : ∀ kind, (kind, b) ∈ bases →
      ∃ base, m'.element? b.element = some base ∧ base.label = b.label := by
    intro kind hmem
    rcases boundBases_eq_ok hbases hmem with ⟨_, _, _, _, hfind⟩
    exact hkept (h.findElement hfind)
  change b ∈ refsOf .address bases ++ (refsOf .value bases ++ own ++ selfBase st
    { element := e, label := { stream := s, index := st.nextIdx } }) at hb
  simp only [List.mem_append] at hb
  rcases hb with hb | (hb | hb) | hb
  · exact hfound .address (mem_refsOf.1 hb)
  · exact hfound .value (mem_refsOf.1 hb)
  · exact hkept (h.ownBase hst hown hb)
  · rw [selfBase] at hb
    split at hb
    · cases List.mem_singleton.1 hb
      exact ⟨_, hself, rfl⟩
    · cases hb

/-! ## Reading bases -/

theorem matches_iff : b.matches base = true ↔ base.label = b.label := by
  rw [BaseRef.matches, Bool.and_eq_true, beq_iff_eq, beq_iff_eq, Element.label]
  constructor
  · rintro ⟨hstream, hidx⟩
    rw [hstream, hidx]
  · intro hlabel
    exact ⟨congrArg ElementLabel.stream hlabel, congrArg ElementLabel.index hlabel⟩

theorem baseElement_eq_ok :
    m.baseElement el b = .ok base ↔ m.element? b.element = some base ∧ base.label = b.label := by
  rw [baseElement]
  cases hbase : m.element? b.element with
  | none =>
      refine ⟨fun h => ?_, fun h => ?_⟩
      · cases h
      · cases h.1
  | some found =>
      by_cases hmatches : b.matches found = true
      · simp only [if_pos hmatches]
        constructor
        · intro h
          cases h
          exact ⟨rfl, matches_iff.1 hmatches⟩
        · rintro ⟨hsame, _⟩
          cases hsame
          rfl
      · simp only [if_neg hmatches]
        constructor
        · intro h
          cases h
        · rintro ⟨hsame, hlabel⟩
          cases hsame
          exact absurd (matches_iff.2 hlabel) hmatches

/-- A base can be read, or the reference is refused because its element was released. -/
theorem baseElement_cases (m : Manager) (el : Element) (b : BaseRef) :
    (∃ base, m.baseElement el b = .ok base) ∨
      m.baseElement el b = .error (.element el.label (.baseReleased b.label)) := by
  rw [baseElement]
  cases m.element? b.element with
  | none => exact Or.inr rfl
  | some found =>
      by_cases hmatches : b.matches found = true
      · exact Or.inl ⟨found, if_pos hmatches⟩
      · exact Or.inr (if_neg hmatches)

/-- A reference to an element that was there when a run began: after the run it leads to that element, and
to no other, if the key has held it all the time, and it is refused otherwise. -/
theorem Owned.baseElement_iff {bound : Element} (h : m.Owned) (hrun : m.run ops = .ok m')
    (hbound : m.element? b.element = some bound) (hlabel : bound.label = b.label) :
    m'.baseElement el b = .ok base ↔
      m.Retains ops b.element ∧ m'.element? b.element = some base := by
  rw [baseElement_eq_ok]
  constructor
  · rintro ⟨hbase, hsame⟩
    have hspent := h.spent hbound
    rw [hlabel, ← hsame] at hspent
    exact ⟨hspent.retains h hrun hbase, hbase⟩
  · rintro ⟨hretains, hbase⟩
    refine ⟨hbase, Eq.trans ?_ hlabel⟩
    exact congrArg (fun o : Origin => ({ stream := o.stream, index := o.idx } : ElementLabel))
      (hretains.origin_eq h hrun hbound hbase)

/-- Readiness is read off an element that the reference leads to. -/
theorem exists_baseElement_of_baseReady {ready : Bool} (h : m.baseReady e el b = .ok ready) :
    ∃ base, m.baseElement el b = .ok base := by
  rcases bind_eq_ok.1 h with ⟨base, hbase, _⟩
  exact ⟨base, hbase⟩

/-- So is a value. -/
theorem exists_baseElement_of_baseValue {bases : List BaseRef} {id : StaticId} {v : StreamValue}
    (hb : (bases.find? fun b => b.label.stream.staticId = id) = some b)
    (h : m.baseValue e el bases id = .ok v) : ∃ base, m.baseElement el b = .ok base := by
  rw [baseValue, hb] at h
  rcases bind_eq_ok.1 h with ⟨base, hbase, _⟩
  exact ⟨base, hbase⟩

/-! ## Every run -/

/-- No two elements are allocated under one label, whatever streams have ended and were configured again in
between. And every reference that a live element was given at its allocation leads to the element that was
under its key then, or it is refused: it is read exactly as long as the key has held that element. What an
operation learns of a base, whether it is ready or what its value is, it learns by such a reading. -/
theorem run_bases {o : Options} (hrun : Manager.run { options := o } ops = .ok m) :
    (∀ before between s s' e e' made made' el el',
      ({ options := o } : Manager).Allocates before s e made → made.Allocates between s' e' made' →
      made.element? e = some el → made'.element? e' = some el' → el.label ≠ el'.label) ∧
    ∀ e el b, m.element? e = some el → b ∈ el.addrBases ++ el.valueBases →
      ∃ before after made el₁ bound, ops = before ++ .allocate el.stream :: after ∧
        ({ options := o } : Manager).Allocates before el.stream e made ∧ made.run after = .ok m ∧
        made.Retains after e ∧ made.element? e = some el₁ ∧ b ∈ el₁.addrBases ++ el₁.valueBases ∧
        made.element? b.element = some bound ∧ bound.label = b.label ∧
        (∀ base, m.baseElement el b = .ok base ↔
          made.Retains after b.element ∧ m.element? b.element = some base) ∧
        (¬ made.Retains after b.element →
          m.baseElement el b = .error (.element el.label (.baseReleased b.label))) ∧
        (∀ ready, m.baseReady e el b = .ok ready → made.Retains after b.element) ∧
        (∀ bases id v, (bases.find? fun b => b.label.stream.staticId = id) = some b →
          m.baseValue e el bases id = .ok v → made.Retains after b.element) := by
  refine ⟨?_, ?_⟩
  · intro before between s s' e e' made made' el el' hmade hmade' hel hel' hsame
    have howned := (owned_new o).of_allocates hmade
    have hspent := howned.spent hel
    rw [hsame] at hspent
    rcases hmade' with ⟨found, hfound, hmade'⟩
    exact ((howned.run hfound).label_of_allocate hmade' hel').2 (hspent.run howned hfound)
  · intro e el b hel hb
    rcases (owned_new o).retains_or_allocates hrun hel with
      ⟨_, hnone, _⟩ | ⟨before, s, after, made, el₁, hops, hmade, hafter, hretains, hel₁, horigin⟩
    · cases hnone
    have howned := (owned_new o).of_allocates hmade
    rcases hmade with ⟨found, hfound, hmade⟩
    have hfoundOwned := (owned_new o).run hfound
    -- the element has the stream and the bases that it was allocated with
    have hstream : el.stream = s :=
      (congrArg Origin.stream horigin).trans (hfoundOwned.label_of_allocate hmade hel₁).1
    have hb₁ : b ∈ el₁.addrBases ++ el₁.valueBases := by
      have hbases := congrArg (fun o : Origin => o.addrBases ++ o.valueBases) horigin
      exact hbases ▸ hb
    rcases hfoundOwned.bound hmade hel₁ hb₁ with ⟨bound, hbound, hlabel⟩
    have hiff : ∀ base, m.baseElement el b = .ok base ↔
        made.Retains after b.element ∧ m.element? b.element = some base :=
      fun base => howned.baseElement_iff hafter hbound hlabel
    refine ⟨before, after, made, el₁, bound, hstream ▸ hops, ⟨found, hfound, hstream ▸ hmade⟩, hafter,
      hretains, hel₁, hb₁, hbound, hlabel, hiff, ?_, ?_, ?_⟩
    · intro hgone
      rcases m.baseElement_cases el b with ⟨base, hbase⟩ | hrefused
      · exact absurd ((hiff base).1 hbase).1 hgone
      · exact hrefused
    · intro ready hready
      rcases exists_baseElement_of_baseReady hready with ⟨base, hbase⟩
      exact ((hiff base).1 hbase).1
    · intro bases id v hfind hvalue
      rcases exists_baseElement_of_baseValue hfind hvalue with ⟨base, hbase⟩
      exact ((hiff base).1 hbase).1

/-! ## A key used again -/

/-- Words behind each other. -/
def loadedWords : Declaration :=
  { staticId := 1, role := .load, elemSize := 8, formal := Formal.ofWords [8, 0x1000] }

/-- Words whose addresses are computed from those words. -/
def gatheredWords : Declaration :=
  { staticId := 2, role := .load, elemSize := 8, formal := Formal.ofWords [8, 0x2000],
    bases := [{ staticId := 1, kind := .address }] }

/-- The first word is released while the element that refers to it is there, and its key goes to the second
word. -/
def reusedRun : List Operation :=
  let s : StreamId := { core := 0, staticId := 1, instanceNo := 1 }
  [.configure loadedWords, .configure gatheredWords, .allocate s,
    .allocate { core := 0, staticId := 2, instanceNo := 1 }, .step s, .release { val := 0 }, .allocate s]

/-- The reference is refused, although its key holds an element of the same stream again. -/
theorem run_bases_recycled :
    ∃ m el base, Manager.run { options := {} } reusedRun = .ok m ∧
      m.element? { val := 1 } = some el ∧ el.addrBases.map BaseRef.element = [{ val := 0 }] ∧
      m.element? { val := 0 } = some base ∧ base.idx = 1 ∧
      ∀ b ∈ el.addrBases, ∃ (made : Manager) (after : List Operation), made.run after = .ok m ∧
        ¬ made.Retains after b.element ∧
        m.baseElement el b = .error (.element el.label (.baseReleased b.label)) := by
  have hshape : (Manager.run { options := {} } reusedRun).toOption.bind (fun m =>
      (m.element? { val := 1 }).bind fun el => (m.element? { val := 0 }).map fun base =>
        (el.addrBases.map BaseRef.element, base.idx,
          el.addrBases.all fun b => (m.baseElement el b).toOption.isNone)) =
      some ([{ val := 0 }], 1, true) := by
    decide +kernel
  rcases Option.bind_eq_some_iff.1 hshape with ⟨m, hrun, hshape⟩
  rcases Option.bind_eq_some_iff.1 hshape with ⟨el, hel, hshape⟩
  rcases Option.map_eq_some_iff.1 hshape with ⟨base, hbase, hshape⟩
  rcases Prod.mk.inj hshape with ⟨hkeys, hshape⟩
  rcases Prod.mk.inj hshape with ⟨hidx, hrefused⟩
  refine ⟨m, el, base, toOption_eq_some hrun, hel, hkeys, hbase, hidx, ?_⟩
  intro b hb
  rcases (run_bases (toOption_eq_some hrun)).2 { val := 1 } el b hel (List.mem_append_left _ hb) with
    ⟨before, after, made, el₁, bound, _, _, hafter, _, _, _, _, _, hiff, hgone, _⟩
  have hnot : ¬ made.Retains after b.element := by
    intro hretains
    rcases hretains.last hafter with ⟨base', hbase'⟩
    have hnone := List.all_eq_true.1 hrefused b hb
    rw [(hiff base').2 ⟨hretains, hbase'⟩] at hnone
    cases hnone
  exact ⟨made, after, hafter, hnot, hgone hnot⟩

end Manager
end StreamEngine
