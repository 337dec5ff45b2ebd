import StreamEngine.Proofs.Lifecycle.Declared

/-!
# Which elements a value is computed from

The references of an element carry the labels of the elements that they were made for. These labels follow
from the stream and the index of the element: each base gives the element that the index reuses, a stream
that runs one iteration behind gives the element before, and a load-compute element gives itself.

- `BoundBase.declared` : the declaration that a bound base goes back to;
- `LiveStream.valueLabels` : the labels that an element of the stream reads its value from, in order;
- `labels_newElement` : a new element has references of these labels;
- `Manager.Labelled`, `Labelled.run` : all elements do, after every run.
-/

namespace StreamEngine

/-- What was declared of a base that is bound now. -/
def BoundBase.declared (b : BoundBase) : BaseDecl :=
  { staticId := b.stream.staticId, kind := b.kind, reuse := b.reuse }

namespace LiveStream

/-- Label of the element of a base that element `idx` of the stream uses. -/
def baseLabel (st : LiveStream) (idx : Nat) (b : BoundBase) : ElementLabel :=
  { stream := b.stream, index := b.reuse.depToBase (if st.decl.role.isOneIterBehind then idx - 1 else idx) }

/-- Labels of the elements that element `idx` of the stream, which is called `s`, computes its value from. -/
def valueLabels (st : LiveStream) (s : StreamId) (idx : Nat) : List ElementLabel :=
  (if st.decl.role.isOneIterBehind && idx == 0 then []
    else (st.bases.filter fun b => b.kind = .value).map (st.baseLabel idx)) ++
  (if st.decl.role.isOneIterBehind && 0 < idx then [{ stream := s, index := idx - 1 }] else []) ++
  if st.decl.role.isLoadCompute then [{ stream := s, index := idx }] else []

theorem Continues.valueLabels_eq {st st' : LiveStream} (h : st.Continues st') (s : StreamId) (idx : Nat) :
    st'.valueLabels s idx = st.valueLabels s idx := by
  have hbase : st'.baseLabel idx = st.baseLabel idx := by
    funext b
    rw [baseLabel, baseLabel, h.decl_eq]
  rw [valueLabels, valueLabels, hbase, h.decl_eq, h.bases_eq]

end LiveStream

namespace Manager

variable {m m' : Manager} {e : ElementId} {el : Element} {s : StreamId} {st : LiveStream}
  {op : Operation} {ops : List Operation}

/-! ## New elements -/

theorem labels_baseRefs {idx : Nat} {bases : List BoundBase} {refs : List BaseRef}
    (h : m.baseRefs idx bases = .ok refs) : refs.map BaseRef.label =
      bases.map fun b => { stream := b.stream, index := b.reuse.depToBase idx } := by
  rcases mapM_eq_ok h with ⟨hlength, hmade⟩
  refine List.ext_getElem? fun i => ?_
  rw [List.getElem?_map, List.getElem?_map]
  cases hb : bases[i]? with
  | none =>
      have hr : refs[i]? = none := by
        rw [List.getElem?_eq_none_iff] at hb ⊢
        omega
      rw [hr, Option.map_none, Option.map_none]
  | some b =>
      rcases hmade i b hb with ⟨r, hr, hfound⟩
      rcases bind_eq_ok.1 hfound with ⟨e, _, hfound⟩
      cases hfound
      rw [hr, Option.map_some, Option.map_some]

/-- References to bases of one kind have the labels of these bases. -/
theorem labels_refsOf {kind : BaseKind} {f : BoundBase → ElementLabel} {bases : List BoundBase}
    {refs : List BaseRef} (h : refs.map BaseRef.label = bases.map f) :
    (refsOf kind ((bases.map BoundBase.kind).zip refs)).map BaseRef.label =
      (bases.filter fun b => b.kind = kind).map f := by
  induction bases generalizing refs with
  | nil => rfl
  | cons b bases ih =>
      cases refs with
      | nil => cases h
      | cons r refs =>
          rw [List.map_cons, List.map_cons, List.cons.injEq] at h
          have hrest := ih h.2
          rw [refsOf] at hrest ⊢
          by_cases hkind : b.kind = kind
          · simp only [List.map_cons, List.zip_cons_cons, List.filter_cons, hkind, decide_true, if_true, hrest,
              h.1]
          · simp only [List.map_cons, List.zip_cons_cons, List.filter_cons, hkind, decide_false,
              Bool.false_eq_true, if_false, hrest]

theorem labels_boundBases {bases : List (BaseKind × BaseRef)} (h : m.boundBases st = .ok bases)
    (kind : BaseKind) : (refsOf kind bases).map BaseRef.label =
      if st.decl.role.isOneIterBehind && st.nextIdx == 0 then []
      else (st.bases.filter fun b => b.kind = kind).map (st.baseLabel st.nextIdx) := by
  rw [boundBases] at h
  by_cases hfirst : (st.decl.role.isOneIterBehind && st.nextIdx == 0) = true
  · simp only [if_pos hfirst] at h ⊢
    cases h
    rfl
  · simp only [if_neg hfirst] at h ⊢
    rcases bind_eq_ok.1 h with ⟨refs, hrefs, h⟩
    cases h
    exact labels_refsOf (labels_baseRefs hrefs)

theorem labels_ownBase {own : List BaseRef} (h : ownBase s st = .ok own) : own.map BaseRef.label =
    if st.decl.role.isOneIterBehind && 0 < st.nextIdx then [{ stream := s, index := st.nextIdx - 1 }]
    else [] := by
  rcases ownBase_eq_ok h with ⟨hbehind, rfl⟩ | ⟨hbehind, last, _, rfl⟩
  · rw [hbehind]
    rfl
  · rw [hbehind]
    rfl

theorem labels_newElement {bases : List (BaseKind × BaseRef)} {own : List BaseRef}
    (hbases : m.boundBases st = .ok bases) (hown : ownBase s st = .ok own) (e : ElementId) :
    (m.newElement s st bases own e).valueBases.map BaseRef.label = st.valueLabels s st.nextIdx := by
  have hself : (selfBase st { element := e, label := { stream := s, index := st.nextIdx } }).map BaseRef.label =
      if st.decl.role.isLoadCompute then [{ stream := s, index := st.nextIdx }] else [] := by
    rw [selfBase]
    split <;> rfl
  rw [newElement, List.map_append, List.map_append, labels_boundBases hbases, labels_ownBase hown, hself,
    LiveStream.valueLabels]

/-! ## Operations -/

/-- Bases are bound as they were declared, and elements refer to what their stream and index say. -/
structure Labelled (m : Manager) : Prop where
  bases : ∀ s st, m.stream? s = some st → st.bases.map BoundBase.declared = st.decl.bases
  values : ∀ e el st, m.element? e = some el → m.stream? el.stream = some st →
    el.valueBases.map BaseRef.label = st.valueLabels el.stream el.idx

theorem labelled_new (o : Options) : ({ options := o } : Manager).Labelled where
  bases := by
    intro s st hst
    cases hst
  values := by
    intro e el st hel
    cases hel

/-- The latest instance of a static stream is an instance of it. -/
theorem declared_bindBases {id : StreamId} {c : ConfigId} {bases : List BaseDecl}
    {bounds : List BoundBase} (hlatest : ∀ key s, m.latest.find? key = some s → key = (s.core, s.staticId))
    (h : m.bindBases id c bases = .ok (bounds, m')) : bounds.map BoundBase.declared = bases := by
  induction bases generalizing m bounds with
  | nil =>
      cases h
      rfl
  | cons base rest ih =>
      rcases bind_eq_ok.1 h with ⟨⟨bound, m₁⟩, hbound, h⟩
      rcases bind_eq_ok.1 h with ⟨⟨more, m₂⟩, hmore, h⟩
      cases h
      rcases bindBase_eq_ok hbound with ⟨graph, _, rfl, hkind, hreuse, hfound, _⟩
      -- streams are found by their static streams
      have hid : base.staticId = bound.stream.staticId := congrArg Prod.snd (hlatest _ _ hfound)
      have hrest := ih (m := { m with graph }) hlatest hmore
      rw [List.map_cons, hrest, BoundBase.declared, hkind, hreuse, ← hid]

theorem Labelled.configure (h : m.Labelled) (howned : m.Owned) {d : Declaration} {id : StreamId}
    (hconfigure : m.configure d = .ok (id, m')) : m'.Labelled := by
  rcases configure_eq_ok hconfigure with ⟨hid, config, graph, graph', bases, _, hbases, rfl⟩
  let next : LiveStream := { config, decl := d, bases }
  have hcases : ∀ s st, (m.putStream id next).stream? s = some st →
      id = s ∧ st = next ∨ id ≠ s ∧ m.stream? s = some st :=
    fun _ _ => stream?_putStream_cases
  refine ⟨?_, ?_⟩
  · intro s st hst
    rcases hcases s st hst with ⟨_, rfl⟩ | ⟨_, hold⟩
    · have hlatest : ∀ key s, m.latest.find? key = some s → key = (s.core, s.staticId) :=
        fun key s hlast => (howned.latest key s hlast).1
      exact declared_bindBases (by exact hlatest) hbases
    · exact h.bases s st hold
  · intro e el st hel hst
    rcases hcases _ st hst with ⟨hsame, _⟩ | ⟨_, hold⟩
    · -- a new instance has no elements
      rcases howned.home e el.place (place?_eq hel) with ⟨st₀, hst₀, _⟩
      refine absurd (howned.issued el.stream st₀ hst₀) ?_
      rw [← hsame, hid]
      exact InstanceCounter.not_mem_next howned.counted d.core d.staticId
    · exact h.values e el st hel hold

theorem Labelled.apply (h : m.Labelled) (howned : m.Owned) (happly : m.apply op = .ok m') :
    m'.Labelled := by
  -- only a new stream binds bases
  by_cases hop : ∃ d, op = .configure d
  · rcases hop with ⟨d, rfl⟩
    rcases map_snd_eq_ok happly with ⟨_, hop⟩
    exact h.configure howned hop
  have hproceeds := howned.proceeds happly fun d hd => hop ⟨d, hd⟩
  refine ⟨?_, ?_⟩
  · intro s st' hst'
    rcases hproceeds.streams s st' hst' with ⟨st, hst, hcontinues⟩
    rw [hcontinues.decl_eq, hcontinues.bases_eq]
    exact h.bases s st hst
  · intro e el' st' hel' hst'
    rcases hproceeds.streams _ st' hst' with ⟨st, hst, hcontinues⟩
    rw [hcontinues.valueLabels_eq]
    rcases howned.inherits happly hel' with
      ⟨el, hel, horigin⟩ | ⟨s, st₀, bases, own, rfl, _, hst₀, hbases, hown, _, rfl⟩
    · have hstream : el'.stream = el.stream := congrArg Origin.stream horigin
      have hidx : el'.idx = el.idx := congrArg Origin.idx horigin
      have hrefs : el'.valueBases = el.valueBases := congrArg Origin.valueBases horigin
      rw [hstream, hidx, hrefs]
      exact h.values e el st hel (hstream ▸ hst)
    · cases (hst₀.symm.trans hst)
      exact labels_newElement hbases hown e

theorem Labelled.run {ops : List Operation} (h : m.Labelled) (howned : m.Owned)
    (hrun : m.run ops = .ok m') : m'.Labelled :=
  (howned.run_keeps (P := Labelled) (fun _ _ _ howned h => h.apply howned) h hrun).2

end Manager
end StreamEngine
