import StreamEngine.Proofs.Lifecycle.Bindings

/-!
# What an element has by the declaration of its stream

A declaration names bases by their static streams. The stream binds each of them to an instance, and each
of its elements refers to an element of that instance. Beside those, an element may refer to the one before
it and to itself, as its role has it.

- `LiveStream.Fits` : an element has what the declaration of its stream says;
- `Manager.Declared` : all streams and elements do;
- `Declared.configure`, `Declared.apply` : every operation keeps that;
- `Declared.reads_self` : a load-compute element is among its own references.
-/

namespace StreamEngine

/-- References of one kind. -/
def Origin.refs (o : Origin) : BaseKind → List BaseRef
  | .address => o.addrBases
  | .value => o.valueBases

/-- An element at key `e` of the stream, as it was allocated. The first element of a stream that runs one
iteration behind refers to nothing. -/
structure LiveStream.Fits (st : LiveStream) (e : ElementId) (o : Origin) : Prop where
  size_eq : o.size = st.decl.elemSize
  isMem_eq : o.isMem = st.decl.role.isMem
  self : st.decl.role.isLoadCompute = true →
    ∃ r ∈ o.valueBases, r.element = e ∧ r.label = { stream := o.stream, index := o.idx }
  own : st.decl.role.isOneIterBehind = true → 0 < o.idx →
    ∃ r ∈ o.valueBases, r.label.stream = o.stream
  bases : ∀ b ∈ st.bases, (st.decl.role.isOneIterBehind = true → 0 < o.idx) →
    ∃ r ∈ o.refs b.kind, r.label.stream = b.stream

theorem LiveStream.Fits.continues {st st' : LiveStream} {e : ElementId} {o : Origin} (h : st.Fits e o)
    (hcontinues : st.Continues st') : st'.Fits e o := by
  refine ⟨?_, ?_, ?_, ?_, ?_⟩
  all_goals simp only [hcontinues.decl_eq, hcontinues.bases_eq]
  · exact h.size_eq
  · exact h.isMem_eq
  · exact h.self
  · exact h.own
  · exact h.bases

namespace Manager

variable {m m' : Manager} {e : ElementId} {el : Element} {s : StreamId} {st : LiveStream}
  {op : Operation} {ops : List Operation}

structure Declared (m : Manager) : Prop where
  named : ∀ s st, m.stream? s = some st → s.staticId = st.decl.staticId
  bound : ∀ s st, m.stream? s = some st → ∀ d ∈ st.decl.bases,
    ∃ b ∈ st.bases, b.kind = d.kind ∧ b.stream.staticId = d.staticId
  fits : ∀ e el st, m.element? e = some el → m.stream? el.stream = some st → st.Fits e el.origin

theorem declared_new (o : Options) : ({ options := o } : Manager).Declared where
  named := by
    intro s st hst
    cases hst
  bound := by
    intro s st hst
    cases hst
  fits := by
    intro e el st hel
    cases hel

/-! ## New elements -/

/-- Every base of a stream gives a reference, but for the first element of a stream that runs one iteration
behind. -/
theorem exists_boundBase {bases : List (BaseKind × BaseRef)} (h : m.boundBases st = .ok bases)
    {b : BoundBase} (hb : b ∈ st.bases) (hlater : st.decl.role.isOneIterBehind = true → 0 < st.nextIdx) :
    ∃ r, (b.kind, r) ∈ bases ∧ r.label.stream = b.stream := by
  have hnot : ¬ (st.decl.role.isOneIterBehind && st.nextIdx == 0) = true := by
    rw [Bool.and_eq_true, beq_iff_eq]
    rintro ⟨hbehind, hzero⟩
    exact Nat.ne_of_gt (hlater hbehind) hzero
  rw [boundBases] at h
  simp only [if_neg hnot] at h
  rcases bind_eq_ok.1 h with ⟨refs, hrefs, h⟩
  cases h
  rcases List.mem_iff_getElem?.1 hb with ⟨i, hi⟩
  rcases (mapM_eq_ok hrefs).2 i b hi with ⟨r, hr, hmade⟩
  rcases bind_eq_ok.1 hmade with ⟨found, _, hmade⟩
  cases hmade
  refine ⟨{ element := found, label := { stream := b.stream, index := _ } },
    List.mem_iff_getElem?.2 ⟨i, List.getElem?_zip_eq_some.2 ⟨?_, hr⟩⟩, rfl⟩
  rw [List.getElem?_map, hi, Option.map_some]

theorem exists_ownBase {own : List BaseRef} (h : ownBase s st = .ok own)
    (hbehind : st.decl.role.isOneIterBehind = true) (hlater : 0 < st.nextIdx) :
    ∃ r ∈ own, r.label.stream = s := by
  rcases ownBase_eq_ok h with ⟨hfirst, _⟩ | ⟨_, last, _, rfl⟩
  · rw [hbehind, decide_eq_true hlater] at hfirst
    cases hfirst
  · exact ⟨_, List.mem_singleton_self _, rfl⟩

theorem fits_newElement {bases : List (BaseKind × BaseRef)} {own : List BaseRef}
    (hbases : m.boundBases st = .ok bases) (hown : ownBase s st = .ok own) (e : ElementId) :
    st.Fits e (m.newElement s st bases own e).origin where
  size_eq := rfl
  isMem_eq := rfl
  self := by
    intro hself
    refine ⟨{ element := e, label := { stream := s, index := st.nextIdx } }, ?_, rfl, rfl⟩
    refine List.mem_append_right _ ?_
    rw [selfBase, if_pos hself]
    exact List.mem_singleton_self _
  own := by
    intro hbehind hlater
    rcases exists_ownBase hown hbehind hlater with ⟨r, hr, hstream⟩
    exact ⟨r, List.mem_append_left _ (List.mem_append_right _ hr), hstream⟩
  bases := by
    intro b hb hlater
    rcases exists_boundBase hbases hb hlater with ⟨r, hr, hstream⟩
    refine ⟨r, ?_, hstream⟩
    cases hkind : b.kind with
    | address => exact mem_refsOf.2 (hkind ▸ hr)
    | value =>
        exact List.mem_append_left _ (List.mem_append_left _ (mem_refsOf.2 (hkind ▸ hr)))

/-! ## Operations -/

/-- A new stream has no elements, and each of its bases is bound to an instance of the static stream that
the declaration names. -/
theorem Declared.configure (h : m.Declared) (howned : m.Owned) {d : Declaration} {id : StreamId}
    (hconfigure : m.configure d = .ok (id, m')) : m'.Declared := by
  rcases configure_eq_ok hconfigure with ⟨hid, config, graph, graph', bases, _, hbases, rfl⟩
  have hfresh : id ∉ m.instances.issued := by
    rw [hid]
    exact InstanceCounter.not_mem_next howned.counted d.core d.staticId
  let next : LiveStream := { config, decl := d, bases }
  have hcases : ∀ s st, (m.putStream id next).stream? s = some st →
      id = s ∧ st = next ∨ id ≠ s ∧ m.stream? s = some st :=
    fun _ _ => stream?_putStream_cases
  refine ⟨?_, ?_, ?_⟩
  · intro s st hst
    rcases hcases s st hst with ⟨rfl, rfl⟩ | ⟨_, hold⟩
    · rw [hid]
      rfl
    · exact h.named s st hold
  · intro s st hst base hbase
    rcases hcases s st hst with ⟨rfl, rfl⟩ | ⟨_, hold⟩
    · rcases (bindBases_eq_ok hbases).2 base hbase with ⟨b, hb, hkind, hlatest⟩
      have hkey := (howned.latest _ _ hlatest).1
      exact ⟨b, hb, hkind, (congrArg Prod.snd hkey).symm⟩
    · exact h.bound s st hold base hbase
  · intro e el st hel hst
    rcases hcases _ st hst with ⟨hsame, _⟩ | ⟨_, hold⟩
    · rcases howned.home e el.place (place?_eq hel) with ⟨st₀, hst₀, _⟩
      exact absurd (howned.issued el.stream st₀ hst₀) (hsame ▸ hfresh)
    · exact h.fits e el st hel hold

theorem Declared.apply (h : m.Declared) (howned : m.Owned) (happly : m.apply op = .ok m') :
    m'.Declared := by
  by_cases hop : ∃ d, op = .configure d
  · rcases hop with ⟨d, rfl⟩
    rcases map_snd_eq_ok happly with ⟨_, hop⟩
    exact h.configure howned hop
  have hproceeds := howned.proceeds happly fun d hd => hop ⟨d, hd⟩
  refine ⟨?_, ?_, ?_⟩
  · intro s st' hst'
    rcases hproceeds.streams s st' hst' with ⟨st, hst, hcontinues⟩
    rw [hcontinues.decl_eq]
    exact h.named s st hst
  · intro s st' hst'
    rcases hproceeds.streams s st' hst' with ⟨st, hst, hcontinues⟩
    rw [hcontinues.decl_eq, hcontinues.bases_eq]
    exact h.bound s st hst
  · intro e el' st' hel' hst'
    rcases hproceeds.streams _ st' hst' with ⟨st, hst, hcontinues⟩
    suffices hfits : st.Fits e el'.origin from hfits.continues hcontinues
    rcases howned.inherits happly hel' with
      ⟨el, hel, horigin⟩ | ⟨s, st₀, bases, own, rfl, _, hst₀, hbases, hown, _, rfl⟩
    · have hstream : el'.stream = el.stream := congrArg Origin.stream horigin
      rw [horigin]
      exact h.fits e el st hel (hstream ▸ hst)
    · cases (hst₀.symm.trans hst)
      exact fits_newElement hbases hown e

/-! ## Reading references -/

/-- A load-compute element is among its own references. -/
theorem Declared.reads_self (h : m.Declared) (hel : m.element? e = some el)
    (hst : m.stream? el.stream = some st) (hself : st.decl.role.isLoadCompute = true) :
    ∃ r ∈ el.valueBases, r.element = e ∧ r.label = el.label :=
  (h.fits e el st hel hst).self hself

end Manager
end StreamEngine
