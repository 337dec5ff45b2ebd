import StreamEngine.Proofs.Lifecycle.Regularity

/-!
# What can be computed

The checks of readiness and the evaluation walk the bases of an element by code of their own. Where the
checks succeed, the evaluation finds all that it asks for.

- `Declaration.MayName`, `Declaration.WellFormed` : what the parameters of a value may name;
- `Declared.exists_ref` : all of that is among the references of an element;
- `Orderly.exists_baseValue` : a base that is ready has a value;
- `Orderly.exists_evaluate` : an element with ready bases can be evaluated.
-/

namespace StreamEngine

/-! ## Parameters -/

namespace Formal

variable {ε : Type}

theorem mem_bases {ps : Formal} {id : StaticId} : id ∈ ps.bases ↔ Param.base id ∈ ps := by
  rw [bases, List.mem_filterMap]
  constructor
  · rintro ⟨p, hp, hid⟩
    cases p with
    | invariant v => cases hid
    | base id' =>
        cases hid
        exact hp
  · intro hp
    exact ⟨_, hp, rfl⟩

/-- A list can be resolved if all the streams that it names have a value. -/
theorem exists_resolve {ps : Formal} {fetch : StaticId → Except ε StreamValue}
    (h : ∀ id ∈ ps.bases, ∃ v, fetch id = .ok v) :
    ∃ vs, ps.resolve fetch = .ok vs ∧ vs.length = ps.length := by
  have hresolve : ∃ vs, ps.resolve fetch = .ok vs := by
    rw [resolve]
    refine exists_mapM_ok fun p hp => ?_
    cases p with
    | invariant v => exact ⟨v, rfl⟩
    | base id => exact h id (mem_bases.2 hp)
  rcases hresolve with ⟨vs, hvs⟩
  exact ⟨vs, hvs, (mapM_eq_ok hvs).1⟩

end Formal

namespace Declaration

/-- The parameters that a value is computed from. -/
def valueFormal (d : Declaration) : Formal :=
  match d.role with
  | .storeCompute _ | .loadCompute _ => d.kernelFormal
  | _ => d.formal

/-- What the parameters of a value may name: the value bases, every base of an induction variable, and the
stream itself where an element refers to its own stream. -/
def MayName (d : Declaration) (id : StaticId) : Prop :=
  (∃ b ∈ d.bases, b.staticId = id ∧ (b.kind = .value ∨ d.role = .induction)) ∨
    (d.role.isOneIterBehind = true ∨ d.role.isLoadCompute = true) ∧ id = d.staticId

structure WellFormed (d : Declaration) : Prop where
  words : d.generator.isLinear = true → 2 ≤ d.formal.length
  names : ∀ id ∈ d.valueFormal.bases, d.MayName id

end Declaration

theorem Generator.exists_generate {g : Generator} {idx : Nat} {formal : Formal}
    {fetch : StaticId → Except Fault StreamValue} (hwords : g.isLinear = true → 2 ≤ formal.length)
    (hfetch : ∀ id ∈ formal.bases, ∃ v, fetch id = .ok v) : ∃ v, g.generate idx formal fetch = .ok v := by
  rcases Formal.exists_resolve hfetch with ⟨vs, hvs, hlength⟩
  refine exists_bind_ok hvs ?_
  cases g with
  | linear =>
      refine exists_bind_ok (a := Linear.address (vs.map StreamValue.front) idx) ?_ ⟨_, rfl⟩
      rw [Linear.address?, if_neg]
      rw [List.length_map, hlength]
      exact Nat.not_lt.2 (hwords rfl)
  | computed kernel => exact ⟨_, rfl⟩

/-- The bytes of a value-ready element can be taken as a value, if they fit one. -/
theorem Element.Regular.exists_elementValue {el : Element} {loads : Bool} (h : el.Regular loads)
    (hready : el.valueReady = true) (hsize : el.size ≤ StreamValue.width) :
    ∃ v, el.elementValue = .ok v := by
  rcases h.laid.valueOffset_own (h.filled hready) with ⟨offset, hoffset⟩
  rw [elementValue, if_neg (Nat.not_lt.2 hsize)]
  refine exists_bind_ok (bind_eq_ok.2 ⟨offset, hoffset, rfl⟩) ⟨_, rfl⟩

namespace Manager

variable {k : Nat} {m : Manager} {e : ElementId} {el : Element} {st : LiveStream} {b : BaseRef}
  {bases : List BaseRef} {id : StaticId}

/-! ## References -/

/-- The references that a value is computed from. -/
def valueRefs (el : Element) (r : Role) : List BaseRef :=
  match r with
  | .induction | .pointerChase => el.addrBases ++ el.valueBases
  | _ => el.valueBases

theorem valueBases_subset_valueRefs (el : Element) (r : Role) : el.valueBases ⊆ valueRefs el r := by
  cases r <;> first | exact List.subset_append_right _ _ | exact List.Subset.refl _

/-- What a parameter may name is among the references of an element, but for the first element of a stream
that runs one iteration behind. -/
theorem Declared.exists_ref (h : m.Declared) (hel : m.element? e = some el)
    (hst : m.stream? el.stream = some st) (hlater : st.decl.role.isOneIterBehind = true → 0 < el.idx)
    (hname : st.decl.MayName id) : ∃ r ∈ valueRefs el st.decl.role, r.label.stream.staticId = id := by
  have hfits := h.fits e el st hel hst
  have hnamed := h.named el.stream st hst
  rcases hname with ⟨d, hd, rfl, hkind⟩ | ⟨hbehind | hself, rfl⟩
  · rcases h.bound el.stream st hst d hd with ⟨bound, hbound, hsame, hid⟩
    rcases hfits.bases bound hbound hlater with ⟨r, hr, hstream⟩
    refine ⟨r, ?_, by rw [hstream, hid]⟩
    cases hcase : bound.kind with
    | value =>
        rw [hcase] at hr
        exact valueBases_subset_valueRefs el _ hr
    | address =>
        rw [hcase] at hr hsame
        rcases hkind with hvalue | hinduction
        · cases (hsame.trans hvalue)
        · rw [hinduction]
          exact List.mem_append_left _ hr
  · rcases hfits.own hbehind (hlater hbehind) with ⟨r, hr, hstream⟩
    exact ⟨r, valueBases_subset_valueRefs el _ hr, (congrArg StreamId.staticId hstream).trans hnamed⟩
  · rcases hfits.self hself with ⟨r, hr, _, hlabel⟩
    refine ⟨r, valueBases_subset_valueRefs el _ hr, ?_⟩
    rw [hlabel]
    exact hnamed

/-! ## Values of bases -/

/-- A base that is ready has a value. -/
theorem Orderly.exists_baseValue (h : m.Orderly k)
    (hsizes : ∀ s st, m.stream? s = some st → st.decl.elemSize ≤ StreamValue.width)
    (hready : ∀ b ∈ bases, m.baseReady e el b = .ok true)
    (hname : ∃ b ∈ bases, b.label.stream.staticId = id) : ∃ v, m.baseValue e el bases id = .ok v := by
  rw [baseValue]
  cases hfind : bases.find? fun b => b.label.stream.staticId = id with
  | none =>
      rcases hname with ⟨b, hb, hid⟩
      exact absurd (decide_eq_true hid) (List.find?_eq_none.1 hfind b hb)
  | some b =>
      rcases bind_eq_ok.1 (hready b (List.mem_of_find?_eq_some hfind)) with ⟨base, hbase, hcheck⟩
      refine exists_bind_ok hbase ?_
      by_cases hgives : b.element ≠ e ∧ m.givesResult base = true
      · rw [if_pos hgives]
        rw [if_neg hgives.1, givesValue, if_pos hgives.2] at hcheck
        rcases Option.isSome_iff_exists.1 (Except.ok.inj hcheck) with ⟨v, hv⟩
        rw [hv]
        exact ⟨v, rfl⟩
      · have hvalue : base.valueReady = true := by
          by_cases hself : b.element = e
          · rw [if_pos hself] at hcheck
            exact Except.ok.inj hcheck
          · rw [if_neg hself, givesValue, if_neg fun hg => hgives ⟨hself, hg⟩] at hcheck
            exact Except.ok.inj hcheck
        rcases baseElement_eq_ok.1 hbase with ⟨hfound, _⟩
        rcases h.owned.exists_stream hfound with ⟨st, hst⟩
        have hsize : base.size = st.decl.elemSize := (h.declared.fits _ base st hfound hst).size_eq
        rw [if_neg hgives, if_neg (by rw [hvalue]; exact Bool.false_ne_true)]
        refine (h.regular _ base st hfound hst).exists_elementValue hvalue ?_
        rw [hsize]
        exact hsizes _ st hst

/-! ## The checks -/

theorem addrBaseReady_eq_true (hel : m.element? e = some el) (h : m.addrBaseReady e = .ok true) :
    ∀ b ∈ el.addrBases, m.baseReady e el b = .ok true := by
  rcases bind_eq_ok.1 h with ⟨el', hget, h⟩
  cases (hel.symm.trans (element_eq_ok.1 hget))
  rcases bind_eq_ok.1 h with ⟨st, _, h⟩
  split at h
  · cases h
  · exact allM_eq_true h

/-- An element that is ready takes a final value that is there, or its value bases are ready. -/
theorem valueBaseReady_eq_true (hel : m.element? e = some el) (hst : m.stream? el.stream = some st)
    (h : m.valueBaseReady e = .ok true) :
    st.decl.terminal el.idx = .finalValue ∧ (∃ v, st.finals.find? el.idx = some v) ∨
      st.decl.terminal el.idx = .normal ∧ ∀ b ∈ el.valueBases, m.baseReady e el b = .ok true := by
  rcases bind_eq_ok.1 h with ⟨el', hget, h⟩
  cases (hel.symm.trans (element_eq_ok.1 hget))
  rcases bind_eq_ok.1 h with ⟨st', hget, h⟩
  cases (hst.symm.trans (stream_eq_ok.1 hget))
  cases hterminal : st.decl.terminal el.idx with
  | finalValue =>
      rw [hterminal] at h
      refine Or.inl ⟨rfl, Option.isSome_iff_exists.1 ?_⟩
      exact Except.ok.inj h
  | neverReady =>
      rw [hterminal] at h
      cases h
  | normal =>
      simp only [hterminal] at h
      split at h
      · cases h
      · exact Or.inr ⟨rfl, allM_eq_true h⟩

/-! ## Evaluation -/

/-- An element whose bases are ready can be evaluated, but for the first one of a stream that runs one
iteration behind, which has its value from the declaration. -/
theorem Orderly.exists_evaluate (h : m.Orderly k)
    (hsizes : ∀ s st, m.stream? s = some st → st.decl.elemSize ≤ StreamValue.width)
    (hel : m.element? e = some el) (hst : m.stream? el.stream = some st)
    (hrole : st.decl.role ≠ .load ∧ st.decl.role ≠ .store) (hformal : st.decl.WellFormed)
    (hlater : st.decl.role.isOneIterBehind = true → 0 < el.idx)
    (haddr : m.addrBaseReady e = .ok true) (hcheck : m.valueBaseReady e = .ok true)
    (hnormal : st.decl.terminal el.idx = .normal) : ∃ r, m.evaluate e el st.decl = .ok r := by
  -- some roles read address bases for their value too, so both checks are needed
  have hready : ∀ b ∈ valueRefs el st.decl.role, m.baseReady e el b = .ok true := by
    have hvalues : ∀ b ∈ el.valueBases, m.baseReady e el b = .ok true := by
      rcases valueBaseReady_eq_true hel hst hcheck with ⟨hfinal, _⟩ | ⟨_, hvalues⟩
      · cases (hfinal.symm.trans hnormal)
      · exact hvalues
    intro b hb
    have hmem : b ∈ el.addrBases ∨ b ∈ el.valueBases := by
      cases hcase : st.decl.role <;> rw [hcase] at hb <;>
        first | exact List.mem_append.1 hb | exact Or.inr hb
    rcases hmem with hb | hb
    · exact addrBaseReady_eq_true hel haddr b hb
    · exact hvalues b hb
  have hvalue : ∀ id ∈ st.decl.valueFormal.bases,
      ∃ v, m.baseValue e el (valueRefs el st.decl.role) id = .ok v := fun id hid =>
    h.exists_baseValue hsizes hready (h.declared.exists_ref hel hst hlater (hformal.names id hid))
  rw [evaluate]
  cases hcase : st.decl.role with
  | load => exact absurd hcase hrole.1
  | store => exact absurd hcase hrole.2
  | storeCompute kernel | loadCompute kernel =>
      rw [Declaration.valueFormal, hcase] at hvalue
      rcases Formal.exists_resolve hvalue with ⟨vs, hvs, _⟩
      exact exists_bind_ok hcheck (exists_bind_ok hvs ⟨_, rfl⟩)
  | reduction =>
      rw [Declaration.valueFormal, hcase] at hvalue
      have hbases : ∀ id ∈ st.decl.formal.bases, ∃ v, m.reductionBase e el st.decl id = .ok v := by
        intro id hid
        rw [reductionBase]
        split
        · exact ⟨_, rfl⟩
        · exact hvalue id hid
      rcases Generator.exists_generate hformal.words hbases with ⟨v, hv⟩
      exact exists_bind_ok hv ⟨_, rfl⟩
  | induction | pointerChase =>
      rw [Declaration.valueFormal, hcase] at hvalue
      rcases Generator.exists_generate hformal.words hvalue with ⟨v, hv⟩
      exact exists_bind_ok hv ⟨_, rfl⟩

end Manager
end StreamEngine
