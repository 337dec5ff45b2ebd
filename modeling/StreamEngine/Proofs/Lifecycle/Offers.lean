import StreamEngine.Proofs.Lifecycle.Regularity

/-!
# What can be taken from an element

Dependent elements read the result of an element, or its own bytes once these are ready. What they read does
not change any more, for a second value would stop the run: only a flush takes a value back. So all through
a run without a flush one value at most is read under a label.

- `Manager.offer?` : what dependents read of an element;
- `baseValue_eq_ok` : a base is read by what it offers;
- `Element.Keeps`, `Orderly.keeps` : ready bytes and results stay as they are;
- `Manager.Offered`, `Orderly.offered_unique` : what is read under a label is the same at all moments.
-/

namespace StreamEngine
namespace Element

variable {k : Nat} {el el' : Element} {v : StreamValue} {loads became : Bool}

/-! ## Own bytes -/

theorem elementValue_eq_ok : el.elementValue = .ok v ↔ el.size ≤ StreamValue.width ∧
    ∃ bytes, el.getValue el.addr el.size = .ok bytes ∧ v = .ofBytes bytes := by
  rw [elementValue]
  by_cases hwide : StreamValue.width < el.size
  · rw [if_pos hwide]
    refine iff_of_false ?_ fun h => absurd h.1 (Nat.not_le.2 hwide)
    intro hcontra
    cases hcontra
  · rw [if_neg hwide, and_iff_right (Nat.not_lt.1 hwide)]
    constructor
    · intro h
      rcases bind_eq_ok.1 h with ⟨bytes, hread, h⟩
      cases h
      exact ⟨bytes, hread, rfl⟩
    · rintro ⟨bytes, hread, rfl⟩
      exact bind_eq_ok.2 ⟨bytes, hread, rfl⟩

/-- The bytes that were written to the whole element are its value. -/
theorem elementValue_setValue {data : List UInt8} (hsize : el.size ≤ StreamValue.width)
    (hdata : data.length = el.size) (hset : el.setValue el.addr data = .ok (became, el')) :
    el'.elementValue = .ok (.ofBytes data) := by
  have hshape := (advances_setValue hset).shape
  have haddr : el'.addr = el.addr := by rw [hshape]
  have hsame : el'.size = el.size := by rw [hshape]
  refine elementValue_eq_ok.2 ⟨hsame ▸ hsize, data, ?_, rfl⟩
  rw [haddr, hsame, ← hdata]
  exact getValue_written hset

theorem elementValue_setBlock {i : Nat} {f : Block → Block} (hline : ∀ b, (f b).line = b.line)
    (h : el.elementValue = .ok v) : (el.setBlock i f).elementValue = .ok v := by
  rcases elementValue_eq_ok.1 h with ⟨hsize, bytes, hread, rfl⟩
  exact elementValue_eq_ok.2 ⟨hsize, bytes, getValue_setBlock hline hread, rfl⟩

/-- A request changes no bytes and no lines. -/
theorem elementValue_asked {plans : List (Nat × Manager.IssuePlan)} (hasked : Manager.Asked plans el el')
    (h : el.elementValue = .ok v) : el'.elementValue = .ok v := by
  rcases elementValue_eq_ok.1 h with ⟨hsize, bytes, hread, rfl⟩
  rcases getValue_eq_ok.1 hread with ⟨first, hfirst, hle, hroom, hbytes⟩
  rw [List.head?_eq_getElem?] at hfirst
  rcases hasked.block 0 first hfirst with ⟨first', hfirst', hline, _⟩
  rw [← List.head?_eq_getElem?] at hfirst'
  have hread' : el'.getValue el.addr el.size = .ok bytes := by
    refine getValue_eq_ok.2 ⟨first', hfirst', hline ▸ hle, ?_, ?_⟩
    all_goals rw [hasked.shape, hline]
    · exact hroom
    · exact hbytes
  rw [hasked.shape] at hread' ⊢
  exact elementValue_eq_ok.2 ⟨hsize, bytes, hread', rfl⟩

/-- What the element holds stays as it is. -/
structure Keeps (el el' : Element) : Prop where
  value : el.valueReady = true → el'.valueReady = true ∧ ∀ v, el.elementValue = .ok v → el'.elementValue = .ok v
  result : ∀ v, el.result = some v → el'.result = some v

theorem keeps_refl (el : Element) : el.Keeps el :=
  ⟨fun hready => ⟨hready, fun _ => id⟩, fun _ => id⟩

/-- An element that is value ready takes no other bytes. -/
theorem Regular.keeps_setValue (h : el.Regular loads) {vaddr : UInt64} {data : List UInt8}
    (hset : el.setValue vaddr data = .ok (became, el')) : el.Keeps el' := by
  refine ⟨fun hready => ?_, ?_⟩
  · exact absurd hset (setValue_ne_ok hready (h.settled hready).2)
  · rw [(advances_setValue hset).shape]
    exact fun _ => id

theorem Regular.keeps_faultBlock (h : el.Regular loads) {i : Nat}
    (hfault : el.faultBlock i = .ok (became, el')) : el.Keeps el' := by
  refine ⟨fun hready => ?_, ?_⟩
  · have hsettled := (advances_setFaulted i).settled (h.settled hready).2
    have hnot := (tryMarkValueReady_eq_ok (faultBlock_eq_ok hfault).2).2 hsettled
    exact absurd (hnot.symm.trans hready) Bool.false_ne_true
  · rw [(advances_faultBlock hfault).shape]
    exact fun _ => id

end Element

namespace Manager

variable {k : Nat} {m m' : Manager} {e e' : ElementId} {el el' base : Element} {s : StreamId}
  {st : LiveStream} {v v' : StreamValue} {op : Operation} {ops : List Operation} {l : ElementLabel}

/-! ## Reading -/

/-- What a dependent element reads of the element, if it is there. -/
def offer? (m : Manager) (el : Element) : Option StreamValue :=
  if m.givesResult el then el.result
  else if el.valueReady then el.elementValue.toOption
  else none

/-- Own bytes are offered where no result is. -/
theorem offer?_eq_some_iff (hgives : m.givesResult el = false) :
    m.offer? el = some v ↔ el.valueReady = true ∧ el.elementValue = .ok v := by
  rw [offer?, if_neg (Bool.eq_false_iff.1 hgives)]
  by_cases hready : el.valueReady = true
  · rw [if_pos hready, and_iff_right hready]
    constructor
    · exact toOption_eq_some
    · intro hvalue
      rw [hvalue]
      rfl
  · rw [if_neg hready]
    refine iff_of_false ?_ fun h => hready h.1
    intro hcontra
    cases hcontra

/-- The value of a base of another element is what this element offers. -/
theorem baseValue_eq_ok {bases : List BaseRef} {id : StaticId} (h : m.baseValue e el bases id = .ok v) :
    ∃ b base, bases.find? (fun b => b.label.stream.staticId = id) = some b ∧
      m.element? b.element = some base ∧ base.label = b.label ∧
      (b.element ≠ e → m.offer? base = some v) := by
  rw [baseValue] at h
  cases hfind : bases.find? fun b => b.label.stream.staticId = id with
  | none =>
      rw [hfind] at h
      cases h
  | some b =>
      rw [hfind] at h
      rcases bind_eq_ok.1 h with ⟨base, hbase, h⟩
      rcases baseElement_eq_ok.1 hbase with ⟨hfound, hlabel⟩
      refine ⟨b, base, rfl, hfound, hlabel, fun hother => ?_⟩
      by_cases hgives : m.givesResult base = true
      · simp only [if_pos (And.intro hother hgives)] at h
        rw [offer?, if_pos hgives]
        cases hresult : base.result with
        | none =>
            rw [hresult] at h
            cases h
        | some v₁ =>
            rw [hresult] at h
            cases h
            rfl
      · simp only [if_neg fun hboth : b.element ≠ e ∧ m.givesResult base = true => hgives hboth.2] at h
        refine (offer?_eq_some_iff (Bool.eq_false_iff.2 hgives)).2 ?_
        cases hready : base.valueReady with
        | false =>
            rw [hready] at h
            cases h
        | true =>
            rw [hready] at h
            exact ⟨rfl, h⟩

/-! ## One operation -/

/-- A result lands once, and so do bytes. -/
theorem keeps_landing {loads : Bool} (h : el.Regular loads) (hland : m.landing el v = .ok el') :
    el.Keeps el' := by
  rcases landing_eq_ok hland with ⟨_, hresult, rfl⟩ | ⟨_, became, hset⟩
  · refine ⟨fun hready => ⟨hready, fun _ => id⟩, fun v₁ hcontra => ?_⟩
    cases (hresult.symm.trans hcontra)
  · have hkeeps := h.idle.keeps_setValue hset
    exact ⟨hkeeps.value, hkeeps.result⟩

theorem Answered.keeps {loads : Bool} {a : AccessId} {settle : Element → Nat → Except Fault (Bool × Element)}
    (h : m.Answered a settle el el') (hregular : el.Regular loads)
    (hsettle : ∀ mid i became next, Element.Regular loads mid → settle mid i = .ok (became, next) →
      mid.Keeps next) : el.Keeps el' := by
  have hdetached : ∀ i, el.Keeps (detached el i) := fun i =>
    ⟨fun hready => ⟨hready, fun v => Element.elementValue_setBlock fun _ => rfl⟩, fun _ => id⟩
  rcases h with ⟨i, b, _, _, ⟨_, rfl⟩ | ⟨_, became, hset⟩⟩
  · -- a store only stops waiting
    exact hdetached i
  · have hkeeps := hsettle _ i became el' (hregular.detached i) hset
    refine ⟨fun hready => ?_, fun v₁ hresult => hkeeps.result v₁ ((hdetached i).result v₁ hresult)⟩
    rcases (hdetached i).value hready with ⟨hready₁, hvalue₁⟩
    rcases hkeeps.value hready₁ with ⟨hready₂, hvalue₂⟩
    exact ⟨hready₂, fun v₁ hvalue => hvalue₂ v₁ (hvalue₁ v₁ hvalue)⟩

/-- Only a flush takes back what an element holds. -/
theorem Orderly.keeps (h : m.Orderly k) (hel : m.element? e = some el) (happly : m.apply op = .ok m')
    (hel' : m'.element? e = some el') (hflush : ∀ aliased, op ≠ .flush e aliased) : el.Keeps el' := by
  rcases h.owned.exists_stream hel with ⟨st, hst⟩
  have hregular := h.regular e el st hel hst
  cases h.evolves happly hel hel' with
  | kept next stepped _ => exact ⟨fun hready => ⟨hready, fun _ => id⟩, fun _ => id⟩
  | refusedAddress => exact el.keeps_refl
  | addressed hmark =>
      rcases Element.markAddrReady_eq_ok hmark with ⟨hpending, start, blocks, _, rfl⟩
      refine ⟨fun hready => ?_, fun _ => id⟩
      exact absurd (hpending.symm.trans (hregular.settled hready).1) Bool.false_ne_true
  | refusedRequest => exact el.keeps_refl
  | requested _ hasked _ =>
      refine ⟨fun hready => ⟨?_, fun v₁ hvalue => ?_⟩, ?_⟩
      · rw [hasked.shape]
        exact hready
      · have hstill := Element.elementValue_asked hasked hvalue
        exact hstill
      · rw [hasked.shape]
        exact fun _ => id
  | copied hbegins hasked hcopies _ hcopied _ =>
      refine ⟨fun hready => ?_, ?_⟩
      · -- a block that is to be copied is not settled
        rcases hcopies with ⟨i, hmem⟩
        rcases hbegins.block_of_mem hmem with ⟨b, hb, hinitialized, _⟩
        have hsettled := List.all_eq_true.1 (hregular.settled hready).2 b (List.mem_of_getElem? hb)
        rw [hinitialized] at hsettled
        cases hsettled
      · rw [hcopied.advances.shape, hasked.shape]
        exact fun _ => id
  | responded hanswered =>
      refine hanswered.keeps hregular fun mid i became next hmid hset => ?_
      rcases settleData_eq_ok hset with ⟨b, _, hset⟩
      exact hmid.keeps_setValue hset
  | failed hanswered =>
      exact hanswered.keeps hregular fun mid i became next hmid hset => hmid.keeps_faultBlock hset
  | written hset => exact hregular.keeps_setValue hset
  | delivered _ _ _ hland => exact keeps_landing hregular hland
  | scheduled => exact ⟨fun hready => ⟨hready, fun _ => id⟩, fun _ => id⟩
  | landed _ _ _ hland => exact keeps_landing hregular hland
  | flushed => exact absurd rfl (hflush _)

/-- What an element is for is fixed. -/
theorem Owned.givesResult_apply (h : m.Owned) (happly : m.apply op = .ok m') (hel : m.element? e = some el)
    (hel' : m'.element? e = some el') : m'.givesResult el' = m.givesResult el := by
  rcases h.continues happly hel hel' with ⟨horigin, st, st', hst, hst', hcontinues⟩
  have hstream : el'.stream = el.stream := congrArg Origin.stream horigin
  have hidx : el'.idx = el.idx := congrArg Origin.idx horigin
  rw [givesResult, givesResult, hstream, hidx, hst, hst']
  simp only [hcontinues.decl_eq]

theorem Orderly.offer?_apply (h : m.Orderly k) (hel : m.element? e = some el)
    (happly : m.apply op = .ok m') (hel' : m'.element? e = some el')
    (hflush : ∀ aliased, op ≠ .flush e aliased) (hoffer : m.offer? el = some v) :
    m'.offer? el' = some v := by
  have hkeeps := h.keeps hel happly hel' hflush
  have hgives' := h.owned.givesResult_apply happly hel hel'
  cases hgives : m.givesResult el with
  | true =>
      rw [offer?, if_pos hgives] at hoffer
      rw [offer?, if_pos (hgives'.trans hgives)]
      exact hkeeps.result v hoffer
  | false =>
      rcases (offer?_eq_some_iff hgives).1 hoffer with ⟨hready, hvalue⟩
      rcases hkeeps.value hready with ⟨hready', hvalue'⟩
      exact (offer?_eq_some_iff (hgives'.trans hgives)).2 ⟨hready', hvalue' v hvalue⟩

/-! ## Runs -/

/-- An element that is not flushed goes on offering what it has offered. -/
theorem Orderly.offer?_run (h : m.Orderly k) (hk : k < 64) (hretains : m.Retains ops e)
    (hflush : ∀ aliased, .flush e aliased ∉ ops) (hrun : m.run ops = .ok m')
    (hel : m.element? e = some el) (hel' : m'.element? e = some el') (hoffer : m.offer? el = some v) :
    m'.offer? el' = some v := by
  induction ops generalizing m el with
  | nil =>
      cases hrun
      cases (hel.symm.trans hel')
      exact hoffer
  | cons op ops ih =>
      rcases run_cons hrun with ⟨m₁, happly, hrest⟩
      have hfirst : m.run [op] = .ok m₁ := (run_cons_of_apply happly).trans rfl
      have hsplit : m.Retains ([op] ++ ops ++ []) e := (List.append_nil (op :: ops)).symm ▸ hretains
      rcases (hsplit.segment hfirst).first with ⟨el₁, hel₁⟩
      have hnext := h.offer?_apply hel happly hel₁
        (fun aliased hop => hflush aliased (hop ▸ List.mem_cons_self)) hoffer
      refine ih (h.apply hk happly) (hsplit.segment hfirst) ?_ hrest hel₁ hnext
      exact fun aliased hmem => hflush aliased (List.mem_cons_of_mem _ hmem)

/-- No two elements have one label. -/
theorem Owned.key_eq (h : m.Owned) (hel : m.element? e = some el) (hel' : m.element? e' = some el')
    (hlabel : el'.label = el.label) : e' = e := by
  have hstream : el'.stream = el.stream := congrArg ElementLabel.stream hlabel
  have hidx : el'.idx = el.idx := congrArg ElementLabel.index hlabel
  rcases h.home e el.place (place?_eq hel) with ⟨st, hst, he⟩
  rcases h.home e' el'.place (place?_eq hel') with ⟨st', hst', he'⟩
  change m.stream? el.stream = some st at hst
  change m.stream? el'.stream = some st' at hst'
  rw [hstream, hst] at hst'
  cases hst'
  -- the index tells the position in the chain
  rcases (h.chained el.stream st hst).placed with ⟨n, _, hplaced⟩
  rcases List.mem_iff_getElem?.1 he with ⟨i, hi⟩
  rcases List.mem_iff_getElem?.1 he' with ⟨j, hj⟩
  have hpi := congrArg Place.idx (Option.some.inj ((place?_eq hel).symm.trans (hplaced i e hi)))
  have hpj := congrArg Place.idx (Option.some.inj ((place?_eq hel').symm.trans (hplaced j e' hj)))
  change el.idx = st.nextIdx - st.chain.length + i at hpi
  change el'.idx = st.nextIdx - st.chain.length + j at hpj
  have hij : j = i := by omega
  rw [hij, hi] at hj
  exact (Option.some.inj hj).symm

/-- At some moment of the run, an element of the label offers the value. -/
def Offered (m : Manager) (ops : List Operation) (l : ElementLabel) (v : StreamValue) : Prop :=
  ∃ before after found e el, ops = before ++ after ∧ m.run before = .ok found ∧
    found.element? e = some el ∧ el.label = l ∧ found.offer? el = some v

/-- What is offered under a label is offered under it later on. -/
theorem Orderly.offer?_eq_of_run (h : m.Orderly k) (hk : k < 64)
    (hflush : ∀ e aliased, .flush e aliased ∉ ops) (hrun : m.run ops = .ok m')
    (hel : m.element? e = some el) (hel' : m'.element? e' = some el') (hlabel : el'.label = el.label)
    (hoffer : m.offer? el = some v) : m'.offer? el' = some v := by
  -- a spent label is given to no new element, so the later one was there already
  have hspent := h.owned.spent hel
  rw [← hlabel] at hspent
  have hretains := hspent.retains h.owned hrun hel'
  rcases hretains.first with ⟨el₀, hel₀⟩
  have horigin := hretains.origin_eq h.owned hrun hel₀ hel'
  have hlabel₀ : el'.label = el₀.label :=
    congrArg (fun o : Origin => ({ stream := o.stream, index := o.idx } : ElementLabel)) horigin
  cases h.owned.key_eq hel hel₀ (hlabel₀.symm.trans hlabel)
  exact h.offer?_run hk hretains (hflush _) hrun hel hel' hoffer

/-- Without a flush, one value at most is offered under a label. -/
theorem Orderly.offered_unique (h : m.Orderly k) (hk : k < 64)
    (hflush : ∀ e aliased, .flush e aliased ∉ ops) (hoffered : m.Offered ops l v)
    (hoffered' : m.Offered ops l v') : v = v' := by
  rcases hoffered with ⟨before, after, found, e, el, rfl, hfound, hel, rfl, hoffer⟩
  rcases hoffered' with ⟨before', after', found', e', el', hsplit, hfound', hel', hlabel, hoffer'⟩
  rcases List.append_eq_append_iff.1 hsplit with ⟨between, rfl, rfl⟩ | ⟨between, rfl, rfl⟩
  · -- the other moment is the later one
    rcases run_append_eq_ok.1 hfound' with ⟨_, hfirst, hbetween⟩
    cases (hfound.symm.trans hfirst)
    have hquiet : ∀ e aliased, .flush e aliased ∉ between := fun e aliased hmem =>
      hflush e aliased (List.mem_append_right _ (List.mem_append_left _ hmem))
    have hlater := (h.run hk hfound).offer?_eq_of_run hk hquiet hbetween hel hel' hlabel hoffer
    exact Option.some.inj (hlater.symm.trans hoffer')
  · rcases run_append_eq_ok.1 hfound with ⟨_, hfirst, hbetween⟩
    cases (hfound'.symm.trans hfirst)
    have hquiet : ∀ e aliased, .flush e aliased ∉ between := fun e aliased hmem =>
      hflush e aliased (List.mem_append_left _ (List.mem_append_right _ hmem))
    have hlater := (h.run hk hfound').offer?_eq_of_run hk hquiet hbetween hel' hel hlabel.symm hoffer'
    exact Option.some.inj (hoffer.symm.trans hlater)

end Manager
end StreamEngine
