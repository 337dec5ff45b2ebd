import StreamEngine.Proofs.Lifecycle.Regularity

/-!
# Elements without a value of their own

From its allocation or a flush on until it is computed, an element has no value but what memory brings in.
While its computation is under way, that stays so.

- `Element.Pristine` : nothing was computed for the element, or written to it;
- `Orderly.pristine_evolves` : an element stays so until a result lands in it;
- `Manager.Uncomputed` : operations since whose last flush, or allocation, an element was not computed;
- `Orderly.pristine_of_uncomputed` : such an element has no value of its own;
- `Manager.Underway`, `Orderly.underway_run` : a computation that began and has not landed yet.
-/

namespace StreamEngine

variable {k : Nat} {m m' : Manager} {e : ElementId} {el el' : Element} {st : LiveStream}
  {store : Bool} {op : Operation} {ops rest : List Operation}

/-- Nothing was computed for the element, and only memory can have made it value ready: never outside memory,
and not before the first request of a store. -/
structure Element.Pristine (store : Bool) (el : Element) : Prop where
  result : el.result = none
  unready : el.isMem = false ∨ store = true ∧ el.reqIssued = false → el.valueReady = false

namespace Manager

/-! ## Answers and results -/

/-- An answer settles blocks, and leaves the rest of the element alone. -/
theorem Answered.shape {a : AccessId} {settle : Element → Nat → Except Fault (Bool × Element)}
    (h : m.Answered a settle el el') (hadvances : SettlesBlocks settle) :
    el' = { el with blocks := el'.blocks, buffer := el'.buffer, valueReady := el'.valueReady } := by
  rcases h with ⟨i, b, _, _, ⟨_, rfl⟩ | ⟨_, became, hset⟩⟩
  · rfl
  · exact (hadvances _ i became el' hset).shape

/-- Only elements in memory are answered, and a store does not become value ready by that. -/
theorem Answered.pristine {a : AccessId} {settle : Element → Nat → Except Fault (Bool × Element)}
    {loads : Bool} (h : m.Answered a settle el el') (hregular : el.Regular loads)
    (hstore : m.ofStore el = store) (hadvances : SettlesBlocks settle)
    (hpristine : el.Pristine store) : el'.Pristine store := by
  have hshape := h.shape hadvances
  rcases h with ⟨i, b, hb, ha, hcase⟩
  have hmem : el.isMem = true := by
    refine hregular.waits b (List.mem_of_getElem? hb) ?_
    rw [ha]
    exact Option.some_ne_none a
  refine ⟨?_, ?_⟩
  · rw [hshape]
    exact hpristine.result
  · rintro (houtside | ⟨hs, hissued⟩)
    · rw [hshape] at houtside
      cases (hmem.symm.trans houtside)
    · rcases hcase with ⟨_, rfl⟩ | ⟨hnot, _⟩
      · exact hpristine.unready (Or.inr ⟨hs, hissued⟩)
      · cases (hs.symm.trans (hstore.symm.trans hnot))

/-- Nothing is said of an element in memory that was asked for. -/
theorem not_unready_of_issued (hmem : el.isMem = true) (hissued : el.reqIssued = true)
    (h : el.isMem = false ∨ store = true ∧ el.reqIssued = false) : el.valueReady = false := by
  rcases h with houtside | ⟨_, hnot⟩
  · cases (hmem.symm.trans houtside)
  · cases (hissued.symm.trans hnot)

/-- A result ends its computation. -/
theorem computeScheduled_of_landing {v : StreamValue} (h : m.landing el v = .ok el') :
    el'.computeScheduled = false := by
  rcases landing_eq_ok h with ⟨_, _, rfl⟩ | ⟨_, became, hset⟩
  · rfl
  · rw [(Element.advances_setValue hset).shape]

/-! ## One operation -/

/-- Only a computation puts one under way, which keeps the address in place. Until it lands, an element
without a value of its own has none. -/
theorem Orderly.pristine_evolves (h : m.Orderly k) (hel : m.element? e = some el)
    (hst : m.stream? el.stream = some st) (hwrite : ∀ vaddr data, op ≠ .setValue e vaddr data)
    (hcompute : op ≠ .compute e) (hevolves : m.Evolves e el op el') :
    (el'.computeScheduled = true → el.computeScheduled = true ∧ el'.addr = el.addr) ∧
      (el'.computeScheduled = el.computeScheduled → el.Pristine st.decl.role.isStore →
        el'.Pristine st.decl.role.isStore) := by
  have hregular := h.regular e el st hel hst
  have hstore : m.ofStore el = st.decl.role.isStore := by rw [ofStore, hst]
  cases hevolves with
  | kept next stepped _ => exact ⟨fun hbusy => ⟨hbusy, rfl⟩, fun _ hp => ⟨hp.result, hp.unready⟩⟩
  | refusedAddress => exact ⟨fun hbusy => ⟨hbusy, rfl⟩, fun _ => id⟩
  | addressed hmark =>
      rcases Element.markAddrReady_eq_ok hmark with ⟨hpending, start, blocks, _, rfl⟩
      refine ⟨fun hbusy => ?_, fun _ hp => ⟨hp.result, hp.unready⟩⟩
      exact absurd (hpending.symm.trans (hregular.busy hbusy).1) Bool.false_ne_true
  | refusedRequest => exact ⟨fun hbusy => ⟨hbusy, rfl⟩, fun _ => id⟩
  | @requested prev plans el₁ hbegins hasked _ =>
      have hmem := isMem_of_checkIssue hbegins.check
      rw [hasked.shape]
      exact ⟨fun hbusy => ⟨hbusy, rfl⟩, fun _ hp => ⟨hp.result, not_unready_of_issued hmem rfl⟩⟩
  | @copied p plans el₁ _ source became hbegins hasked _ _ hcopied _ =>
      have hmem := isMem_of_checkIssue hbegins.check
      rw [hcopied.advances.shape, hasked.shape]
      exact ⟨fun hbusy => ⟨hbusy, rfl⟩, fun _ hp => ⟨hp.result, not_unready_of_issued hmem rfl⟩⟩
  | responded hanswered =>
      have hshape := hanswered.shape (settlesBlocks_settleData _)
      refine ⟨?_, fun _ hp => hanswered.pristine hregular hstore (settlesBlocks_settleData _) hp⟩
      rw [hshape]
      exact fun hbusy => ⟨hbusy, rfl⟩
  | failed hanswered =>
      have hshape := hanswered.shape settlesBlocks_faultBlock
      refine ⟨?_, fun _ hp => hanswered.pristine hregular hstore settlesBlocks_faultBlock hp⟩
      rw [hshape]
      exact fun hbusy => ⟨hbusy, rfl⟩
  | written => exact absurd rfl (hwrite _ _)
  | delivered => exact absurd rfl hcompute
  | scheduled => exact absurd rfl hcompute
  | landed hp he _ hland =>
      have hbusy := (h.scheduled.iff hel).2 (he ▸ List.mem_map_of_mem hp)
      rw [computeScheduled_of_landing hland, hbusy]
      exact ⟨fun hcontra => absurd hcontra Bool.false_ne_true,
        fun hcontra => absurd hcontra Bool.false_ne_true⟩
  | flushed => exact ⟨fun hcontra => absurd hcontra Bool.false_ne_true, fun _ _ => ⟨rfl, fun _ => rfl⟩⟩

/-! ## Elements that were not computed -/

/-- The element at the key, if there is one, has no value of its own and none is under way. -/
def Blank (m : Manager) (e : ElementId) : Prop :=
  ∀ el st, m.element? e = some el → m.stream? el.stream = some st →
    el.computeScheduled = false ∧ el.Pristine st.decl.role.isStore

theorem Orderly.blank_apply (h : m.Orderly k) (hblank : m.Blank e) (happly : m.apply op = .ok m')
    (hwrite : ∀ vaddr data, op ≠ .setValue e vaddr data) (hcompute : op ≠ .compute e) : m'.Blank e := by
  intro el' st' hel' hst'
  rcases h.owned.inherits happly hel' with ⟨el, hel, horigin⟩ | ⟨_, _, _, _, _, _, _, _, _, _, rfl⟩
  · rcases (h.owned.continues happly hel hel').2 with ⟨st, st₁, hst, hst₁, hcontinues⟩
    have hstream : el'.stream = el.stream := congrArg Origin.stream horigin
    cases (hst'.symm.trans (hstream ▸ hst₁))
    rcases hblank el st hel hst with ⟨hidle, hpristine⟩
    rcases h.pristine_evolves hel hst hwrite hcompute (h.evolves happly hel hel') with ⟨hbusy, hkept⟩
    have hidle' : el'.computeScheduled = false :=
      Bool.eq_false_iff.2 fun hcontra => Bool.false_ne_true (hidle.symm.trans (hbusy hcontra).1)
    rw [hcontinues.decl_eq]
    exact ⟨hidle', hkept (hidle'.trans hidle.symm) hpristine⟩
  · exact ⟨rfl, rfl, fun _ => rfl⟩

/-- Operations that write to no element. -/
def WritesNothing (ops : List Operation) : Prop :=
  ∀ e vaddr data, Operation.setValue e vaddr data ∉ ops

/-- Since the element at the key was allocated or flushed last, it was not computed. -/
def Uncomputed (m : Manager) (ops : List Operation) (e : ElementId) : Prop :=
  ∃ before after fresh, ops = before ++ after ∧ m.run before = .ok fresh ∧
    (fresh.element? e = none ∨ ∃ earlier aliased, before = earlier ++ [.flush e aliased]) ∧
    .compute e ∉ after

theorem Orderly.blank_flush (h : m.Orderly k) {aliased : Bool} (hflush : m.apply (.flush e aliased) = .ok m') :
    m'.Blank e := by
  intro el' st' hel' _
  rcases h.owned.inherits hflush hel' with ⟨el, hel, _⟩ | ⟨_, _, _, _, hop, _⟩
  · cases h.evolves hflush hel hel' with
    | kept _ _ hnot => exact absurd rfl hnot
    | flushed => exact ⟨rfl, rfl, fun _ => rfl⟩
  · cases hop

/-- An element that was not computed has no value of its own. -/
theorem Orderly.blank_of_uncomputed (h : m.Orderly k) (hk : k < 64) (hwrites : WritesNothing ops)
    (huncomputed : m.Uncomputed ops e) (hrun : m.run ops = .ok m') : m'.Blank e := by
  rcases huncomputed with ⟨before, after, fresh, rfl, hbefore, hstart, hcompute⟩
  rcases run_append_eq_ok.1 hrun with ⟨_, hbefore', hafter⟩
  cases (hbefore.symm.trans hbefore')
  have hblank : fresh.Blank e := by
    rcases hstart with hnone | ⟨earlier, aliased, rfl⟩
    · intro el st hel
      cases (hnone.symm.trans hel)
    · rcases run_append_eq_ok.1 hbefore with ⟨m₁, hearlier, hflush⟩
      rcases run_cons hflush with ⟨_, happly, hnil⟩
      cases hnil
      exact (h.run hk hearlier).blank_flush happly
  have hkept := run_keeps (P := fun m => m.Orderly k ∧ m.Blank e) (Q := fun _ op => op ∈ after)
    (fun m m' op hm hop happly => ⟨hm.1.apply hk happly, hm.1.blank_apply hm.2 happly
      (fun vaddr data hsame => hwrites e vaddr data (List.mem_append_right _ (hsame ▸ hop)))
      fun hsame => hcompute (hsame ▸ hop)⟩)
    (fun found op happlies => happlies.mem) ⟨h.run hk hbefore, hblank⟩ hafter
  exact hkept.2

/-! ## Computations under way -/

/-- As long as a computation of the element at the key is under way, it is the one that began with the
element `el` of a stream declared as `d`. -/
def Underway (m : Manager) (e : ElementId) (el : Element) (d : Declaration) : Prop :=
  ∀ el', m.element? e = some el' → el'.computeScheduled = true → el'.origin = el.origin ∧
    el'.addr = el.addr ∧ el'.Pristine d.role.isStore ∧ ∃ st, m.stream? el.stream = some st ∧ st.decl = d

theorem Orderly.underway_apply (h : m.Orderly k) {d : Declaration} (hunderway : m.Underway e el d)
    (happly : m.apply op = .ok m') (hwrite : ∀ vaddr data, op ≠ .setValue e vaddr data)
    (hcompute : op ≠ .compute e) : m'.Underway e el d := by
  intro el₂ hel₂ hbusy₂
  rcases h.owned.inherits happly hel₂ with ⟨el₁, hel₁, horigin⟩ | ⟨_, _, _, _, _, _, _, _, _, _, rfl⟩
  · rcases (h.owned.continues happly hel₁ hel₂).2 with ⟨st, st₂, hst, hst₂, hcontinues⟩
    rcases h.pristine_evolves hel₁ hst hwrite hcompute (h.evolves happly hel₁ hel₂) with ⟨hbusy, hkept⟩
    rcases hbusy hbusy₂ with ⟨hbusy₁, haddr⟩
    rcases hunderway el₁ hel₁ hbusy₁ with ⟨horigin₁, haddr₁, hpristine, st₀, hst₀, rfl⟩
    have hstream : el₁.stream = el.stream := congrArg Origin.stream horigin₁
    cases ((hstream ▸ hst).symm.trans hst₀)
    refine ⟨horigin.trans horigin₁, haddr.trans haddr₁, hkept (hbusy₂.trans hbusy₁.symm) hpristine, st₂,
      hstream ▸ hst₂, hcontinues.decl_eq⟩
  · cases hbusy₂

theorem Orderly.underway_run (h : m.Orderly k) (hk : k < 64) {d : Declaration}
    (hunderway : m.Underway e el d) (hrun : m.run ops = .ok m') (hwrites : WritesNothing ops)
    (hcompute : .compute e ∉ ops) : m'.Underway e el d := by
  have hkept := run_keeps (P := fun m => m.Orderly k ∧ m.Underway e el d) (Q := fun _ op => op ∈ ops)
    (fun m m' op hm hop happly => ⟨hm.1.apply hk happly, hm.1.underway_apply hm.2 happly
      (fun vaddr data hsame => hwrites e vaddr data (hsame ▸ hop)) fun hsame => hcompute (hsame ▸ hop)⟩)
    (fun found op happlies => happlies.mem) ⟨h, hunderway⟩ hrun
  exact hkept.2

end Manager
end StreamEngine
