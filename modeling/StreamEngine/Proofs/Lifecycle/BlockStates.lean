import StreamEngine.Proofs.Lifecycle.Regularity

/-!
# Which way block states move

A block begins without a state, it is asked for, and it ends with content or with a fault. Most of what
happens to an element moves its blocks on along this way. Three things move a settled block to the other
end: a write over a faulted block, the answer to an access that reaches a faulted block beside its own, and
a failed translation of a line that has been written since.

- `BlockState.Forward` : the way of a block;
- `Manager.Reverts` : an operation that leaves it;
- `Orderly.forward_iff` : every other operation keeps to it, up to a flush;
- `Manager.KeepsWay` : a block stays on it between any two moments of a run;
- `run_forward_iff` : it does so exactly in the runs without such an operation;
- `write_revives_block` : a faulted block that is ready after a write.
-/

namespace StreamEngine

/-! ## The way of a block -/

namespace BlockState

variable {a b c : BlockState}

/-- How far along a state is. -/
def rank : BlockState → Nat
  | .none => 0
  | .initialized => 1
  | .issued => 2
  | .prevElement => 2
  | .ready => 3
  | .faulted => 3

/-- The state stays, or it moves on. -/
def Forward (a b : BlockState) : Prop :=
  a = b ∨ a.rank < b.rank

theorem forward_refl (a : BlockState) : a.Forward a :=
  Or.inl rfl

theorem Forward.trans (h : a.Forward b) (h' : b.Forward c) : a.Forward c := by
  rcases h with rfl | hlt
  · exact h'
  · rcases h' with rfl | hlt'
    · exact Or.inr hlt
    · exact Or.inr (Nat.lt_trans hlt hlt')

theorem forward_none (b : BlockState) : BlockState.none.Forward b := by
  cases b <;> simp [Forward, rank]

/-- A block becomes ready from any state but a fault. -/
theorem forward_ready_iff : a.Forward .ready ↔ a ≠ .faulted := by
  cases a <;> simp [Forward, rank]

/-- A block is faulted from any state but with content. -/
theorem forward_faulted_iff : a.Forward .faulted ↔ a ≠ .ready := by
  cases a <;> simp [Forward, rank]

theorem forward_of_settled (hb : b.isSettled = true) (ha : a.isSettled = false) : a.Forward b := by
  cases a <;> cases b <;> simp_all [Forward, rank, isSettled]

end BlockState

namespace Element

variable {k i j : Nat} {el el' : Element} {b b' : Block} {became : Bool} {vaddr : UInt64}
  {data : List UInt8} {a : AccessId}

/-- State of the block at a position. Without an address there is no block. -/
def stateOf (el : Element) (j : Nat) : BlockState :=
  (el.blocks[j]?).elim .none Block.state

theorem stateOf_eq (hb : el.blocks[j]? = some b) : el.stateOf j = b.state := by
  rw [stateOf, hb]
  rfl

theorem stateOf_eq_none (hb : el.blocks[j]? = none) : el.stateOf j = .none := by
  rw [stateOf, hb]
  rfl

/-- The bytes from `vaddr` on reach the block at a position, which is faulted. -/
def Overwrites (el : Element) (vaddr : UInt64) (length j : Nat) : Prop :=
  ∃ b, el.blocks[j]? = some b ∧ b.state = .faulted ∧ el.reaches vaddr length b = true

theorem Clean.not_overwrites (h : el.Clean) (vaddr : UInt64) (length j : Nat) :
    ¬ el.Overwrites vaddr length j := by
  rintro ⟨b, hb, hfaulted, _⟩
  exact h b (List.mem_of_getElem? hb) hfaulted

/-- A write leaves the way exactly where it overwrites a fault. -/
theorem forward_setValue_iff (h : el.setValue vaddr data = .ok (became, el')) (j : Nat) :
    (el.stateOf j).Forward (el'.stateOf j) ↔ ¬ el.Overwrites vaddr data.length j := by
  cases hb : el.blocks[j]? with
  | none =>
      rw [stateOf_eq_none hb]
      refine iff_of_true (BlockState.forward_none _) ?_
      rintro ⟨b, hb', _⟩
      cases (hb.symm.trans hb')
  | some b =>
      rw [stateOf_eq hb, stateOf_eq (getElem?_setValue h hb), Overwrites]
      simp only [hb, Option.some.injEq, exists_eq_left']
      by_cases hreaches : el.reaches vaddr data.length b = true
      · simp only [if_pos hreaches, and_iff_left hreaches]
        exact BlockState.forward_ready_iff
      · simp only [if_neg hreaches]
        exact iff_of_true (BlockState.forward_refl _) fun hcontra => hreaches hcontra.2

theorem setBlock_of_eq_none {f : Block → Block} (hb : el.blocks[i]? = none) : el.setBlock i f = el := by
  rw [setBlock, List.modify_eq_self (List.getElem?_eq_none_iff.1 hb)]

theorem stateOf_setBlock {f : Block → Block} (hf : ∀ b, (f b).state = b.state) :
    (el.setBlock i f).stateOf j = el.stateOf j := by
  by_cases hji : j = i
  · subst hji
    cases hb : el.blocks[j]? with
    | none => rw [setBlock_of_eq_none hb]
    | some b => rw [stateOf_eq hb, stateOf_eq (getElem?_setBlock hb), hf]
  · rw [stateOf, getElem?_setBlock_of_ne hji, stateOf]

/-- A failed translation leaves the way exactly where its block has content already. -/
theorem forward_faultBlock_iff (h : el.faultBlock i = .ok (became, el')) (j : Nat) :
    (el.stateOf j).Forward (el'.stateOf j) ↔ ¬ (j = i ∧ el.stateOf j = .ready) := by
  rcases faultBlock_eq_ok h with ⟨hi, hmark⟩
  have hblocks : el'.blocks = (el.setBlock i fun b => { b with state := .faulted }).blocks := by
    rw [(tryMarkValueReady_eq_ok hmark).1]
  by_cases hji : j = i
  · subst hji
    have hb := List.getElem?_eq_getElem hi
    have hb' : el'.blocks[j]? = some { el.blocks[j] with state := .faulted } := by
      rw [hblocks]
      exact getElem?_setBlock hb
    rw [stateOf_eq hb', stateOf_eq hb, BlockState.forward_faulted_iff]
    simp
  · have hsame : el'.stateOf j = el.stateOf j := by
      rw [stateOf, hblocks, getElem?_setBlock_of_ne hji, stateOf]
    rw [hsame]
    exact iff_of_true (BlockState.forward_refl _) fun hcontra => hji hcontra.1

/-- No two blocks wait on one access. -/
theorem Tidy.index_of_access (h : el.Tidy k) (hb : el.blocks[i]? = some b) (ha : b.access = some a)
    (hb' : el.blocks[j]? = some b') (ha' : b'.access = some a) : j = i := by
  have hnone : ¬ (Manager.detached el i).WaitsOn a b'.line := by
    rw [Manager.detached, h.waitsOn_setBlock (f := fun b => { b with access := none }) hb fun _ => rfl]
    rintro (⟨hcontra, _⟩ | ⟨hne, _⟩)
    · cases hcontra
    · exact hne ha
  by_contra hji
  exact hnone ⟨b', List.mem_of_getElem? ((getElem?_setBlock_of_ne hji).trans hb'), rfl, ha'⟩

/-- A request moves the blocks on that were not asked for. -/
theorem forward_asked {plans : List (Nat × Manager.IssuePlan)} (hasked : Manager.Asked plans el el')
    (hplans : ∀ i plan, (i, plan) ∈ plans → ∃ b, el.blocks[i]? = some b ∧ b.state = .initialized)
    (j : Nat) : (el.stateOf j).Forward (el'.stateOf j) := by
  cases hb : el.blocks[j]? with
  | none =>
      rw [stateOf_eq_none hb]
      exact BlockState.forward_none _
  | some b =>
      rcases hasked.block j b hb with ⟨b', hb', _, ⟨plan, hplan, hstate⟩ | ⟨_, hsame⟩⟩
      · rcases hplans j plan hplan with ⟨b₁, hb₁, hinitialized⟩
        cases (hb.symm.trans hb₁)
        rw [stateOf_eq hb, stateOf_eq hb', hinitialized, hstate]
        cases plan <;> exact Or.inr (Nat.lt_succ_self 1)
      · rw [stateOf_eq hb, stateOf_eq hb', hsame]
        exact BlockState.forward_refl _

theorem forward_copied (hcopied : el.Copied el') (j : Nat) : (el.stateOf j).Forward (el'.stateOf j) := by
  cases hb : el.blocks[j]? with
  | none =>
      rw [stateOf_eq_none hb]
      exact BlockState.forward_none _
  | some b =>
      rcases hcopied.block j b hb with hsame | hwaits
      · rw [stateOf_eq hb, stateOf_eq hsame]
        exact BlockState.forward_refl _
      · have hlt := (List.getElem?_eq_some_iff.1 hb).1
        rw [← hcopied.advances.length_eq] at hlt
        have hb' := List.getElem?_eq_getElem hlt
        rcases hcopied.advances.block j _ hb' with ⟨b₁, hb₁, hadv⟩
        cases (hb.symm.trans hb₁)
        rw [stateOf_eq hb, stateOf_eq hb']
        rcases hadv.state with hsame | hsettled
        · rw [hsame]
          exact BlockState.forward_refl _
        · exact BlockState.forward_of_settled hsettled (by rw [hwaits]; rfl)

end Element

namespace Manager

variable {k j : Nat} {m m' : Manager} {e : ElementId} {el el' : Element} {st : LiveStream}
  {v : StreamValue} {op : Operation} {ops : List Operation}

/-! ## One operation -/

/-- The operation moves a settled block of the element to the other end of its way. -/
def Reverts (m : Manager) (e : ElementId) (el : Element) (j : Nat) : Operation → Prop
  | .setValue e' vaddr data => e' = e ∧ el.Overwrites vaddr data.length j
  | .respond a data => m.ofStore el = false ∧
      ∃ w ∈ el.blocks, w.access = some a ∧ el.Overwrites w.line data.length j
  | .respondFault a => m.ofStore el = false ∧
      ∃ b, el.blocks[j]? = some b ∧ b.access = some a ∧ b.state = .ready
  | _ => False

theorem Reverts.concerns (h : m.Reverts e el j op) : m.Concerns e el op := by
  cases op with
  | setValue e' vaddr data => exact h.1
  | respond a data =>
      rcases h.2 with ⟨w, hw, ha, _⟩
      exact ⟨w.line, w, hw, rfl, ha⟩
  | respondFault a =>
      rcases h.2 with ⟨b, hb, ha, _⟩
      exact ⟨b.line, b, List.mem_of_getElem? hb, rfl, ha⟩
  | _ => exact h.elim

theorem stateOf_detached (el : Element) (i j : Nat) : (detached el i).stateOf j = el.stateOf j :=
  Element.stateOf_setBlock fun _ => rfl

/-- Whether a block waits does not matter for what the bytes reach. -/
theorem overwrites_detached (el : Element) (i j : Nat) (vaddr : UInt64) (length : Nat) :
    (detached el i).Overwrites vaddr length j ↔ el.Overwrites vaddr length j := by
  by_cases hji : j = i
  · subst hji
    cases hb : el.blocks[j]? with
    | none => rw [detached, Element.setBlock_of_eq_none hb]
    | some b =>
        simp only [Element.Overwrites, detached, Element.getElem?_setBlock hb, hb, Option.some.injEq,
          exists_eq_left']
        exact Iff.rfl
  · simp only [Element.Overwrites, detached, Element.getElem?_setBlock_of_ne hji]
    exact Iff.rfl

/-- A computed value reaches no faulted block. -/
theorem Orderly.forward_landing (h : m.Orderly k) (hel : m.element? e = some el)
    (hst : m.stream? el.stream = some st)
    (hready : st.decl.role.loads = true → el.valueReady = true) (hland : m.landing el v = .ok el') (j : Nat) :
    (el.stateOf j).Forward (el'.stateOf j) := by
  have hregular := h.regular e el st hel hst
  rcases landing_eq_ok hland with ⟨_, _, rfl⟩ | ⟨_, became, hset⟩
  · exact BlockState.forward_refl _
  refine (Element.forward_setValue_iff hset j).2 ?_
  cases hloads : st.decl.role.loads with
  | false => exact Element.Clean.not_overwrites (hregular.clean hloads) _ _ j
  | true =>
      -- an element that is value ready cannot be written
      have hnow := hready hloads
      exact absurd hset (Element.setValue_ne_ok hnow (hregular.settled hnow).2)

theorem Orderly.forward_responded (h : m.Orderly k) (hel : m.element? e = some el) {a : AccessId}
    {data : List UInt8} (hanswered : m.Answered a (settleData data) el el') (j : Nat) :
    (el.stateOf j).Forward (el'.stateOf j) ↔ ¬ m.Reverts e el j (.respond a data) := by
  have htidy := h.connected.linked.tidy e el hel
  rcases hanswered with ⟨i, b, hb, ha, ⟨hstore, rfl⟩ | ⟨hstore, became, hset⟩⟩
  · rw [stateOf_detached]
    exact iff_of_true (BlockState.forward_refl _) fun hcontra =>
      Bool.false_ne_true (hcontra.1.symm.trans hstore)
  have hline : (detached el i).blocks[i]? = some { b with access := none } := Element.getElem?_setBlock hb
  simp only [settleData, hline] at hset
  rw [← stateOf_detached el i j, Element.forward_setValue_iff hset j, overwrites_detached, not_iff_not]
  refine ⟨fun hover => ⟨hstore, b, List.mem_of_getElem? hb, ha, hover⟩, ?_⟩
  rintro ⟨_, w, hw, haw, hover⟩
  rcases List.mem_iff_getElem?.1 hw with ⟨i', hi'⟩
  cases htidy.index_of_access hb ha hi' haw
  cases (hb.symm.trans hi')
  exact hover

theorem Orderly.forward_failed (h : m.Orderly k) (hel : m.element? e = some el) {a : AccessId}
    (hanswered : m.Answered a Element.faultBlock el el') (j : Nat) :
    (el.stateOf j).Forward (el'.stateOf j) ↔ ¬ m.Reverts e el j (.respondFault a) := by
  have htidy := h.connected.linked.tidy e el hel
  rcases hanswered with ⟨i, b, hb, ha, ⟨hstore, rfl⟩ | ⟨hstore, became, hset⟩⟩
  · rw [stateOf_detached]
    exact iff_of_true (BlockState.forward_refl _) fun hcontra =>
      Bool.false_ne_true (hcontra.1.symm.trans hstore)
  have hiff := Element.forward_faultBlock_iff hset j
  rw [stateOf_detached] at hiff
  rw [hiff, not_iff_not]
  constructor
  · rintro ⟨rfl, hready⟩
    exact ⟨hstore, b, hb, ha, (Element.stateOf_eq hb).symm.trans hready⟩
  · rintro ⟨_, b', hb', ha', hready⟩
    exact ⟨htidy.index_of_access hb ha hb' ha', (Element.stateOf_eq hb').trans hready⟩

/-- Apart from a flush, an operation keeps every block on its way, or it reverts the block. -/
theorem Orderly.forward_iff (h : m.Orderly k) (happly : m.apply op = .ok m')
    (hel : m.element? e = some el) (hel' : m'.element? e = some el')
    (hflush : ∀ aliased, op ≠ .flush e aliased) (j : Nat) :
    (el.stateOf j).Forward (el'.stateOf j) ↔ ¬ m.Reverts e el j op := by
  rcases h.owned.exists_stream hel with ⟨st, hst⟩
  have hregular := h.regular e el st hel hst
  cases h.evolves happly hel hel' with
  | kept next stepped hnot =>
      exact iff_of_true (BlockState.forward_refl _) fun hcontra => hnot hcontra.concerns
  | refusedAddress => exact iff_of_true (BlockState.forward_refl _) id
  | addressed hmark =>
      rcases Element.markAddrReady_eq_ok hmark with ⟨hpending, _⟩
      have hnil := (h.connected.linked.tidy e el hel).bare hpending
      rw [Element.stateOf_eq_none (by rw [hnil]; rfl)]
      exact iff_of_true (BlockState.forward_none _) id
  | refusedRequest => exact iff_of_true (BlockState.forward_refl _) id
  | requested hbegins hasked _ =>
      exact iff_of_true (Element.forward_asked hasked hbegins.initialized j) id
  | copied hbegins hasked _ _ hcopied _ =>
      refine iff_of_true ?_ id
      exact (Element.forward_asked hasked hbegins.initialized j).trans (Element.forward_copied hcopied j)
  | responded hanswered => exact h.forward_responded hel hanswered j
  | failed hanswered => exact h.forward_failed hel hanswered j
  | written hset =>
      rw [Element.forward_setValue_iff hset j, not_iff_not]
      exact (and_iff_right rfl).symm
  | @delivered st₁ v _ hst₁ _ hidle hland =>
      cases (hst.symm.trans hst₁)
      refine iff_of_true (h.forward_landing hel hst ?_ hland j) id
      exact fun hloads => absurd (hidle.symm.trans hloads) Bool.false_ne_true
  | scheduled => exact iff_of_true (BlockState.forward_refl _) id
  | @landed now p _ hp he _ hland =>
      refine iff_of_true (h.forward_landing hel hst ?_ hland j) id
      have hbusy := (h.scheduled.iff hel).2 (he ▸ List.mem_map_of_mem hp)
      exact (hregular.busy hbusy).2
  | flushed => exact absurd rfl (hflush _)

/-! ## Runs -/

/-- The block at a position moves on its way between any two moments of the run. -/
def KeepsWay (m : Manager) (ops : List Operation) (e : ElementId) (j : Nat) : Prop :=
  ∀ before between after m₁ m₂ el₁ el₂, ops = before ++ between ++ after →
    m.run before = .ok m₁ → m₁.run between = .ok m₂ →
    m₁.element? e = some el₁ → m₂.element? e = some el₂ → (el₁.stateOf j).Forward (el₂.stateOf j)

/-- As long as nothing reverts a block, it moves on its way. -/
theorem Orderly.forward_run (h : m.Orderly k) (hk : k < 64) (hretains : m.Retains ops e)
    (hflush : ∀ aliased, .flush e aliased ∉ ops)
    (hkeeps : ∀ found op el, m.Applies ops found op → found.element? e = some el → ¬ found.Reverts e el j op)
    (hrun : m.run ops = .ok m') (hel : m.element? e = some el) (hel' : m'.element? e = some el') :
    (el.stateOf j).Forward (el'.stateOf j) := by
  induction ops generalizing m el with
  | nil =>
      cases hrun
      cases (hel.symm.trans hel')
      exact BlockState.forward_refl _
  | cons op ops ih =>
      rcases run_cons hrun with ⟨m₁, happly, hrest⟩
      have hfirst : m.run [op] = .ok m₁ := (run_cons_of_apply happly).trans rfl
      have hsplit : m.Retains ([op] ++ ops ++ []) e := (List.append_nil (op :: ops)).symm ▸ hretains
      rcases (hsplit.segment hfirst).first with ⟨el₁, hel₁⟩
      have hstep := (h.forward_iff happly hel hel₁
        (fun aliased hop => hflush aliased (hop ▸ List.mem_cons_self)) j).2
        (hkeeps m op el (.here m op ops) hel)
      refine hstep.trans (ih (h.apply hk happly) ?_ ?_ ?_ hrest hel₁)
      · exact hsplit.segment hfirst
      · exact fun aliased hmem => hflush aliased (List.mem_cons_of_mem _ hmem)
      · exact fun found op' el₂ happlies => hkeeps found op' el₂ (.later happly happlies)

/-- While an element is there and is not flushed, its block stays on its way between any two moments exactly
when no operation reverts the block. -/
theorem run_forward_iff (hk : k < 64) {o : Options} (hline : o.lineSize = 2 ^ k)
    (hrun : Manager.run { options := o } ops = .ok m) {rest : List Operation} (hrest : m.run rest = .ok m')
    (hretains : m.Retains rest e) (hflush : ∀ aliased, .flush e aliased ∉ rest) (j : Nat) :
    m.KeepsWay rest e j ↔
      ∀ found op el, m.Applies rest found op → found.element? e = some el → ¬ found.Reverts e el j op := by
  have horderly := orderly_run hk hline hrun
  constructor
  · intro hkeeps found op el happlies hel
    rcases applies_iff.1 happlies with ⟨before, after, rfl, hbefore⟩
    rcases run_append_eq_ok.1 hrest with ⟨_, hfound, hafter⟩
    cases (hbefore.symm.trans hfound)
    rcases run_cons hafter with ⟨next, happly, _⟩
    have hstep : found.run [op] = .ok next := (run_cons_of_apply happly).trans rfl
    have hnext : m.run (before ++ [op]) = .ok next := run_append_eq_ok.2 ⟨found, hbefore, hstep⟩
    have hsplit : before ++ op :: after = before ++ [op] ++ after := by rw [List.append_assoc]; rfl
    rcases (hsplit ▸ hretains).at hnext with ⟨el', hel'⟩
    refine (horderly.run hk hbefore |>.forward_iff happly hel hel' ?_ j).1 ?_
    · rintro aliased rfl
      exact hflush aliased (List.mem_append_right _ List.mem_cons_self)
    · exact hkeeps before [op] after found next el el' hsplit hbefore hstep hel hel'
  · rintro hnone before between after m₁ m₂ el₁ el₂ rfl hbefore hbetween hel₁ hel₂
    refine (horderly.run hk hbefore).forward_run hk ?_ ?_ ?_ hbetween hel₁ hel₂
    · exact hretains.segment hbefore
    · exact fun aliased hmem => hflush aliased (List.mem_append_left _ (List.mem_append_right _ hmem))
    · intro found op el happlies
      exact hnone found op el (happlies.extend hbefore)

/-! ## A fault that is written over -/

/-- Two lines of memory as one element. -/
def loadedLines : Declaration :=
  { staticId := 1, role := .load, elemSize := 128, formal := Formal.ofWords [128, 0x1000] }

/-- Both lines of the element are on their way. -/
def linesRun : List Operation :=
  [.configure loadedLines, .allocate { core := 0, staticId := 1, instanceNo := 1 },
    .markAddrReady { val := 0 }, .issue { val := 0 }]

/-- The first line fails after the second has come. -/
theorem run_forward_lines :
    ∃ m m' el', Manager.run { options := {} } linesRun = .ok m ∧
      m.run [.respond { val := 1 } (List.replicate 64 7), .respondFault { val := 0 }] = .ok m' ∧
      m'.element? { val := 0 } = some el' ∧ el'.stateOf 0 = .faulted ∧
      m.KeepsWay [.respond { val := 1 } (List.replicate 64 7), .respondFault { val := 0 }] { val := 0 } 0 := by
  have hfirst : observe linesRun (.respond { val := 1 } (List.replicate 64 7)) { val := 0 }
      (fun el _ _ => el.stateOf 0) = some .issued := by
    decide +kernel
  have hsecond : observe (linesRun ++ [.respond { val := 1 } (List.replicate 64 7)])
      (.respondFault { val := 0 }) { val := 0 } (fun el el' _ => (el.stateOf 0, el'.stateOf 0)) =
      some (.issued, .faulted) := by
    decide +kernel
  rcases observe_eq_some hfirst with ⟨m, m₁, el, el₁, _, hrun, happly, hel, hel₁, _, hissued⟩
  rcases observe_eq_some hsecond with ⟨_, m', _, el', _, hrun₁, happly', hel₁', hel', _, hlook⟩
  cases ((run_append_eq_ok.2 ⟨m, hrun, (run_cons_of_apply happly).trans rfl⟩).symm.trans hrun₁)
  cases (hel₁.symm.trans hel₁')
  rcases Prod.mk.inj hlook with ⟨hissued₁, hfaulted⟩
  have hrest : m.run [.respond { val := 1 } (List.replicate 64 7), .respondFault { val := 0 }] = .ok m' :=
    (run_cons_of_apply happly).trans ((run_cons_of_apply happly').trans rfl)
  refine ⟨m, m', el', hrun, hrest, hel', hfaulted, ?_⟩
  refine (run_forward_iff (by decide : 6 < 64) (o := {}) rfl hrun hrest ?_ ?_ 0).2 ?_
  · exact .cons hel happly (.cons hel₁ happly' (retains_nil hel'))
  · intro aliased hmem
    simp at hmem
  · intro found op el₂ happlies hel₂
    rcases happlies with _ | ⟨hnext, _ | ⟨_, hnil⟩⟩
    · cases (hel.symm.trans hel₂)
      rintro ⟨_, _, _, _, b, hb, hstate, _⟩
      cases (hissued.symm.trans ((Element.stateOf_eq hb).trans hstate))
    · cases (happly.symm.trans hnext)
      cases (hel₁.symm.trans hel₂)
      rintro ⟨_, b, hb, _, hstate⟩
      cases (hissued₁.symm.trans ((Element.stateOf_eq hb).trans hstate))
    · cases hnil

/-- A write makes a faulted block ready. -/
theorem write_revives_block :
    ∃ m m' el el', Manager.run { options := {} } (linesRun ++ [.respondFault { val := 0 }]) = .ok m ∧
      m.apply (.setValue { val := 0 } 0x1000 (List.replicate 64 7)) = .ok m' ∧
      m.element? { val := 0 } = some el ∧ m'.element? { val := 0 } = some el' ∧
      el.stateOf 0 = .faulted ∧ el'.stateOf 0 = .ready ∧ ¬ (el.stateOf 0).Forward (el'.stateOf 0) := by
  have hshape : observe (linesRun ++ [.respondFault { val := 0 }])
      (.setValue { val := 0 } 0x1000 (List.replicate 64 7)) { val := 0 }
      (fun el el' _ => (el.stateOf 0, el'.stateOf 0)) = some (.faulted, .ready) := by
    decide +kernel
  rcases observe_eq_some hshape with ⟨m, m', el, el', _, hrun, happly, hel, hel', _, hlook⟩
  rcases Prod.mk.inj hlook with ⟨hfaulted, hready⟩
  refine ⟨m, m', el, el', hrun, happly, hel, hel', hfaulted, hready, ?_⟩
  rw [hfaulted, hready, BlockState.forward_ready_iff]
  exact fun hne => hne rfl

end Manager
end StreamEngine
