import StreamEngine.Proofs.Element.Layout

/-!
# Blocks that settle

Bytes and faults settle blocks and leave everything else about an element alone.

- `Element.Advances` : some more blocks are settled;
- `setValue_eq_ok` : which blocks a write settles;
- `advances_setValue`, `advances_faultBlock` : settling a block.
-/

namespace StreamEngine

/-- The block is as before, or it has been settled. -/
structure Block.Advances (b b' : Block) : Prop where
  shape : b' = { b with state := b'.state }
  state : b'.state = b.state ∨ b'.state.isSettled = true

namespace Block

variable {b b' b'' : Block}

theorem Advances.refl (b : Block) : b.Advances b :=
  ⟨rfl, Or.inl rfl⟩

theorem Advances.trans (h : b.Advances b') (h' : b'.Advances b'') : b.Advances b'' := by
  refine ⟨?_, ?_⟩
  · rw [h'.shape, h.shape]
  · rcases h'.state with hsame | hsettled
    · rw [hsame]
      exact h.state
    · exact Or.inr hsettled

theorem Advances.line_eq (h : b.Advances b') : b'.line = b.line := by
  rw [h.shape]

theorem Advances.access_eq (h : b.Advances b') : b'.access = b.access := by
  rw [h.shape]

theorem Advances.settled (h : b.Advances b') (hb : b.state.isSettled = true) :
    b'.state.isSettled = true := by
  rcases h.state with hsame | hsettled
  · rw [hsame]
    exact hb
  · exact hsettled

end Block

namespace Element

/-- Blocks may have been settled, and the element may have become value ready. -/
structure Advances (e e' : Element) : Prop where
  shape : e' = { e with blocks := e'.blocks, buffer := e'.buffer, valueReady := e'.valueReady }
  length_eq : e'.blocks.length = e.blocks.length
  block : ∀ (j : Nat) (b' : Block), e'.blocks[j]? = some b' →
    ∃ b : Block, e.blocks[j]? = some b ∧ b.Advances b'
  room : e'.buffer.length = e.buffer.length
  ready : e.valueReady = true → e'.valueReady = true

variable {e e' e'' prev : Element} {became : Bool}

theorem Advances.refl (e : Element) : e.Advances e :=
  ⟨rfl, rfl, fun _ b hb => ⟨b, hb, Block.Advances.refl b⟩, rfl, id⟩

theorem Advances.trans (h : e.Advances e') (h' : e'.Advances e'') : e.Advances e'' := by
  refine ⟨?_, h'.length_eq.trans h.length_eq, ?_, h'.room.trans h.room,
    fun hready => h'.ready (h.ready hready)⟩
  · rw [h'.shape, h.shape]
  · intro j b'' hb''
    rcases h'.block j b'' hb'' with ⟨b', hb', hadv'⟩
    rcases h.block j b' hb' with ⟨b, hb, hadv⟩
    exact ⟨b, hb, hadv.trans hadv'⟩

theorem Advances.laid (h : e.Advances e') (hlaid : e.Laid) : e'.Laid := by
  have hlen := h.length_eq
  have hline : e'.lineSize = e.lineSize := by rw [h.shape]
  have haddr : e'.addr = e.addr := by rw [h.shape]
  have hsize : e'.size = e.size := by rw [h.shape]
  refine ⟨?_, ?_, ?_⟩
  · intro j b' hj
    rcases h.block j b' hj with ⟨b, hb, hadv⟩
    rw [hadv.line_eq, hline, haddr]
    exact hlaid.line_eq j b hb
  · intro hne
    rw [hline, haddr, hsize, hlen]
    refine hlaid.covers ?_
    intro hnil
    rw [hnil, List.length_nil] at hlen
    exact hne (List.eq_nil_of_length_eq_zero hlen)
  · rw [hline, hlen, h.room]
    exact hlaid.room

theorem Advances.settled (h : e.Advances e') (hsettled : e.isSettled = true) :
    e'.isSettled = true := by
  rw [isSettled, List.all_eq_true] at hsettled ⊢
  intro b' hb'
  rcases List.mem_iff_getElem?.1 hb' with ⟨j, hj⟩
  rcases h.block j b' hj with ⟨b, hb, hadv⟩
  exact hadv.settled (hsettled b (List.mem_of_getElem? hb))

theorem getElem?_setBlock {i : Nat} {f : Block → Block} {b : Block} (h : e.blocks[i]? = some b) :
    (e.setBlock i f).blocks[i]? = some (f b) := by
  rw [setBlock, List.getElem?_modify, h]
  simp only [if_true]
  rfl

theorem getElem?_setBlock_of_ne {i j : Nat} {f : Block → Block} (hne : j ≠ i) :
    (e.setBlock i f).blocks[j]? = e.blocks[j]? := by
  rw [setBlock, List.getElem?_modify]
  simp only [if_neg fun hij : i = j => hne hij.symm]
  cases e.blocks[j]? <;> rfl

theorem setBlock_ne_nil {i : Nat} {f : Block → Block} (h : e.blocks ≠ []) :
    (e.setBlock i f).blocks ≠ [] := by
  intro hnil
  have hlen := congrArg List.length hnil
  rw [setBlock, List.length_modify, List.length_nil] at hlen
  exact h (List.eq_nil_of_length_eq_zero hlen)

theorem setBlock_block {i j : Nat} {f : Block → Block} {b' : Block}
    (h : (e.setBlock i f).blocks[j]? = some b') :
    ∃ b : Block, e.blocks[j]? = some b ∧ (j = i ∧ b' = f b ∨ j ≠ i ∧ b' = b) := by
  rw [setBlock, List.getElem?_modify] at h
  rcases Option.map_eq_some_iff.1 h with ⟨b, hb, rfl⟩
  refine ⟨b, hb, ?_⟩
  by_cases hij : i = j
  · rw [if_pos hij]
    exact Or.inl ⟨hij.symm, rfl⟩
  · rw [if_neg hij]
    exact Or.inr ⟨fun hji => hij hji.symm, rfl⟩

/-- What holds of the block that is changed, and of the others, holds of all blocks. -/
theorem forall_setBlock {i : Nat} {f : Block → Block} {P : Block → Prop}
    (hset : ∀ b, e.blocks[i]? = some b → P (f b)) (hall : ∀ b ∈ e.blocks, P b) :
    ∀ b ∈ (e.setBlock i f).blocks, P b := by
  intro b' hb'
  rcases List.mem_iff_getElem?.1 hb' with ⟨j, hj⟩
  rcases setBlock_block hj with ⟨b, hb, ⟨rfl, rfl⟩ | ⟨_, rfl⟩⟩
  · exact hset b hb
  · exact hall _ (List.mem_of_getElem? hb)

/-! ## Becoming value ready -/

theorem tryMarkValueReady_eq_ok (h : e.tryMarkValueReady = .ok (became, e')) :
    e' = { e with valueReady := e.valueReady || e.isSettled } ∧
      (e.isSettled = true → e.valueReady = false) := by
  rw [tryMarkValueReady] at h
  cases hsettled : e.isSettled with
  | true =>
      rw [if_pos hsettled] at h
      rcases bind_eq_ok.1 h with ⟨marked, hmarked, h⟩
      cases h
      rw [markValueReady] at hmarked
      cases hready : e.valueReady with
      | true =>
          rw [if_pos hready] at hmarked
          cases hmarked
      | false =>
          rw [hready] at hmarked
          cases hmarked
          exact ⟨rfl, fun _ => rfl⟩
  | false =>
      rw [if_neg (by simp [hsettled])] at h
      cases h
      refine ⟨?_, fun hcontra => by cases hcontra⟩
      rw [Bool.or_false]

/-- An element that is not value ready can be asked whether it is. -/
theorem exists_tryMarkValueReady (h : e.valueReady = false) :
    ∃ became e', e.tryMarkValueReady = .ok (became, e') := by
  rw [tryMarkValueReady, markValueReady, h]
  split
  · exact ⟨true, _, rfl⟩
  · exact ⟨false, e, rfl⟩

theorem advances_tryMarkValueReady (h : e.tryMarkValueReady = .ok (became, e')) :
    e.Advances e' := by
  rcases tryMarkValueReady_eq_ok h with ⟨rfl, _⟩
  refine ⟨rfl, rfl, (Advances.refl e).block, rfl, ?_⟩
  intro hready
  simp only [hready, Bool.true_or]

/-! ## Writing -/

theorem length_overwrite {buffer data : List UInt8} {offset : Nat}
    (h : offset + data.length ≤ buffer.length) :
    (overwrite buffer offset data).length = buffer.length := by
  rw [overwrite, List.length_append, List.length_append, List.length_take, List.length_drop]
  omega

theorem getElem?_overwrite {buffer data : List UInt8} {offset : Nat}
    (h : offset + data.length ≤ buffer.length) (i : Nat) :
    (overwrite buffer offset data)[i]? =
      if offset ≤ i ∧ i < offset + data.length then data[i - offset]? else buffer[i]? := by
  have htake : (buffer.take offset).length = offset := by
    rw [List.length_take]
    omega
  rw [overwrite, List.append_assoc]
  by_cases hlow : i < offset
  · rw [if_neg (by omega), List.getElem?_append_left (by omega), List.getElem?_take_of_lt hlow]
  · rw [List.getElem?_append_right (by omega), htake]
    by_cases hhigh : i < offset + data.length
    · rw [if_pos (by omega), List.getElem?_append_left (by omega)]
    · rw [if_neg (by omega), List.getElem?_append_right (by omega), List.getElem?_drop]
      congr 1
      omega

/-- A write settles the blocks that it touches. Where the bytes are those of a whole element outside
memory, it settles all of them. -/
theorem setValue_eq_ok {vaddr : UInt64} {data : List UInt8}
    (h : e.setValue vaddr data = .ok (became, e')) :
    ∃ offset, ∃ reached : Block → Bool, e.valueOffset vaddr data.length = .ok offset ∧
      tryMarkValueReady { e with
        buffer := overwrite e.buffer offset data
        blocks := e.blocks.map fun b => if reached b then { b with state := .ready } else b } =
          .ok (became, e') ∧
      (e.isMem = false ∧ reached = (fun _ => true) ∨
        vaddr.toNat + data.length < 2 ^ 64 ∧
          reached = touches e.lineSize vaddr (vaddr + UInt64.ofNat data.length)) := by
  rcases bind_eq_ok.1 h with ⟨offset, hoffset, h⟩
  by_cases hwhole : (!e.isMem && vaddr == e.addr && data.length == e.size) = true
  · refine ⟨offset, fun _ => true, hoffset, ?_, Or.inl ⟨?_, rfl⟩⟩
    · simp only [if_pos hwhole] at h
      exact h
    · simp only [Bool.and_eq_true, Bool.not_eq_true'] at hwhole
      exact hwhole.1.1
  · simp only [if_neg hwhole] at h
    by_cases hwraps : 2 ^ 64 ≤ vaddr.toNat + data.length
    · rw [if_pos hwraps] at h
      cases h
    · rw [if_neg hwraps] at h
      exact ⟨offset, _, hoffset, h, Or.inr ⟨by omega, rfl⟩⟩

theorem advances_write {offset : Nat} {data : List UInt8} {reached : Block → Bool}
    (hroom : offset + data.length ≤ e.buffer.length) :
    e.Advances { e with
      buffer := overwrite e.buffer offset data
      blocks := e.blocks.map fun b => if reached b then { b with state := .ready } else b } := by
  refine ⟨rfl, List.length_map _, ?_, length_overwrite hroom, id⟩
  intro j b' hj
  rw [List.getElem?_map] at hj
  rcases Option.map_eq_some_iff.1 hj with ⟨b, hb, rfl⟩
  refine ⟨b, hb, ?_⟩
  by_cases hreached : reached b = true
  · rw [if_pos hreached]
    exact ⟨rfl, Or.inr rfl⟩
  · rw [if_neg hreached]
    exact Block.Advances.refl b

theorem advances_setValue {vaddr : UInt64} {data : List UInt8}
    (h : e.setValue vaddr data = .ok (became, e')) : e.Advances e' := by
  rcases setValue_eq_ok h with ⟨offset, reached, hoffset, hmark, _⟩
  rcases valueOffset_eq_ok.1 hoffset with ⟨_, _, _, _, hroom⟩
  exact (advances_write hroom).trans (advances_tryMarkValueReady hmark)

/-- A value-ready element, all of whose blocks are settled, cannot be written. -/
theorem setValue_ne_ok {vaddr : UInt64} {data : List UInt8} (hready : e.valueReady = true)
    (hsettled : e.isSettled = true) : e.setValue vaddr data ≠ .ok (became, e') := by
  intro hset
  rcases setValue_eq_ok hset with ⟨offset, reached, hoffset, hmark, _⟩
  rcases valueOffset_eq_ok.1 hoffset with ⟨_, _, _, _, hroom⟩
  have hnot := (tryMarkValueReady_eq_ok hmark).2 ((advances_write hroom).settled hsettled)
  rw [show e.valueReady = false from hnot] at hready
  cases hready

/-- A write settles every block that begins where it does. -/
theorem ready_of_setValue {vaddr : UInt64} {data : List UInt8} (hpos : 0 < data.length)
    (hdata : data.length = e.lineSize) (h : e.setValue vaddr data = .ok (became, e')) {j : Nat}
    {b b' : Block} (hb : e.blocks[j]? = some b) (hline : b.line = vaddr)
    (hj : e'.blocks[j]? = some b') : b'.state = .ready := by
  rcases setValue_eq_ok h with ⟨offset, reached, _, hmark, hreached⟩
  rcases tryMarkValueReady_eq_ok hmark with ⟨rfl, _⟩
  have hhit : reached b = true := by
    rcases hreached with ⟨_, rfl⟩ | ⟨hend, rfl⟩
    · rfl
    · have hlt : vaddr < vaddr + UInt64.ofNat data.length := by
        rw [UInt64.lt_iff_toNat_lt, UInt64.toNat_add, UInt64.toNat_ofNat']
        omega
      rw [touches, hline, ← hdata]
      simp only [hlt, decide_true, Bool.and_self]
  simp only [List.getElem?_map, hb, Option.map_some, Option.some.injEq, hhit, if_true] at hj
  rw [← hj]

/-! ## Faults -/

theorem advances_setFaulted (i : Nat) :
    e.Advances (e.setBlock i fun b => { b with state := .faulted }) := by
  refine ⟨rfl, List.length_modify _ _ _, ?_, rfl, id⟩
  intro j b' hj
  rcases setBlock_block hj with ⟨b, hb, ⟨_, rfl⟩ | ⟨_, rfl⟩⟩
  · exact ⟨b, hb, rfl, Or.inr rfl⟩
  · exact ⟨_, hb, Block.Advances.refl _⟩

theorem advances_faultBlock {i : Nat} (h : e.faultBlock i = .ok (became, e')) : e.Advances e' := by
  rw [faultBlock] at h
  by_cases hi : i < e.blocks.length
  · rw [if_pos hi] at h
    exact (advances_setFaulted i).trans (advances_tryMarkValueReady h)
  · rw [if_neg hi] at h
    cases h

end Element
end StreamEngine
