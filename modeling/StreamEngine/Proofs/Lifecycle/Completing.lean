import StreamEngine.Proofs.Lifecycle.Links

/-!
# Copies that complete an element

A copy from the previous element settles the blocks that wait for it and no others, and the element becomes
value ready if all blocks are settled by then.

- `Tidy.block_of_write` : the bytes of a line reach the block of this line only;
- `Tidy.copyBlock_exact`, `Tidy.copyFromPrev_exact` : which blocks are settled;
- `Tidy.valueReady_copyFromPrev` : when the element is value ready afterwards;
- `copyFromPrev_resting` : without blocks that wait for it, a copy changes nothing.
-/

namespace StreamEngine
namespace Element

variable {k i j : Nat} {el el' prev : Element} {b b' : Block} {became : Bool}

theorem Tidy.index_eq (h : el.Tidy k) (hb : el.blocks[i]? = some b) (hb' : el.blocks[j]? = some b')
    (hline : b'.line = b.line) : j = i := by
  have hj : j < (el.blocks.map Block.line).length := by
    rw [List.length_map]
    exact (List.getElem?_eq_some_iff.1 hb').1
  refine (List.getElem?_inj hj h.lines).1 ?_
  rw [List.getElem?_map, List.getElem?_map, hb, hb', Option.map_some, Option.map_some, hline]

/-- The bytes of a line settle the block of this line, and leave the others as they are. -/
theorem Tidy.block_of_write (h : el.Tidy k) (hmem : el.isMem = true) (hb : el.blocks[i]? = some b)
    {data : List UInt8} (hdata : data.length = el.lineSize)
    (hset : el.setValue b.line data = .ok (became, el')) (hb' : el.blocks[j]? = some b') :
    el'.blocks[j]? = some b' ∨ j = i := by
  rcases setValue_eq_ok hset with ⟨offset, reached, _, hmark, ⟨hmem', _⟩ | ⟨hend, hreached⟩⟩
  · rw [hmem] at hmem'
    cases hmem'
  have hblocks : el'.blocks = el.blocks.map fun b₀ =>
      if reached b₀ then { b₀ with state := .ready } else b₀ := by
    rw [(tryMarkValueReady_eq_ok hmark).1]
  by_cases hhit : reached b' = true
  · right
    rw [hdata, h.size_eq] at hend
    rw [hreached, hdata, h.size_eq] at hhit
    refine h.index_eq hb hb' ?_
    exact touches_line (h.aligned b (List.mem_of_getElem? hb)) (h.aligned b' (List.mem_of_getElem? hb'))
      hend hhit
  · left
    rw [hblocks, List.getElem?_map, hb', Option.map_some, if_neg hhit]

/-! ## One block -/

/-- A copy leaves an element alone, or it marks it value ready if all its blocks are settled. -/
theorem marks_copyBlock (h : el.copyBlock prev i = .ok (became, el')) :
    el' = el ∨ el'.valueReady = (el.valueReady || el'.isSettled) := by
  cases hb : el.blocks[i]? with
  | none =>
      rw [copyBlock, hb] at h
      cases h
  | some b =>
      rcases copyBlock_cases hb h with
        ⟨_, rfl⟩ | ⟨_, _, _, _, _, ⟨_, hfault⟩ | ⟨_, data, _, hset⟩⟩
      · exact Or.inl rfl
      · right
        rw [faultBlock, if_pos (List.getElem?_eq_some_iff.1 hb).1] at hfault
        rw [(tryMarkValueReady_eq_ok hfault).1]
        rfl
      · right
        rcases setValue_eq_ok hset with ⟨_, _, _, hmark, _⟩
        rw [(tryMarkValueReady_eq_ok hmark).1]
        rfl

/-- A copy settles its own block, if that waits for it. -/
theorem Tidy.copyBlock_exact (h : el.Tidy k) (hmem : el.isMem = true)
    (hcopy : el.copyBlock prev i = .ok (became, el')) (hb' : el.blocks[j]? = some b') :
    el'.blocks[j]? = some b' ∨ b'.state = .prevElement := by
  cases hb : el.blocks[i]? with
  | none =>
      rw [copyBlock, hb] at hcopy
      cases hcopy
  | some b =>
      rcases copyBlock_cases hb hcopy with
        ⟨_, rfl⟩ | ⟨hstate, _, _, _, _, hsettle⟩
      · exact Or.inl hb'
      have hothers : el'.blocks[j]? = some b' ∨ j = i := by
        rcases hsettle with ⟨_, hfault⟩ | ⟨_, data, hdata, hset⟩
        · by_cases hji : j = i
          · exact Or.inr hji
          · left
            rw [faultBlock, if_pos (List.getElem?_eq_some_iff.1 hb).1] at hfault
            rw [(tryMarkValueReady_eq_ok hfault).1]
            exact (getElem?_setBlock_of_ne hji).trans hb'
        · exact h.block_of_write hmem hb (length_getValue hdata) hset hb'
      rcases hothers with hsame | rfl
      · exact Or.inl hsame
      · rw [hb] at hb'
        cases hb'
        exact Or.inr hstate

/-! ## All blocks -/

/-- In the middle of a copy: only blocks that waited for it have changed, and the element is value ready
once all blocks are settled. -/
structure Copied (el mid : Element) : Prop where
  advances : el.Advances mid
  block : ∀ (j : Nat) (b : Block), el.blocks[j]? = some b →
    mid.blocks[j]? = some b ∨ b.state = .prevElement
  only : mid.valueReady = true → el.valueReady = true ∨ mid.isSettled = true
  marked : mid.isSettled = true → mid.valueReady = true

theorem Tidy.copied_copyFromPrev (h : el.Tidy k) (hmem : el.isMem = true)
    (hwaits : ∃ b ∈ el.blocks, b.state = .prevElement)
    (hcopy : el.copyFromPrev prev = .ok (became, el')) : el.Copied el' := by
  let kept : List Nat → Bool × Element → Prop := fun _ mid => el.Copied mid.2
  have hstart : el.Copied el := by
    refine ⟨Advances.refl el, fun _ _ => Or.inl, Or.inl, ?_⟩
    -- a block that waits is not settled
    intro hsettled
    rcases hwaits with ⟨b, hb, hstate⟩
    have hcontra := List.all_eq_true.1 hsettled b hb
    rw [hstate] at hcontra
    cases hcontra
  refine foldlM_keeps kept ?_ hstart hcopy
  rintro i is ⟨now, mid⟩ next hmid hstep
  rcases bind_eq_ok.1 hstep with ⟨⟨r, mid'⟩, hblock, hstep⟩
  cases hstep
  change el.Copied mid at hmid
  have htidy := h.advances hmid.advances
  have hmidMem : mid.isMem = true := by
    rw [hmid.advances.shape]
    exact hmem
  refine ⟨hmid.advances.trans (advances_copyBlock hblock), ?_, ?_, ?_⟩
  · intro j b hb
    rcases hmid.block j b hb with hsame | hprev
    · exact htidy.copyBlock_exact hmidMem hblock hsame
    · exact Or.inr hprev
  · intro hready
    rcases marks_copyBlock hblock with rfl | hmarks
    · exact hmid.only hready
    · rw [hmarks, Bool.or_eq_true] at hready
      rcases hready with hready | hsettled
      · rcases hmid.only hready with hold | hsettled
        · exact Or.inl hold
        · exact Or.inr ((advances_copyBlock hblock).settled hsettled)
      · exact Or.inr hsettled
  · intro hsettled
    rcases marks_copyBlock hblock with rfl | hmarks
    · exact hmid.marked hsettled
    · rw [hmarks, hsettled, Bool.or_true]

/-- Copies complete an element if every block was settled or waited for one of them. -/
theorem Tidy.valueReady_copyFromPrev (h : el.Tidy k) (hmem : el.isMem = true)
    (hwaits : ∃ b ∈ el.blocks, b.state = .prevElement)
    (hcopy : el.copyFromPrev prev = .ok (became, el')) :
    el'.valueReady = true ↔
      el.valueReady = true ∨ ∀ b ∈ el.blocks, b.state.isSettled = true ∨ b.state = .prevElement := by
  have hcopied := h.copied_copyFromPrev hmem hwaits hcopy
  have hpos : 0 < el.lineSize := by
    rw [h.size_eq]
    exact Nat.two_pow_pos k
  have hdone := not_prevElement_of_copyFromPrev hpos hcopy
  have hlength := hcopied.advances.length_eq
  -- every block is as it was, or it waited and is settled now
  have hsettled : el'.isSettled = true ↔
      ∀ b ∈ el.blocks, b.state.isSettled = true ∨ b.state = .prevElement := by
    rw [isSettled, List.all_eq_true]
    constructor
    · intro hall b hb
      rcases List.mem_iff_getElem?.1 hb with ⟨j, hj⟩
      rcases hcopied.block j b hj with hsame | hprev
      · exact Or.inl (hall b (List.mem_of_getElem? hsame))
      · exact Or.inr hprev
    · intro hall b' hb'
      rcases List.mem_iff_getElem?.1 hb' with ⟨j, hj⟩
      rcases hcopied.advances.block j b' hj with ⟨b, hb, hadv⟩
      rcases hall b (List.mem_of_getElem? hb) with hold | hprev
      · exact hadv.settled hold
      · rcases hadv.state with hsame | hnow
        · exact absurd (hsame.trans hprev) (hdone b' hb')
        · exact hnow
  rw [← hsettled]
  constructor
  · exact hcopied.only
  · rintro (hready | hall)
    · exact hcopied.advances.ready hready
    · exact hcopied.marked hall

theorem copyFromPrev_resting (hrest : ∀ b ∈ el.blocks, b.state ≠ .prevElement)
    (hcopy : el.copyFromPrev prev = .ok (became, el')) : el' = el := by
  let kept : List Nat → Bool × Element → Prop := fun _ mid => mid.2 = el
  refine foldlM_keeps kept ?_ rfl hcopy
  rintro i is ⟨now, mid⟩ next hmid hstep
  rcases bind_eq_ok.1 hstep with ⟨⟨r, mid'⟩, hblock, hstep⟩
  cases hstep
  change mid = el at hmid
  subst hmid
  cases hb : mid.blocks[i]? with
  | none =>
      rw [copyBlock, hb] at hblock
      cases hblock
  | some b =>
      rcases copyBlock_cases hb hblock with ⟨_, rfl⟩ | ⟨hstate, _⟩
      · rfl
      · exact absurd hstate (hrest b (List.mem_of_getElem? hb))

end Element
end StreamEngine
