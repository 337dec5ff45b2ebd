import StreamEngine.Proofs.Element.Copying

/-!
# Which blocks a write reaches

A write makes ready the blocks that it touches, whatever their state was. A write of a whole element outside
memory touches all of them.

- `Element.reaches`, `Element.written` : the blocks of a write, and the element with its bytes;
- `setValue_iff` : which writes succeed, and what they leave;
- `valueReady_setValue`, `valueReady_faultBlock` : an element that has become value ready is settled;
- `clean_setValue`, `clean_copyFromPrev` : faults come from faults only;
- `Element.Tight`, `Laid.reaches_own` : the blocks end with the element, so its own bytes reach all of them;
- `exists_setValue_iff` : when an element takes bytes of its own.
-/

namespace StreamEngine
namespace Element

variable {k i j : Nat} {el el' prev : Element} {b b' : Block} {became : Bool} {vaddr : UInt64}
  {data : List UInt8}

/-! ## Writes -/

/-- The bytes from `vaddr` on are a whole element outside memory. -/
def isWhole (el : Element) (vaddr : UInt64) (length : Nat) : Bool :=
  !el.isMem && vaddr == el.addr && length == el.size

/-- A write of as many bytes from `vaddr` on reaches the block. -/
def reaches (el : Element) (vaddr : UInt64) (length : Nat) (b : Block) : Bool :=
  el.isWhole vaddr length || touches el.lineSize vaddr (vaddr + UInt64.ofNat length) b

/-- The element with the bytes at `offset`, those from `vaddr` on. -/
def written (el : Element) (offset : Nat) (vaddr : UInt64) (data : List UInt8) : Element :=
  { el with
    buffer := overwrite el.buffer offset data
    blocks := el.blocks.map fun b =>
      if el.reaches vaddr data.length b then { b with state := .ready } else b }

theorem setValue_iff : el.setValue vaddr data = .ok (became, el') ↔
    ∃ offset, el.valueOffset vaddr data.length = .ok offset ∧
      (el.isWhole vaddr data.length = true ∨ vaddr.toNat + data.length < 2 ^ 64) ∧
      (el.written offset vaddr data).tryMarkValueReady = .ok (became, el') := by
  rw [setValue, bind_eq_ok]
  refine exists_congr fun offset => and_congr_right fun _ => ?_
  by_cases hwhole : el.isWhole vaddr data.length = true
  · have hwritten : el.written offset vaddr data = { el with
        buffer := overwrite el.buffer offset data
        blocks := el.blocks.map fun b => { b with state := .ready } } := by
      simp only [written, reaches, hwhole, Bool.true_or, if_true]
    rw [hwritten]
    change (if el.isWhole vaddr data.length = true then _ else _) = _ ↔ _
    rw [if_pos hwhole]
    exact (and_iff_right (Or.inl hwhole)).symm
  · have hwritten : el.written offset vaddr data = { el with
        buffer := overwrite el.buffer offset data
        blocks := el.blocks.map fun b =>
          if touches el.lineSize vaddr (vaddr + UInt64.ofNat data.length) b then
            { b with state := .ready } else b } := by
      simp only [written, reaches, Bool.eq_false_iff.2 hwhole, Bool.false_or]
    rw [hwritten]
    change (if el.isWhole vaddr data.length = true then _ else _) = _ ↔ _
    rw [if_neg hwhole, or_iff_right hwhole]
    by_cases hwraps : 2 ^ 64 ≤ vaddr.toNat + data.length
    · rw [if_pos hwraps]
      refine iff_of_false ?_ fun hlt => absurd hlt.1 (Nat.not_lt.2 hwraps)
      intro hcontra
      cases hcontra
    · rw [if_neg hwraps]
      exact (and_iff_right (Nat.not_le.1 hwraps)).symm

/-- Blocks that a write reaches are ready, and the others stay as they are. -/
theorem getElem?_setValue (h : el.setValue vaddr data = .ok (became, el'))
    (hb : el.blocks[j]? = some b) :
    el'.blocks[j]? =
      some (if el.reaches vaddr data.length b then { b with state := .ready } else b) := by
  rcases setValue_iff.1 h with ⟨offset, _, _, hmark⟩
  rw [(tryMarkValueReady_eq_ok hmark).1]
  change (el.blocks.map _)[j]? = _
  rw [List.getElem?_map, hb, Option.map_some]

theorem blocks_ne_nil_of_setValue (h : el.setValue vaddr data = .ok (became, el')) : el.blocks ≠ [] := by
  rcases setValue_iff.1 h with ⟨offset, hoffset, _⟩
  rcases valueOffset_eq_ok.1 hoffset with ⟨first, hfirst, _⟩
  intro hnil
  rw [hnil] at hfirst
  cases hfirst

/-! ## Becoming value ready -/

theorem valueReady_of_mark {mid : Element} (hsame : mid.valueReady = el.valueReady)
    (h : mid.tryMarkValueReady = .ok (became, el')) (hready : el'.valueReady = true) :
    el.valueReady = true ∨ el'.isSettled = true := by
  rw [(tryMarkValueReady_eq_ok h).1] at hready ⊢
  rw [← hsame, ← Bool.or_eq_true]
  exact hready

theorem valueReady_setValue (h : el.setValue vaddr data = .ok (became, el'))
    (hready : el'.valueReady = true) : el.valueReady = true ∨ el'.isSettled = true := by
  rcases setValue_iff.1 h with ⟨offset, _, _, hmark⟩
  have hsame : (el.written offset vaddr data).valueReady = el.valueReady := rfl
  exact valueReady_of_mark hsame hmark hready

/-- A fault marks its own block. -/
theorem faultBlock_eq_ok (h : el.faultBlock i = .ok (became, el')) :
    i < el.blocks.length ∧
      (el.setBlock i fun b => { b with state := .faulted }).tryMarkValueReady = .ok (became, el') := by
  rw [faultBlock] at h
  by_cases hi : i < el.blocks.length
  · rw [if_pos hi] at h
    exact ⟨hi, h⟩
  · rw [if_neg hi] at h
    cases h

theorem valueReady_faultBlock (h : el.faultBlock i = .ok (became, el')) (hready : el'.valueReady = true) :
    el.valueReady = true ∨ el'.isSettled = true := by
  have hsame : (el.setBlock i fun b => { b with state := .faulted }).valueReady = el.valueReady := rfl
  exact valueReady_of_mark hsame (faultBlock_eq_ok h).2 hready

/-! ## Faults -/

/-- No block is faulted. -/
def Clean (el : Element) : Prop :=
  ∀ b ∈ el.blocks, b.state ≠ .faulted

theorem clean_setValue (hclean : el.Clean) (h : el.setValue vaddr data = .ok (became, el')) :
    el'.Clean := by
  intro b' hb'
  rcases List.mem_iff_getElem?.1 hb' with ⟨j, hj⟩
  rcases (advances_setValue h).block j b' hj with ⟨b, hb, _⟩
  cases (hj.symm.trans (getElem?_setValue h hb))
  split
  · intro hcontra
    cases hcontra
  · exact hclean b (List.mem_of_getElem? hb)

/-- Copies fault a block only where the previous element has a faulted one. -/
theorem clean_copyFromPrev (hclean : el.Clean) (hprev : prev.Clean)
    (h : el.copyFromPrev prev = .ok (became, el')) : el'.Clean := by
  refine foldlM_keeps (fun _ mid => mid.2.Clean) ?_ hclean h
  rintro i is ⟨now, mid⟩ next hmid hstep
  rcases bind_eq_ok.1 hstep with ⟨⟨r, mid'⟩, hcopy, hstep⟩
  cases hstep
  cases hb : mid.blocks[i]? with
  | none =>
      rw [copyBlock, hb] at hcopy
      cases hcopy
  | some b =>
      rcases copyBlock_cases hb hcopy with
        ⟨_, rfl⟩ | ⟨_, j, p, _, hp, ⟨hfaulted, _⟩ | ⟨_, _, _, hset⟩⟩
      · exact hmid
      · exact absurd hfaulted (hprev p (List.mem_of_getElem? hp))
      · exact clean_setValue hmid hset

/-! ## The element's own bytes -/

/-- The last block begins before the element ends. -/
def Tight (el : Element) : Prop :=
  el.blocks ≠ [] → 0 < el.size ∧
    (el.blocks.length - 1) * el.lineSize < el.addr.toNat % el.lineSize + el.size

theorem ne_nil_of_length_eq (hlength : el'.blocks.length = el.blocks.length) (hne : el.blocks ≠ []) :
    el'.blocks ≠ [] := by
  rw [← List.length_pos_iff] at hne ⊢
  exact hlength ▸ hne

theorem Tight.congr (h : el.Tight) (hlength : el'.blocks.length = el.blocks.length)
    (hline : el'.lineSize = el.lineSize) (haddr : el'.addr = el.addr) (hsize : el'.size = el.size) :
    el'.Tight := by
  intro hne
  rw [hlength, hline, haddr, hsize]
  exact h (ne_nil_of_length_eq hlength.symm hne)

theorem Advances.tight (hadv : el.Advances el') (h : el.Tight) : el'.Tight := by
  refine h.congr hadv.length_eq ?_ ?_ ?_
  all_goals rw [hadv.shape]

/-- The element has its place in the buffer. -/
theorem Laid.valueOffset_own (h : el.Laid) (hne : el.blocks ≠ []) :
    ∃ offset, el.valueOffset el.addr el.size = .ok offset := by
  cases hfirst : el.blocks.head? with
  | none => exact absurd (List.head?_eq_none_iff.1 hfirst) hne
  | some first =>
      have hstart := h.first_line hfirst
      have hdiv := Nat.div_add_mod' el.addr.toNat el.lineSize
      have hcovers := h.covers hne
      have hroom := h.room
      refine ⟨_, valueOffset_eq_ok.2 ⟨first, hfirst, ?_, rfl, ?_⟩⟩
      · rw [UInt64.le_iff_toNat_le]
        omega
      · omega

/-- Outside memory, and below the last line of memory, the element's own bytes reach all of its blocks. -/
theorem Laid.reaches_own (h : el.Laid) (htight : el.Tight) (hsize : 0 < el.lineSize)
    (hend : el.isMem = true → el.addr.toNat + el.size + el.lineSize ≤ 2 ^ 64)
    (hb : el.blocks[j]? = some b) : el.reaches el.addr el.size b = true := by
  rw [reaches, Bool.or_eq_true]
  cases hmem : el.isMem with
  | false =>
      refine Or.inl ?_
      simp only [isWhole, hmem, Bool.not_false, beq_self_eq_true, Bool.and_self]
  | true =>
      refine Or.inr ?_
      have hlast := hend hmem
      rcases htight (List.ne_nil_of_mem (List.mem_of_getElem? hb)) with ⟨hpos, hlength⟩
      have hj : j ≤ el.blocks.length - 1 :=
        Nat.le_sub_one_of_lt (List.getElem?_eq_some_iff.1 hb).1
      have hle := Nat.mul_le_mul_right el.lineSize hj
      have hdiv := Nat.div_add_mod' el.addr.toNat el.lineSize
      have hsplit := Nat.add_mul (el.addr.toNat / el.lineSize) j el.lineSize
      have hline : b.line.toNat = (el.addr.toNat / el.lineSize + j) * el.lineSize := by
        rw [h.line_eq j b hb, toNat_lineStart]
        omega
      have hrest := Nat.mod_lt el.addr.toNat hsize
      rw [touches, Bool.and_eq_true, decide_eq_true_eq, decide_eq_true_eq, UInt64.lt_iff_toNat_lt,
        UInt64.lt_iff_toNat_lt, UInt64.toNat_add, UInt64.toNat_add, toNat_ofNat_of_lt (by omega),
        toNat_ofNat_of_lt (by omega), Nat.mod_eq_of_lt (by omega), Nat.mod_eq_of_lt (by omega)]
      omega

/-- An element takes bytes of its own once, if they have an address each. -/
theorem exists_setValue_iff (hlaid : el.Laid) (htight : el.Tight) (hblocks : 0 < el.size → el.blocks ≠ [])
    (hsettled : el.valueReady = true → el.isSettled = true) (hdata : data.length = el.size) :
    (∃ became el', el.setValue el.addr data = .ok (became, el')) ↔
      0 < el.size ∧ (el.isMem = true → el.addr.toNat + el.size < 2 ^ 64) ∧ el.valueReady = false := by
  constructor
  · rintro ⟨became, el', hset⟩
    refine ⟨(htight (blocks_ne_nil_of_setValue hset)).1, ?_, ?_⟩
    · intro hmem
      rcases setValue_iff.1 hset with ⟨_, _, hwhole | hend, _⟩
      · rw [isWhole, hmem] at hwhole
        cases hwhole
      · exact hdata ▸ hend
    · refine Bool.eq_false_iff.2 fun hready => ?_
      exact setValue_ne_ok hready (hsettled hready) hset
  · rintro ⟨hpos, hend, hready⟩
    rcases hlaid.valueOffset_own (hblocks hpos) with ⟨offset, hoffset⟩
    rcases exists_tryMarkValueReady (e := el.written offset el.addr data) hready with
      ⟨became, el', hmark⟩
    refine ⟨became, el', setValue_iff.2 ⟨offset, hdata ▸ hoffset, ?_, hmark⟩⟩
    cases hmem : el.isMem with
    | false =>
        refine Or.inl ?_
        simp only [isWhole, hmem, hdata, Bool.not_false, beq_self_eq_true, Bool.and_self]
    | true => exact Or.inr (hdata ▸ hend hmem)

/-- An element that took bytes of its own is value ready, unless it ends in the last line of memory. -/
theorem valueReady_setValue_own (hlaid : el.Laid) (htight : el.Tight) (hsize : 0 < el.lineSize)
    (hdata : data.length = el.size)
    (hend : el.isMem = true → el.addr.toNat + el.size + el.lineSize ≤ 2 ^ 64)
    (hset : el.setValue el.addr data = .ok (became, el')) : el'.valueReady = true := by
  rcases setValue_iff.1 hset with ⟨offset, _, _, hmark⟩
  have hsettled : (el.written offset el.addr data).isSettled = true := by
    refine List.all_eq_true.2 ?_
    intro b' hb'
    rcases List.mem_map.1 hb' with ⟨b, hb, rfl⟩
    rcases List.mem_iff_getElem?.1 hb with ⟨j, hj⟩
    rw [if_pos (hdata ▸ hlaid.reaches_own htight hsize hend hj)]
    rfl
  rw [(tryMarkValueReady_eq_ok hmark).1]
  simp only [hsettled, Bool.or_true]

end Element
end StreamEngine
