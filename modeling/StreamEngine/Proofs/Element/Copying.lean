import StreamEngine.Proofs.Element.Content

/-!
# Copies from the previous element

A block may take its line from the element before, where that one has it already. Blocks are counted in
lines from the first one on both sides, so the copy is of the right line.

- `Element.Serves`, `Element.Awaits` : what can be copied, and what is to be copied;
- `advances_copyFromPrev`, `not_prevElement_of_copyFromPrev` : copying settles every block that waits for it;
- `Loaded.copyFromPrev` : copying keeps to memory.
-/

namespace StreamEngine
namespace Element

variable {k : Nat} {M : UInt64 → List UInt8} {failed : List FailedLine} {e e' prev : Element}
  {became : Bool}

/-- The first block of the line is settled, so that it can be copied. -/
def Serves (prev : Element) (line : UInt64) : Prop :=
  ∃ b, prev.blocks.find? (fun b => b.line = line) = some b ∧ b.state.isSettled = true

/-- Every block that waits for the previous element can be copied from it. -/
def Awaits (e prev : Element) : Prop :=
  ∀ b ∈ e.blocks, b.state = .prevElement → prev.Serves b.line

theorem Awaits.advances (h : e.Awaits prev) (hadv : e.Advances e') : e'.Awaits prev := by
  intro b' hb' hstate
  rcases List.mem_iff_getElem?.1 hb' with ⟨j, hj⟩
  rcases hadv.block j b' hj with ⟨b, hb, hblock⟩
  rw [hblock.line_eq]
  rcases hblock.state with hsame | hsettled
  · exact h b (List.mem_of_getElem? hb) (hsame ▸ hstate)
  · rw [hstate] at hsettled
    cases hsettled

/-- The line of an address in the buffer is as many lines behind the first block as its index says. -/
theorem Laid.toNat_line_of_blockIndex (h : prev.Laid) (hsize : prev.lineSize = 2 ^ k) {line : UInt64}
    (hdvd : 2 ^ k ∣ line.toNat) {size j : Nat}
    (hindex : prev.blockIndex line size = .ok j) :
    line.toNat = (prev.addr.toNat / 2 ^ k + j) * 2 ^ k := by
  rcases bind_eq_ok.1 hindex with ⟨offset, hoffset, hj⟩
  cases hj
  rcases valueOffset_eq_ok.1 hoffset with ⟨first, hfirst, hle, hoff, _⟩
  have hfirstNat := h.first_line hfirst
  rw [UInt64.le_iff_toNat_le] at hle
  rw [hsize] at hfirstNat
  have hoffDvd : 2 ^ k ∣ offset := by
    rw [hoff, hfirstNat]
    exact Nat.dvd_sub hdvd (Nat.dvd_mul_left _ _)
  rw [hsize, Nat.add_mul, Nat.div_mul_cancel hoffDvd]
  omega

/-- A block counted in lines from the first one is the first of its line. -/
theorem Laid.block_at (h : prev.Laid) (hk : k < 64) (hsize : prev.lineSize = 2 ^ k) {line : UInt64}
    {j : Nat} {b p : Block} (hindex : prev.blockIndex line prev.lineSize = .ok j)
    (hfind : prev.blocks.find? (fun b => b.line = line) = some b)
    (hp : prev.blocks[j]? = some p) : p = b := by
  have hpos : 0 < 2 ^ k := Nat.two_pow_pos k
  rcases List.find?_eq_some_iff_getElem.1 hfind with ⟨hline, j₀, hj₀, rfl, hbefore⟩
  rw [decide_eq_true_eq] at hline
  have hlineEq := h.line_eq j₀ _ (List.getElem?_eq_getElem hj₀)
  rw [hline, hsize] at hlineEq
  have hnumber := h.toNat_line_of_blockIndex hsize (dvd_of_line hk hlineEq) hindex
  -- the first block of the line is not before block `j`, even where line numbers wrap
  have hle : j ≤ j₀ := by
    have hmod := Nat.mod_le ((prev.addr.toNat / 2 ^ k + j₀) * 2 ^ k) (2 ^ 64)
    rw [lineStart] at hlineEq
    rw [← UInt64.toNat_ofNat', ← hlineEq, hnumber, Nat.mul_le_mul_right_iff hpos] at hmod
    omega
  have hpLine : p.line = line := by
    apply UInt64.toNat_inj.1
    rw [h.line_eq j p hp, hsize, toNat_lineStart (hnumber ▸ line.toNat_lt), hnumber]
  have hsame : j = j₀ := by
    by_contra hne
    have hnot := hbefore j (by omega)
    rcases List.getElem?_eq_some_iff.1 hp with ⟨hlt, hpEq⟩
    rw [hpEq, hpLine] at hnot
    simp at hnot
  rw [hsame, List.getElem?_eq_getElem hj₀] at hp
  exact (Option.some.inj hp).symm

theorem copyBlock_cases {i : Nat} {b : Block} (hb : e.blocks[i]? = some b)
    (h : e.copyBlock prev i = .ok (became, e')) :
    b.state ≠ .prevElement ∧ e' = e ∨
      b.state = .prevElement ∧ ∃ j p, prev.blockIndex b.line e.lineSize = .ok j ∧
        prev.blocks[j]? = some p ∧
        (p.state = .faulted ∧ e.faultBlock i = .ok (became, e') ∨
          p.state ≠ .faulted ∧ ∃ data, prev.getValue b.line e.lineSize = .ok data ∧
            e.setValue b.line data = .ok (became, e')) := by
  rw [copyBlock, hb] at h
  by_cases hstate : b.state = .prevElement
  · simp only [hstate, ne_eq, not_true_eq_false, if_false] at h
    rcases bind_eq_ok.1 h with ⟨j, hj, h⟩
    cases hp : prev.blocks[j]? with
    | none =>
        rw [hp] at h
        cases h
    | some p =>
        rw [hp] at h
        refine Or.inr ⟨hstate, j, p, hj, hp, ?_⟩
        by_cases hfaulted : p.state = .faulted
        · simp only [if_pos hfaulted] at h
          exact Or.inl ⟨hfaulted, h⟩
        · simp only [if_neg hfaulted] at h
          exact Or.inr ⟨hfaulted, bind_eq_ok.1 h⟩
  · simp only [ne_eq, hstate, not_false_eq_true, if_true] at h
    cases h
    exact Or.inl ⟨hstate, rfl⟩

theorem length_getValue {vaddr : UInt64} {size : Nat} {bytes : List UInt8}
    (h : e.getValue vaddr size = .ok bytes) : bytes.length = size := by
  rcases getValue_eq_ok.1 h with ⟨_, _, _, hroom, rfl⟩
  rw [List.length_take, List.length_drop]
  omega

theorem advances_copyBlock {i : Nat} (h : e.copyBlock prev i = .ok (became, e')) : e.Advances e' := by
  cases hb : e.blocks[i]? with
  | none =>
      rw [copyBlock, hb] at h
      cases h
  | some b =>
      rcases copyBlock_cases hb h with ⟨_, rfl⟩ | ⟨_, j, p, _, _, ⟨_, hfault⟩ | ⟨_, data, _, hset⟩⟩
      · exact Advances.refl e'
      · exact advances_faultBlock hfault
      · exact advances_setValue hset

/-- A copy settles the block. -/
theorem not_prevElement_of_copyBlock (hpos : 0 < e.lineSize) {i : Nat}
    (h : e.copyBlock prev i = .ok (became, e')) {b' : Block} (hb' : e'.blocks[i]? = some b') :
    b'.state ≠ .prevElement := by
  cases hb : e.blocks[i]? with
  | none =>
      rw [copyBlock, hb] at h
      cases h
  | some b =>
      rcases copyBlock_cases hb h with
        ⟨hstate, rfl⟩ | ⟨_, j, p, _, _, ⟨_, hfault⟩ | ⟨_, data, hdata, hset⟩⟩
      · rw [hb] at hb'
        cases hb'
        exact hstate
      · rw [faultBlock, if_pos (List.getElem?_eq_some_iff.1 hb).1] at hfault
        rw [(tryMarkValueReady_eq_ok hfault).1] at hb'
        simp only [setBlock, List.getElem?_modify, hb, if_true] at hb'
        cases hb'
        intro hcontra
        cases hcontra
      · have hlen := length_getValue hdata
        rw [ready_of_setValue (by omega) hlen hset hb rfl hb']
        decide

theorem Loaded.copyBlock (h : e.Loaded M failed) (hlaid : e.Laid) (hk : k < 64)
    (hsize : e.lineSize = 2 ^ k) (hM : ∀ line, (M line).length = e.lineSize)
    (hprev : prev.Loaded M failed) (hprevLaid : prev.Laid) (hprevSize : prev.lineSize = e.lineSize)
    (hstream : prev.stream = e.stream) (hawaits : e.Awaits prev) {i : Nat}
    (hcopy : e.copyBlock prev i = .ok (became, e')) : e'.Loaded M failed := by
  cases hb : e.blocks[i]? with
  | none =>
      rw [Element.copyBlock, hb] at hcopy
      cases hcopy
  | some b =>
      have hmem := List.mem_of_getElem? hb
      rcases copyBlock_cases hb hcopy with ⟨_, rfl⟩ | ⟨hstate, j, p, hj, hp, hsettle⟩
      · exact h
      · rcases hawaits b hmem hstate with ⟨found, hfind, hsettled⟩
        -- both look for the line, so the block that is copied is the settled one
        rw [← hprevSize] at hj
        rw [hprevLaid.block_at hk (hprevSize.trans hsize) hj hfind hp] at hsettle
        have hfound := List.mem_of_find?_eq_some hfind
        have hline : found.line = b.line := by
          have hprop := List.find?_some hfind
          rwa [decide_eq_true_eq] at hprop
        rcases hsettle with ⟨hfaulted, hfault⟩ | ⟨hnot, data, hdata, hset⟩
        · refine h.faultBlock hb ?_ hfault
          rw [← hstream, ← hline]
          exact hprev.faulted found hfound hfaulted
        · have hready : found.state = .ready := by
            cases hcase : found.state <;> simp_all [BlockState.isSettled]
          have hread := (hprev.ready found hfound hready).2
          rw [hline, hprevSize, hdata] at hread
          cases hread
          exact h.setValue hlaid hk hsize hM hmem hset

theorem not_prevElement_of_advances (h : e.Advances e') {j : Nat}
    (hold : ∀ b, e.blocks[j]? = some b → b.state ≠ .prevElement) {b' : Block}
    (hb' : e'.blocks[j]? = some b') : b'.state ≠ .prevElement := by
  rcases h.block j b' hb' with ⟨b, hb, hadv⟩
  rcases hadv.state with hsame | hsettled
  · rw [hsame]
    exact hold b hb
  · intro hstate
    rw [hstate] at hsettled
    cases hsettled

theorem advances_copyFromPrev (h : e.copyFromPrev prev = .ok (became, e')) : e.Advances e' := by
  refine foldlM_keeps (fun _ mid => e.Advances mid.2) ?_ (Advances.refl e) h
  rintro i is ⟨now, mid⟩ next hadv hstep
  rcases bind_eq_ok.1 hstep with ⟨⟨r, mid'⟩, hcopy, hstep⟩
  cases hstep
  exact hadv.trans (advances_copyBlock hcopy)

/-- Copies settle every block that waits for the previous element. -/
theorem not_prevElement_of_copyFromPrev (hpos : 0 < e.lineSize)
    (h : e.copyFromPrev prev = .ok (became, e')) : ∀ b ∈ e'.blocks, b.state ≠ .prevElement := by
  let kept : List Nat → Bool × Element → Prop := fun is mid =>
    e.Advances mid.2 ∧ ∀ i < e.blocks.length, i ∉ is → ∀ b, mid.2.blocks[i]? = some b →
      b.state ≠ .prevElement
  have hstart : kept (List.range e.blocks.length) (false, e) :=
    ⟨Advances.refl e, fun i hi hnot => absurd (List.mem_range.2 hi) hnot⟩
  have hend : kept [] (became, e') := by
    refine foldlM_keeps kept ?_ hstart h
    rintro i is ⟨now, mid⟩ next ⟨hadv, hsettled⟩ hstep
    rcases bind_eq_ok.1 hstep with ⟨⟨r, mid'⟩, hcopy, hstep⟩
    cases hstep
    change e.Advances mid at hadv
    have hline : mid.lineSize = e.lineSize := by rw [hadv.shape]
    have hadv' := advances_copyBlock hcopy
    refine ⟨hadv.trans hadv', ?_⟩
    -- block `i` is settled by its own copy, and the others stay as they are
    intro j hj hnot b hb
    by_cases hji : j = i
    · rw [hji] at hb
      exact not_prevElement_of_copyBlock (by omega) hcopy hb
    · refine not_prevElement_of_advances hadv' (hsettled j hj ?_) hb
      intro hmem
      rcases List.mem_cons.1 hmem with hsame | hmem
      · exact hji hsame
      · exact hnot hmem
  intro b hb
  rcases List.mem_iff_getElem?.1 hb with ⟨j, hj⟩
  have hlt := (List.getElem?_eq_some_iff.1 hj).1
  rw [hend.1.length_eq] at hlt
  exact hend.2 j hlt List.not_mem_nil b hj

theorem Loaded.copyFromPrev (h : e.Loaded M failed) (hlaid : e.Laid) (hk : k < 64)
    (hsize : e.lineSize = 2 ^ k) (hM : ∀ line, (M line).length = e.lineSize)
    (hprev : prev.Loaded M failed) (hprevLaid : prev.Laid) (hprevSize : prev.lineSize = e.lineSize)
    (hstream : prev.stream = e.stream) (hawaits : e.Awaits prev)
    (hcopy : e.copyFromPrev prev = .ok (became, e')) : e'.Loaded M failed := by
  let kept : List Nat → Bool × Element → Prop := fun _ mid =>
    e.Advances mid.2 ∧ mid.2.Loaded M failed
  refine (foldlM_keeps kept ?_ ⟨Advances.refl e, h⟩ hcopy).2
  rintro i is ⟨now, mid⟩ next ⟨hadv, hmid⟩ hstep
  rcases bind_eq_ok.1 hstep with ⟨⟨r, mid'⟩, hblock, hstep⟩
  cases hstep
  change e.Advances mid at hadv
  have hline : mid.lineSize = e.lineSize := by rw [hadv.shape]
  have hmidStream : mid.stream = e.stream := by rw [hadv.shape]
  refine ⟨hadv.trans (advances_copyBlock hblock), ?_⟩
  exact hmid.copyBlock (hadv.laid hlaid) hk (hline.trans hsize)
    (fun line => (hM line).trans hline.symm) hprev hprevLaid (hprevSize.trans hline.symm)
    (hstream.trans hmidStream.symm) (hawaits.advances hadv) hblock

end Element
end StreamEngine
