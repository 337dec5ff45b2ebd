import StreamEngine.Proofs.Element.Filling

/-!
# Blocks that hold memory

Memory is a function from lines to their bytes. An element of a load holds it on all blocks that are
ready, and its faulted blocks are on lines that are known to have failed.

- `Element.Loaded` : the ready blocks hold memory, and the faulted ones have failed;
- `Loaded.setValue`, `Loaded.faultBlock` : settling blocks keeps to memory;
- `Loaded.getValue_eq` : a value-ready element without faults reads memory.
-/

namespace StreamEngine

/-- A line that a stream has seen fail. -/
abbrev FailedLine := StreamId × UInt64

/-- The byte of memory at an address. -/
def memoryByte (M : UInt64 → List UInt8) (size : Nat) (addr : UInt64) : UInt8 :=
  (M (lineOf size addr)).getD (addr.toNat % size) 0

/-- The `length` bytes of memory from `addr` on, for lines of `size` bytes. -/
def memoryBytes (M : UInt64 → List UInt8) (size : Nat) (addr : UInt64) (length : Nat) :
    List UInt8 :=
  (List.range length).map fun i => memoryByte M size (addr + UInt64.ofNat i)

theorem dvd_of_line {k : Nat} (hk : k < 64) {n : Nat} {line : UInt64}
    (h : line = lineStart (2 ^ k) n) : 2 ^ k ∣ line.toNat := by
  rw [h, lineStart, UInt64.toNat_ofNat']
  exact (Nat.dvd_mod_iff (two_pow_dvd hk)).2 (Nat.dvd_mul_left _ _)

/-- Multiples of the line size are equal or a line apart. -/
theorem apart_of_ne {size a b : Nat} (ha : size ∣ a) (hb : size ∣ b) (hne : a ≠ b) :
    a + size ≤ b ∨ b + size ≤ a := by
  rcases ha with ⟨p, rfl⟩
  rcases hb with ⟨q, rfl⟩
  rcases Nat.lt_trichotomy p q with hlt | heq | hgt
  · have hle := Nat.mul_le_mul_left size (Nat.succ_le_of_lt hlt)
    rw [Nat.mul_succ] at hle
    exact Or.inl hle
  · rw [heq] at hne
    exact absurd rfl hne
  · have hle := Nat.mul_le_mul_left size (Nat.succ_le_of_lt hgt)
    rw [Nat.mul_succ] at hle
    exact Or.inr hle

namespace Element

variable {k : Nat} {M : UInt64 → List UInt8} {failed : List FailedLine} {e e' prev : Element}
  {became : Bool}

/-- Memory `M`, as far as the element has it, with the lines that failed. -/
structure Loaded (M : UInt64 → List UInt8) (failed : List FailedLine) (e : Element) : Prop where
  mem : e.isMem = true
  ready : ∀ b ∈ e.blocks, b.state = .ready →
    b.line.toNat + e.lineSize < 2 ^ 64 ∧ e.getValue b.line e.lineSize = .ok (M b.line)
  faulted : ∀ b ∈ e.blocks, b.state = .faulted → (e.stream, b.line) ∈ failed
  settled : e.valueReady = true → e.blocks ≠ [] ∧ e.isSettled = true

theorem Laid.dvd (h : e.Laid) (hk : k < 64) (hline : e.lineSize = 2 ^ k) {b : Block}
    (hb : b ∈ e.blocks) : e.lineSize ∣ b.line.toNat := by
  rcases List.mem_iff_getElem?.1 hb with ⟨j, hj⟩
  have heq := h.line_eq j b hj
  rw [hline] at heq ⊢
  exact dvd_of_line hk heq

/-! ## Reading after settling -/

theorem Advances.head (h : e.Advances e') {first : Block} (hfirst : e.blocks.head? = some first) :
    ∃ first', e'.blocks.head? = some first' ∧ first'.line = first.line := by
  rw [List.head?_eq_getElem?] at hfirst ⊢
  have hlt := (List.getElem?_eq_some_iff.1 hfirst).1
  have hlen := h.length_eq
  refine ⟨e'.blocks[0], List.getElem?_eq_getElem (by omega), ?_⟩
  rcases h.block 0 _ (List.getElem?_eq_getElem (by omega)) with ⟨b, hb, hadv⟩
  rw [hfirst] at hb
  cases hb
  exact hadv.line_eq

/-- A read that none of the changed bytes lies in gives the same as before. -/
theorem getValue_of_advances (h : e.Advances e') {line : UInt64} {size : Nat} {bytes : List UInt8}
    (hread : e.getValue line size = .ok bytes)
    (hsame : ∀ first, e.blocks.head? = some first → ∀ i < size,
      e'.buffer[line.toNat - first.line.toNat + i]? = e.buffer[line.toNat - first.line.toNat + i]?) :
    e'.getValue line size = .ok bytes := by
  rcases getValue_eq_ok.1 hread with ⟨first, hfirst, hle, hroom, rfl⟩
  rcases h.head hfirst with ⟨first', hfirst', hline⟩
  refine getValue_eq_ok.2 ⟨first', hfirst', ?_, ?_, ?_⟩
  · rwa [hline]
  · rwa [hline, h.room]
  · rw [hline]
    apply List.ext_getElem?
    intro i
    rw [List.getElem?_take, List.getElem?_take]
    by_cases hi : i < size
    · rw [if_pos hi, if_pos hi, List.getElem?_drop, List.getElem?_drop, hsame first hfirst i hi]
    · rw [if_neg hi, if_neg hi]

/-- Marking keeps to what it takes to be value ready. -/
theorem settled_of_mark {mid : Element} (h : e.Advances mid) (hne : mid.blocks ≠ [])
    (hold : e.valueReady = true → e.isSettled = true) (hsame : mid.valueReady = e.valueReady)
    (hmark : mid.tryMarkValueReady = .ok (became, e')) :
    e'.valueReady = true → e'.blocks ≠ [] ∧ e'.isSettled = true := by
  rcases tryMarkValueReady_eq_ok hmark with ⟨rfl, _⟩
  intro hready
  refine ⟨hne, ?_⟩
  simp only [Bool.or_eq_true] at hready
  rcases hready with hready | hsettled
  · exact h.settled (hold (hsame ▸ hready))
  · exact hsettled

/-! ## Bytes -/

/-- A write of one line touches the blocks of that line. -/
theorem touches_line {size : Nat} {line : UInt64} {b : Block} (hline : size ∣ line.toNat)
    (hb : size ∣ b.line.toNat) (hend : line.toNat + size < 2 ^ 64)
    (htouch : touches size line (line + UInt64.ofNat size) b = true) : b.line = line := by
  rw [touches, Bool.and_eq_true, decide_eq_true_eq, decide_eq_true_eq, UInt64.lt_iff_toNat_lt,
    UInt64.lt_iff_toNat_lt, UInt64.toNat_add, UInt64.toNat_add, toNat_ofNat_of_lt (by omega),
    Nat.mod_eq_of_lt hend] at htouch
  apply UInt64.toNat_inj.1
  by_contra hne
  rcases apart_of_ne hb hline hne with hlow | hhigh
  · rw [Nat.mod_eq_of_lt (by omega)] at htouch
    omega
  · omega

theorem touches_self {size : Nat} {b : Block} (hpos : 0 < size)
    (hend : b.line.toNat + size < 2 ^ 64) :
    touches size b.line (b.line + UInt64.ofNat size) b = true := by
  have hlt : b.line < b.line + UInt64.ofNat size := by
    rw [UInt64.lt_iff_toNat_lt, UInt64.toNat_add, toNat_ofNat_of_lt (by omega),
      Nat.mod_eq_of_lt hend]
    omega
  rw [touches, decide_eq_true hlt]
  rfl

/-- What was written is read. -/
theorem getValue_written {vaddr : UInt64} {data : List UInt8}
    (hset : e.setValue vaddr data = .ok (became, e')) :
    e'.getValue vaddr data.length = .ok data := by
  have hadv := advances_setValue hset
  rcases setValue_eq_ok hset with ⟨offset, reached, hoffset, hmark, _⟩
  rcases valueOffset_eq_ok.1 hoffset with ⟨first, hfirst, hle, hoff, hroom⟩
  have hbuffer : e'.buffer = overwrite e.buffer offset data := by
    rw [(tryMarkValueReady_eq_ok hmark).1]
  rcases hadv.head hfirst with ⟨first', hfirst', hline⟩
  refine getValue_eq_ok.2 ⟨first', hfirst', ?_, ?_, ?_⟩
  · rwa [hline]
  · rw [hline, ← hoff, hadv.room]
    exact hroom
  · rw [hline, ← hoff, hbuffer]
    apply List.ext_getElem?
    intro i
    rw [List.getElem?_take]
    by_cases hi : i < data.length
    · rw [if_pos hi, List.getElem?_drop, getElem?_overwrite hroom, if_pos (by omega),
        Nat.add_sub_cancel_left]
    · rw [if_neg hi, List.getElem?_eq_none (by omega)]

/-- A write does not reach what lies apart from it. -/
theorem getValue_of_apart {vaddr line : UInt64} {data bytes : List UInt8} {size : Nat}
    (hset : e.setValue vaddr data = .ok (became, e'))
    (hapart : line.toNat + size ≤ vaddr.toNat ∨ vaddr.toNat + data.length ≤ line.toNat)
    (hread : e.getValue line size = .ok bytes) : e'.getValue line size = .ok bytes := by
  have hadv := advances_setValue hset
  rcases setValue_eq_ok hset with ⟨offset, reached, hoffset, hmark, _⟩
  rcases valueOffset_eq_ok.1 hoffset with ⟨first, hfirst, hle, hoff, hroom⟩
  have hbuffer : e'.buffer = overwrite e.buffer offset data := by
    rw [(tryMarkValueReady_eq_ok hmark).1]
  refine getValue_of_advances hadv hread ?_
  intro first' hfirst' i hi
  rw [hfirst] at hfirst'
  cases hfirst'
  rcases getValue_eq_ok.1 hread with ⟨first', hfirst', hle', _, _⟩
  rw [hfirst] at hfirst'
  cases hfirst'
  rw [UInt64.le_iff_toNat_le] at hle hle'
  rw [hbuffer, getElem?_overwrite hroom, if_neg (by omega)]

/-- After a write of one line, a block is ready on that line, or it is one of the old blocks. An old
block of the line can only be left behind the end of memory. -/
theorem block_of_setValue (hlaid : e.Laid) (hk : k < 64) (hsize : e.lineSize = 2 ^ k)
    (hmem : e.isMem = true) {b : Block} (hb : b ∈ e.blocks) {data : List UInt8}
    (hdata : data.length = e.lineSize) (hset : e.setValue b.line data = .ok (became, e')) :
    b.line.toNat + e.lineSize < 2 ^ 64 ∧ ∀ b' ∈ e'.blocks,
      b'.line = b.line ∧ b'.state = .ready ∨
        b' ∈ e.blocks ∧ (b'.line.toNat + e.lineSize < 2 ^ 64 → b'.line ≠ b.line) := by
  rcases setValue_eq_ok hset with ⟨offset, reached, _, hmark, ⟨hmem', _⟩ | ⟨hend, hreached⟩⟩
  · rw [hmem] at hmem'
    cases hmem'
  rw [hdata] at hend hreached
  have hblocks : e'.blocks = e.blocks.map fun b₀ =>
      if reached b₀ then { b₀ with state := .ready } else b₀ := by
    rw [(tryMarkValueReady_eq_ok hmark).1]
  refine ⟨hend, ?_⟩
  intro b' hb'
  rw [hblocks] at hb'
  rcases List.mem_map.1 hb' with ⟨b₀, hb₀, rfl⟩
  -- lines do not overlap, so a block that is reached lies on the line itself
  by_cases hhit : reached b₀ = true
  · left
    rw [if_pos hhit]
    rw [hreached] at hhit
    have hsame : b₀.line = b.line :=
      touches_line (hlaid.dvd hk hsize hb) (hlaid.dvd hk hsize hb₀) hend hhit
    exact ⟨hsame, rfl⟩
  · right
    rw [if_neg hhit]
    refine ⟨hb₀, ?_⟩
    intro hend₀ hsame
    apply hhit
    rw [hreached, ← hsame]
    exact touches_self (by rw [hsize]; exact Nat.two_pow_pos k) hend₀

/-- A line of memory goes to the blocks of that line, and to no other bytes of the buffer. -/
theorem Loaded.setValue (h : e.Loaded M failed) (hlaid : e.Laid) (hk : k < 64)
    (hsize : e.lineSize = 2 ^ k) (hM : ∀ line, (M line).length = e.lineSize) {b : Block}
    (hb : b ∈ e.blocks) (hset : e.setValue b.line (M b.line) = .ok (became, e')) :
    e'.Loaded M failed := by
  have hadv := advances_setValue hset
  have hline : e'.lineSize = e.lineSize := by rw [hadv.shape]
  have hstream : e'.stream = e.stream := by rw [hadv.shape]
  -- a block of the line has just been written, and any other lies apart from it
  rcases block_of_setValue hlaid hk hsize h.mem hb (hM b.line) hset with ⟨hend, hblock⟩
  refine ⟨?_, ?_, ?_, ?_⟩
  · rw [hadv.shape]
    exact h.mem
  · intro b' hb' hstate
    rw [hline]
    rcases hblock b' hb' with ⟨hsame, _⟩ | ⟨hold, hother⟩
    · rw [hsame]
      have hread := getValue_written hset
      rw [hM] at hread
      exact ⟨hend, hread⟩
    · rcases h.ready b' hold hstate with ⟨hend', hread⟩
      have hne : b'.line.toNat ≠ b.line.toNat := fun heq => hother hend' (UInt64.toNat_inj.1 heq)
      have hapart := apart_of_ne (hlaid.dvd hk hsize hold) (hlaid.dvd hk hsize hb) hne
      refine ⟨hend', getValue_of_apart hset ?_ hread⟩
      rw [hM]
      exact hapart
  · intro b' hb' hstate
    rw [hstream]
    rcases hblock b' hb' with ⟨_, hready⟩ | ⟨hold, _⟩
    · rw [hready] at hstate
      cases hstate
    · exact h.faulted b' hold hstate
  · rcases setValue_eq_ok hset with ⟨offset, reached, hoffset, hmark, _⟩
    rcases valueOffset_eq_ok.1 hoffset with ⟨_, _, _, _, hroom⟩
    refine settled_of_mark (advances_write hroom) ?_ (fun hready => (h.settled hready).2) rfl hmark
    intro hnil
    rw [List.map_eq_nil_iff] at hnil
    rw [hnil] at hb
    cases hb

/-! ## Blocks that change otherwise -/

theorem Laid.setBlock (h : e.Laid) (i : Nat) {f : Block → Block} (hline : ∀ b, (f b).line = b.line) :
    (e.setBlock i f).Laid := by
  have hlen : (e.setBlock i f).blocks.length = e.blocks.length := List.length_modify _ _ _
  refine ⟨?_, ?_, ?_⟩
  · intro j b' hj
    rcases setBlock_block hj with ⟨b, hb, ⟨_, rfl⟩ | ⟨_, rfl⟩⟩
    · rw [hline]
      exact h.line_eq j b hb
    · exact h.line_eq j _ hb
  · intro hne
    rw [hlen]
    refine h.covers ?_
    intro hnil
    rw [hnil, List.length_nil] at hlen
    exact hne (List.eq_nil_of_length_eq_zero hlen)
  · rw [hlen]
    exact h.room

theorem getValue_setBlock {i : Nat} {f : Block → Block} (hline : ∀ b, (f b).line = b.line)
    {vaddr : UInt64} {size : Nat} {bytes : List UInt8} (h : e.getValue vaddr size = .ok bytes) :
    (e.setBlock i f).getValue vaddr size = .ok bytes := by
  rcases getValue_eq_ok.1 h with ⟨first, hfirst, hle, hroom, hbytes⟩
  rw [List.head?_eq_getElem?] at hfirst
  have hlt := (List.getElem?_eq_some_iff.1 hfirst).1
  have hlen : (e.setBlock i f).blocks.length = e.blocks.length := List.length_modify _ _ _
  have hhead : ((e.setBlock i f).blocks)[0]? = some (e.setBlock i f).blocks[0] :=
    List.getElem?_eq_getElem (by omega)
  have hsame : ((e.setBlock i f).blocks[0]).line = first.line := by
    rcases setBlock_block hhead with ⟨b, hb, ⟨_, heq⟩ | ⟨_, heq⟩⟩
    · rw [hfirst] at hb
      cases hb
      rw [heq, hline]
    · rw [hfirst] at hb
      cases hb
      rw [heq]
  refine getValue_eq_ok.2 ⟨_, List.head?_eq_getElem? ▸ hhead, ?_, ?_, ?_⟩
  · rwa [hsame]
  · rw [hsame]
    exact hroom
  · rw [hsame]
    exact hbytes

/-- A block may also go on waiting for its line, if the element is not value ready yet. -/
theorem Loaded.setBlock (h : e.Loaded M failed) {i : Nat} {f : Block → Block}
    (hline : ∀ b, (f b).line = b.line)
    (hstate : ∀ b, e.blocks[i]? = some b →
      (f b).state = b.state ∨ (f b).state.isSettled = false ∧ e.valueReady = false) :
    (e.setBlock i f).Loaded M failed := by
  -- a settled block is an old one
  have hold : ∀ b' ∈ (e.setBlock i f).blocks, b'.state.isSettled = true →
      ∃ b ∈ e.blocks, b'.line = b.line ∧ b'.state = b.state := by
    intro b' hb' hsettled
    rcases List.mem_iff_getElem?.1 hb' with ⟨j, hj⟩
    rcases setBlock_block hj with ⟨b, hb, ⟨rfl, rfl⟩ | ⟨_, rfl⟩⟩
    · rcases hstate b hb with hsame | ⟨hnot, _⟩
      · exact ⟨b, List.mem_of_getElem? hb, hline b, hsame⟩
      · rw [hnot] at hsettled
        cases hsettled
    · exact ⟨_, List.mem_of_getElem? hb, rfl, rfl⟩
  refine ⟨h.mem, ?_, ?_, ?_⟩
  · intro b' hb' hready
    rcases hold b' hb' (by rw [hready]; rfl) with ⟨b, hb, hsame, hstateEq⟩
    rcases h.ready b hb (hstateEq ▸ hready) with ⟨hend, hread⟩
    rw [hsame]
    exact ⟨hend, getValue_setBlock hline hread⟩
  · intro b' hb' hfaulted
    rcases hold b' hb' (by rw [hfaulted]; rfl) with ⟨b, hb, hsame, hstateEq⟩
    rw [hsame]
    exact h.faulted b hb (hstateEq ▸ hfaulted)
  · intro hready
    rcases h.settled hready with ⟨hne, hsettled⟩
    refine ⟨setBlock_ne_nil hne, ?_⟩
    rw [isSettled, List.all_eq_true] at hsettled ⊢
    refine forall_setBlock (fun b hb => ?_) hsettled
    rcases hstate b hb with hsame | ⟨_, hnot⟩
    · rw [hsame]
      exact hsettled b (List.mem_of_getElem? hb)
    · have hready' : e.valueReady = true := hready
      rw [hnot] at hready'
      cases hready'

/-! ## Faults -/

theorem Loaded.faultBlock (h : e.Loaded M failed) {i : Nat} {b : Block} (hb : e.blocks[i]? = some b)
    (hlog : (e.stream, b.line) ∈ failed) (hfault : e.faultBlock i = .ok (became, e')) :
    e'.Loaded M failed := by
  have hadv := advances_faultBlock hfault
  have hi := (List.getElem?_eq_some_iff.1 hb).1
  rw [Element.faultBlock, if_pos hi] at hfault
  have hbuffer : e'.buffer = e.buffer := by
    rw [(tryMarkValueReady_eq_ok hfault).1]
    rfl
  have hblocks : e'.blocks = (e.setBlock i fun b => { b with state := .faulted }).blocks := by
    rw [(tryMarkValueReady_eq_ok hfault).1]
  have hline : e'.lineSize = e.lineSize := by rw [hadv.shape]
  have hstream : e'.stream = e.stream := by rw [hadv.shape]
  -- a block of the new element is block `i` with the fault, or one of the old ones
  have hmem : ∀ b' ∈ e'.blocks, b' ∈ e.blocks ∨ b'.line = b.line ∧ b'.state = .faulted := by
    rw [hblocks]
    refine forall_setBlock (fun b₀ hb₀ => ?_) fun _ => Or.inl
    cases (hb.symm.trans hb₀)
    exact Or.inr ⟨rfl, rfl⟩
  refine ⟨?_, ?_, ?_, ?_⟩
  · rw [hadv.shape]
    exact h.mem
  · intro b' hb' hstate
    rcases hmem b' hb' with hold | ⟨_, hfaulted⟩
    · rcases h.ready b' hold hstate with ⟨hend, hread⟩
      rw [hline]
      refine ⟨hend, getValue_of_advances hadv hread ?_⟩
      intro first _ j _
      rw [hbuffer]
    · rw [hfaulted] at hstate
      cases hstate
  · intro b' hb' hstate
    rw [hstream]
    rcases hmem b' hb' with hold | ⟨hsame, _⟩
    · exact h.faulted b' hold hstate
    · rwa [hsame]
  · refine settled_of_mark (advances_setFaulted i) (setBlock_ne_nil ?_)
      (fun hready => (h.settled hready).2) rfl hfault
    exact List.ne_nil_of_mem (List.mem_of_getElem? hb)

/-! ## Reading a whole element -/

/-- No block that holds memory lies behind the end of memory. -/
theorem Laid.mul_lt_of_ready (h : e.Laid) (hsize : e.lineSize = 2 ^ k)
    (hend : ∀ b ∈ e.blocks, b.line.toNat + e.lineSize < 2 ^ 64) {j : Nat}
    (hj : j ≤ e.blocks.length) : (e.addr.toNat / 2 ^ k + j) * 2 ^ k < 2 ^ 64 := by
  induction j with
  | zero => exact Nat.lt_of_le_of_lt (Nat.div_mul_le_self _ _) e.addr.toNat_lt
  | succ j ih =>
      have hlt := ih (by omega)
      have hblock : e.blocks[j]? = some e.blocks[j] := List.getElem?_eq_getElem (by omega)
      have hline := h.line_eq j _ hblock
      have hroom := hend _ (List.mem_of_getElem? hblock)
      rw [hline, hsize, toNat_lineStart hlt] at hroom
      rw [← Nat.add_assoc, Nat.succ_mul]
      exact hroom

/-- Once an element is value ready without faults, all of its blocks are ready. -/
theorem Loaded.all_ready (h : e.Loaded M failed) (hready : e.valueReady = true)
    (hclean : e.isFaulted = false) : ∀ b ∈ e.blocks, b.state = .ready := by
  intro b hb
  have hsettled := List.all_eq_true.1 (h.settled hready).2 b hb
  have hnot := List.any_eq_false.1 hclean b hb
  cases hcase : b.state with
  | ready => rfl
  | faulted =>
      rw [hcase] at hnot
      exact absurd rfl hnot
  | none | initialized | issued | prevElement =>
      rw [hcase] at hsettled
      cases hsettled

theorem Laid.toNat_line (h : e.Laid) (hsize : e.lineSize = 2 ^ k)
    (hend : ∀ b ∈ e.blocks, b.line.toNat + e.lineSize < 2 ^ 64) {j : Nat} {b : Block}
    (hb : e.blocks[j]? = some b) : b.line.toNat = (e.addr.toNat / 2 ^ k + j) * 2 ^ k := by
  have hlt := (List.getElem?_eq_some_iff.1 hb).1
  rw [h.line_eq j b hb, hsize, toNat_lineStart (h.mul_lt_of_ready hsize hend (Nat.le_of_lt hlt))]

/-- Byte `t` of block `j` has its place in the buffer and its address. -/
theorem Loaded.buffer_eq (h : e.Loaded M failed) (hlaid : e.Laid) (hk : k < 64)
    (hsize : e.lineSize = 2 ^ k) (hready : ∀ b ∈ e.blocks, b.state = .ready) {j t : Nat}
    (hj : j < e.blocks.length) (ht : t < 2 ^ k) {addr : UInt64}
    (haddr : addr.toNat = (e.addr.toNat / 2 ^ k + j) * 2 ^ k + t) :
    e.buffer[j * 2 ^ k + t]? = some (memoryByte M e.lineSize addr) := by
  have hpos : 0 < 2 ^ k := Nat.two_pow_pos k
  have hend : ∀ b ∈ e.blocks, b.line.toNat + e.lineSize < 2 ^ 64 :=
    fun b hb => (h.ready b hb (hready b hb)).1
  have hblock : e.blocks[j]? = some e.blocks[j] := List.getElem?_eq_getElem hj
  have hmem := List.mem_of_getElem? hblock
  have hread := (h.ready _ hmem (hready _ hmem)).2
  rcases getValue_eq_ok.1 hread with ⟨first, hfirst, _, hroom, hbytes⟩
  have hfirstLine : first.line.toNat = e.addr.toNat / 2 ^ k * 2 ^ k := by
    rw [hlaid.toNat_line hsize hend (List.head?_eq_getElem? ▸ hfirst), Nat.add_zero]
  have hline := hlaid.toNat_line hsize hend hblock
  have hoff : (e.blocks[j]).line.toNat - first.line.toNat = j * 2 ^ k := by
    rw [hline, hfirstLine, Nat.add_mul, Nat.add_sub_cancel_left]
  -- the address gives back the line and the place in it
  have hnumber : addr.toNat / 2 ^ k = e.addr.toNat / 2 ^ k + j := by
    rw [haddr, Nat.add_comm, Nat.add_mul_div_right _ _ hpos, Nat.div_eq_of_lt ht, Nat.zero_add]
  have hmod : addr.toNat % 2 ^ k = t := by
    rw [haddr, Nat.add_comm, Nat.add_mul_mod_self_right, Nat.mod_eq_of_lt ht]
  have hlineOf : lineOf e.lineSize addr = (e.blocks[j]).line := by
    rw [hsize, lineOf_eq hk, hnumber, hlaid.line_eq j _ hblock, hsize]
  rw [hoff, hsize] at hroom
  have hinside : j * 2 ^ k + t < e.buffer.length := by omega
  rw [memoryByte, hlineOf, hbytes, hoff, hsize, hmod, List.getD_eq_getElem?_getD,
    List.getElem?_take_of_lt ht, List.getElem?_drop, List.getElem?_eq_getElem hinside]
  rfl

theorem Loaded.getValue_eq (h : e.Loaded M failed) (hlaid : e.Laid) (hk : k < 64)
    (hsize : e.lineSize = 2 ^ k) (hready : e.valueReady = true)
    (hclean : e.isFaulted = false) :
    e.getValue e.addr e.size = .ok (memoryBytes M e.lineSize e.addr e.size) := by
  have hall := h.all_ready hready hclean
  have hne := (h.settled hready).1
  have hend : ∀ b ∈ e.blocks, b.line.toNat + e.lineSize < 2 ^ 64 :=
    fun b hb => (h.ready b hb (hall b hb)).1
  have hpos : 0 < 2 ^ k := Nat.two_pow_pos k
  have hbound := hlaid.mul_lt_of_ready hsize hend (Nat.le_refl _)
  have hcovers := hlaid.covers hne
  have hroom := hlaid.room
  have hdiv := Nat.div_add_mod' e.addr.toNat (2 ^ k)
  rw [hsize] at hcovers hroom
  rw [Nat.add_mul] at hbound
  have hlength : 0 < e.blocks.length := List.length_pos_iff.2 hne
  have hfirst : e.blocks.head? = some e.blocks[0] := by
    rw [List.head?_eq_getElem?, List.getElem?_eq_getElem hlength]
  have hfirstLine := hlaid.toNat_line hsize hend (List.getElem?_eq_getElem hlength)
  rw [Nat.add_zero] at hfirstLine
  refine getValue_eq_ok.2 ⟨_, hfirst, ?_, ?_, ?_⟩
  · rw [UInt64.le_iff_toNat_le]
    omega
  · omega
  apply List.ext_getElem?
  intro i
  rw [memoryBytes, List.getElem?_map, List.getElem?_take]
  by_cases hi : i < e.size
  · rw [if_pos hi, List.getElem?_range hi, Option.map_some, List.getElem?_drop]
    -- byte `i` lies at place `t` of block `j`
    let place := e.addr.toNat % 2 ^ k + i
    let j := place / 2 ^ k
    let t := place % 2 ^ k
    have hplace : j * 2 ^ k + t = place := Nat.div_add_mod' place (2 ^ k)
    have ht : t < 2 ^ k := Nat.mod_lt place hpos
    have hj : j < e.blocks.length := (Nat.div_lt_iff_lt_mul hpos).2 (by omega)
    have haddr : (e.addr + UInt64.ofNat i).toNat = (e.addr.toNat / 2 ^ k + j) * 2 ^ k + t := by
      rw [UInt64.toNat_add, toNat_ofNat_of_lt (by omega), Nat.add_mul]
      omega
    have hindex : e.addr.toNat - (e.blocks[0]).line.toNat + i = j * 2 ^ k + t := by omega
    rw [hindex]
    exact (h.buffer_eq hlaid hk hsize hall hj ht haddr).symm
  · rw [if_neg hi, List.getElem?_eq_none (by rw [List.length_range]; omega)]
    rfl

end Element
end StreamEngine
