import Mathlib.Algebra.GroupWithZero.Nat
import Mathlib.Data.Finset.Card
import StreamEngine.Proofs.Element.Layout

/-!
# The blocks of an address range

An address range is cut at the ends of cache lines. The cut succeeds if the range touches no more lines
than an element has room for, and then there is one block for each line.

- `touchedLines`, `card_touchedLines` : the lines of a range, and how many they are;
- `exists_blocksFrom` : when there is room for all blocks;
- `Cut`, `cut_of_blocksFrom` : blocks that follow each other, each in its line;
- `Tiles`, `tiles_of_blocksFrom` : the blocks of a range;
- `Element.Spans`, `Laid.blockIndex_eq` : bytes in the lines of the blocks, and the block they begin in;
- `Element.splitting_exact` : splitting an address range, and what it means for the buffer.
-/

namespace StreamEngine

variable {k line start left room size i : Nat} {addr : UInt64} {blocks : List Block} {b : Block}

/-! ## The lines of a range -/

/-- The lines that the `size` bytes from `addr` on touch. -/
def touchedLines (line : Nat) (addr : UInt64) (size : Nat) : Finset UInt64 :=
  (Finset.range size).image fun i => lineOf line (addr + UInt64.ofNat i)

/-- Number of lines from that of the first byte to that of the last one. -/
def lineCount (line : Nat) (addr : UInt64) (size : Nat) : Nat :=
  (addr.toNat % line + (size - 1)) / line + 1

theorem lineCount_le_iff (hline : 0 < line) (hsize : 0 < size) :
    lineCount line addr size ≤ room ↔ addr.toNat % line + size ≤ room * line := by
  rw [lineCount, Nat.succ_le_iff, Nat.div_lt_iff_lt_mul hline]
  omega

/-- Every line that is counted begins before the range ends. -/
theorem mul_lt_of_lt_lineCount (hsize : 0 < size) (hend : addr.toNat + size ≤ 2 ^ 64)
    (hi : i < lineCount line addr size) : (addr.toNat / line + i) * line < 2 ^ 64 := by
  have hdiv := Nat.div_add_mod' addr.toNat line
  have hlast : i * line ≤ addr.toNat % line + (size - 1) :=
    (Nat.mul_le_mul_right line (Nat.lt_succ_iff.1 hi)).trans (Nat.div_mul_le_self _ _)
  rw [Nat.add_mul]
  omega

/-- The lines of a range are numbered one after the other. -/
theorem touchedLines_eq (hk : k < 64) (hsize : 0 < size) (hend : addr.toNat + size ≤ 2 ^ 64) :
    touchedLines (2 ^ k) addr size = (Finset.range (lineCount (2 ^ k) addr size)).image fun j =>
      lineStart (2 ^ k) (addr.toNat / 2 ^ k + j) := by
  have hpos : 0 < 2 ^ k := Nat.two_pow_pos k
  have hdiv := Nat.div_add_mod' addr.toNat (2 ^ k)
  have hmod := Nat.mod_lt addr.toNat hpos
  -- the line of byte `i`, counted from that of the address
  have hbyte : ∀ i < size, lineOf (2 ^ k) (addr + UInt64.ofNat i) =
      lineStart (2 ^ k) (addr.toNat / 2 ^ k + (addr.toNat % 2 ^ k + i) / 2 ^ k) := by
    intro i hi
    have hnat : (addr + UInt64.ofNat i).toNat =
        addr.toNat % 2 ^ k + i + addr.toNat / 2 ^ k * 2 ^ k := by
      rw [toNat_add_ofNat_of_lt (by omega)]
      omega
    rw [lineOf_eq hk, hnat, Nat.add_mul_div_right _ _ hpos, Nat.add_comm]
  ext v
  simp only [touchedLines, Finset.mem_image, Finset.mem_range]
  constructor
  · rintro ⟨i, hi, rfl⟩
    refine ⟨_, ?_, (hbyte i hi).symm⟩
    exact Nat.lt_succ_of_le (Nat.div_le_div_right (by omega))
  · rintro ⟨j, hj, rfl⟩
    have hlast : j * 2 ^ k ≤ addr.toNat % 2 ^ k + (size - 1) :=
      (Nat.mul_le_mul_right _ (Nat.lt_succ_iff.1 hj)).trans (Nat.div_mul_le_self _ _)
    refine ⟨j * 2 ^ k - addr.toNat % 2 ^ k, by omega, ?_⟩
    rw [hbyte _ (by omega)]
    congr 2
    -- the first byte of a later line, or the address itself
    cases j with
    | zero => rw [Nat.zero_mul, Nat.zero_sub, Nat.add_zero, Nat.div_eq_of_lt hmod]
    | succ j =>
        rw [Nat.succ_mul] at hlast ⊢
        have hback : addr.toNat % 2 ^ k + (j * 2 ^ k + 2 ^ k - addr.toNat % 2 ^ k) =
            (j + 1) * 2 ^ k := by
          rw [Nat.succ_mul]
          omega
        rw [hback, Nat.mul_div_cancel _ hpos]

/-- Lines that are counted apart are different lines. -/
theorem eq_of_lineStart_eq {j : Nat} (hsize : 0 < size) (hend : addr.toNat + size ≤ 2 ^ 64)
    (hi : i < lineCount (2 ^ k) addr size) (hj : j < lineCount (2 ^ k) addr size)
    (h : lineStart (2 ^ k) (addr.toNat / 2 ^ k + i) = lineStart (2 ^ k) (addr.toNat / 2 ^ k + j)) :
    i = j :=
  Nat.add_left_cancel (lineStart_inj (Nat.two_pow_pos k) (mul_lt_of_lt_lineCount hsize hend hi)
    (mul_lt_of_lt_lineCount hsize hend hj) h)

theorem card_touchedLines (hk : k < 64) (hsize : 0 < size) (hend : addr.toNat + size ≤ 2 ^ 64) :
    (touchedLines (2 ^ k) addr size).card = lineCount (2 ^ k) addr size := by
  rw [touchedLines_eq hk hsize hend, Finset.card_image_of_injOn, Finset.card_range]
  intro i hi j hj hij
  rw [Finset.coe_range] at hi hj
  exact eq_of_lineStart_eq hsize hend hi hj hij

/-! ## Room for the blocks -/

/-- There is room for all blocks if the range ends within that many lines. -/
theorem exists_blocksFrom (hk : k < 64) :
    (∃ blocks, blocksFrom (2 ^ k) addr left room = some blocks) ↔
      left = 0 ∨ addr.toNat % 2 ^ k + left ≤ room * 2 ^ k := by
  induction room generalizing addr left with
  | zero =>
      rw [blocksFrom]
      by_cases hleft : left = 0
      · rw [if_pos hleft]
        exact iff_of_true ⟨[], rfl⟩ (Or.inl hleft)
      · rw [if_neg hleft]
        refine iff_of_false ?_ (by omega)
        rintro ⟨blocks, hblocks⟩
        cases hblocks
  | succ room ih =>
      rw [blocksFrom]
      by_cases hleft : left = 0
      · rw [if_pos hleft]
        exact iff_of_true ⟨[], rfl⟩ (Or.inl hleft)
      · have hmod := Nat.mod_lt addr.toNat (Nat.two_pow_pos k)
        rw [if_neg hleft, ← Option.isSome_iff_exists, Option.isSome_map, Option.isSome_iff_exists, ih,
          Nat.succ_mul]
        by_cases hlast : left ≤ 2 ^ k - addr.toNat % 2 ^ k
        · -- the range ends with this line
          rw [Nat.min_eq_left hlast, Nat.sub_self]
          omega
        · rw [Nat.min_eq_right (by omega), mod_add_rest hk]
          omega

/-! ## Blocks one after the other -/

/-- Blocks that follow each other from `start` on, each inside its line, `left` bytes in all. -/
inductive Cut (line : Nat) : Nat → Nat → List Block → Prop where
  | nil (start : Nat) : Cut line start 0 []
  | cons {start left : Nat} {b : Block} {rest : List Block} (vaddr_eq : b.vaddr.toNat = start)
      (line_eq : b.line = lineOf line b.vaddr) (size_pos : 0 < b.size) (size_le : b.size ≤ left)
      (within : start % line + b.size ≤ line)
      (tail : Cut line (start + b.size) (left - b.size) rest) : Cut line start left (b :: rest)

theorem cut_of_blocksFrom (hend : addr.toNat + left ≤ 2 ^ 64)
    (h : blocksFrom (2 ^ k) addr left room = some blocks) :
    Cut (2 ^ k) addr.toNat left blocks := by
  induction blocks generalizing addr left room with
  | nil =>
      rw [left_of_blocksFrom_nil h]
      exact Cut.nil _
  | cons b rest ih =>
      rcases blocksFrom_cons h with ⟨hleft, rfl, room', hrest⟩
      have hmod := Nat.mod_lt addr.toNat (Nat.two_pow_pos k)
      have hleast := Nat.min_le_left left (2 ^ k - addr.toNat % 2 ^ k)
      have hroom := Nat.min_le_right left (2 ^ k - addr.toNat % 2 ^ k)
      have hsize : 0 < min left (2 ^ k - addr.toNat % 2 ^ k) := by omega
      generalize min left (2 ^ k - addr.toNat % 2 ^ k) = size at hrest hleast hroom hsize ⊢
      have hwithin : addr.toNat % 2 ^ k + size ≤ 2 ^ k := by omega
      refine Cut.cons rfl rfl hsize hleast hwithin ?_
      cases rest with
      | nil =>
          rw [left_of_blocksFrom_nil hrest]
          exact Cut.nil _
      | cons b' rest =>
          -- only a block at the end of memory has no address behind it, and that one is the last
          have hlast := (blocksFrom_cons hrest).1
          have hnext : (addr + UInt64.ofNat size).toNat = addr.toNat + size :=
            toNat_add_ofNat_of_lt (by omega)
          have hbelow : (addr + UInt64.ofNat size).toNat + (left - size) ≤ 2 ^ 64 := by omega
          rw [← hnext]
          exact ih hbelow hrest

namespace Cut

theorem sum_size (h : Cut line start left blocks) : (blocks.map Block.size).sum = left := by
  induction h with
  | nil start => rfl
  | cons _ _ _ hle _ _ ih => rw [List.map_cons, List.sum_cons, ih, Nat.add_sub_cancel' hle]

theorem vaddr_eq_start {rest : List Block} (h : Cut line start left (b :: rest)) :
    b.vaddr.toNat = start := by
  cases h with
  | cons hvaddr => exact hvaddr

theorem abuts (h : Cut line start left blocks) :
    blocks.IsChain fun b b' => b'.vaddr.toNat = b.vaddr.toNat + b.size := by
  induction h with
  | nil start => exact List.IsChain.nil
  | @cons start left b rest hvaddr _ _ _ _ htail ih =>
      cases rest with
      | nil => exact List.IsChain.singleton _
      | cons b' rest =>
          refine List.isChain_cons_cons.2 ⟨?_, ih⟩
          rw [htail.vaddr_eq_start, hvaddr]

theorem within (hk : k < 64) (h : Cut (2 ^ k) start left blocks) (hb : b ∈ blocks) :
    b.line ≤ b.vaddr ∧ 0 < b.size ∧ b.vaddr.toNat + b.size ≤ b.line.toNat + 2 ^ k := by
  induction h with
  | nil start => cases hb
  | @cons start left b' rest hvaddr hline hpos _ hwithin _ ih =>
      rcases List.mem_cons.1 hb with rfl | hb
      · have hdiv := Nat.div_add_mod' b.vaddr.toNat (2 ^ k)
        rw [hline, UInt64.le_iff_toNat_le, toNat_lineOf hk]
        rw [← hvaddr] at hwithin
        omega
      · exact ih hb

end Cut

/-! ## The blocks of a range -/

/-- The blocks cut the `size` bytes from `addr` on, one new block for each line. -/
structure Tiles (line : Nat) (addr : UInt64) (size : Nat) (blocks : List Block) : Prop where
  line_eq : ∀ i b, blocks[i]? = some b → b.line = lineOf line addr + UInt64.ofNat (i * line)
  within : ∀ b ∈ blocks,
    b.line ≤ b.vaddr ∧ 0 < b.size ∧ b.vaddr.toNat + b.size ≤ b.line.toNat + line
  first : ∃ b, blocks.head? = some b ∧ b.vaddr = addr
  abuts : blocks.IsChain fun b b' => b'.vaddr.toNat = b.vaddr.toNat + b.size
  sum_size : (blocks.map Block.size).sum = size
  lines_nodup : (blocks.map Block.line).Nodup
  lines_eq : (blocks.map Block.line).toFinset = touchedLines line addr size
  fresh : ∀ b ∈ blocks, b.access = none ∧ b.state = .initialized

theorem length_blocksFrom (hk : k < 64) (hne : blocks ≠ [])
    (h : blocksFrom (2 ^ k) addr size room = some blocks) :
    blocks.length = lineCount (2 ^ k) addr size := by
  rcases blocksFrom_tight hk h hne with ⟨hsize, htight⟩
  have hpos : 0 < 2 ^ k := Nat.two_pow_pos k
  have hle := (lineCount_le_iff hpos hsize).2 (blocksFrom_covers h hne)
  have hnot : ¬ lineCount (2 ^ k) addr size ≤ blocks.length - 1 := by
    rw [lineCount_le_iff hpos hsize]
    omega
  omega

theorem lines_blocksFrom (hk : k < 64) (h : blocksFrom (2 ^ k) addr size room = some blocks) :
    blocks.map Block.line = (List.range blocks.length).map fun j =>
      lineStart (2 ^ k) (addr.toNat / 2 ^ k + j) := by
  apply List.ext_getElem?
  intro j
  rw [List.getElem?_map, List.getElem?_map]
  cases hj : blocks[j]? with
  | none =>
      rw [List.getElem?_eq_none_iff] at hj
      rw [List.getElem?_eq_none (by rwa [List.length_range])]
      rfl
  | some b =>
      rw [List.getElem?_range (List.getElem?_eq_some_iff.1 hj).1, Option.map_some, Option.map_some,
        blocksFrom_line hk h hj]

theorem tiles_of_blocksFrom (hk : k < 64) (hsize : 0 < size) (hend : addr.toNat + size ≤ 2 ^ 64)
    (h : blocksFrom (2 ^ k) addr size room = some blocks) : Tiles (2 ^ k) addr size blocks := by
  have hcut := cut_of_blocksFrom hend h
  have hne : blocks ≠ [] := by
    rintro rfl
    exact absurd (left_of_blocksFrom_nil h) (Nat.ne_of_gt hsize)
  have hlines := lines_blocksFrom hk h
  rw [length_blocksFrom hk hne h] at hlines
  refine ⟨?_, fun b hb => hcut.within hk hb, ?_, hcut.abuts, hcut.sum_size, ?_, ?_,
    mem_of_blocksFrom h⟩
  · intro i b hb
    rw [blocksFrom_line hk h hb, lineOf_eq hk, lineStart_add]
  · cases blocks with
    | nil => exact absurd rfl hne
    | cons b rest => exact ⟨b, rfl, UInt64.toNat_inj.1 hcut.vaddr_eq_start⟩
  · rw [hlines]
    refine List.Nodup.map_on (fun i hi j hj hij => ?_) List.nodup_range
    exact eq_of_lineStart_eq hsize hend (List.mem_range.1 hi) (List.mem_range.1 hj) hij
  · rw [hlines, touchedLines_eq hk hsize hend]
    ext v
    simp only [List.mem_toFinset, List.mem_map, List.mem_range, Finset.mem_image, Finset.mem_range]

namespace Element

variable {e e' : Element} {n j bytes : Nat} {vaddr : UInt64}

/-! ## Places in the buffer -/

/-- The `n` bytes from `vaddr` on lie in the first `bytes` bytes, counted from the line of the first
block. -/
def Spans (e : Element) (bytes : Nat) (vaddr : UInt64) (n : Nat) : Prop :=
  ∃ first, e.blocks.head? = some first ∧ first.line ≤ vaddr ∧
    vaddr.toNat + n ≤ first.line.toNat + bytes

/-- Bytes have a place if the buffer reaches that far. -/
theorem exists_valueOffset_iff :
    (∃ offset, e.valueOffset vaddr n = .ok offset) ↔ e.Spans e.buffer.length vaddr n := by
  simp only [valueOffset_eq_ok]
  constructor
  · rintro ⟨offset, first, hfirst, hle, rfl, hroom⟩
    rw [UInt64.le_iff_toNat_le] at hle
    exact ⟨first, hfirst, hle, by omega⟩
  · rintro ⟨first, hfirst, hle, hroom⟩
    rw [UInt64.le_iff_toNat_le] at hle
    exact ⟨_, first, hfirst, hle, rfl, by omega⟩

theorem Spans.mono {most m : Nat} (h : e.Spans bytes vaddr n) (hle : bytes ≤ most) (hm : m ≤ n) :
    e.Spans most vaddr m := by
  rcases h with ⟨first, hfirst, hlow, hend⟩
  exact ⟨first, hfirst, hlow, by omega⟩

/-- Bytes in the lines of the blocks have their place behind the beginning of the first line. -/
theorem Laid.valueOffset_of_spans (h : e.Laid)
    (hspan : e.Spans (e.blocks.length * e.lineSize) vaddr n) :
    ∃ offset, e.valueOffset vaddr n = .ok offset ∧
      e.addr.toNat / e.lineSize * e.lineSize + offset = vaddr.toNat ∧
      offset + n ≤ e.buffer.length := by
  rcases exists_valueOffset_iff.2 (hspan.mono h.room (Nat.le_refl n)) with ⟨offset, hoffset⟩
  rcases valueOffset_eq_ok.1 hoffset with ⟨first, hfirst, hle, rfl, hroom⟩
  rw [UInt64.le_iff_toNat_le] at hle
  refine ⟨_, hoffset, ?_, hroom⟩
  rw [← h.first_line hfirst]
  exact Nat.add_sub_cancel' hle

/-- Bytes that begin in a line of the blocks are looked up in the block of this line. -/
theorem Laid.blockIndex_eq (h : e.Laid) (hk : k < 64) (hline : e.lineSize = 2 ^ k)
    (hspan : e.Spans (e.blocks.length * e.lineSize) vaddr 1) (hj : e.blockIndex vaddr n = .ok j) :
    ∃ b, e.blocks[j]? = some b ∧ b.line = lineOf e.lineSize vaddr := by
  have hpos : 0 < 2 ^ k := Nat.two_pow_pos k
  rcases bind_eq_ok.1 hj with ⟨offset, hoffset, hindex⟩
  cases hindex
  rcases valueOffset_eq_ok.1 hoffset with ⟨first, hfirst, hle, rfl, -⟩
  rcases hspan with ⟨first', hfirst', -, hend⟩
  cases (hfirst.symm.trans hfirst')
  have hstart := h.first_line hfirst
  rw [UInt64.le_iff_toNat_le] at hle
  rw [hline] at hstart hend ⊢
  -- as many lines behind the first block as the index says
  have hindex : (vaddr.toNat - first.line.toNat) / 2 ^ k = vaddr.toNat / 2 ^ k - e.addr.toNat / 2 ^ k := by
    rw [hstart, Nat.mul_comm, Nat.sub_mul_div]
  have hlow : e.addr.toNat / 2 ^ k ≤ vaddr.toNat / 2 ^ k := (Nat.le_div_iff_mul_le hpos).2 (hstart ▸ hle)
  have hlt : (vaddr.toNat - first.line.toNat) / 2 ^ k < e.blocks.length :=
    (Nat.div_lt_iff_lt_mul hpos).2 (by omega)
  refine ⟨_, List.getElem?_eq_getElem hlt, ?_⟩
  rw [h.line_eq _ _ (List.getElem?_eq_getElem hlt), hline, lineOf_eq hk, hindex, Nat.add_sub_cancel' hlow]

theorem Laid.exists_blockIndex (h : e.Laid) (hk : k < 64) (hline : e.lineSize = 2 ^ k)
    (hspan : e.Spans (e.blocks.length * e.lineSize) vaddr (max n 1)) :
    ∃ j b, e.blockIndex vaddr n = .ok j ∧ e.blocks[j]? = some b ∧ b.line = lineOf e.lineSize vaddr := by
  have hbytes := hspan.mono (Nat.le_refl _) (Nat.le_max_left n 1)
  have hfirst := hspan.mono (Nat.le_refl _) (Nat.le_max_right n 1)
  rcases h.valueOffset_of_spans hbytes with ⟨offset, hoffset, -⟩
  have hindex : e.blockIndex vaddr n = .ok (offset / e.lineSize) := bind_eq_ok.2 ⟨offset, hoffset, rfl⟩
  rcases h.blockIndex_eq hk hline hfirst hindex with ⟨b, hb, hsame⟩
  exact ⟨_, b, hindex, hb, hsame⟩

/-! ## Splitting an address range -/

section Covering

variable (hpos : 0 < e.lineSize) (hword : addr.toNat % e.lineSize + e.size < 2 ^ 64)

include hpos hword

theorem coveringBlocks_eq {policy : OverflowPolicy} :
    e.coveringBlocks addr policy =
      match blocksFrom e.lineSize addr e.size maxBlocks with
      | some blocks => .ok blocks
      | none => .error (policy.overflow (.cacheBlocks e.label addr e.size)) := by
  refine if_neg ?_
  rintro (hzero | hend)
  · exact Nat.ne_of_gt hpos hzero.1
  · exact Nat.not_lt.2 hend hword

theorem coveringBlocks_eq_ok {policy : OverflowPolicy} :
    e.coveringBlocks addr policy = .ok blocks ↔
      blocksFrom e.lineSize addr e.size maxBlocks = some blocks := by
  refine ⟨blocksFrom_of_coveringBlocks, fun hblocks => ?_⟩
  rw [coveringBlocks_eq hpos hword, hblocks]

theorem coveringBlocks_eq_refused (h : ¬ ∃ blocks, e.coveringBlocks addr .report = .ok blocks) :
    e.coveringBlocks addr .report = .error (.refused (.cacheBlocks e.label addr e.size)) := by
  simp only [coveringBlocks_eq_ok hpos hword] at h
  rw [coveringBlocks_eq hpos hword]
  cases hblocks : blocksFrom e.lineSize addr e.size maxBlocks with
  | none => rfl
  | some blocks => exact absurd ⟨blocks, hblocks⟩ h

end Covering

theorem exists_coveringBlocks (hk : k < 64) (hline : e.lineSize = 2 ^ k) (hsize : 0 < e.size)
    (hend : addr.toNat + e.size ≤ 2 ^ 64) (hword : addr.toNat % e.lineSize + e.size < 2 ^ 64) :
    (∃ blocks, e.coveringBlocks addr .report = .ok blocks) ↔
      (touchedLines e.lineSize addr e.size).card ≤ maxBlocks := by
  have hpos : 0 < 2 ^ k := Nat.two_pow_pos k
  simp only [coveringBlocks_eq_ok (hline ▸ hpos) hword]
  rw [hline, exists_blocksFrom hk, card_touchedLines hk hsize hend, lineCount_le_iff hpos hsize]
  exact or_iff_right (Nat.ne_of_gt hsize)

/-- An address range that does not wrap is split if it touches no more lines than an element has room for.
Its blocks then cut the range, one for each line, and in an element that got them as its address the bytes
of these lines have their places in the buffer and are looked up in the block of their line. Only a range
from the first line of memory to the end of it is too long to count, and is a fault. -/
theorem splitting_exact (hk : k < 64) (hline : e.lineSize = 2 ^ k) (hsize : 0 < e.size) :
    (∀ addr : UInt64, addr.toNat + e.size ≤ 2 ^ 64 →
      (addr.toNat % e.lineSize + e.size < 2 ^ 64 →
        ((∃ blocks, e.coveringBlocks addr .report = .ok blocks) ↔
          (touchedLines e.lineSize addr e.size).card ≤ maxBlocks) ∧
        (maxBlocks < (touchedLines e.lineSize addr e.size).card →
          e.coveringBlocks addr .report = .error (.refused (.cacheBlocks e.label addr e.size))) ∧
        ∀ blocks, e.coveringBlocks addr .report = .ok blocks → Tiles e.lineSize addr e.size blocks) ∧
      (2 ^ 64 ≤ addr.toNat % e.lineSize + e.size →
        addr.toNat < e.lineSize ∧ addr.toNat + e.size = 2 ^ 64 ∧
          e.coveringBlocks addr .report = .error (.fault .arithmetic))) ∧
    ∀ addr policy e', e.markAddrReady addr policy = .ok e' → e'.addr.toNat + e.size ≤ 2 ^ 64 →
      Tiles e.lineSize e'.addr e.size e'.blocks ∧
      (∀ vaddr n, e'.Spans (e'.blocks.length * e.lineSize) vaddr n →
        ∃ offset, e'.valueOffset vaddr n = .ok offset ∧
          (lineOf e.lineSize e'.addr).toNat + offset = vaddr.toNat ∧
          offset + n ≤ e'.buffer.length) ∧
      ∀ vaddr n, e'.Spans (e'.blocks.length * e.lineSize) vaddr (max n 1) →
        ∃ j b, e'.blockIndex vaddr n = .ok j ∧ e'.blocks[j]? = some b ∧
          b.line = lineOf e.lineSize vaddr := by
  have hpos : 0 < e.lineSize := hline ▸ Nat.two_pow_pos k
  refine ⟨fun addr hend => ⟨fun hword => ?_, fun hlong => ?_⟩, fun addr policy e' hmark hend => ?_⟩
  · have hiff := exists_coveringBlocks hk hline hsize hend hword
    refine ⟨hiff, fun hmany => ?_, fun blocks hblocks => ?_⟩
    · exact coveringBlocks_eq_refused hpos hword fun h => Nat.not_le.2 hmany (hiff.1 h)
    · have hblocks := blocksFrom_of_coveringBlocks hblocks
      rw [hline] at hblocks ⊢
      exact tiles_of_blocksFrom hk hsize hend hblocks
  · have hle := Nat.mod_le addr.toNat e.lineSize
    have hlt := Nat.mod_lt addr.toNat hpos
    exact ⟨by omega, by omega, if_pos (Or.inr hlong)⟩
  · have hlaid := laid_markAddrReady hk hline hmark
    rcases markAddrReady_eq_ok hmark with ⟨_, start, blocks, hblocks, rfl⟩
    refine ⟨?_, fun vaddr n hspan => ?_, fun vaddr n hspan => ?_⟩
    · rw [hline] at hblocks ⊢
      exact tiles_of_blocksFrom hk hsize hend hblocks
    · rw [hline, toNat_lineOf hk, ← hline]
      exact hlaid.valueOffset_of_spans hspan
    · exact hlaid.exists_blockIndex hk hline hspan

/-- An element of 150 bytes. -/
def ragged : Element :=
  { stream := { core := 0, staticId := 1, instanceNo := 1 }, config := { val := 0 }, idx := 0,
    size := 150, isMem := true, lineSize := 64 }

/-- From the last bytes of one line to the first ones of the third line behind it. -/
theorem splitting_exact_ragged :
    (touchedLines 64 0x103c 150).card ≤ maxBlocks ∧
      ∃ blocks, ragged.coveringBlocks 0x103c .report = .ok blocks ∧
        blocks.map Block.size = [4, 64, 64, 18] ∧ Tiles 64 0x103c 150 blocks ∧
        ∃ e', ragged.markAddrReady 0x103c .report = .ok e' ∧
          ∃ j b, e'.blockIndex 0x10c8 8 = .ok j ∧ e'.blocks[j]? = some b ∧ b.line = 0x10c0 := by
  have hexact := splitting_exact (e := ragged) (k := 6) (by decide) rfl (by decide)
  rcases (hexact.1 0x103c (by decide)).1 (by decide) with ⟨hiff, -, htiles⟩
  have hblocks : ragged.coveringBlocks 0x103c .report = .ok _ := rfl
  have hmark : ragged.markAddrReady 0x103c .report = .ok _ := rfl
  rcases hexact.2 0x103c .report _ hmark (by decide) with ⟨-, -, hindex⟩
  refine ⟨hiff.1 ⟨_, hblocks⟩, _, hblocks, rfl, htiles _ hblocks, _, hmark, ?_⟩
  exact hindex 0x10c8 8 ⟨_, rfl, by decide, by decide⟩

end Element
end StreamEngine
