import StreamEngine.Element.Progress
import StreamEngine.Proofs.CacheLines
import StreamEngine.Proofs.Outcome

/-!
# Blocks and the buffer

The blocks of an element lie on consecutive lines, and the buffer has room for all of them. Behind the
last line of memory the lines start again at address 0.

- `blocksFrom_cons` : the first block of a range, and those of what is left;
- `blocksFrom_line`, `blocksFrom_covers` : the lines of the blocks that an address is split into;
- `blocksFrom_tight` : they end with the range;
- `Element.Laid` : blocks on consecutive lines, with room for them in the buffer;
- `getValue_eq_ok` : what a read of the buffer gives.
-/

namespace StreamEngine

variable {k : Nat}

/-- Beginning of the line behind that of an address. -/
theorem toNat_add_rest (hk : k < 64) (addr : UInt64) :
    (addr + UInt64.ofNat (2 ^ k - addr.toNat % 2 ^ k)).toNat =
      (addr.toNat / 2 ^ k + 1) * 2 ^ k % 2 ^ 64 := by
  have hpos : 0 < 2 ^ k := Nat.two_pow_pos k
  have hsize : 2 ^ k < 2 ^ 64 := Nat.pow_lt_pow_right (by omega) hk
  have hmod := Nat.mod_lt addr.toNat hpos
  have hdiv := Nat.div_add_mod' addr.toNat (2 ^ k)
  rw [UInt64.toNat_add, toNat_ofNat_of_lt (by omega), Nat.succ_mul]
  congr 1
  omega

theorem two_pow_dvd (hk : k < 64) : 2 ^ k ∣ 2 ^ 64 :=
  Nat.pow_dvd_pow 2 (by omega)

theorem mod_add_rest (hk : k < 64) (addr : UInt64) :
    (addr + UInt64.ofNat (2 ^ k - addr.toNat % 2 ^ k)).toNat % 2 ^ k = 0 := by
  rw [toNat_add_rest hk, Nat.mod_mod_of_dvd _ (two_pow_dvd hk), Nat.mul_mod_left]

/-- Line numbers count on from the line of an address, also behind the end of memory. -/
theorem lineStart_of_mod (hk : k < 64) {addr : UInt64} {n j : Nat}
    (h : addr.toNat = n * 2 ^ k % 2 ^ 64) :
    lineStart (2 ^ k) (addr.toNat / 2 ^ k + j) = lineStart (2 ^ k) (n + j) := by
  have hpos : 0 < 2 ^ k := Nat.two_pow_pos k
  have hdvd : 2 ^ k ∣ addr.toNat := by
    rw [h]
    exact (Nat.dvd_mod_iff (two_pow_dvd hk)).2 (Nat.dvd_mul_left _ _)
  apply UInt64.toNat_inj.1
  rw [lineStart, lineStart, UInt64.toNat_ofNat', UInt64.toNat_ofNat', Nat.add_mul, Nat.add_mul,
    Nat.div_mul_cancel hdvd, h, Nat.mod_add_mod]

/-! ## Splitting an address range -/

theorem left_of_blocksFrom_nil {line left room : Nat} {addr : UInt64}
    (h : blocksFrom line addr left room = some []) : left = 0 := by
  by_contra hne
  cases room with
  | zero =>
      rw [blocksFrom, if_neg hne] at h
      cases h
  | succ room =>
      rw [blocksFrom, if_neg hne] at h
      rcases Option.map_eq_some_iff.1 h with ⟨rest, _, hrest⟩
      cases hrest

/-- The first block ends with its line or with the range, and the others are those of what is left. -/
theorem blocksFrom_cons {line left room : Nat} {addr : UInt64} {b : Block} {rest : List Block}
    (h : blocksFrom line addr left room = some (b :: rest)) :
    left ≠ 0 ∧ b = { line := lineOf line addr, vaddr := addr, size := min left (line - addr.toNat % line) } ∧
      ∃ room', blocksFrom line (addr + UInt64.ofNat (min left (line - addr.toNat % line)))
        (left - min left (line - addr.toNat % line)) room' = some rest := by
  have hne : left ≠ 0 := by
    rintro rfl
    cases room <;> cases h
  cases room with
  | zero =>
      rw [blocksFrom, if_neg hne] at h
      cases h
  | succ room =>
      rw [blocksFrom, if_neg hne] at h
      rcases Option.map_eq_some_iff.1 h with ⟨rest', hrest, heq⟩
      cases heq
      exact ⟨hne, rfl, room, hrest⟩

theorem mem_of_blocksFrom {line left room : Nat} {addr : UInt64} {blocks : List Block}
    (h : blocksFrom line addr left room = some blocks) :
    ∀ b ∈ blocks, b.access = none ∧ b.state = .initialized := by
  induction blocks generalizing addr left room with
  | nil =>
      intro b hb
      cases hb
  | cons b rest ih =>
      rcases blocksFrom_cons h with ⟨_, rfl, room', hrest⟩
      intro c hc
      rcases List.mem_cons.1 hc with rfl | hc
      · exact ⟨rfl, rfl⟩
      · exact ih hrest c hc

/-- Blocks are on consecutive lines, from the line of the address on. -/
theorem blocksFrom_line (hk : k < 64) {left room : Nat} {addr : UInt64} {blocks : List Block}
    (h : blocksFrom (2 ^ k) addr left room = some blocks) {j : Nat} {b : Block}
    (hj : blocks[j]? = some b) : b.line = lineStart (2 ^ k) (addr.toNat / 2 ^ k + j) := by
  induction blocks generalizing addr left room j with
  | nil => cases hj
  | cons first rest ih =>
      rcases blocksFrom_cons h with ⟨_, rfl, room', hrest⟩
      cases j with
      | zero =>
          cases hj
          exact lineOf_eq hk addr
      | succ j =>
          have hline := ih hrest hj
          have hne : left - min left (2 ^ k - addr.toNat % 2 ^ k) ≠ 0 := by
            cases rest with
            | nil => cases hj
            | cons second rest => exact (blocksFrom_cons hrest).1
          -- there is a block behind this one, so this one ends with its line
          have hmin : min left (2 ^ k - addr.toNat % 2 ^ k) = 2 ^ k - addr.toNat % 2 ^ k := by
            omega
          rw [hmin] at hline
          rw [hline, lineStart_of_mod hk (toNat_add_rest hk addr), Nat.add_assoc, Nat.add_comm 1]

/-- The blocks reach to the end of the range. -/
theorem blocksFrom_covers {left room : Nat} {addr : UInt64} {blocks : List Block}
    (h : blocksFrom (2 ^ k) addr left room = some blocks) (hne : blocks ≠ []) :
    addr.toNat % 2 ^ k + left ≤ blocks.length * 2 ^ k := by
  induction blocks generalizing addr left room with
  | nil => exact absurd rfl hne
  | cons first rest ih =>
      rcases blocksFrom_cons h with ⟨_, rfl, room', hrest⟩
      have hmod := Nat.mod_lt addr.toNat (Nat.two_pow_pos k)
      rw [List.length_cons, Nat.succ_mul]
      by_cases hnil : rest = []
      · rw [hnil] at hrest
        have hleft := left_of_blocksFrom_nil hrest
        omega
      · have hcovers := ih hrest hnil
        -- only the last block can end before its line does
        by_cases hlast : left ≤ 2 ^ k - addr.toNat % 2 ^ k
        · omega
        · have hmin : min left (2 ^ k - addr.toNat % 2 ^ k) = 2 ^ k - addr.toNat % 2 ^ k := by
            omega
          rw [hmin] at hcovers
          omega

/-- The last block begins before the range ends. -/
theorem blocksFrom_tight (hk : k < 64) {left room : Nat} {addr : UInt64} {blocks : List Block}
    (h : blocksFrom (2 ^ k) addr left room = some blocks) (hne : blocks ≠ []) :
    0 < left ∧ (blocks.length - 1) * 2 ^ k < addr.toNat % 2 ^ k + left := by
  induction blocks generalizing addr left room with
  | nil => exact absurd rfl hne
  | cons first rest ih =>
      rcases blocksFrom_cons h with ⟨hleft, rfl, room', hrest⟩
      refine ⟨Nat.pos_of_ne_zero hleft, ?_⟩
      rw [List.length_cons, Nat.add_sub_cancel]
      by_cases hnil : rest = []
      · rw [hnil, List.length_nil]
        omega
      · rcases ih hrest hnil with ⟨hmore, hlast⟩
        -- the blocks behind the first one begin with a line
        have hmin : min left (2 ^ k - addr.toNat % 2 ^ k) = 2 ^ k - addr.toNat % 2 ^ k := by omega
        have hlength : rest.length * 2 ^ k = (rest.length - 1) * 2 ^ k + 2 ^ k := by
          rw [← Nat.succ_mul, Nat.succ_eq_add_one,
            Nat.sub_add_cancel (List.length_pos_iff.2 hnil)]
        rw [hmin, mod_add_rest hk] at hlast
        omega

namespace Element

/-! ## Blocks in place -/

/-- The blocks lie on consecutive lines from that of the address on, and reach to the end of the
element. The buffer has room for them. -/
structure Laid (e : Element) : Prop where
  line_eq : ∀ j b, e.blocks[j]? = some b →
    b.line = lineStart e.lineSize (e.addr.toNat / e.lineSize + j)
  covers : e.blocks ≠ [] → e.addr.toNat % e.lineSize + e.size ≤ e.blocks.length * e.lineSize
  room : e.blocks.length * e.lineSize ≤ e.buffer.length

theorem laid_of_nil {e : Element} (h : e.blocks = []) : e.Laid where
  line_eq := by
    intro j b hj
    rw [h] at hj
    cases hj
  covers := fun hne => absurd h hne
  room := by
    rw [h]
    simp

/-- The first block lies on the line of the address. -/
theorem Laid.first_line {e : Element} (h : e.Laid) {first : Block} (hfirst : e.blocks.head? = some first) :
    first.line.toNat = e.addr.toNat / e.lineSize * e.lineSize := by
  rw [List.head?_eq_getElem?] at hfirst
  rw [h.line_eq 0 first hfirst, Nat.add_zero, toNat_lineStart]
  exact Nat.lt_of_le_of_lt (Nat.div_mul_le_self _ _) e.addr.toNat_lt

theorem blocksFrom_of_coveringBlocks {e : Element} {addr : UInt64} {policy : OverflowPolicy}
    {blocks : List Block} (h : e.coveringBlocks addr policy = .ok blocks) :
    blocksFrom e.lineSize addr e.size maxBlocks = some blocks := by
  rw [coveringBlocks] at h
  split at h
  · cases h
  · split at h
    · cases h
      assumption
    · cases h

/-- What `markAddrReady` does to an element. -/
theorem markAddrReady_eq_ok {e e' : Element} {addr : UInt64} {policy : OverflowPolicy}
    (h : e.markAddrReady addr policy = .ok e') :
    e.addrReady = false ∧ ∃ start blocks,
      blocksFrom e.lineSize start e.size maxBlocks = some blocks ∧
      e' = { e with
        blocks
        buffer := e.buffer ++ List.replicate (blocks.length * e.lineSize - e.buffer.length) 0
        addr := start
        addrReady := true } := by
  rw [markAddrReady] at h
  cases hready : e.addrReady with
  | true =>
      rw [hready] at h
      cases h
  | false =>
      rw [hready] at h
      rcases bind_eq_ok.1 h with ⟨blocks, hblocks, h⟩
      by_cases hlong : maxBuffer < blocks.length * e.lineSize
      · simp only [if_pos hlong] at h
        cases h
      simp only [if_neg hlong] at h
      cases h
      exact ⟨rfl, _, blocks, blocksFrom_of_coveringBlocks hblocks, rfl⟩

/-- A buffer that would be too long is refused. -/
theorem length_markAddrReady {e e' : Element} {addr : UInt64} {policy : OverflowPolicy}
    (h : e.markAddrReady addr policy = .ok e') : e'.blocks.length * e'.lineSize ≤ maxBuffer := by
  rw [markAddrReady] at h
  cases hready : e.addrReady with
  | true =>
      rw [hready] at h
      cases h
  | false =>
      rw [hready] at h
      rcases bind_eq_ok.1 h with ⟨blocks, _, h⟩
      by_cases hlong : maxBuffer < blocks.length * e.lineSize
      · simp only [if_pos hlong] at h
        cases h
      · simp only [if_neg hlong] at h
        cases h
        exact Nat.not_lt.1 hlong

theorem laid_markAddrReady {e e' : Element} {addr : UInt64} {policy : OverflowPolicy} (hk : k < 64)
    (hline : e.lineSize = 2 ^ k) (h : e.markAddrReady addr policy = .ok e') : e'.Laid := by
  rcases markAddrReady_eq_ok h with ⟨_, start, blocks, hblocks, rfl⟩
  rw [hline] at hblocks
  refine ⟨?_, ?_, ?_⟩
  · intro j b hj
    have hline' := blocksFrom_line hk hblocks hj
    rw [hline']
    simp only [hline]
  · intro hne
    have hcovers := blocksFrom_covers hblocks hne
    simp only [hline]
    exact hcovers
  · simp only [List.length_append, List.length_replicate]
    omega

/-! ## Reading the buffer -/

theorem valueOffset_eq_ok {e : Element} {vaddr : UInt64} {size offset : Nat} :
    e.valueOffset vaddr size = .ok offset ↔ ∃ first, e.blocks.head? = some first ∧
      first.line ≤ vaddr ∧ offset = vaddr.toNat - first.line.toNat ∧
      offset + size ≤ e.buffer.length := by
  rw [valueOffset]
  cases e.blocks with
  | nil =>
      constructor
      · intro h
        cases h
      · rintro ⟨first, h, _⟩
        cases h
  | cons first rest =>
      simp only [List.head?_cons, Option.some.injEq, exists_eq_left']
      by_cases hlow : vaddr < first.line
      · rw [if_pos hlow]
        constructor
        · intro h
          cases h
        · intro h
          exact absurd h.1 (UInt64.not_le.2 hlow)
      · have hle : first.line ≤ vaddr := UInt64.not_lt.1 hlow
        rw [if_neg hlow]
        by_cases hroom : e.buffer.length < vaddr.toNat - first.line.toNat + size
        · rw [if_pos hroom]
          constructor
          · intro h
            cases h
          · rintro ⟨_, rfl, h⟩
            omega
        · rw [if_neg hroom]
          constructor
          · intro h
            cases h
            exact ⟨hle, rfl, by omega⟩
          · rintro ⟨_, rfl, _⟩
            rfl

/-- A read gives the bytes behind the first line, which must all be in the buffer. -/
theorem getValue_eq_ok {e : Element} {vaddr : UInt64} {size : Nat} {bytes : List UInt8} :
    e.getValue vaddr size = .ok bytes ↔ ∃ first, e.blocks.head? = some first ∧
      first.line ≤ vaddr ∧ vaddr.toNat - first.line.toNat + size ≤ e.buffer.length ∧
      bytes = (e.buffer.drop (vaddr.toNat - first.line.toNat)).take size := by
  rw [getValue, bind_eq_ok]
  constructor
  · rintro ⟨offset, hoffset, h⟩
    rcases valueOffset_eq_ok.1 hoffset with ⟨first, hfirst, hle, rfl, hroom⟩
    cases h
    exact ⟨first, hfirst, hle, hroom, rfl⟩
  · rintro ⟨first, hfirst, hle, hroom, rfl⟩
    exact ⟨_, valueOffset_eq_ok.2 ⟨first, hfirst, hle, rfl, hroom⟩, rfl⟩

end Element
end StreamEngine
