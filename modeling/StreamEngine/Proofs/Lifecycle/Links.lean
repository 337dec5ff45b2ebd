import Mathlib.Data.List.Perm.Basic
import Mathlib.Data.Nat.ModEq
import StreamEngine.Proofs.Lifecycle.Frames

/-!
# Blocks and the accesses they wait on

A block waits on an access exactly if the access serves the element of the block, on both sides for the
same stream and line. What an element waits on can be read off its blocks, since no two blocks are of one
line and no two wait on one access.

- `Element.WaitsOn`, `Element.Tidy` : what an element waits on, and blocks that can be told apart;
- `Tidy.advances`, `Tidy.setBlock`, `Tidy.markAddrReady` : what keeps an element tidy;
- `waitsOn_setBlock` : what an element waits on when one block has changed;
- `Manager.Linked` : blocks and accesses agree;
- `Linked.putElement` : what a change of one element takes.
-/

namespace StreamEngine

variable {k : Nat}

/-! ## One element -/

namespace Element

variable {el el' : Element} {a a' : AccessId} {line line' : UInt64} {i : Nat} {b : Block}

/-- A block of the line waits on the access. -/
def WaitsOn (el : Element) (a : AccessId) (line : UInt64) : Prop :=
  ∃ b ∈ el.blocks, b.line = line ∧ b.access = some a

/-- Blocks lie on lines of their own and wait on accesses of their own. None of them waits before it was
asked for. -/
structure Tidy (k : Nat) (el : Element) : Prop where
  size_eq : el.lineSize = 2 ^ k
  bare : el.addrReady = false → el.blocks = []
  idle : ∀ b ∈ el.blocks, b.state = .initialized → b.access = none
  aligned : ∀ b ∈ el.blocks, 2 ^ k ∣ b.line.toNat
  lines : (el.blocks.map Block.line).Nodup
  once : (el.blocks.filterMap Block.access).Nodup

theorem tidy_of_nil (hsize : el.lineSize = 2 ^ k) (hnil : el.blocks = []) : el.Tidy k where
  size_eq := hsize
  bare := fun _ => hnil
  idle := by
    intro b hb
    rw [hnil] at hb
    cases hb
  aligned := by
    intro b hb
    rw [hnil] at hb
    cases hb
  lines := by
    rw [hnil]
    exact List.nodup_nil
  once := by
    rw [hnil]
    exact List.nodup_nil

/-- Only the blocks matter, and whether there may be any. -/
theorem Tidy.congr (h : el.Tidy k) (hsize : el'.lineSize = el.lineSize)
    (hready : el'.addrReady = el.addrReady) (hblocks : el'.blocks = el.blocks) : el'.Tidy k :=
  ⟨hsize ▸ h.size_eq, by rw [hready, hblocks]; exact h.bare, hblocks ▸ h.idle, hblocks ▸ h.aligned,
    hblocks ▸ h.lines, hblocks ▸ h.once⟩

theorem not_waitsOn_of_nil (hnil : el.blocks = []) : ¬ el.WaitsOn a line := by
  rintro ⟨b, hb, _⟩
  rw [hnil] at hb
  cases hb

theorem waitsOn_mem (h : el.WaitsOn a line) : a ∈ el.blocks.filterMap Block.access := by
  rcases h with ⟨b, hb, _, ha⟩
  exact List.mem_filterMap.2 ⟨b, hb, ha⟩

theorem exists_waitsOn (h : a ∈ el.blocks.filterMap Block.access) : ∃ line, el.WaitsOn a line := by
  rcases List.mem_filterMap.1 h with ⟨b, hb, ha⟩
  exact ⟨b.line, b, hb, rfl, ha⟩

/-- Exactly one block waits on an access that the element waits on. -/
theorem Tidy.countP_eq_one (h : el.Tidy k) (hwaits : el.WaitsOn a line) :
    el.blocks.countP (fun b => b.access == some a) = 1 := by
  have hcount : (el.blocks.filterMap Block.access).count a =
      el.blocks.countP fun b => b.access == some a := by
    rw [List.count, List.countP_filterMap]
    refine List.countP_congr fun b _ => ?_
    cases b.access <;> simp
  rw [← hcount]
  exact List.count_eq_one_of_mem h.once (waitsOn_mem hwaits)

/-! ## Blocks that settle -/

/-- What settling does not change about a block, it does not change about the list of blocks. -/
theorem Advances.map_eq {β : Type} {f : Block → β} (h : el.Advances el')
    (hf : ∀ b b' : Block, b.Advances b' → f b' = f b) : el'.blocks.map f = el.blocks.map f := by
  refine List.ext_getElem? fun j => ?_
  rw [List.getElem?_map, List.getElem?_map]
  by_cases hj : j < el.blocks.length
  · have hj' : j < el'.blocks.length := by rwa [h.length_eq]
    rcases h.block j _ (List.getElem?_eq_getElem hj') with ⟨b, hb, hadv⟩
    rw [hb, List.getElem?_eq_getElem hj', Option.map_some, Option.map_some, hf b _ hadv]
  · have hj' : ¬ j < el'.blocks.length := by rwa [h.length_eq]
    rw [List.getElem?_eq_none (Nat.le_of_not_lt hj), List.getElem?_eq_none (Nat.le_of_not_lt hj')]

theorem Advances.waitsOn_iff (h : el.Advances el') : el'.WaitsOn a line ↔ el.WaitsOn a line := by
  have hties := h.map_eq (f := fun b => (b.line, b.access)) fun b b' hadv =>
    Prod.ext hadv.line_eq hadv.access_eq
  have hiff : ∀ el : Element, el.WaitsOn a line ↔
      (line, some a) ∈ el.blocks.map fun b => (b.line, b.access) := by
    intro el
    simp only [WaitsOn, List.mem_map, Prod.mk.injEq]
  rw [hiff, hiff, hties]

theorem Tidy.advances (h : el.Tidy k) (hadv : el.Advances el') : el'.Tidy k where
  size_eq := by
    rw [hadv.shape]
    exact h.size_eq
  bare := by
    intro hready
    have hold : el.addrReady = false := by rwa [hadv.shape] at hready
    have hlength := hadv.length_eq
    rw [h.bare hold, List.length_nil] at hlength
    exact List.eq_nil_of_length_eq_zero hlength
  idle := by
    intro b' hb' hstate
    rcases List.mem_iff_getElem?.1 hb' with ⟨j, hj⟩
    rcases hadv.block j b' hj with ⟨b, hb, hblock⟩
    rw [hblock.access_eq]
    rcases hblock.state with hsame | hsettled
    · exact h.idle b (List.mem_of_getElem? hb) (hsame ▸ hstate)
    · rw [hstate] at hsettled
      cases hsettled
  aligned := by
    intro b' hb'
    rcases List.mem_iff_getElem?.1 hb' with ⟨j, hj⟩
    rcases hadv.block j b' hj with ⟨b, hb, hblock⟩
    rw [hblock.line_eq]
    exact h.aligned b (List.mem_of_getElem? hb)
  lines := by
    rw [hadv.map_eq fun _ _ hblock => hblock.line_eq]
    exact h.lines
  once := by
    have haccess := hadv.map_eq (f := Block.access) fun _ _ hblock => hblock.access_eq
    have hfilter : ∀ blocks : List Block,
        blocks.filterMap Block.access = (blocks.map Block.access).filterMap id := by
      intro blocks
      rw [List.filterMap_map, Function.id_comp]
    rw [hfilter, haccess, ← hfilter]
    exact h.once

/-! ## One block -/

/-- A block with what stands before and behind it. Changing the block changes nothing else. -/
theorem setBlock_split (hb : el.blocks[i]? = some b) :
    ∃ front back, el.blocks = front ++ b :: back ∧
      ∀ f, (el.setBlock i f).blocks = front ++ f b :: back := by
  rcases List.getElem?_eq_some_iff.1 hb with ⟨hlt, heq⟩
  refine ⟨el.blocks.take i, el.blocks.drop (i + 1), ?_, ?_⟩
  · rw [← heq, ← List.drop_eq_getElem_cons hlt, List.take_append_drop]
  · intro f
    rw [setBlock, List.modify_eq_take_cons_drop hlt, heq]

/-- A list of what is found stays free of duplicates if one finding is replaced by a new one. -/
theorem nodup_filterMap_replace {α β : Type} {g : β → Option α} {front back : List β} {c c' : β}
    (h : ((front ++ c :: back).filterMap g).Nodup)
    (hnew : ∀ x, g c' = some x → g c ≠ some x → x ∉ (front ++ c :: back).filterMap g) :
    ((front ++ c' :: back).filterMap g).Nodup := by
  -- what is found in front and behind, with at most one more in between
  have hsublist : (front.filterMap g ++ back.filterMap g).Sublist ((front ++ c :: back).filterMap g) := by
    rw [List.filterMap_append]
    exact List.Sublist.append (List.Sublist.refl _) ((List.sublist_cons_self c back).filterMap g)
  rw [List.filterMap_append]
  cases hfound : g c' with
  | none => simpa only [List.filterMap_cons, hfound] using h.sublist hsublist
  | some x =>
      simp only [List.filterMap_cons, hfound]
      rw [List.nodup_middle]
      refine List.nodup_cons.2 ⟨?_, h.sublist hsublist⟩
      by_cases hsame : g c = some x
      · simp only [List.filterMap_append, List.filterMap_cons, hsame] at h
        rw [List.nodup_middle] at h
        exact (List.nodup_cons.1 h).1
      · exact fun hmem => hnew x hfound hsame (hsublist.mem hmem)

/-- A block may be changed in a way that keeps its line. If it waits on another access then, no block
may wait on that one already. -/
theorem Tidy.setBlock {f : Block → Block} (h : el.Tidy k) (hb : el.blocks[i]? = some b)
    (hline : ∀ b, (f b).line = b.line)
    (hidle : (f b).state = .initialized → (f b).access = none)
    (hfree : ∀ a, (f b).access = some a → b.access ≠ some a →
      a ∉ el.blocks.filterMap Block.access) : (el.setBlock i f).Tidy k := by
  rcases setBlock_split hb with ⟨front, back, hblocks, hset⟩
  have hlines := h.lines
  have honce := h.once
  rw [hblocks] at hlines honce hfree
  refine
    { size_eq := h.size_eq
      bare := ?bare
      idle := ?idle
      aligned := ?aligned
      lines := ?lines
      once := ?once }
  case bare =>
    intro hready
    have hnil := h.bare hready
    rw [hblocks] at hnil
    exact absurd hnil (by simp)
  case idle =>
    intro c hc hinitialized
    rw [hset] at hc
    rcases List.mem_append.1 hc with hc | hc
    · exact h.idle c (hblocks ▸ List.mem_append_left _ hc) hinitialized
    · rcases List.mem_cons.1 hc with rfl | hc
      · exact hidle hinitialized
      · exact h.idle c (hblocks ▸ List.mem_append_right _ (List.mem_cons_of_mem b hc)) hinitialized
  case aligned =>
    refine forall_setBlock (fun c hc => ?_) h.aligned
    rw [hline]
    exact h.aligned c (List.mem_of_getElem? hc)
  case lines =>
    rw [hset]
    simpa [hline] using hlines
  case once =>
    rw [hset]
    exact nodup_filterMap_replace honce hfree

/-- What an element waits on when one block has changed. -/
theorem Tidy.waitsOn_setBlock {f : Block → Block} (h : el.Tidy k) (hb : el.blocks[i]? = some b)
    (hline : ∀ b, (f b).line = b.line) :
    (el.setBlock i f).WaitsOn a line ↔
      (f b).access = some a ∧ line = b.line ∨ b.access ≠ some a ∧ el.WaitsOn a line := by
  rcases setBlock_split hb with ⟨front, back, hblocks, hset⟩
  have honce := h.once
  -- if the block waited on the access, no other block did
  have hothers : ∀ c, c ∈ front ∨ c ∈ back → c.access = some a → b.access ≠ some a := by
    intro c hc hca hba
    simp only [hblocks, List.filterMap_append, List.filterMap_cons, hba] at honce
    rw [List.nodup_middle, List.nodup_cons, List.mem_append] at honce
    refine honce.1 ?_
    rcases hc with hc | hc
    · exact Or.inl (List.mem_filterMap.2 ⟨c, hc, hca⟩)
    · exact Or.inr (List.mem_filterMap.2 ⟨c, hc, hca⟩)
  simp only [WaitsOn, hset, hblocks, List.mem_append, List.mem_cons]
  constructor
  · rintro ⟨c, hc | rfl | hc, rfl, hca⟩
    · exact Or.inr ⟨hothers c (Or.inl hc) hca, c, Or.inl hc, rfl, hca⟩
    · exact Or.inl ⟨hca, hline b⟩
    · exact Or.inr ⟨hothers c (Or.inr hc) hca, c, Or.inr (Or.inr hc), rfl, hca⟩
  · rintro (⟨hba, rfl⟩ | ⟨hne, c, hc | rfl | hc, rfl, hca⟩)
    · exact ⟨f b, Or.inr (Or.inl rfl), hline b, hba⟩
    · exact ⟨c, Or.inl hc, rfl, hca⟩
    · exact absurd hca hne
    · exact ⟨c, Or.inr (Or.inr hc), rfl, hca⟩

/-! ## New blocks -/

/-- Line numbers are counted modulo a number of lines, and a buffer has room for fewer blocks. -/
theorem Laid.nodup_lines (h : el.Laid) (hsize : el.lineSize = 2 ^ k)
    (hfits : el.blocks.length * 2 ^ k ≤ maxBuffer) : (el.blocks.map Block.line).Nodup := by
  have hoffset : ∀ n, n < el.blocks.length → n * 2 ^ k < 2 ^ 64 := by
    intro n hn
    have hle : n * 2 ^ k ≤ el.blocks.length * 2 ^ k := Nat.mul_le_mul_right _ (Nat.le_of_lt hn)
    have hmax : maxBuffer = 2 ^ 63 - 1 := rfl
    omega
  rw [List.nodup_iff_getElem?_ne_getElem?]
  intro i j hij hj hsame
  rw [List.length_map] at hj
  have hi : i < el.blocks.length := Nat.lt_trans hij hj
  simp only [List.getElem?_map, List.getElem?_eq_getElem hi, List.getElem?_eq_getElem hj,
    Option.map_some, Option.some.injEq] at hsame
  have hline := h.line_eq i _ (List.getElem?_eq_getElem hi)
  have hline' := h.line_eq j _ (List.getElem?_eq_getElem hj)
  rw [hsame, hline'] at hline
  have htoNat := congrArg UInt64.toNat hline
  simp only [lineStart, UInt64.toNat_ofNat', hsize, Nat.add_mul] at htoNat
  -- equal starts have equal distances from the first one
  have hcancel : (j * 2 ^ k) % 2 ^ 64 = (i * 2 ^ k) % 2 ^ 64 :=
    Nat.ModEq.add_left_cancel' (el.addr.toNat / 2 ^ k * 2 ^ k) htoNat
  rw [Nat.mod_eq_of_lt (hoffset j hj), Nat.mod_eq_of_lt (hoffset i hi)] at hcancel
  exact Nat.ne_of_gt hij (Nat.eq_of_mul_eq_mul_right (Nat.two_pow_pos k) hcancel)

/-- The blocks of an address are idle, and until there is one an element has no blocks. -/
theorem Tidy.markAddrReady {addr : UInt64} {policy : OverflowPolicy} (h : el.Tidy k) (hk : k < 64)
    (hmark : el.markAddrReady addr policy = .ok el') :
    el'.Tidy k ∧ (∀ a line, ¬ el'.WaitsOn a line) ∧ ∀ a line, ¬ el.WaitsOn a line := by
  have hfits := length_markAddrReady hmark
  have hlaid := laid_markAddrReady hk h.size_eq hmark
  rcases markAddrReady_eq_ok hmark with ⟨hpending, start, blocks, hblocks, rfl⟩
  have hnew := mem_of_blocksFrom hblocks
  simp only [h.size_eq] at hfits
  refine ⟨?_, ?_, fun a line => not_waitsOn_of_nil (h.bare hpending)⟩
  · refine
      { size_eq := h.size_eq
        bare := ?bare
        idle := fun b hb _ => (hnew b hb).1
        aligned := ?aligned
        lines := hlaid.nodup_lines h.size_eq hfits
        once := ?once }
    case bare =>
      intro hready
      cases hready
    case aligned =>
      intro b hb
      have hdvd := hlaid.dvd hk h.size_eq hb
      rwa [h.size_eq] at hdvd
    case once =>
      rw [List.filterMap_eq_nil_iff.2 fun b hb => (hnew b hb).1]
      exact List.nodup_nil
  · rintro a line ⟨b, hb, _, ha⟩
    rw [(hnew b hb).1] at ha
    cases ha

end Element

/-! ## All elements -/

namespace Manager

variable {m m' : Manager} {e e' : ElementId} {el el' : Element} {s : StreamId} {a a' : AccessId}
  {line : UInt64} {serves serves' : Service}

/-- A block of the element waits on the access, for this stream and this line. -/
def WaitsFor (m : Manager) (a : AccessId) (e : ElementId) (s : StreamId) (line : UInt64) : Prop :=
  ∃ el, m.element? e = some el ∧ el.stream = s ∧ el.WaitsOn a line

/-- Elements are tidy, and blocks wait on an access exactly if it serves their element. -/
structure Linked (k : Nat) (serves : Service) (m : Manager) : Prop where
  tidy : ∀ e el, m.element? e = some el → el.Tidy k
  waits_iff : ∀ a e s line, m.WaitsFor a e s line ↔ serves a e s line

theorem waitsFor_iff (hel : m.element? e = some el) :
    m.WaitsFor a e s line ↔ el.stream = s ∧ el.WaitsOn a line := by
  simp only [WaitsFor, hel, Option.some.injEq, exists_eq_left']

theorem Linked.serves_iff (h : m.Linked k serves) (hel : m.element? e = some el) :
    serves a e s line ↔ el.stream = s ∧ el.WaitsOn a line := by
  rw [← h.waits_iff, waitsFor_iff hel]

/-- An element may be replaced, if others are served as before and it is served as it waits. -/
theorem Linked.putElement (h : m.Linked k serves) (hel : m.element? e = some el)
    (hstream : el'.stream = el.stream) (htidy : el'.Tidy k)
    (hself : ∀ a s line, serves' a e s line ↔ el.stream = s ∧ el'.WaitsOn a line)
    (hothers : ∀ a e' s line, e' ≠ e → (serves' a e' s line ↔ serves a e' s line)) :
    (m.putElement e el').Linked k serves' where
  tidy := by
    intro e' el₁ hel₁
    rcases element?_putElement_cases hel hel₁ with ⟨_, rfl⟩ | ⟨_, hold⟩
    · exact htidy
    · exact h.tidy e' el₁ hold
  waits_iff := by
    intro a e' s line
    by_cases he : e' = e
    · rw [he, waitsFor_iff (element?_putElement_self hel el'), hstream, hself]
    · rw [hothers a e' s line he, ← h.waits_iff, WaitsFor, element?_putElement_of_ne hel el' he]
      rfl

/-- A change that does not affect what an element waits on does not affect whom accesses serve. -/
theorem Linked.putSame (h : m.Linked k serves) (hel : m.element? e = some el)
    (hstream : el'.stream = el.stream) (htidy : el'.Tidy k)
    (hwaits : ∀ a line, el'.WaitsOn a line ↔ el.WaitsOn a line) :
    (m.putElement e el').Linked k serves :=
  h.putElement hel hstream htidy
    (fun a s line => by rw [hwaits, h.serves_iff hel]) fun _ _ _ _ _ => Iff.rfl

theorem Linked.advances (h : m.Linked k serves) (hel : m.element? e = some el)
    (hadv : el.Advances el') : (m.putElement e el').Linked k serves :=
  h.putSame hel (by rw [hadv.shape]) ((h.tidy e el hel).advances hadv) fun _ _ => hadv.waitsOn_iff

/-- Only elements matter. -/
theorem Linked.congr (h : m.Linked k serves) (helement : ∀ e, m'.element? e = m.element? e)
    (hserves : ∀ a e s line, serves' a e s line ↔ serves a e s line) : m'.Linked k serves' where
  tidy := fun e el hel => h.tidy e el (helement e ▸ hel)
  waits_iff := by
    intro a e s line
    rw [hserves, ← h.waits_iff, WaitsFor, helement]
    rfl

end Manager
end StreamEngine
