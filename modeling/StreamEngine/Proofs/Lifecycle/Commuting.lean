import StreamEngine.Proofs.Lifecycle.Regularity
import StreamEngine.Proofs.Lifecycle.Replying
import StreamEngine.Proofs.Lifecycle.BlockStates

/-!
# Answers in any order

Accesses can be answered in any order. Two answers may reach the same element, but never the same block of
it, nor the same bytes of its buffer, since no two of its blocks wait on one access or lie on one line. The
order does not matter then, except that the slots of the accesses become free one after the other.

- `Reply` : the bytes of a line, or a failed translation;
- `Element.received`, `Element.heard` : an element with one of its blocks answered;
- `Element.heard_comm` : two answers to one element;
- `Manager.element?_reply`, `Manager.mem_reply_iff` : what a reply does to every element, and which ones it
  reports;
- `run_replies_commute` : two answers to a manager.
-/

namespace StreamEngine

/-- The answer to an access. -/
inductive Reply where
  | data (bytes : List UInt8)
  | failure

namespace Reply

/-- How a block settles. -/
def settle : Reply → Element → Nat → Except Fault (Bool × Element)
  | .data bytes => Manager.settleData bytes
  | .failure => Element.faultBlock

/-- Bytes are those of a whole line. -/
def Fits (size : Nat) : Reply → Prop
  | .data bytes => bytes.length = size
  | .failure => True

def state : Reply → BlockState
  | .data _ => .ready
  | .failure => .faulted

/-- The buffer with the bytes at `offset`. -/
def fill (buffer : List UInt8) (offset : Nat) : Reply → List UInt8
  | .data bytes => Element.overwrite buffer offset bytes
  | .failure => buffer

theorem isSettled_state (r : Reply) : r.state.isSettled = true := by
  cases r <;> rfl

theorem settlesBlocks_settle (r : Reply) : Manager.SettlesBlocks r.settle := by
  cases r with
  | data bytes => exact Manager.settlesBlocks_settleData bytes
  | failure => exact Manager.settlesBlocks_faultBlock

/-- Bytes at places apart from each other can be put there in any order. -/
theorem overwrite_comm {buffer data data' : List UInt8} {offset offset' : Nat}
    (h : offset + data.length ≤ buffer.length) (h' : offset' + data'.length ≤ buffer.length)
    (hapart : offset + data.length ≤ offset' ∨ offset' + data'.length ≤ offset) :
    Element.overwrite (Element.overwrite buffer offset data) offset' data' =
      Element.overwrite (Element.overwrite buffer offset' data') offset data := by
  have hlength := Element.length_overwrite h
  have hlength' := Element.length_overwrite h'
  refine List.ext_getElem? fun i => ?_
  rw [Element.getElem?_overwrite (by rw [hlength]; exact h'), Element.getElem?_overwrite h,
    Element.getElem?_overwrite (by rw [hlength']; exact h), Element.getElem?_overwrite h']
  by_cases hi : offset ≤ i ∧ i < offset + data.length
  · rw [if_pos hi, if_pos hi, if_neg (by omega)]
  · rw [if_neg hi, if_neg hi]

theorem fill_comm {buffer : List UInt8} {size offset offset' : Nat} {r r' : Reply} (hr : r.Fits size)
    (hr' : r'.Fits size) (h : r ≠ .failure → offset + size ≤ buffer.length)
    (h' : r' ≠ .failure → offset' + size ≤ buffer.length)
    (hapart : r ≠ .failure → r' ≠ .failure → offset + size ≤ offset' ∨ offset' + size ≤ offset) :
    r'.fill (r.fill buffer offset) offset' = r.fill (r'.fill buffer offset') offset := by
  cases r with
  | failure => rfl
  | data bytes =>
      cases r' with
      | failure => rfl
      | data bytes' =>
          cases hr
          have hsame : bytes'.length = bytes.length := hr'
          have hne : ∀ bytes, Reply.data bytes ≠ .failure := fun _ hcontra => by cases hcontra
          refine overwrite_comm (h (hne _)) (hsame ▸ h' (hne _)) ?_
          rw [hsame]
          exact hapart (hne _) (hne _)

end Reply

/-! ## Lists -/

/-- What a search does not see of a change does not change what it finds. -/
theorem findIdx?_modify {α : Type} {p : α → Bool} {f : α → α} {l : List α} {i : Nat}
    (h : ∀ x, l[i]? = some x → p (f x) = p x) : (l.modify i f).findIdx? p = l.findIdx? p := by
  induction l generalizing i with
  | nil => cases i <;> rfl
  | cons y l ih =>
      cases i with
      | zero =>
          have hy := h y rfl
          rw [List.modify_zero_cons, List.findIdx?_cons, List.findIdx?_cons, hy]
      | succ i =>
          rw [List.modify_succ_cons, List.findIdx?_cons, List.findIdx?_cons, ih h]

/-! ## One element -/

namespace Element

variable {k i j : Nat} {el el' : Element} {b : Block} {a c : AccessId} {r r' : Reply} {became store : Bool}

/-- Where the line of a block lies in the buffer. -/
def lineOffset (el : Element) (i : Nat) : Nat :=
  let lines := el.blocks.map Block.line
  (lines.getD i 0).toNat - (lines.headD 0).toNat

/-- The element with one block answered, which has its content and waits no longer. -/
def received (el : Element) (i : Nat) (r : Reply) : Element :=
  { el with
    blocks := el.blocks.modify i fun b => { b with access := none, state := r.state }
    buffer := r.fill el.buffer (el.lineOffset i) }

/-- The element, value ready if its blocks are settled. -/
def marked (el : Element) : Element :=
  { el with valueReady := el.valueReady || el.isSettled }

/-- There is room in the buffer for what a block receives. -/
def Takes (el : Element) (i : Nat) (r : Reply) : Prop :=
  r ≠ .failure → ∃ first b, el.blocks.head? = some first ∧ el.blocks[i]? = some b ∧ first.line ≤ b.line ∧
    el.lineOffset i + el.lineSize ≤ el.buffer.length

theorem lineOffset_eq {first : Block} (hfirst : el.blocks.head? = some first) (hb : el.blocks[i]? = some b) :
    el.lineOffset i = b.line.toNat - first.line.toNat := by
  rw [lineOffset, List.getD_eq_getElem?_getD, List.getElem?_map, hb, List.headD_eq_head?_getD,
    List.head?_map, hfirst]
  rfl

theorem lines_modify {f : Block → Block} (hf : ∀ b, (f b).line = b.line) (blocks : List Block) (i : Nat) :
    (blocks.modify i f).map Block.line = blocks.map Block.line := by
  refine List.ext_getElem? fun n => ?_
  rw [List.getElem?_map, List.getElem?_modify, List.getElem?_map]
  cases blocks[n]? with
  | none => rfl
  | some b =>
      by_cases hi : i = n
      · simp only [Option.map_eq_map, Option.map_some, if_pos hi, hf]
      · simp only [Option.map_eq_map, Option.map_some, if_neg hi]

theorem lines_received (el : Element) (i : Nat) (r : Reply) :
    (el.received i r).blocks.map Block.line = el.blocks.map Block.line :=
  lines_modify (f := fun b => { b with access := none, state := r.state }) (fun _ => rfl) el.blocks i

theorem lineOffset_received (el : Element) (i : Nat) (r : Reply) (j : Nat) :
    (el.received i r).lineOffset j = el.lineOffset j := by
  rw [lineOffset, lines_received, lineOffset]

theorem setBlock_detached (el : Element) (i : Nat) (state : BlockState) :
    (Manager.detached el i).setBlock i (fun b => { b with state }) =
      el.setBlock i fun b => { b with access := none, state } := by
  rw [Manager.detached, Element.setBlock, Element.setBlock, Element.setBlock, List.modify_modify_eq]
  rfl

/-- The bytes of a line reach the block of that line only. -/
theorem Tidy.written_detached (h : el.Tidy k) (hmem : el.isMem = true) {bytes : List UInt8}
    (hbytes : bytes.length = el.lineSize) (hb : el.blocks[i]? = some b)
    (hend : b.line.toNat + el.lineSize < 2 ^ 64) :
    (Manager.detached el i).written (el.lineOffset i) b.line bytes = el.received i (.data bytes) := by
  have hpos : 0 < el.lineSize := h.size_eq ▸ Nat.two_pow_pos k
  have hreaches : ∀ c : Block, (Manager.detached el i).reaches b.line bytes.length c =
      touches el.lineSize b.line (b.line + UInt64.ofNat el.lineSize) c := by
    intro c
    have hmem' : (Manager.detached el i).isMem = true := hmem
    rw [reaches, isWhole, hmem', hbytes]
    rfl
  -- lines are aligned and no two blocks share one, so a line's bytes reach no block but its own
  have hblocks : ((Manager.detached el i).blocks.map fun c =>
      if (Manager.detached el i).reaches b.line bytes.length c then { c with state := .ready } else c) =
        el.blocks.modify i fun b => { b with access := none, state := .ready } := by
    refine List.ext_getElem? fun n => ?_
    rw [List.getElem?_map, List.getElem?_modify]
    by_cases hn : i = n
    · subst hn
      have hself : touches el.lineSize b.line (b.line + UInt64.ofNat el.lineSize)
          { b with access := none } = true := touches_self (b := { b with access := none }) hpos hend
      rw [show (Manager.detached el i).blocks[i]? = some { b with access := none } from getElem?_setBlock hb,
        hb, Option.map_some, if_pos ((hreaches _).trans hself)]
      simp only [Option.map_eq_map, Option.map_some, if_true]
    · rw [show (Manager.detached el i).blocks[n]? = el.blocks[n]? from
        getElem?_setBlock_of_ne fun hcontra => hn hcontra.symm]
      cases hc : el.blocks[n]? with
      | none => rfl
      | some c =>
          simp only [Option.map_eq_map, Option.map_some, if_neg hn]
          rw [if_neg]
          intro hhit
          rw [hreaches, h.size_eq] at hhit
          refine hn (h.index_eq hc hb ?_)
          refine (touches_line (h.aligned b (List.mem_of_getElem? hb))
            (h.aligned c (List.mem_of_getElem? hc)) (h.size_eq ▸ hend) hhit).symm
  rw [written, hblocks]
  rfl

/-- A block of an element in memory that settles has received its answer, and no other block has. -/
theorem Tidy.settle_eq_ok (h : el.Tidy k) (hmem : el.isMem = true) (hr : r.Fits el.lineSize)
    (hb : el.blocks[i]? = some b) (hsettle : r.settle (Manager.detached el i) i = .ok (became, el')) :
    el.Takes i r ∧ (el.received i r).tryMarkValueReady = .ok (became, el') := by
  cases r with
  | failure =>
      have hmark := (faultBlock_eq_ok hsettle).2
      rw [setBlock_detached] at hmark
      exact ⟨fun hcontra => absurd rfl hcontra, hmark⟩
  | data bytes =>
      have hbytes : bytes.length = el.lineSize := hr
      have hset : (Manager.detached el i).setValue b.line bytes = .ok (became, el') := by
        rw [Reply.settle, Manager.settleData,
          show (Manager.detached el i).blocks[i]? = some { b with access := none } from
            getElem?_setBlock hb] at hsettle
        exact hsettle
      rcases setValue_iff.1 hset with ⟨offset, hoffset, hwrites, hmark⟩
      have hend : b.line.toNat + el.lineSize < 2 ^ 64 := by
        rcases hwrites with hcontra | hend
        · rw [isWhole, show (Manager.detached el i).isMem = true from hmem] at hcontra
          cases hcontra
        · exact hbytes ▸ hend
      rcases valueOffset_eq_ok.1 hoffset with ⟨first', hfirst', hle, hoff, hroom⟩
      -- the first line is that of the element
      have hlines : (Manager.detached el i).blocks.map Block.line = el.blocks.map Block.line :=
        lines_modify (f := fun b => { b with access := none }) (fun _ => rfl) el.blocks i
      have hhead := congrArg List.head? hlines
      rw [List.head?_map, List.head?_map, hfirst', Option.map_some] at hhead
      rcases Option.map_eq_some_iff.1 hhead.symm with ⟨first, hfirst, hline⟩
      have hplace : el.lineOffset i = offset := by
        rw [lineOffset_eq hfirst hb, hoff, hline]
      refine ⟨fun _ => ⟨first, b, hfirst, hb, ?_, ?_⟩, ?_⟩
      · rw [hline]
        exact hle
      · rw [hplace, ← hbytes]
        exact hroom
      · rw [← h.written_detached hmem hbytes hb hend, hplace]
        exact hmark

/-! ## Two answers -/

/-- Blocks have places of their own. -/
theorem Tidy.apart (h : el.Tidy k) (hij : i ≠ j) (hi : el.Takes i r) (hj : el.Takes j r')
    (hr : r ≠ .failure) (hr' : r' ≠ .failure) :
    el.lineOffset i + el.lineSize ≤ el.lineOffset j ∨ el.lineOffset j + el.lineSize ≤ el.lineOffset i := by
  rcases hi hr with ⟨first, b, hfirst, hb, hle, _⟩
  rcases hj hr' with ⟨first', b', hfirst', hb', hle', _⟩
  cases (hfirst.symm.trans hfirst')
  have hne : b.line.toNat ≠ b'.line.toNat := by
    intro hsame
    exact hij (h.index_eq hb' hb (UInt64.toNat_inj.1 hsame))
  have hapart := apart_of_ne (h.aligned b (List.mem_of_getElem? hb)) (h.aligned b' (List.mem_of_getElem? hb'))
    hne
  rw [UInt64.le_iff_toNat_le] at hle hle'
  rw [lineOffset_eq hfirst hb, lineOffset_eq hfirst hb', h.size_eq]
  omega

/-- Two blocks receive their answers in any order. -/
theorem Tidy.received_comm (h : el.Tidy k) (hij : i ≠ j) (hr : r.Fits el.lineSize)
    (hr' : r'.Fits el.lineSize) (hi : el.Takes i r) (hj : el.Takes j r') :
    (el.received i r).received j r' = (el.received j r').received i r := by
  have hroom : r ≠ .failure → el.lineOffset i + el.lineSize ≤ el.buffer.length := fun hdata => by
    rcases hi hdata with ⟨_, _, _, _, _, hroom⟩
    exact hroom
  have hroom' : r' ≠ .failure → el.lineOffset j + el.lineSize ≤ el.buffer.length := fun hdata => by
    rcases hj hdata with ⟨_, _, _, _, _, hroom⟩
    exact hroom
  have hbuffer := Reply.fill_comm hr hr' hroom hroom' fun hdata hdata' => h.apart hij hi hj hdata hdata'
  have hblocks := List.modify_modify_ne (fun b : Block => { b with access := none, state := r.state })
    (fun b => { b with access := none, state := r'.state }) el.blocks hij
  rw [received, lineOffset_received, received.eq_1 (el.received j r'), lineOffset_received]
  simp only [received, hbuffer, hblocks]

/-- What is settled stays settled. -/
theorem isSettled_received (hsettled : el.isSettled = true) (i : Nat) (r : Reply) :
    (el.received i r).isSettled = true := by
  refine List.all_eq_true.2 ?_
  intro b' hb'
  rcases List.mem_iff_getElem?.1 hb' with ⟨n, hn⟩
  rcases setBlock_block (e := el) (f := fun b => { b with access := none, state := r.state }) hn with
    ⟨b, hb, ⟨_, rfl⟩ | ⟨_, rfl⟩⟩
  · exact r.isSettled_state
  · exact List.all_eq_true.1 hsettled _ (List.mem_of_getElem? hb)

/-- Between two answers it does not matter whether the element has been marked. -/
theorem marked_received (el : Element) (i : Nat) (r : Reply) :
    (el.marked.received i r).marked = (el.received i r).marked := by
  have hready : (el.valueReady || el.isSettled || (el.received i r).isSettled) =
      (el.valueReady || (el.received i r).isSettled) := by
    cases hsettled : el.isSettled with
    | false => rw [Bool.or_false]
    | true => rw [isSettled_received hsettled, Bool.or_true, Bool.or_true]
  change { el.received i r with
    valueReady := el.valueReady || el.isSettled || (el.received i r).isSettled } = _
  rw [hready]
  rfl

/-- Position of the block that waits on an access. -/
def waitIndex (el : Element) (a : AccessId) : Option Nat :=
  el.blocks.findIdx? fun b => b.access == some a

/-- The element when an access is answered. In a store it only stops waiting. -/
def heard (el : Element) (store : Bool) (a : AccessId) (r : Reply) : Element :=
  match el.waitIndex a with
  | none => el
  | some i => if store then Manager.detached el i else (el.received i r).marked

theorem heard_of_none (h : el.waitIndex a = none) (store : Bool) (r : Reply) : el.heard store a r = el := by
  rw [heard, h]

theorem heard_of_some (h : el.waitIndex a = some i) (store : Bool) (r : Reply) :
    el.heard store a r = if store then Manager.detached el i else (el.received i r).marked := by
  rw [heard, h]

theorem waitIndex_eq_some (h : el.waitIndex a = some i) :
    ∃ b, el.blocks[i]? = some b ∧ b.access = some a := by
  rcases List.findIdx?_eq_some_iff_getElem.1 h with ⟨hlt, haccess, _⟩
  exact ⟨el.blocks[i], List.getElem?_eq_getElem hlt, beq_iff_eq.1 haccess⟩

/-- An element that hears of one access waits on the others as before. -/
theorem waitIndex_heard (hne : c ≠ a) (store : Bool) (r : Reply) :
    (el.heard store a r).waitIndex c = el.waitIndex c := by
  rw [heard]
  cases hi : el.waitIndex a with
  | none => rfl
  | some i =>
      rcases waitIndex_eq_some hi with ⟨b, hb, ha⟩
      have hunseen : ∀ f : Block → Block, (∀ b, (f b).access = none) →
          (el.blocks.modify i f).findIdx? (fun b => b.access == some c) = el.waitIndex c := by
        intro f hf
        refine findIdx?_modify fun b' hb' => ?_
        cases (hb.symm.trans hb')
        have hother : ¬ a = c := fun hsame => hne hsame.symm
        rw [hf, ha]
        simp [hother]
      cases store with
      | true => exact hunseen _ fun _ => rfl
      | false => exact hunseen _ fun _ => rfl

/-- An element hears of two accesses in any order. -/
theorem Tidy.heard_comm (h : el.Tidy k) (hne : a ≠ c) (hr : r.Fits el.lineSize) (hr' : r'.Fits el.lineSize)
    (ha : store = false → ∀ i, el.waitIndex a = some i → el.Takes i r)
    (hc : store = false → ∀ j, el.waitIndex c = some j → el.Takes j r') :
    (el.heard store a r).heard store c r' = (el.heard store c r').heard store a r := by
  have hlater : (el.heard store a r).waitIndex c = el.waitIndex c := waitIndex_heard (Ne.symm hne) store r
  have hlater' : (el.heard store c r').waitIndex a = el.waitIndex a := waitIndex_heard hne store r'
  cases hi : el.waitIndex a with
  | none =>
      rw [heard_of_none (hlater'.trans hi), heard_of_none hi]
  | some i =>
      cases hj : el.waitIndex c with
      | none =>
          rw [heard_of_none (hlater.trans hj), heard_of_none hj]
      | some j =>
          rw [heard_of_some (hlater.trans hj), heard_of_some (hlater'.trans hi), heard_of_some hi,
            heard_of_some hj]
          -- one block cannot wait on both
          have hij : i ≠ j := by
            rintro rfl
            rcases waitIndex_eq_some hi with ⟨b, hb, hba⟩
            rcases waitIndex_eq_some hj with ⟨b', hb', hbc⟩
            cases (hb.symm.trans hb')
            exact hne (Option.some.inj (hba.symm.trans hbc))
          cases store with
          | true =>
              have hblocks := List.modify_modify_ne (fun b : Block => { b with access := none })
                (fun b => { b with access := none }) el.blocks hij
              simp only [if_true, Manager.detached, Element.setBlock, hblocks]
          | false =>
              simp only [Bool.false_eq_true, if_false]
              rw [marked_received, marked_received, h.received_comm hij hr hr' (ha rfl i hi) (hc rfl j hj)]

/-- An element that hears of an access may become value ready by it, and stays so. -/
theorem valueReady_heard (hready : el.valueReady = true) (store : Bool) (a : AccessId) (r : Reply) :
    (el.heard store a r).valueReady = true := by
  rw [heard]
  cases el.waitIndex a with
  | none => exact hready
  | some i =>
      cases store with
      | true => exact hready
      | false =>
          change (el.valueReady || _) = true
          rw [hready, Bool.true_or]

/-- The block that waits on an access is found by it. -/
theorem Tidy.waitIndex_of_access (h : el.Tidy k) (hb : el.blocks[i]? = some b) (ha : b.access = some a) :
    el.waitIndex a = some i := by
  cases hfound : el.waitIndex a with
  | none =>
      have hno := List.findIdx?_eq_none_iff.1 hfound b (List.mem_of_getElem? hb)
      simp [ha] at hno
  | some j =>
      rcases waitIndex_eq_some hfound with ⟨b', hb', ha'⟩
      rw [h.index_of_access hb ha hb' ha']

/-- An element is reported when it has become value ready. -/
theorem became_iff {mid : Element} (h : mid.tryMarkValueReady = .ok (became, el')) :
    became = true ↔ mid.valueReady = false ∧ el'.valueReady = true := by
  rcases tryMarkValueReady_eq_ok h with ⟨hmarked, hunready⟩
  have hready : el'.valueReady = (mid.valueReady || mid.isSettled) := by rw [hmarked]
  rw [tryMarkValueReady] at h
  cases hsettled : mid.isSettled with
  | true =>
      rw [if_pos hsettled] at h
      rcases bind_eq_ok.1 h with ⟨marked, _, h⟩
      cases h
      rw [hready, hsettled, Bool.or_true]
      exact iff_of_true rfl ⟨hunready hsettled, rfl⟩
  | false =>
      rw [if_neg (by simp [hsettled])] at h
      cases h
      refine iff_of_false Bool.false_ne_true ?_
      rintro ⟨hfalse, htrue⟩
      exact Bool.false_ne_true (hfalse.symm.trans htrue)

end Element

/-- Settling reports the elements that it makes value ready. -/
theorem Reply.settle_became_iff {el el' : Element} {i : Nat} {became : Bool} {r : Reply}
    (h : r.settle el i = .ok (became, el')) :
    became = true ↔ el.valueReady = false ∧ el'.valueReady = true := by
  cases r with
  | failure =>
      have hmark := Element.became_iff (Element.faultBlock_eq_ok h).2
      exact hmark
  | data bytes =>
      rcases Manager.settleData_eq_ok h with ⟨b, _, hset⟩
      rcases Element.setValue_iff.1 hset with ⟨offset, _, _, hmark⟩
      have hiff := Element.became_iff hmark
      exact hiff

/-! ## All elements -/

namespace Manager

variable {k : Nat} {m m' : Manager} {e : ElementId} {el : Element} {a : AccessId} {r : Reply}
  {ready : List ElementId} {ops : List Operation}

/-- Answers an access in one of the two ways. -/
def reply (m : Manager) (a : AccessId) : Reply → Except Fault (List ElementId × Manager)
  | .data bytes => m.respond a bytes
  | .failure => m.respondFault a

theorem reply_eq_answer (m : Manager) (a : AccessId) (r : Reply) : m.reply a r = m.answer a r.settle := by
  cases r <;> rfl

/-- The elements that are reported are those that have become value ready, once each. -/
theorem ready_deliver {store : Bool} {ws : List ElementId} (hnodup : ws.Nodup)
    (h : m.deliver a store r.settle ws = .ok (ready, m')) :
    ready.Sublist ws ∧ ∀ e, e ∈ ready ↔
      m.read Element.valueReady e = some false ∧ m'.read Element.valueReady e = some true := by
  induction ws generalizing m ready with
  | nil =>
      cases h
      refine ⟨List.Sublist.refl _, fun e => iff_of_false List.not_mem_nil ?_⟩
      rintro ⟨hfalse, htrue⟩
      cases (hfalse.symm.trans htrue)
  | cons w ws ih =>
      rcases List.nodup_cons.1 hnodup with ⟨hnot, hlater⟩
      rcases deliver_cons_eq_ok h with
        ⟨el, told, i, b, became, others, hel, _, _, hcase, hrest, rfl⟩
      have hself := element?_putElement_self hel told
      rcases ih hlater hrest with ⟨hsublist, hiff⟩
      have hbecame : became = true ↔ el.valueReady = false ∧ told.valueReady = true := by
        rcases hcase with ⟨_, rfl, rfl⟩ | ⟨_, hsettle⟩
        · refine iff_of_false Bool.false_ne_true ?_
          rintro ⟨hfalse, htrue⟩
          exact Bool.false_ne_true (hfalse.symm.trans htrue)
        · have hiff := Reply.settle_became_iff hsettle
          exact hiff
      refine ⟨?_, ?_⟩
      · cases became with
        | true => exact hsublist.cons_cons w
        | false => exact hsublist.cons w
      · intro e
        by_cases he : e = w
        · subst he
          -- the rest of the elements does not include this one
          have hlast : m'.element? e = some told := by
            rcases element?_deliver hlater hrest hself with ⟨_, hlast⟩ | ⟨hmem, _⟩
            · exact hlast
            · exact absurd hmem hnot
          have hnot' : e ∉ others := fun hmem => hnot (hsublist.subset hmem)
          rw [read, read, hel, hlast, Option.map_some, Option.map_some, Option.some.injEq,
            Option.some.injEq, ← hbecame]
          cases became with
          | true => exact iff_of_true (List.mem_cons_self ..) rfl
          | false => exact iff_of_false hnot' Bool.false_ne_true
        · have hmem : (e ∈ if became then w :: others else others) ↔ e ∈ others := by
            cases became with
            | true => exact List.mem_cons.trans (or_iff_right he)
            | false => exact Iff.rfl
          have hread : (m.putElement w told).read Element.valueReady e = m.read Element.valueReady e := by
            rw [read, element?_putElement_of_ne hel told he, read]
          rw [hmem, hiff, hread]

/-- A reply takes its access out of flight, and changes elements where they stand. -/
theorem reply_eq_ok (h : m.reply a r = .ok (ready, m')) :
    ∃ access store, m.accesses.find? a = some access ∧
      ({ m with accesses := { slab := m.accesses.slab.erase a.val } } : Manager).deliver a store r.settle
        access.receivers.drain.1 = .ok (ready, m') ∧
      m' = { m with elements := m'.elements, accesses := { slab := m.accesses.slab.erase a.val } } := by
  rw [reply_eq_answer] at h
  rcases answer_eq_ok h with ⟨access, hfind, hdeliver⟩
  exact ⟨access, _, hfind, hdeliver, deliver_shape hdeliver⟩

theorem Connected.mem_reply_iff (h : m.Connected k) (hreply : m.reply a r = .ok (ready, m')) :
    ready.Nodup ∧ ∀ e, e ∈ ready ↔
      m.read Element.valueReady e = some false ∧ m'.read Element.valueReady e = some true := by
  rcases reply_eq_ok hreply with ⟨access, store, hfind, hdeliver, _⟩
  have hnodup := Receivers.nodup_drain (h.pool.receivers a access hfind)
  rcases ready_deliver hnodup hdeliver with ⟨hsublist, hiff⟩
  exact ⟨hnodup.sublist hsublist, hiff⟩

/-- Every element hears of the answer. -/
theorem Orderly.element?_reply (h : m.Orderly k) (hr : r.Fits m.options.lineSize)
    (hreply : m.reply a r = .ok (ready, m')) (hel : m.element? e = some el) :
    m'.element? e = some (el.heard (m.ofStore el) a r) ∧
      (m.ofStore el = false → ∀ i, el.waitIndex a = some i → el.Takes i r) := by
  have htidy := h.connected.linked.tidy e el hel
  rw [reply_eq_answer] at hreply
  rcases h.connected.element?_answer hreply hel with ⟨hnot, hsame⟩ | ⟨_, el', hel', i, b, hb, ha, hcase⟩
  · have hnone : el.waitIndex a = none := by
      cases hfound : el.waitIndex a with
      | none => rfl
      | some i =>
          rcases Element.waitIndex_eq_some hfound with ⟨b, hb, ha⟩
          exact absurd ⟨b.line, b, List.mem_of_getElem? hb, rfl, ha⟩ hnot
    refine ⟨?_, fun _ i hi => ?_⟩
    · rw [Element.heard_of_none hnone]
      exact hsame
    · rw [hnone] at hi
      cases hi
  · have hfound := htidy.waitIndex_of_access hb ha
    rcases h.owned.exists_stream hel with ⟨st, hst⟩
    have hmem : el.isMem = true := (h.regular e el st hel hst).waits b (List.mem_of_getElem? hb) (by
      rw [ha]
      exact Option.some_ne_none a)
    have hfits : r.Fits el.lineSize := by
      rw [htidy.size_eq, ← h.connected.size_eq]
      exact hr
    rw [hel', Element.heard_of_some hfound]
    rcases hcase with ⟨hstore, rfl⟩ | ⟨hstore, became, hsettle⟩
    · refine ⟨by rw [hstore, if_pos rfl], fun hcontra => ?_⟩
      exact absurd (hcontra.symm.trans hstore) Bool.false_ne_true
    · rcases htidy.settle_eq_ok hmem hfits hb hsettle with ⟨htakes, hmark⟩
      refine ⟨?_, fun _ j hj => ?_⟩
      · rw [hstore, if_neg Bool.false_ne_true, (Element.tryMarkValueReady_eq_ok hmark).1]
        rfl
      · cases (hfound.symm.trans hj)
        exact htakes

theorem element?_reply_eq_none (hreply : m.reply a r = .ok (ready, m')) (hel : m.element? e = none) :
    m'.element? e = none := by
  rw [reply_eq_answer] at hreply
  have hplace := (exchanges_answer r.settlesBlocks_settle hreply).quiet.place_eq e
  rw [place?, place?, hel, Option.map_none, Option.map_eq_none_iff] at hplace
  exact hplace

/-- Elements keep their slots. -/
theorem slots_deliver {store : Bool} {settle : Element → Nat → Except Fault (Bool × Element)}
    {ws : List ElementId} (h : m.deliver a store settle ws = .ok (ready, m')) :
    m'.elements.slots.length = m.elements.slots.length ∧ m'.elements.free = m.elements.free := by
  induction ws generalizing m ready with
  | nil =>
      cases h
      exact ⟨rfl, rfl⟩
  | cons w ws ih =>
      rcases deliver_cons_eq_ok h with ⟨el, told, i, b, became, others, _, _, _, _, hothers, _⟩
      rcases ih hothers with ⟨hlength, hfree⟩
      exact ⟨hlength.trans List.length_set, hfree⟩

theorem Orderly.reply (h : m.Orderly k) (hk : k < 64) (hreply : m.reply a r = .ok (ready, m')) :
    m'.Orderly k := by
  cases r with
  | data bytes =>
      have hrespond : m.respond a bytes = .ok (ready, m') := hreply
      have happly : m.apply (.respond a bytes) = .ok m' := by
        rw [Manager.apply, hrespond]
        rfl
      exact h.apply hk happly
  | failure =>
      have hrespond : m.respondFault a = .ok (ready, m') := hreply
      have happly : m.apply (.respondFault a) = .ok m' := by
        rw [Manager.apply, hrespond]
        rfl
      exact h.apply hk happly

/-! ## Two answers -/

section Two

variable {c : AccessId} {r' : Reply} {first second first' second' : List ElementId}
  {ma mc mac mca : Manager}

/-- What the second of two answers makes of an element. -/
theorem Orderly.element?_replies (h : m.Orderly k) (hk : k < 64) (hr : r.Fits m.options.lineSize)
    (hr' : r'.Fits m.options.lineSize) (ha : m.reply a r = .ok (first, ma))
    (hac : ma.reply c r' = .ok (second, mac)) (hel : m.element? e = some el) :
    mac.element? e = some ((el.heard (m.ofStore el) a r).heard (m.ofStore el) c r') := by
  have hheard := (h.element?_reply hr ha hel).1
  rcases reply_eq_ok ha with ⟨access, store, _, _, hshape⟩
  have hsame : ma.ofStore (el.heard (m.ofStore el) a r) = m.ofStore el := by
    have hstream : (el.heard (m.ofStore el) a r).stream = el.stream := by
      rw [Element.heard]
      cases el.waitIndex a with
      | none => rfl
      | some i => cases m.ofStore el <;> rfl
    rw [ofStore, hstream, hshape]
    rfl
  have hfits : r'.Fits ma.options.lineSize := by
    rw [hshape]
    exact hr'
  have hlater := ((h.reply hk ha).element?_reply hfits hac hheard).1
  rwa [hsame] at hlater

/-- Two answers report what has become value ready from the first to the last moment, each element once. -/
theorem Orderly.mem_replies_iff (h : m.Orderly k) (hk : k < 64) (hr : r.Fits m.options.lineSize)
    (hr' : r'.Fits m.options.lineSize) (ha : m.reply a r = .ok (first, ma))
    (hac : ma.reply c r' = .ok (second, mac)) :
    (first ++ second).Nodup ∧ ∀ e, e ∈ first ++ second ↔
      m.read Element.valueReady e = some false ∧ mac.read Element.valueReady e = some true := by
  rcases h.connected.mem_reply_iff ha with ⟨hnodup, hfirst⟩
  rcases (h.reply hk ha).connected.mem_reply_iff hac with ⟨hnodup', hsecond⟩
  refine ⟨hnodup.append hnodup' ?_, ?_⟩
  · intro e hmem hmem'
    cases (((hfirst e).1 hmem).2.symm.trans ((hsecond e).1 hmem').1)
  · intro e
    rw [List.mem_append, hfirst, hsecond]
    cases hel : m.element? e with
    | none =>
        have hnone := element?_reply_eq_none ha hel
        simp only [read, hel, hnone, Option.map_none, reduceCtorEq, false_and, or_self]
    | some el =>
        have hheard := (h.element?_reply hr ha hel).1
        have hlast := h.element?_replies hk hr hr' ha hac hel
        simp only [read, hel, hheard, hlast, Option.map_some, Option.some.injEq]
        -- what is value ready stays so
        have hkeeps := fun hready : el.valueReady = true =>
          Element.valueReady_heard hready (m.ofStore el) a r
        have hkeeps' := fun hready : (el.heard (m.ofStore el) a r).valueReady = true =>
          Element.valueReady_heard hready (m.ofStore el) c r'
        constructor
        · rintro (⟨hfalse, hnow⟩ | ⟨hnot, hnow⟩)
          · exact ⟨hfalse, hkeeps' hnow⟩
          · exact ⟨Bool.eq_false_iff.2 fun hready => Bool.false_ne_true (hnot.symm.trans (hkeeps hready)), hnow⟩
        · rintro ⟨hfalse, hnow⟩
          cases hmid : (el.heard (m.ofStore el) a r).valueReady with
          | true => exact Or.inl ⟨hfalse, rfl⟩
          | false => exact Or.inr ⟨rfl, hnow⟩

/-- Two answers lead to the same elements in any order. -/
theorem Orderly.elements_replies (h : m.Orderly k) (hk : k < 64) (hne : a ≠ c)
    (hr : r.Fits m.options.lineSize) (hr' : r'.Fits m.options.lineSize)
    (ha : m.reply a r = .ok (first, ma)) (hac : ma.reply c r' = .ok (second, mac))
    (hc : m.reply c r' = .ok (second', mc)) (hca : mc.reply a r = .ok (first', mca)) :
    mac.elements = mca.elements := by
  have hslots : ∀ {m m' : Manager} {a : AccessId} {r : Reply} {ready : List ElementId},
      m.reply a r = .ok (ready, m') →
        m'.elements.slots.length = m.elements.slots.length ∧ m'.elements.free = m.elements.free := by
    intro m m' a r ready hreply
    rcases reply_eq_ok hreply with ⟨_, _, _, hdeliver, _⟩
    have hkept := slots_deliver hdeliver
    exact hkept
  refine Slab.eq_of_get? ?_ ?_ ?_
  · rw [(hslots hac).1, (hslots ha).1, (hslots hca).1, (hslots hc).1]
  · rw [(hslots hac).2, (hslots ha).2, (hslots hca).2, (hslots hc).2]
  intro i
  have hsame : mac.element? { val := i } = mca.element? { val := i } := by
    cases hel : m.element? { val := i } with
    | none =>
        rw [element?_reply_eq_none hac (element?_reply_eq_none ha hel),
          element?_reply_eq_none hca (element?_reply_eq_none hc hel)]
    | some el =>
        have htidy := h.connected.linked.tidy _ el hel
        have hsize : m.options.lineSize = el.lineSize := h.connected.size_eq.trans htidy.size_eq.symm
        rw [h.element?_replies hk hr hr' ha hac hel, h.element?_replies hk hr' hr hc hca hel,
          htidy.heard_comm hne (hsize ▸ hr) (hsize ▸ hr') (h.element?_reply hr ha hel).2
            (h.element?_reply hr' hc hel).2]
  exact hsame

/-- After every run, take two accesses in flight and an answer to each, the bytes of a line or a failed
translation. If both orders of the answers go through, they lead to the same manager, except that the slots
of the two accesses become free in the order of the answers. And both report the same elements as value
ready, each of them once. -/
theorem run_replies_commute (hk : k < 64) {o : Options} (hline : o.lineSize = 2 ^ k)
    (hrun : Manager.run { options := o } ops = .ok m) (hne : a ≠ c) (hr : r.Fits o.lineSize)
    (hr' : r'.Fits o.lineSize) (ha : m.reply a r = .ok (first, ma))
    (hac : ma.reply c r' = .ok (second, mac)) (hc : m.reply c r' = .ok (second', mc))
    (hca : mc.reply a r = .ok (first', mca)) :
    mac = { mca with accesses := mac.accesses } ∧
    mac.accesses.slab.slots = mca.accesses.slab.slots ∧
    mac.accesses.slab.free.Perm mca.accesses.slab.free ∧
    (first ++ second).Nodup ∧ (second' ++ first').Nodup ∧
    ∀ e, e ∈ first ++ second ↔ e ∈ second' ++ first' := by
  have horderly := orderly_run hk hline hrun
  have hsize : m.options.lineSize = o.lineSize := horderly.connected.size_eq.trans hline.symm
  rw [← hsize] at hr hr'
  have helements := horderly.elements_replies hk hne hr hr' ha hac hc hca
  rcases horderly.mem_replies_iff hk hr hr' ha hac with ⟨hnodup, hmem⟩
  rcases horderly.mem_replies_iff hk hr' hr hc hca with ⟨hnodup', hmem'⟩
  rcases reply_eq_ok ha with ⟨_, _, _, _, hma⟩
  rcases reply_eq_ok hac with ⟨_, _, _, _, hmac⟩
  rcases reply_eq_ok hc with ⟨_, _, _, _, hmc⟩
  rcases reply_eq_ok hca with ⟨_, _, _, _, hmca⟩
  refine ⟨?_, ?_, ?_, hnodup, hnodup', fun e => ?_⟩
  · rw [hmac, hmca, helements, hma, hmc]
  · rw [hmac, hmca, hma, hmc]
    have hval : a.val ≠ c.val := fun hsame => hne (AccessId.eq_of_val hsame)
    exact List.set_comm _ _ hval
  · rw [hmac, hmca, hma, hmc]
    exact List.Perm.swap a.val c.val m.accesses.slab.free
  · have hread : mac.read Element.valueReady e = mca.read Element.valueReady e := by
      rw [read, read, element?, element?, helements]
    rw [hmem, hmem', hread]

end Two

/-! ## A word on two lines -/

/-- Words of which the first lies on two lines. -/
def straddlingWords : Declaration :=
  { staticId := 1, role := .load, elemSize := 8, formal := Formal.ofWords [8, 0x103c] }

def straddlingRun : List Operation :=
  [.configure straddlingWords, .allocate { core := 0, staticId := 1, instanceNo := 1 },
    .markAddrReady { val := 0 }, .issue { val := 0 }]

/-- One of its lines comes and the other one fails, in both orders. The word is ready with the second
answer. -/
theorem run_replies_commute_straddling :
    ∃ m ma mac mc mca, Manager.run { options := {} } straddlingRun = .ok m ∧
      m.reply { val := 0 } (.data (List.replicate 64 7)) = .ok ([], ma) ∧
      ma.reply { val := 1 } .failure = .ok ([{ val := 0 }], mac) ∧
      m.reply { val := 1 } .failure = .ok ([], mc) ∧
      mc.reply { val := 0 } (.data (List.replicate 64 7)) = .ok ([{ val := 0 }], mca) ∧
      mac.elements = mca.elements ∧ mac.accesses.slab.slots = mca.accesses.slab.slots := by
  let line : Reply := .data (List.replicate 64 7)
  have hshape : (Manager.run { options := {} } straddlingRun).toOption.bind (fun m =>
      (m.reply { val := 0 } line).toOption.bind fun ra => (m.reply { val := 1 } .failure).toOption.bind fun rc =>
        (ra.2.reply { val := 1 } .failure).toOption.bind fun rac =>
          (rc.2.reply { val := 0 } line).toOption.map fun rca => ((ra.1, rac.1), (rc.1, rca.1))) =
      some (([], [{ val := 0 }]), ([], [{ val := 0 }])) := by
    decide +kernel
  rcases Option.bind_eq_some_iff.1 hshape with ⟨m, hrun, hshape⟩
  rcases Option.bind_eq_some_iff.1 hshape with ⟨⟨first, ma⟩, ha, hshape⟩
  rcases Option.bind_eq_some_iff.1 hshape with ⟨⟨second', mc⟩, hc, hshape⟩
  rcases Option.bind_eq_some_iff.1 hshape with ⟨⟨second, mac⟩, hac, hshape⟩
  rcases Option.map_eq_some_iff.1 hshape with ⟨⟨first', mca⟩, hca, hshape⟩
  cases hshape
  have hline : Reply.Fits 64 line := List.length_replicate ..
  have hfailure : Reply.Fits 64 .failure := trivial
  have hcommute := run_replies_commute (by decide : 6 < 64) (o := {}) rfl (toOption_eq_some hrun)
    (by decide : ({ val := 0 } : AccessId) ≠ { val := 1 }) hline hfailure (toOption_eq_some ha)
    (toOption_eq_some hac) (toOption_eq_some hc) (toOption_eq_some hca)
  refine ⟨m, ma, mac, mc, mca, toOption_eq_some hrun, toOption_eq_some ha, toOption_eq_some hac,
    toOption_eq_some hc, toOption_eq_some hca, ?_, hcommute.2.1⟩
  rw [hcommute.1]

end Manager
end StreamEngine
