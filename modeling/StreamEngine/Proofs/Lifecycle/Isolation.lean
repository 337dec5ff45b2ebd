import StreamEngine.Proofs.Lifecycle.Commuting
import StreamEngine.Proofs.Lifecycle.Entering
import StreamEngine.Proofs.Lifecycle.Registration

/-!
# Whom an answer reaches

An answer is for the elements that are registered with its access at that moment. Each of them has just one
block that waits on the access, and only this block, the bytes of its line and the mark of value ready change.
Elements that have been rewound or released in the meantime, or wait on another access now, hear nothing of it.

- `Element.Told` : what the answer makes of an element, field by field;
- `Manager.Isolated` : what it leaves alone everywhere else;
- `run_reply_isolated` : an answer after every run.
-/

namespace StreamEngine

/-- Being registered is having a live entry. -/
theorem Receivers.Tidy.isRegistered_iff {r : Receivers} {e : ElementId} (h : r.Tidy) :
    r.isRegistered e = true ↔ r.Hears e := by
  rw [Receivers.hears_iff h, isRegistered, List.any_eq_true]
  constructor
  · rintro ⟨x, hx, hprop⟩
    rw [Bool.and_eq_true, beq_iff_eq] at hprop
    rcases hprop with ⟨rfl, hlive⟩
    rwa [← hlive]
  · intro hmem
    exact ⟨_, hmem, by rw [beq_self_eq_true]; rfl⟩

/-! ## One element -/

namespace Element

variable {k i : Nat} {el el' : Element} {b : Block} {a : AccessId} {r : Reply} {store : Bool}

/-- The element has been told the answer to the access on which its block `i` waits, and is as before but for
that. -/
structure Told (store : Bool) (a : AccessId) (r : Reply) (i : Nat) (el el' : Element) : Prop where
  /-- The block waits no longer. Unless it is of a store, it is ready, or has failed. -/
  block : ∃ b, el.blocks[i]? = some b ∧ b.access = some a ∧
    el'.blocks[i]? = some { b with access := none, state := if store then b.state else r.state }
  single : ∀ (j : Nat) b, el.blocks[j]? = some b → b.access = some a → j = i
  others : ∀ j, j ≠ i → el'.blocks[j]? = el.blocks[j]?
  /-- The bytes are in the place of the line. -/
  line : ∀ bytes, store = false → r = .data bytes →
    (el'.buffer.drop (el.lineOffset i)).take el.lineSize = bytes
  /-- Other bytes are as before, and so are all if there are no new ones. -/
  bytes : ∀ n, store = true ∨ r = .failure ∨ n < el.lineOffset i ∨ el.lineOffset i + el.lineSize ≤ n →
    el'.buffer[n]? = el.buffer[n]?
  ready : el'.valueReady = (el.valueReady || (!store && el'.isSettled))
  rest : el' = { el with blocks := el'.blocks, buffer := el'.buffer, valueReady := el'.valueReady }

/-- A line that is written is read back, and nothing else is written. -/
theorem overwrite_line {buffer data : List UInt8} {offset : Nat} (h : offset + data.length ≤ buffer.length) :
    ((overwrite buffer offset data).drop offset).take data.length = data ∧
      ∀ n, n < offset ∨ offset + data.length ≤ n → (overwrite buffer offset data)[n]? = buffer[n]? := by
  refine ⟨List.ext_getElem? fun n => ?_, fun n hn => ?_⟩
  · rw [List.getElem?_take, List.getElem?_drop, getElem?_overwrite h]
    by_cases hn : n < data.length
    · rw [if_pos hn, if_pos (by omega), Nat.add_sub_cancel_left]
    · rw [if_neg hn, List.getElem?_eq_none (Nat.le_of_not_lt hn)]
  · rw [getElem?_overwrite h, if_neg (by omega)]

/-- An element that hears of an access is told the answer. -/
theorem Tidy.told_heard (h : el.Tidy k) (hb : el.blocks[i]? = some b) (ha : b.access = some a)
    (hr : r.Fits el.lineSize) (htakes : store = false → el.Takes i r) :
    el.Told store a r i (el.heard store a r) := by
  have hsingle : ∀ (j : Nat) b, el.blocks[j]? = some b → b.access = some a → j = i :=
    fun j b' hb' ha' => h.index_of_access hb ha hb' ha'
  rw [heard_of_some (h.waitIndex_of_access hb ha)]
  cases store with
  | true =>
      refine ⟨⟨b, hb, ha, getElem?_setBlock hb⟩, hsingle, fun j hj => getElem?_setBlock_of_ne hj, ?_,
        fun _ _ => rfl, (Bool.or_false _).symm, rfl⟩
      intro bytes hcontra
      cases hcontra
  | false =>
      -- the bytes of the answer fill the line of the block and nothing else
      have hlines : ∀ bytes, r = .data bytes →
          ((el.received i r).buffer.drop (el.lineOffset i)).take el.lineSize = bytes ∧
            ∀ n, n < el.lineOffset i ∨ el.lineOffset i + el.lineSize ≤ n →
              (el.received i r).buffer[n]? = el.buffer[n]? := by
        rintro bytes rfl
        rcases htakes rfl (fun hcontra => by cases hcontra) with ⟨_, _, _, _, _, hroom⟩
        have hlength : bytes.length = el.lineSize := hr
        rw [← hlength] at hroom ⊢
        exact overwrite_line hroom
      refine ⟨⟨b, hb, ha, ?_⟩, hsingle, fun j hj => getElem?_setBlock_of_ne hj, ?_, ?_, rfl, rfl⟩
      · exact getElem?_setBlock (f := fun b => { b with access := none, state := r.state }) hb
      · exact fun bytes _ hdata => (hlines bytes hdata).1
      · intro n hn
        cases r with
        | failure => rfl
        | data bytes =>
            refine (hlines bytes rfl).2 n ?_
            rcases hn with hcontra | hcontra | hn
            · cases hcontra
            · cases hcontra
            · exact hn

end Element

/-! ## All elements -/

namespace Manager

variable {k : Nat} {m m' : Manager} {e : ElementId} {el : Element} {a : AccessId} {access : Access}
  {r : Reply} {ready : List ElementId} {ops : List Operation} {o : Options}

/-- The answer to an access has been given to the elements that are registered with it, and to nothing else. -/
structure Isolated (m : Manager) (a : AccessId) (access : Access) (r : Reply) (ready : List ElementId)
    (m' : Manager) : Prop where
  gone : m'.accesses.find? a = none
  inFlight : ∀ c, c ≠ a → m'.accesses.find? c = m.accesses.find? c
  rest : m' = { m with elements := m'.elements, accesses := m'.accesses }
  slots : m'.elements.slots.length = m.elements.slots.length ∧ m'.elements.free = m.elements.free
  registered : ∀ e, access.receivers.isRegistered e = true → ∃ el el' i, m.element? e = some el ∧
    m'.element? e = some el' ∧ el.Told (m.ofStore el) a r i el'
  others : ∀ e, access.receivers.isRegistered e = false → m'.element? e = m.element? e
  nodup : ready.Nodup
  reported : ∀ e, e ∈ ready ↔ m'.read Element.valueReady e ≠ m.read Element.valueReady e

/-- Elements that become value ready are those whose mark changes. -/
theorem Orderly.became_ready_iff (h : m.Orderly k) (hr : r.Fits m.options.lineSize)
    (hreply : m.reply a r = .ok (ready, m')) (e : ElementId) :
    m.read Element.valueReady e = some false ∧ m'.read Element.valueReady e = some true ↔
      m'.read Element.valueReady e ≠ m.read Element.valueReady e := by
  cases hel : m.element? e with
  | none => simp only [read, hel, element?_reply_eq_none hreply hel, Option.map_none, reduceCtorEq,
      false_and, ne_eq, not_true_eq_false]
  | some el =>
      simp only [read, hel, (h.element?_reply hr hreply hel).1, Option.map_some, Option.some.injEq, ne_eq]
      cases hready : el.valueReady with
      | true => simp [Element.valueReady_heard hready]
      | false => simp

/-- Whoever is registered with an access has a block that waits on it, and hears the answer. -/
theorem Orderly.told_reply (h : m.Orderly k) (hr : r.Fits m.options.lineSize)
    (hfind : m.accesses.find? a = some access) (hreply : m.reply a r = .ok (ready, m'))
    (hears : access.receivers.Hears e) : ∃ el el' i, m.element? e = some el ∧ m'.element? e = some el' ∧
      el.Told (m.ofStore el) a r i el' := by
  rcases (h.connected.linked.waits_iff a e access.stream access.line).2 ⟨access, hfind, rfl, rfl, hears⟩ with
    ⟨el, hel, _, b, hb, _, ha⟩
  rcases List.mem_iff_getElem?.1 hb with ⟨i, hi⟩
  have htidy := h.connected.linked.tidy e el hel
  rcases h.element?_reply hr hreply hel with ⟨hel', htakes⟩
  have hfits : r.Fits el.lineSize := by
    rw [htidy.size_eq, ← h.connected.size_eq]
    exact hr
  refine ⟨el, _, i, hel, hel', htidy.told_heard hi ha hfits fun hstore => ?_⟩
  exact htakes hstore i (htidy.waitIndex_of_access hi ha)

/-- Whoever is not registered hears nothing. -/
theorem Connected.element?_reply_of_not_hears (h : m.Connected k) (hfind : m.accesses.find? a = some access)
    (hreply : m.reply a r = .ok (ready, m')) (hnot : ¬ access.receivers.Hears e) :
    m'.element? e = m.element? e := by
  cases hel : m.element? e with
  | none => exact element?_reply_eq_none hreply hel
  | some el =>
      rw [reply_eq_answer] at hreply
      rcases h.element?_answer hreply hel with ⟨_, hsame⟩ | ⟨⟨line, hwaits⟩, _⟩
      · exact hsame
      · have hserves := (h.linked.serves_iff hel).2 ⟨rfl, hwaits⟩
        exact absurd ((AccessPool.serves_iff hfind).1 hserves).2.2 hnot

theorem Orderly.isolated (h : m.Orderly k) (hr : r.Fits m.options.lineSize)
    (hfind : m.accesses.find? a = some access) (hreply : m.reply a r = .ok (ready, m')) :
    m.Isolated a access r ready m' := by
  have htidy := h.connected.pool.receivers a access hfind
  rcases h.connected.mem_reply_iff hreply with ⟨hnodup, hmem⟩
  rcases reply_eq_ok hreply with ⟨_, store, _, hdeliver, hshape⟩
  have haccesses : m'.accesses = { slab := m.accesses.slab.erase a.val } := by rw [hshape]
  have hslots := slots_deliver hdeliver
  refine ⟨?_, ?_, ?_, hslots, ?_, ?_, hnodup, ?_⟩
  · rw [haccesses, AccessPool.find?_erase hfind, if_pos rfl]
  · intro c hc
    rw [haccesses, AccessPool.find?_erase hfind, if_neg hc]
  · rw [haccesses]
    exact hshape
  · exact fun e he => h.told_reply hr hfind hreply (htidy.isRegistered_iff.1 he)
  · intro e he
    refine h.connected.element?_reply_of_not_hears hfind hreply fun hears => ?_
    rw [htidy.isRegistered_iff.2 hears] at he
    cases he
  · exact fun e => (hmem e).trans (h.became_ready_iff hr hreply e)

/-- After every run, take an access in flight and an answer to it, the bytes of its line or a failed
translation. If the answer goes through, it takes the access out of flight and reaches the elements that are
registered with it: the one block of each that waits on it, the bytes of this line and the mark of value
ready. Nothing else is changed. What is reported are the elements whose mark has changed, each once, in the
order of the requests in which they registered. -/
theorem run_reply_isolated (hk : k < 64) (hline : o.lineSize = 2 ^ k)
    (hrun : Manager.run { options := o } ops = .ok m) (hr : r.Fits o.lineSize)
    (hreply : m.reply a r = .ok (ready, m')) :
    ∃ access numbered, m.accesses.find? a = some access ∧ m.Isolated a access r ready m' ∧
      Registering o ops m a numbered ∧ ready.Sublist (numbered.map Prod.snd) := by
  have horderly := orderly_run hk hline hrun
  rcases reply_eq_ok hreply with ⟨access, store, hfind, hdeliver, _⟩
  rcases exists_registering hrun a with ⟨numbered, hnumbered⟩
  have hfits : r.Fits m.options.lineSize := by
    rw [horderly.connected.size_eq, ← hline]
    exact hr
  refine ⟨access, numbered, hfind, horderly.isolated hfits hfind hreply, hnumbered, ?_⟩
  rw [hnumbered.list, AccessPool.entered_of_some hfind]
  have hnodup := Receivers.nodup_drain (horderly.connected.pool.receivers a access hfind)
  have hlive : access.receivers.drain.1.Sublist (access.receivers.entries.map Receiver.element) :=
    List.filter_sublist.map Receiver.element
  exact (ready_deliver hnodup hdeliver).1.trans hlive

/-! ## A word that has been rewound -/

/-- Three words share an access, and the second one is rewound. -/
def sharedRun : List Operation :=
  let s : StreamId := { core := 0, staticId := 1, instanceNo := 1 }
  [.configure neighbours, .allocate s, .allocate s, .allocate s] ++
    (List.range 3).flatMap (fun i => [.markAddrReady { val := i }, .issue { val := i }]) ++
    [.flush { val := 1 } false]

/-- The first and the third word become ready, and the second one is left alone. -/
theorem run_reply_isolated_shared :
    ∃ m m', Manager.run { options := {} } sharedRun = .ok m ∧
      m.reply { val := 0 } (.data (List.replicate 64 7)) = .ok ([{ val := 0 }, { val := 2 }], m') ∧
      m'.accesses.find? { val := 0 } = none ∧ m'.element? { val := 1 } = m.element? { val := 1 } ∧
      ∃ el el' i, m.element? { val := 2 } = some el ∧ m'.element? { val := 2 } = some el' ∧
        el.Told (m.ofStore el) { val := 0 } (.data (List.replicate 64 7)) i el' := by
  have hshape : (Manager.run { options := {} } sharedRun).toOption.bind (fun m =>
      (m.reply { val := 0 } (.data (List.replicate 64 7))).toOption.bind fun r =>
        (m.accesses.find? { val := 0 }).map fun access => (r.1,
          access.receivers.isRegistered { val := 1 }, access.receivers.isRegistered { val := 2 })) =
      some ([{ val := 0 }, { val := 2 }], false, true) := by
    decide +kernel
  rcases Option.bind_eq_some_iff.1 hshape with ⟨m, hrun, hshape⟩
  rcases Option.bind_eq_some_iff.1 hshape with ⟨⟨ready, m'⟩, hreply, hshape⟩
  rcases Option.map_eq_some_iff.1 hshape with ⟨access, hfind, hshape⟩
  simp only [Prod.mk.injEq] at hshape
  rcases hshape with ⟨rfl, hrewound, hwaiting⟩
  have hreply := toOption_eq_some hreply
  rcases run_reply_isolated (by decide : 6 < 64) (o := {}) rfl (toOption_eq_some hrun) (by rfl) hreply with
    ⟨access', _, hfind', hisolated, _⟩
  cases (hfind.symm.trans hfind')
  exact ⟨m, m', toOption_eq_some hrun, hreply, hisolated.gone, hisolated.others _ hrewound,
    hisolated.registered _ hwaiting⟩

end Manager
end StreamEngine
