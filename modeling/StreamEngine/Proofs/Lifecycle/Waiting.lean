import StreamEngine.Access
import StreamEngine.Proofs.Element.Filling
import StreamEngine.Proofs.Slabs

/-!
# Waiting for an access

A block that waits on an access expects its line from it, and the access knows the element of the block.

- `Receivers.Hears` : the element gets the answer;
- `AccessPool.Serves` : the access is in flight for a line, and the element gets the answer;
- `Element.Waits` : every block of an element that waits is served.
-/

namespace StreamEngine

theorem AccessId.eq_of_val {a b : AccessId} (h : a.val = b.val) : a = b := by
  cases a
  cases b
  cases h
  rfl

theorem ElementId.eq_of_val {a b : ElementId} (h : a.val = b.val) : a = b := by
  cases a
  cases b
  cases h
  rfl

/-! ## Receivers -/

namespace Receivers

variable {r r' : Receivers} {e e' : ElementId}

/-- The entry of the element is live. Only its first one counts. -/
def Hears (r : Receivers) (e : ElementId) : Prop :=
  ∃ x, r.entries.find? (fun x => x.element = e) = some x ∧ x.live = true

theorem find?_setLive (live : Bool) (entries : List Receiver) :
    (setLive e live entries).find? (fun x => x.element = e') =
      if e' = e then (entries.find? fun x => x.element = e).map fun x => { x with live }
      else entries.find? fun x => x.element = e' := by
  -- only the first entry of an element is replaced, and only that one is found
  induction entries with
  | nil =>
      rw [setLive, List.find?_nil, List.find?_nil]
      split <;> rfl
  | cons x rest ih =>
      rw [setLive]
      by_cases hx : x.element = e
      · rw [if_pos hx]
        by_cases he : e' = e
        · rw [if_pos he, List.find?_cons_of_pos (by simp [hx, he]),
            List.find?_cons_of_pos (by simp [hx])]
          rfl
        · have hne : ¬ e = e' := fun h => he h.symm
          rw [if_neg he, List.find?_cons_of_neg (by simp [hx, hne]),
            List.find?_cons_of_neg (by simp [hx, hne])]
      · rw [if_neg hx]
        by_cases he : e' = e
        · rw [if_pos he] at ih ⊢
          rw [List.find?_cons_of_neg (by simp [hx, he]), List.find?_cons_of_neg (by simp [hx]), ih]
        · rw [if_neg he] at ih ⊢
          by_cases hx' : x.element = e'
          · rw [List.find?_cons_of_pos (by simp [hx']), List.find?_cons_of_pos (by simp [hx'])]
          · rw [List.find?_cons_of_neg (by simp [hx']), List.find?_cons_of_neg (by simp [hx']), ih]

theorem hears_setLive_of_ne (hne : e' ≠ e) (live : Bool) :
    ({ entries := setLive e live r.entries } : Receivers).Hears e' ↔ r.Hears e' := by
  rw [Hears, Hears, find?_setLive, if_neg hne]

theorem register_eq_some (h : r.register e = .ok (some r')) :
    (∃ x, r.entries.find? (fun x => x.element = e) = some x ∧ x.live = false ∧
        r' = { entries := setLive e true r.entries }) ∨
      (r.entries.find? (fun x => x.element = e) = none ∧
        r' = { entries := r.entries ++ [{ element := e, live := true }] }) := by
  rw [register] at h
  cases hfind : r.entries.find? (fun x => x.element = e) with
  | some x =>
      rw [hfind] at h
      cases hlive : x.live with
      | true =>
          simp only [hlive, if_true] at h
          cases h
      | false =>
          simp only [hlive, Bool.false_eq_true, if_false] at h
          cases h
          exact Or.inl ⟨x, rfl, hlive, rfl⟩
  | none =>
      rw [hfind] at h
      by_cases hfull : r.size = maxReceivers
      · simp only [if_pos hfull] at h
        cases h
      · simp only [if_neg hfull] at h
        cases h
        exact Or.inr ⟨rfl, rfl⟩

/-- Registering is refused only to an element without an entry, when the list is full. -/
theorem register_eq_none (h : r.register e = .ok none) :
    r.entries.find? (fun x => x.element = e) = none ∧ r.size = maxReceivers := by
  rw [register] at h
  cases hfind : r.entries.find? (fun x => x.element = e) with
  | some x =>
      rw [hfind] at h
      cases hlive : x.live with
      | true =>
          simp only [hlive, if_true] at h
          cases h
      | false =>
          simp only [hlive, Bool.false_eq_true, if_false] at h
          cases h
  | none =>
      rw [hfind] at h
      by_cases hfull : r.size = maxReceivers
      · exact ⟨rfl, hfull⟩
      · simp only [if_neg hfull] at h
        cases h

/-- Registering adds the element, which was not heard before, and nobody else drops out. -/
theorem hears_register (h : r.register e = .ok (some r')) :
    ¬ r.Hears e ∧ r'.Hears e ∧ ∀ e', r.Hears e' → r'.Hears e' := by
  rcases register_eq_some h with ⟨x, hfind, hlive, rfl⟩ | ⟨hfind, rfl⟩
  · have hself : ({ entries := setLive e true r.entries } : Receivers).Hears e := by
      refine ⟨{ x with live := true }, ?_, rfl⟩
      rw [find?_setLive, if_pos rfl, hfind]
      rfl
    refine ⟨?_, hself, ?_⟩
    · rintro ⟨y, hy, hy'⟩
      rw [hfind] at hy
      cases hy
      rw [hlive] at hy'
      cases hy'
    · intro e' he'
      by_cases hsame : e' = e
      · rw [hsame]
        exact hself
      · exact (hears_setLive_of_ne hsame true).2 he'
  · refine ⟨?_, ?_, ?_⟩
    · rintro ⟨y, hy, _⟩
      rw [hfind] at hy
      cases hy
    · refine ⟨{ element := e, live := true }, ?_, rfl⟩
      rw [List.find?_append, hfind, Option.none_or, List.find?_cons_of_pos (by simp)]
    · rintro e' ⟨y, hy, hy'⟩
      refine ⟨y, ?_, hy'⟩
      rw [List.find?_append, hy]
      rfl

theorem hears_deregister (h : r.deregister e = .ok r') (hne : e' ≠ e) (hears : r.Hears e') :
    r'.Hears e' := by
  rw [deregister] at h
  split at h
  · split at h
    · cases h
      exact (hears_setLive_of_ne hne false).2 hears
    · cases h
  · cases h

theorem mem_drain (h : r.Hears e) : e ∈ r.drain.1 := by
  rcases h with ⟨x, hx, hlive⟩
  have helement : x.element = e := by
    have hprop := List.find?_some hx
    rwa [decide_eq_true_eq] at hprop
  rw [drain, ← helement]
  exact List.mem_map_of_mem (List.mem_filter.2 ⟨List.mem_of_find?_eq_some hx, hlive⟩)

/-- Where there is room for the element, registering is not refused. -/
theorem register_ne_none (h : r.hasRoomFor e = true) : r.register e ≠ .ok none := by
  intro hnone
  rcases register_eq_none hnone with ⟨hfind, hfull⟩
  have hentry : r.hasEntry e = false := by
    rw [hasEntry, List.any_eq_false]
    intro x hx
    simpa using List.find?_eq_none.1 hfind x hx
  rw [hasRoomFor, hentry, Bool.or_false, decide_eq_true_eq] at h
  omega

theorem hasRoomFor_of_hears (h : r.Hears e) : r.hasRoomFor e = true := by
  rcases h with ⟨x, hx, _⟩
  rw [hasRoomFor, hasEntry, Bool.or_eq_true]
  right
  rw [List.any_eq_true]
  have hprop := List.find?_some hx
  exact ⟨x, List.mem_of_find?_eq_some hx, by simpa using hprop⟩

end Receivers

/-! ## Accesses in flight -/

namespace AccessPool

variable {p p' : AccessPool} {a a' : AccessId} {access access' : Access} {e e' : ElementId}
  {s : StreamId} {line : UInt64}

/-- The access brings in this line for this stream, and the element gets the answer. -/
def Serves (p : AccessPool) (a : AccessId) (e : ElementId) (s : StreamId) (line : UInt64) : Prop :=
  ∃ access, p.find? a = some access ∧ access.stream = s ∧ access.line = line ∧
    access.receivers.Hears e

theorem get_eq_ok : p.get a = .ok access ↔ p.find? a = some access := by
  rw [get]
  cases p.find? a with
  | none =>
      constructor
      · intro h
        cases h
      · intro h
        cases h
  | some found =>
      constructor
      · intro h
        cases h
        rfl
      · intro h
        cases h
        rfl

theorem find?_put (h : p.find? a = some access) (access' : Access) (a' : AccessId) :
    (p.put a access').find? a' = if a' = a then some access' else p.find? a' := by
  rw [find?, put, Slab.get?_replace h]
  by_cases ha : a' = a
  · rw [if_pos ha, if_pos (congrArg AccessId.val ha)]
  · rw [if_neg ha, if_neg fun hval => ha (AccessId.eq_of_val hval)]
    rfl

theorem find?_alloc (h : p.slab.Sound) (access : Access) (a' : AccessId) :
    (p.alloc access).2.find? a' = if a' = (p.alloc access).1 then some access else p.find? a' := by
  rw [find?, alloc, Slab.get?_insert h]
  by_cases ha : a'.val = (p.slab.insert access).1
  · rw [if_pos ha, if_pos (AccessId.eq_of_val ha)]
  · rw [if_neg ha, if_neg fun heq => ha (congrArg AccessId.val heq)]
    rfl

theorem find?_alloc_eq_none (h : p.slab.Sound) (access : Access) :
    p.find? (p.alloc access).1 = none :=
  Slab.get?_insert_self_eq_none h access

theorem find?_erase (h : p.find? a = some access) (a' : AccessId) :
    (AccessPool.mk (p.slab.erase a.val)).find? a' = if a' = a then none else p.find? a' := by
  rw [find?, Slab.get?_erase h]
  by_cases ha : a' = a
  · rw [if_pos ha, if_pos (congrArg AccessId.val ha)]
  · rw [if_neg ha, if_neg fun hval => ha (AccessId.eq_of_val hval)]
    rfl

/-- Whom an access serves after it is replaced by one for the same line. -/
theorem Serves.put (h : p.Serves a' e s line) (hfind : p.find? a = some access)
    (hstream : access'.stream = access.stream) (hline : access'.line = access.line)
    (hears : a' = a → access.receivers.Hears e → access'.receivers.Hears e) :
    (p.put a access').Serves a' e s line := by
  rcases h with ⟨found, hfound, hs, hl, he⟩
  by_cases ha : a' = a
  · rw [ha, hfind] at hfound
    cases hfound
    refine ⟨access', ?_, hstream.trans hs, hline.trans hl, hears ha he⟩
    rw [find?_put hfind, if_pos ha]
  · refine ⟨found, ?_, hs, hl, he⟩
    rw [find?_put hfind, if_neg ha]
    exact hfound

/-- An access that goes does not disturb the others. -/
theorem Serves.erase (h : p.Serves a' e s line) (hfind : p.find? a = some access) (hne : a' ≠ a) :
    (AccessPool.mk (p.slab.erase a.val)).Serves a' e s line := by
  rcases h with ⟨found, hfound, hrest⟩
  refine ⟨found, ?_, hrest⟩
  rw [find?_erase hfind, if_neg hne]
  exact hfound

/-- An element that drops out of an access does not disturb the others. -/
theorem Serves.deregister (h : p.Serves a' e s line) (hne : e ≠ e')
    (hp : p.deregister a e' = .ok p') : p'.Serves a' e s line := by
  rcases bind_eq_ok.1 hp with ⟨access, hget, hp⟩
  rcases bind_eq_ok.1 hp with ⟨access', hderegister, hp⟩
  rcases bind_eq_ok.1 hderegister with ⟨receivers, hreceivers, hderegister⟩
  cases hderegister
  cases hp
  exact h.put (get_eq_ok.1 hget) rfl rfl fun _ he => Receivers.hears_deregister hreceivers hne he

theorem sound_deregister (h : p.slab.Sound) (hp : p.deregister a e = .ok p') : p'.slab.Sound := by
  rcases bind_eq_ok.1 hp with ⟨access, hget, hp⟩
  rcases bind_eq_ok.1 hp with ⟨access', _, hp⟩
  cases hp
  exact h.replace (get_eq_ok.1 hget) access'

end AccessPool

/-! ## Elements that wait -/

namespace Element

variable {serves serves' : AccessId → ElementId → StreamId → UInt64 → Prop} {e : ElementId}
  {el el' : Element}

/-- Every block that waits on an access is served by it, and no other block waits on the same one. -/
structure Waits (serves : AccessId → ElementId → StreamId → UInt64 → Prop) (e : ElementId)
    (el : Element) : Prop where
  served : ∀ b ∈ el.blocks, ∀ a, b.access = some a → serves a e el.stream b.line
  once : ∀ (i j : Nat) (b c : Block) (a : AccessId), el.blocks[i]? = some b →
    el.blocks[j]? = some c → b.access = some a → c.access = some a → i = j

theorem waits_of_free (h : ∀ b ∈ el.blocks, b.access = none) : el.Waits serves e where
  served := by
    intro b hb a ha
    rw [h b hb] at ha
    cases ha
  once := by
    intro i j b c a hb _ ha
    rw [h b (List.mem_of_getElem? hb)] at ha
    cases ha

theorem Waits.mono (h : el.Waits serves e)
    (hserves : ∀ a s line, serves a e s line → serves' a e s line) : el.Waits serves' e :=
  ⟨fun b hb a ha => hserves a _ _ (h.served b hb a ha), h.once⟩

theorem Waits.advances (h : el.Waits serves e) (hadv : el.Advances el') : el'.Waits serves e where
  served := by
    intro b' hb' a ha
    rcases List.mem_iff_getElem?.1 hb' with ⟨j, hj⟩
    rcases hadv.block j b' hj with ⟨b, hb, hblock⟩
    have hstream : el'.stream = el.stream := by rw [hadv.shape]
    rw [hblock.line_eq, hstream]
    exact h.served b (List.mem_of_getElem? hb) a (hblock.access_eq ▸ ha)
  once := by
    intro i j b' c' a hb' hc' ha hc
    rcases hadv.block i b' hb' with ⟨b, hb, hblock⟩
    rcases hadv.block j c' hc' with ⟨c, hc₀, hblock'⟩
    exact h.once i j b c a hb hc₀ (hblock.access_eq ▸ ha) (hblock'.access_eq ▸ hc)

/-- A block of an element that waits on no other block's access may wait on a new one. -/
theorem Waits.attach (h : el.Waits serves e) {i : Nat} {b : Block} {a : AccessId}
    (hb : el.blocks[i]? = some b) (hfree : ∀ c ∈ el.blocks, c.access ≠ some a)
    (hserves : serves a e el.stream b.line) :
    (el.setBlock i fun b => { b with access := some a, state := .issued }).Waits serves e := by
  -- a block is the one that was attached, or an old one
  have hblock : ∀ j c, (el.setBlock i fun b => { b with access := some a, state := .issued }).blocks[j]? =
      some c → j = i ∧ c.line = b.line ∧ c.access = some a ∨ j ≠ i ∧ el.blocks[j]? = some c := by
    intro j c hc
    rcases setBlock_block hc with ⟨c₀, hc₀, ⟨rfl, rfl⟩ | ⟨hji, rfl⟩⟩
    · rw [hb] at hc₀
      cases hc₀
      exact Or.inl ⟨rfl, rfl, rfl⟩
    · exact Or.inr ⟨hji, hc₀⟩
  refine ⟨?_, ?_⟩
  · intro c hc a' ha'
    rcases List.mem_iff_getElem?.1 hc with ⟨j, hj⟩
    rcases hblock j c hj with ⟨_, hline, haccess⟩ | ⟨_, hold⟩
    · rw [haccess] at ha'
      cases ha'
      rw [hline]
      exact hserves
    · exact h.served c (List.mem_of_getElem? hold) a' ha'
  · intro j j' c c' a' hc hc' ha ha'
    rcases hblock j c hc with ⟨hj, _, haccess⟩ | ⟨_, hold⟩
    · rcases hblock j' c' hc' with ⟨hj', _, _⟩ | ⟨_, hold'⟩
      · rw [hj, hj']
      · rw [haccess] at ha
        cases ha
        exact absurd ha' (hfree c' (List.mem_of_getElem? hold'))
    · rcases hblock j' c' hc' with ⟨_, _, haccess'⟩ | ⟨_, hold'⟩
      · rw [haccess'] at ha'
        cases ha'
        exact absurd ha (hfree c (List.mem_of_getElem? hold))
      · exact h.once j j' c c' a' hold hold' ha ha'

theorem Waits.setState (h : el.Waits serves e) (i : Nat) (state : BlockState) :
    (el.setBlock i fun b => { b with state }).Waits serves e := by
  have hold : ∀ (j : Nat) (b' : Block),
      (el.setBlock i fun b => { b with state }).blocks[j]? = some b' →
        ∃ b : Block, el.blocks[j]? = some b ∧ b'.line = b.line ∧ b'.access = b.access := by
    intro j b' hj
    rcases setBlock_block hj with ⟨b, hb, ⟨_, rfl⟩ | ⟨_, rfl⟩⟩
    · exact ⟨b, hb, rfl, rfl⟩
    · exact ⟨_, hb, rfl, rfl⟩
  refine ⟨?_, ?_⟩
  · intro b' hb' a ha
    rcases List.mem_iff_getElem?.1 hb' with ⟨j, hj⟩
    rcases hold j b' hj with ⟨b, hb, hline, haccess⟩
    rw [hline]
    exact h.served b (List.mem_of_getElem? hb) a (haccess ▸ ha)
  · intro j j' b' c' a hb' hc' ha hc
    rcases hold j b' hb' with ⟨b, hb, _, haccess⟩
    rcases hold j' c' hc' with ⟨c, hc₀, _, haccess'⟩
    exact h.once j j' b c a hb hc₀ (haccess ▸ ha) (haccess' ▸ hc)

/-- Once its block is taken off an access, an element does not wait on that access any more. -/
theorem Waits.detach (h : el.Waits serves e) {i : Nat} {b : Block} {a : AccessId}
    (hb : el.blocks[i]? = some b) (ha : b.access = some a)
    (hserves : ∀ a' s line, a' ≠ a → serves a' e s line → serves' a' e s line) :
    (el.setBlock i fun b => { b with access := none }).Waits serves' e := by
  have hblock : ∀ j c a', (el.setBlock i fun b => { b with access := none }).blocks[j]? = some c →
      c.access = some a' → j ≠ i ∧ el.blocks[j]? = some c := by
    intro j c a' hc hc'
    rcases setBlock_block hc with ⟨c₀, hc₀, ⟨_, rfl⟩ | ⟨hji, rfl⟩⟩
    · cases hc'
    · exact ⟨hji, hc₀⟩
  refine ⟨?_, ?_⟩
  · intro c hc a' ha'
    rcases List.mem_iff_getElem?.1 hc with ⟨j, hj⟩
    rcases hblock j c a' hj ha' with ⟨hji, hold⟩
    refine hserves a' _ _ ?_ (h.served c (List.mem_of_getElem? hold) a' ha')
    rintro rfl
    exact hji (h.once j i c b a' hold hb ha' ha)
  · intro j j' c c' a' hc hc' hac hac'
    exact h.once j j' c c' a' (hblock j c a' hc hac).2 (hblock j' c' a' hc' hac').2 hac hac'

end Element
end StreamEngine
