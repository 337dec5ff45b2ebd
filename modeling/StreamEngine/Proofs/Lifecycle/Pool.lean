import Mathlib.Data.List.Nodup
import StreamEngine.Proofs.Lifecycle.Waiting

/-!
# Receiver lists and the pool

A receiver list has one entry for each element that ever registered, so registering, leaving and
answering change nothing but the element that they are about.

- `Receivers.Tidy` : one entry for an element, and no more entries than fit;
- `register_ok`, `deregister_ok` : both succeed where they should;
- `AccessPool.Tidy` : tidy lists and an exact slab;
- `serves_register`, `serves_alloc`, `serves_erase`, `deregisterAll_ok` : whom a pool serves after a
  change.
-/

namespace StreamEngine

/-! ## Receivers -/

namespace Receivers

variable {r r' : Receivers} {e e' : ElementId}

structure Tidy (r : Receivers) : Prop where
  nodup : (r.entries.map Receiver.element).Nodup
  length_le : r.entries.length ≤ maxReceivers

theorem tidy_empty : ({} : Receivers).Tidy where
  nodup := List.nodup_nil
  length_le := Nat.zero_le _

theorem map_element_setLive (e : ElementId) (live : Bool) (entries : List Receiver) :
    (setLive e live entries).map Receiver.element = entries.map Receiver.element := by
  induction entries with
  | nil => rfl
  | cons x rest ih =>
      rw [setLive]
      by_cases hx : x.element = e
      · simp only [if_pos hx, List.map_cons]
      · simp only [if_neg hx, List.map_cons, ih]

/-- Whether an entry is live does not matter for the shape of the list. -/
theorem Tidy.setLive (h : r.Tidy) (e : ElementId) (live : Bool) :
    ({ entries := Receivers.setLive e live r.entries } : Receivers).Tidy := by
  have hmap := map_element_setLive e live r.entries
  refine ⟨?_, ?_⟩
  · simpa only [hmap] using h.nodup
  · have hlength := congrArg List.length hmap
    simp only [List.length_map] at hlength
    simpa only [hlength] using h.length_le

theorem not_mem_of_find?_eq_none {entries : List Receiver}
    (h : entries.find? (fun x => x.element = e) = none) : e ∉ entries.map Receiver.element := by
  intro hmem
  rcases List.mem_map.1 hmem with ⟨x, hx, hxe⟩
  simpa [hxe] using List.find?_eq_none.1 h x hx

theorem Tidy.register (h : r.Tidy) (hregister : r.register e = .ok (some r')) : r'.Tidy := by
  rcases register_eq_some hregister with ⟨x, _, _, rfl⟩ | ⟨hfind, rfl⟩
  · exact h.setLive e true
  refine ⟨?_, ?_⟩
  · simpa [List.nodup_append, not_mem_of_find?_eq_none hfind] using
      ⟨h.nodup, fun x hx hxe => not_mem_of_find?_eq_none hfind (List.mem_map.2 ⟨x, hx, hxe⟩)⟩
  · -- a full list takes no new entry
    have hroom : r.size ≠ maxReceivers := by
      intro hfull
      rw [Receivers.register, hfind] at hregister
      simp only [if_pos hfull] at hregister
      cases hregister
    have hle := h.length_le
    simp only [size] at hroom
    simp only [List.length_append, List.length_singleton]
    omega

/-- An element that is not heard can register if there is room for it. -/
theorem register_ok (hnot : ¬ r.Hears e) (hroom : r.hasRoomFor e = true) :
    ∃ r', r.register e = .ok (some r') := by
  cases hregister : r.register e with
  | ok found =>
      cases found with
      | none => exact absurd hregister (register_ne_none hroom)
      | some r' => exact ⟨r', rfl⟩
  | error f =>
      exfalso
      rw [register] at hregister
      cases hfind : r.entries.find? (fun x => x.element = e) with
      | none =>
          rw [hfind] at hregister
          by_cases hfull : r.size = maxReceivers
          · simp only [if_pos hfull] at hregister
            cases hregister
          · simp only [if_neg hfull] at hregister
            cases hregister
      | some x =>
          cases hlive : x.live with
          | true => exact hnot ⟨x, hfind, hlive⟩
          | false =>
              simp only [hfind, hlive, Bool.false_eq_true, if_false] at hregister
              cases hregister

theorem hears_register_iff (h : r.register e = .ok (some r')) :
    r'.Hears e' ↔ r.Hears e' ∨ e' = e := by
  rcases hears_register h with ⟨_, hself, hold⟩
  constructor
  · intro hears
    by_cases he : e' = e
    · exact Or.inr he
    left
    rcases register_eq_some h with ⟨x, _, _, rfl⟩ | ⟨hfind, rfl⟩
    · exact (hears_setLive_of_ne he true).1 hears
    · -- the new entry is not the one of `e'`
      rcases hears with ⟨y, hy, hlive⟩
      have hne : ¬ e = e' := fun hsame => he hsame.symm
      rw [List.find?_append, List.find?_cons_of_neg (by simpa using hne), List.find?_nil,
        Option.or_none] at hy
      exact ⟨y, hy, hlive⟩
  · rintro (hears | rfl)
    · exact hold e' hears
    · exact hself

/-- An element that is heard can leave. -/
theorem deregister_ok (h : r.Hears e) :
    r.deregister e = .ok { entries := setLive e false r.entries } := by
  rcases h with ⟨x, hfind, hlive⟩
  simp only [deregister, hfind, hlive, if_true]

theorem hears_setLive_false :
    ({ entries := setLive e false r.entries } : Receivers).Hears e' ↔ r.Hears e' ∧ e' ≠ e := by
  by_cases he : e' = e
  · constructor
    · rintro ⟨y, hy, hlive⟩
      rw [find?_setLive, if_pos he] at hy
      rcases Option.map_eq_some_iff.1 hy with ⟨x, _, rfl⟩
      cases hlive
    · exact fun h => absurd he h.2
  · rw [hears_setLive_of_ne he]
    exact ⟨fun h => ⟨h, he⟩, And.left⟩

/-! ## Who is notified -/

/-- In a tidy list the first entry of an element is its only one. -/
theorem hears_iff (h : r.Tidy) : r.Hears e ↔ { element := e, live := true } ∈ r.entries := by
  constructor
  · rintro ⟨x, hx, hlive⟩
    have hxe : x.element = e := by simpa using List.find?_some hx
    have hmem := List.mem_of_find?_eq_some hx
    cases x
    simp only at hxe hlive
    rwa [hxe, hlive] at hmem
  · intro hmem
    cases hfind : r.entries.find? (fun x => x.element = e) with
    | none =>
        exact absurd (List.mem_map.2 ⟨_, hmem, rfl⟩) (not_mem_of_find?_eq_none hfind)
    | some x =>
        have hxe : x.element = e := by simpa using List.find?_some hfind
        have hsame : x = { element := e, live := true } :=
          List.inj_on_of_nodup_map h.nodup (List.mem_of_find?_eq_some hfind) hmem hxe
        exact ⟨x, hfind, by rw [hsame]⟩

theorem mem_drain_iff (h : r.Tidy) : e ∈ r.drain.1 ↔ r.Hears e := by
  refine ⟨?_, mem_drain⟩
  intro hmem
  rcases List.mem_map.1 hmem with ⟨x, hx, rfl⟩
  rcases List.mem_filter.1 hx with ⟨hx, hlive⟩
  refine (hears_iff h).2 ?_
  cases x
  simp only at hlive
  rwa [hlive] at hx

theorem nodup_drain (h : r.Tidy) : r.drain.1.Nodup :=
  h.nodup.sublist (List.filter_sublist.map Receiver.element)

/-- A registered element is registered once. -/
theorem countP_eq_one (h : r.Tidy) (hears : r.Hears e) :
    r.entries.countP (fun x => x.element == e && x.live) = 1 := by
  have hmem := (hears_iff h).1 hears
  have hcount : r.entries.countP (fun x => x.element == e && x.live) =
      r.entries.count { element := e, live := true } := by
    rw [List.count]
    refine List.countP_congr fun x _ => ?_
    cases x
    simp
  rw [hcount]
  exact List.count_eq_one_of_mem (List.Nodup.of_map _ h.nodup) hmem

end Receivers

/-! ## The pool -/

namespace AccessPool

variable {p p' : AccessPool} {a a' : AccessId} {access : Access} {e e' : ElementId}
  {s : StreamId} {line : UInt64} {r : Receivers}

structure Tidy (p : AccessPool) : Prop where
  slab : p.slab.Exact
  receivers : ∀ a access, p.find? a = some access → access.receivers.Tidy

theorem tidy_empty : ({} : AccessPool).Tidy where
  slab := Slab.exact_empty
  receivers := by
    intro a access h
    cases h

theorem Tidy.put (h : p.Tidy) (hfind : p.find? a = some access) (hr : r.Tidy) :
    (p.put a { access with receivers := r }).Tidy where
  slab := h.slab.replace hfind _
  receivers := by
    intro a' access' hfind'
    rw [find?_put hfind] at hfind'
    by_cases ha : a' = a
    · rw [if_pos ha] at hfind'
      cases hfind'
      exact hr
    · rw [if_neg ha] at hfind'
      exact h.receivers a' access' hfind'

theorem Tidy.alloc (h : p.Tidy) (hr : access.receivers.Tidy) : (p.alloc access).2.Tidy where
  slab := h.slab.insert access
  receivers := by
    intro a' access' hfind'
    rw [find?_alloc h.slab.sound] at hfind'
    by_cases ha : a' = (p.alloc access).1
    · rw [if_pos ha] at hfind'
      cases hfind'
      exact hr
    · rw [if_neg ha] at hfind'
      exact h.receivers a' access' hfind'

theorem Tidy.erase (h : p.Tidy) (hfind : p.find? a = some access) :
    (AccessPool.mk (p.slab.erase a.val)).Tidy where
  slab := h.slab.erase hfind
  receivers := by
    intro a' access' hfind'
    rw [find?_erase hfind] at hfind'
    by_cases ha : a' = a
    · rw [if_pos ha] at hfind'
      cases hfind'
    · rw [if_neg ha] at hfind'
      exact h.receivers a' access' hfind'

/-! ## Whom a pool serves -/

/-- Changing the receivers of one access changes only whom that access serves. -/
theorem serves_put (hfind : p.find? a = some access) :
    (p.put a { access with receivers := r }).Serves a' e' s line ↔
      a' = a ∧ s = access.stream ∧ line = access.line ∧ r.Hears e' ∨
        a' ≠ a ∧ p.Serves a' e' s line := by
  rw [Serves, find?_put hfind]
  by_cases ha : a' = a
  · simp [ha, eq_comm]
  · simp [ha, Serves]

theorem serves_iff (hfind : p.find? a = some access) :
    p.Serves a e s line ↔ s = access.stream ∧ line = access.line ∧ access.receivers.Hears e := by
  simp only [Serves, hfind, Option.some.injEq, exists_eq_left', eq_comm]

theorem serves_register (hfind : p.find? a = some access)
    (h : access.receivers.register e = .ok (some r)) :
    (p.put a { access with receivers := r }).Serves a' e' s line ↔
      p.Serves a' e' s line ∨ a' = a ∧ e' = e ∧ s = access.stream ∧ line = access.line := by
  rw [serves_put hfind, Receivers.hears_register_iff h]
  by_cases ha : a' = a
  · rw [ha, serves_iff hfind]
    tauto
  · tauto

theorem serves_alloc (h : p.slab.Sound) (hnone : access.receivers = {}) :
    (p.alloc access).2.Serves a e s line ↔ p.Serves a e s line := by
  rw [Serves, find?_alloc h]
  by_cases ha : a = (p.alloc access).1
  · -- nobody hears of a new access yet, and there was none of its key before
    rw [if_pos ha, Serves, ha, find?_alloc_eq_none h]
    constructor
    · rintro ⟨found, hfound, _, _, x, hx, _⟩
      cases hfound
      rw [hnone] at hx
      cases hx
    · rintro ⟨found, hfound, _⟩
      cases hfound
  · rw [if_neg ha, Serves]

theorem serves_erase (hfind : p.find? a = some access) :
    (AccessPool.mk (p.slab.erase a.val)).Serves a' e s line ↔ a' ≠ a ∧ p.Serves a' e s line := by
  rw [Serves, find?_erase hfind]
  by_cases ha : a' = a
  · simp [ha]
  · simp [ha, Serves]

/-- An element that is served can leave, and only that element is not served any more. -/
theorem deregister_ok (h : p.Tidy) (hserves : p.Serves a e s line) :
    ∃ p', p.deregister a e = .ok p' ∧ p'.Tidy ∧
      ∀ a' e' s' line', p'.Serves a' e' s' line' ↔
        p.Serves a' e' s' line' ∧ ¬ (a' = a ∧ e' = e) := by
  rcases hserves with ⟨access, hfind, _, _, hears⟩
  refine ⟨p.put a { access with
    receivers := { entries := Receivers.setLive e false access.receivers.entries } }, ?_, ?_, ?_⟩
  · refine bind_eq_ok.2 ⟨access, get_eq_ok.2 hfind, bind_eq_ok.2 ⟨_, ?_, rfl⟩⟩
    exact bind_eq_ok.2 ⟨_, Receivers.deregister_ok hears, rfl⟩
  · exact h.put hfind ((h.receivers a access hfind).setLive e false)
  · intro a' e' s' line'
    rw [serves_put hfind, Receivers.hears_setLive_false]
    by_cases ha : a' = a
    · rw [ha, serves_iff hfind]
      tauto
    · tauto

/-- An element that is served by several accesses can leave all of them. -/
theorem deregisterAll_ok {accesses : List AccessId} (h : p.Tidy) (hnodup : accesses.Nodup)
    (hserves : ∀ a ∈ accesses, ∃ s line, p.Serves a e s line) :
    ∃ p', accesses.foldlM (fun p a => p.deregister a e) p = .ok p' ∧ p'.Tidy ∧
      ∀ a' e' s' line', p'.Serves a' e' s' line' ↔
        p.Serves a' e' s' line' ∧ ¬ (a' ∈ accesses ∧ e' = e) := by
  induction accesses generalizing p with
  | nil => exact ⟨p, rfl, h, fun a' e' s' line' => by simp⟩
  | cons a rest ih =>
      rcases List.nodup_cons.1 hnodup with ⟨hnot, hrest⟩
      rcases hserves a (List.mem_cons_self ..) with ⟨s, line, ha⟩
      rcases deregister_ok h ha with ⟨p₁, hp₁, htidy₁, hserves₁⟩
      -- the accesses that are left still serve the element
      have hleft : ∀ a' ∈ rest, ∃ s line, p₁.Serves a' e s line := by
        intro a' ha'
        rcases hserves a' (List.mem_cons_of_mem a ha') with ⟨s', line', hs'⟩
        refine ⟨s', line', (hserves₁ a' e s' line').2 ⟨hs', ?_⟩⟩
        rintro ⟨rfl, _⟩
        exact hnot ha'
      rcases ih htidy₁ hrest hleft with ⟨p₂, hp₂, htidy₂, hserves₂⟩
      refine ⟨p₂, ?_, htidy₂, ?_⟩
      · rw [List.foldlM_cons]
        exact bind_eq_ok.2 ⟨p₁, hp₁, hp₂⟩
      · intro a' e' s' line'
        rw [hserves₂, hserves₁, List.mem_cons]
        tauto

end AccessPool
end StreamEngine
