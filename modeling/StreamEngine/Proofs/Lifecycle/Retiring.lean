import StreamEngine.Proofs.Lifecycle.Soundness

/-!
# Rewinding and releasing

An element that is rewound or released no longer hears of the accesses that it waited on. Those stay in
flight, and the other elements that wait on them are not disturbed.

- `Element.clearBlocks_takeAccesses` : an element that gives up its accesses may drop its blocks;
- `AccessPool.Leaves` : what remains in flight when one element has left;
- `Coherent.step`, `Coherent.flush`, `Coherent.releaseFront`.
-/

namespace StreamEngine

/-! ## Elements off their accesses -/

namespace Element

/-- An element that has left its accesses may drop its blocks. -/
theorem clearBlocks_takeAccesses (el : Element) :
    el.takeAccesses.2.clearBlocks = .ok { el with blocks := [] } := by
  have hfree : el.takeAccesses.2.blocks.find? (fun b => b.access.isSome) = none := by
    rw [List.find?_eq_none]
    intro b hb
    rcases List.mem_map.1 hb with ⟨c, _, rfl⟩
    exact Bool.false_ne_true
  rw [clearBlocks, hfree]
  rfl

theorem clear_takeAccesses (el : Element) : ∃ el', el.takeAccesses.2.clear = .ok el' :=
  exists_bind_ok el.clearBlocks_takeAccesses ⟨_, rfl⟩

end Element

/-! ## Leaving accesses -/

namespace AccessPool

variable {p p' p'' : AccessPool} {e : ElementId} {a : AccessId}

structure Leaves (e : ElementId) (p p' : AccessPool) : Prop where
  sound : p.slab.Sound → p'.slab.Sound
  serves : ∀ a e' s line, e' ≠ e → p.Serves a e' s line → p'.Serves a e' s line

theorem leaves_deregister (h : p.deregister a e = .ok p') : Leaves e p p' :=
  ⟨fun hp => sound_deregister hp h, fun _ _ _ _ hne hserves => hserves.deregister hne h⟩

theorem Leaves.trans (h : Leaves e p p') (h' : Leaves e p' p'') : Leaves e p p'' :=
  ⟨fun hp => h'.sound (h.sound hp), fun a e' s line hne hserves =>
    h'.serves a e' s line hne (h.serves a e' s line hne hserves)⟩

theorem leaves_deregisterAll {accesses : List AccessId}
    (h : accesses.foldlM (fun p a => p.deregister a e) p = .ok p') : Leaves e p p' := by
  refine foldlM_keeps (fun _ q => Leaves e p q) ?_ ⟨id, fun _ _ _ _ _ => id⟩ h
  intro a rest q q' hleaves hstep
  exact hleaves.trans (leaves_deregister hstep)

end AccessPool

namespace Manager

variable {k : Nat} {M : UInt64 → List UInt8} {failed : List FailedLine} {m m' : Manager}
  {pool : AccessPool} {e : ElementId} {el el' : Element} {s : StreamId} {st : LiveStream}

/-- When an element has left its accesses and waits for nothing, the pool without it is as good. -/
theorem Sound.leave (h : m.Sound k M failed m.accesses.Serves) (hleaves : m.accesses.Leaves e pool)
    (hfree : ∀ el, m.element? e = some el → ∀ b ∈ el.blocks, b.access = none) :
    ({ m with accesses := pool } : Manager).Sound k M failed pool.Serves := by
  refine (h.setServes ?_).setAccesses (hleaves.sound h.registered.accesses)
  intro e' el' hel' hwaits
  by_cases he : e' = e
  · rw [he] at hel'
    exact Element.waits_of_free (hfree el' hel')
  · exact hwaits.mono fun a s line => hleaves.serves a e' s line he

/-! ## Stepping -/

theorem Coherent.step (h : m.Coherent k M failed) {r : Except EngineError ElementId}
    (hstep : m.step s = .ok (r, m')) : m'.Coherent k M failed := by
  rcases step_eq_ok hstep with ⟨_, rfl⟩ | ⟨st, e, el, i, _, _, hel, _, _, _, rfl⟩
  · exact h
  refine ⟨?_, h.resting.putElement hel (h.resting e el hel)⟩
  refine h.sound.putElement hel rfl ?_ fun _ _ => id
  exact (h.sound.element e el hel).setOthers _ _ true _ _

/-! ## Rewinding -/

theorem Coherent.flush (h : m.Coherent k M failed) {aliased : Bool}
    (hflush : m.flush e aliased = .ok m') : m'.Coherent k M failed := by
  rcases flush_eq_ok hflush with ⟨el, pool, hel, hfold, rfl⟩
  have hsound := h.sound.element e el hel
  -- a rewound element has no blocks, so there is nothing to agree with memory
  have hput : ((m.dropPending e).putElement e (el.flush aliased).2).Sound k M failed
      m.accesses.Serves := by
    refine (h.sound.dropPending e).putElement hel rfl ?_ ?_
    · exact Element.sound_of_nil hsound.size_eq rfl rfl
        (fun r hr hloads => (hsound.load r hr hloads).mem) hsound.self
    · -- no computation of the element is under way any more
      rintro ⟨p, hp, he⟩
      have hother := (List.mem_filter.1 hp).2
      simp only [he, ne_eq, not_true_eq_false, decide_false, Bool.false_eq_true] at hother
  refine ⟨hput.leave (AccessPool.leaves_deregisterAll hfold) ?_, ?_⟩
  · intro el' hel' b hb
    have hself := element?_putElement_self (m := m.dropPending e) hel (el.flush aliased).2
    rw [hself] at hel'
    cases hel'
    cases hb
  · refine Resting.putElement (m := m.dropPending e) h.resting hel ?_
    intro b hb
    cases hb

/-! ## Releasing -/

theorem Coherent.releaseFront (h : m.Coherent k M failed) (hrelease : m.releaseFront s = .ok m') :
    m'.Coherent k M failed := by
  rcases releaseFront_eq_ok hrelease with
    ⟨st, e, rest, el, pool, freed, graph, hst, hchain, hel, hfold, _, rfl⟩
  have hreg := h.sound.registered
  have hnodup := hreg.nodup s st hst
  rw [hchain, List.nodup_cons] at hnodup
  let st₁ : LiveStream := { st with chain := rest }
  let shorter : Manager := (m.putStream s st₁).dropPending e
  -- first the chain and the computations let go of the element, then it is freed
  have hshorter : shorter.Sound k M failed m.accesses.Serves := by
    have hput : (m.putStream s st₁).Sound k M failed m.accesses.Serves := by
      refine h.sound.putStream hst rfl hnodup.2 ?_
      intro e' he'
      exact hreg.chained s st hst e' (by rw [hchain]; exact List.mem_cons_of_mem e he')
    exact hput.dropPending e
  let without : Manager := { shorter with elements := m.elements.erase e.val }
  have hwithout : without.Sound k M failed m.accesses.Serves := by
    refine hshorter.eraseElement hel ?_ ?_
    · intro s' st' hst'
      rcases stream?_putStream_cases (m := m) hst' with ⟨_, rfl⟩ | ⟨hsame, hst'⟩
      · exact hnodup.1
      · exact hreg.not_mem_chain hst hchain hst' (Ne.symm hsame)
    · intro p hp
      simpa using (List.mem_filter.1 hp).2
  have hothers : ∀ e' el', without.element? e' = some el' → e' ≠ e ∧ m.element? e' = some el' :=
    fun _ _ => element?_of_erase hel
  have hleft : ({ without with accesses := pool } : Manager).Sound k M failed pool.Serves := by
    refine Sound.leave (m := without) hwithout (AccessPool.leaves_deregisterAll hfold) ?_
    exact fun el' hel' => absurd rfl (hothers e el' hel').1
  exact ⟨hleft.setOthers graph _ _, fun e' el' hel' => h.resting e' el' (hothers e' el' hel').2⟩

end Manager
end StreamEngine
