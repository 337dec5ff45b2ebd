import StreamEngine.Proofs.Lifecycle.Origins

/-!
# Computations under way

An element says of itself that a computation of its own is under way, and the manager keeps a list of those
computations. The two agree, and no element has more than one.

- `Manager.Scheduled` : the elements that say so are those of the list, each of which is there once;
- `Scheduled.alike`, `Scheduled.add`, `Scheduled.drop` : the ways in which the list changes;
- `Scheduled.apply` : every operation keeps list and elements in agreement.
-/

namespace StreamEngine

theorem Element.steady_computeScheduled : Element.Steady Element.computeScheduled :=
  fun _ _ _ _ _ => rfl

namespace Manager

variable {m m' : Manager} {e e' : ElementId} {el el' : Element} {s : StreamId} {v : StreamValue}

/-- The elements of the computations under way. -/
def computing (m : Manager) : List ElementId :=
  m.pending.map PendingCompute.element

structure Scheduled (m : Manager) : Prop where
  nodup : m.computing.Nodup
  read_iff : ∀ e, m.read Element.computeScheduled e = some true ↔ e ∈ m.computing

theorem scheduled_new (o : Options) : ({ options := o } : Manager).Scheduled where
  nodup := List.nodup_nil
  read_iff := by
    intro e
    refine iff_of_false ?_ List.not_mem_nil
    intro hread
    cases hread

theorem Scheduled.iff (h : m.Scheduled) (hel : m.element? e = some el) :
    el.computeScheduled = true ↔ e ∈ m.computing := by
  rw [← h.read_iff, read, hel, Option.map_some, Option.some.injEq]

/-! ## Changes of the list -/

theorem Scheduled.congr (h : m.Scheduled) (hpending : m'.pending = m.pending)
    (hread : ∀ e, m'.read Element.computeScheduled e = some true ↔
      m.read Element.computeScheduled e = some true) : m'.Scheduled := by
  have hcomputing : m'.computing = m.computing := by rw [computing, hpending, computing]
  refine ⟨hcomputing ▸ h.nodup, ?_⟩
  intro e
  rw [hread, hcomputing]
  exact h.read_iff e

theorem Scheduled.alike (h : m.Scheduled) (halike : Alike Element.computeScheduled m m') :
    m'.Scheduled :=
  h.congr halike.pending_eq fun e => by rw [halike.read_eq]

/-- A computation begins. -/
theorem Scheduled.add (h : m.Scheduled) (hel : m.element? e = some el) (hidle : el.computeScheduled = false)
    (p : PendingCompute) (hp : p.element = e)
    (hpending : m'.pending = m.pending ++ [p])
    (hself : m'.read Element.computeScheduled e = some true)
    (hothers : ∀ e', e' ≠ e → m'.read Element.computeScheduled e' = m.read Element.computeScheduled e') :
    m'.Scheduled := by
  have hcomputing : m'.computing = m.computing ++ [e] := by
    rw [computing, hpending, List.map_append, computing, List.map_singleton, hp]
  have hnot : e ∉ m.computing := by
    intro hmem
    rw [← h.iff hel, hidle] at hmem
    cases hmem
  refine ⟨?_, ?_⟩
  · rw [hcomputing]
    exact h.nodup.append (List.nodup_singleton e) (List.disjoint_singleton.2 hnot)
  · intro e'
    rw [hcomputing, List.mem_append, List.mem_singleton]
    by_cases he : e' = e
    · rw [he, hself]
      exact iff_of_true rfl (Or.inr rfl)
    · rw [hothers e' he, h.read_iff e']
      exact (or_iff_left he).symm

/-- The computation of an element is forgotten. -/
theorem Scheduled.drop (h : m.Scheduled) (hpending : m'.pending = (m.dropPending e).pending)
    (hself : m'.read Element.computeScheduled e ≠ some true)
    (hothers : ∀ e', e' ≠ e → m'.read Element.computeScheduled e' = m.read Element.computeScheduled e') :
    m'.Scheduled := by
  have hcomputing : m'.computing = m.computing.filter fun e' => e' ≠ e := by
    rw [computing, hpending, computing, List.filter_map]
    rfl
  refine ⟨?_, ?_⟩
  · rw [hcomputing]
    exact h.nodup.filter _
  · intro e'
    rw [hcomputing, List.mem_filter, decide_eq_true_eq]
    by_cases he : e' = e
    · rw [he]
      exact iff_of_false hself fun hmem => hmem.2 rfl
    · rw [hothers e' he, h.read_iff e']
      exact (and_iff_left he).symm

/-! ## Operations -/

theorem alike_computeScheduled_markAddrReady {r : Except EngineError Unit}
    (h : m.markAddrReady e = .ok (r, m')) : Alike Element.computeScheduled m m' := by
  rcases markAddrReady_eq_ok h with rfl | ⟨el, el', addr, hel, hready, _, rfl⟩
  · exact alike_refl _ m'
  rcases Element.markAddrReady_eq_ok hready with ⟨_, start, blocks, _, rfl⟩
  refine alike_putElement hel ?_
  rfl

theorem alike_computeScheduled_step {r : Except EngineError ElementId} (h : m.step s = .ok (r, m')) :
    Alike Element.computeScheduled m m' := by
  rcases step_eq_ok h with ⟨_, rfl⟩ | ⟨st, e, el, i, _, _, hel, _, _, _, rfl⟩
  · exact alike_refl _ m'
  · refine alike_putElement hel ?_
    rfl

/-- After a commit no computation of the element is under way. -/
theorem read_commit (h : m.commit e v = .ok m') :
    m'.pending = m.pending ∧ m'.read Element.computeScheduled e = some false ∧
      ∀ e', e' ≠ e → m'.read Element.computeScheduled e' = m.read Element.computeScheduled e' := by
  rcases commit_eq_ok h with ⟨el, el', hel, rfl, hcase⟩
  have hidle : el'.computeScheduled = false := by
    rcases hcase with rfl | hadv
    · rfl
    · rw [hadv.shape]
  refine ⟨rfl, ?_, ?_⟩
  · rw [read, element?_putElement_self hel, Option.map_some, hidle]
  · intro e' he
    rw [read, element?_putElement_of_ne hel el' he, read]

theorem Scheduled.commit (h : m.Scheduled) (hel : m.element? e = some el)
    (hidle : el.computeScheduled = false) (hcommit : m.commit e v = .ok m') : m'.Scheduled := by
  rcases read_commit hcommit with ⟨hpending, hself, hothers⟩
  refine h.congr hpending ?_
  intro e'
  by_cases he : e' = e
  · rw [he, hself, read, hel, Option.map_some, hidle]
  · rw [hothers e' he]

theorem Scheduled.compute (h : m.Scheduled) (hcompute : m.compute e = .ok m') : m'.Scheduled := by
  rcases compute_eq_ok hcompute with ⟨el, st, hel, _, _, hidle, ⟨_, v, hcommit⟩ | hnormal⟩
  · exact h.commit hel hidle hcommit
  rcases bind_eq_ok.1 hnormal with ⟨r, _, hnormal⟩
  by_cases hlong : st.decl.role.isCompute = true
  · simp only [if_pos hlong] at hnormal
    rcases schedule_eq_ok hnormal with ⟨el₁, hel₁, rfl⟩
    cases (hel.symm.trans hel₁)
    have hput := element?_putElement hel { el with computeScheduled := true }
    refine h.add hel hidle _ rfl rfl ?_ ?_
    · change ((m.putElement e _).element? e).map _ = _
      rw [hput, if_pos rfl]
      rfl
    · intro e' he
      change ((m.putElement e _).element? e').map _ = _
      rw [hput, if_neg he, read]
  · simp only [if_neg hlong] at hnormal
    exact h.commit hel hidle hnormal

/-- The results that are due leave the list, and their elements are told. -/
theorem Scheduled.tick (h : m.Scheduled) {now : Nat} {done : List ElementId}
    (htick : m.tick now = .ok (done, m')) : m'.Scheduled := by
  let due := m.pending.filter fun p => decide (p.readyAt ≤ now)
  let waiting := m.pending.filter (not ∘ fun p => decide (p.readyAt ≤ now))
  let kept : List PendingCompute → Manager → Prop := fun left m₁ =>
    m₁.pending = waiting ∧ ((left ++ waiting).map PendingCompute.element).Nodup ∧
      ∀ e, m₁.read Element.computeScheduled e = some true ↔
        e ∈ (left ++ waiting).map PendingCompute.element
  have hperm : (due ++ waiting).Perm m.pending := List.filter_append_perm _ _
  have hstart : kept due { m with now, pending := waiting } := by
    refine ⟨rfl, (hperm.map _).nodup_iff.2 h.nodup, ?_⟩
    intro e
    rw [(hperm.map PendingCompute.element).mem_iff]
    exact h.read_iff e
  have hend : kept [] m' := by
    refine foldlM_keeps kept ?_ hstart (tick_eq_ok htick)
    rintro p left m₁ m₂ ⟨hpending, hnodup, hread⟩ hcommit
    rcases read_commit hcommit with ⟨hsame, hself, hothers⟩
    rw [List.cons_append, List.map_cons, List.nodup_cons] at hnodup
    refine ⟨hsame.trans hpending, hnodup.2, ?_⟩
    intro e
    by_cases he : e = p.element
    · rw [he, hself]
      refine iff_of_false ?_ hnodup.1
      intro hcontra
      cases hcontra
    · rw [hothers e he, hread e, List.cons_append, List.map_cons, List.mem_cons, or_iff_right he]
  rcases hend with ⟨hpending, hnodup, hread⟩
  have hcomputing : m'.computing = waiting.map PendingCompute.element := by rw [computing, hpending]
  exact ⟨hcomputing ▸ hnodup, hcomputing ▸ hread⟩

theorem Scheduled.flush (h : m.Scheduled) {aliased : Bool} (hflush : m.flush e aliased = .ok m') :
    m'.Scheduled := by
  rcases flush_eq_ok hflush with ⟨el, pool, hel, _, rfl⟩
  have hput := element?_putElement (m := m.dropPending e) hel (el.flush aliased).2
  refine h.drop rfl ?_ ?_
  · change (((m.dropPending e).putElement e _).element? e).map _ ≠ _
    rw [hput, if_pos rfl]
    intro hcontra
    cases hcontra
  · intro e' he
    change (((m.dropPending e).putElement e _).element? e').map _ = _
    rw [hput, if_neg he]
    rfl

theorem Scheduled.releaseFront (h : m.Scheduled) (hrelease : m.releaseFront s = .ok m') :
    m'.Scheduled := by
  rcases releaseFront_eq_ok hrelease with ⟨st, e, rest, el, pool, freed, graph, _, _, hel, _, _, rfl⟩
  have hgone := element?_erase hel
  refine h.drop (e := e) rfl ?_ ?_
  · change (({ m with elements := m.elements.erase e.val } : Manager).element? e).map _ ≠ _
    rw [hgone, if_pos rfl]
    intro hcontra
    cases hcontra
  · intro e' he
    change (({ m with elements := m.elements.erase e.val } : Manager).element? e').map _ = _
    rw [hgone, if_neg he]
    rfl

/-- A new element computes nothing yet. -/
theorem Scheduled.allocate (h : m.Scheduled) (howned : m.Owned) {r : Except EngineError ElementId}
    (hallocate : m.allocate s = .ok (r, m')) : m'.Scheduled := by
  have hpending : m'.pending = m.pending := by
    rcases allocate_eq_ok hallocate with ⟨_, rfl⟩ | ⟨st, el, e, m₁, graph, _, _, _, _, _, hlink, _, rfl⟩
    · rfl
    · rcases linkLast_cases hlink with rfl | ⟨last, el', _, _, rfl⟩
      · rfl
      · rfl
  rcases howned.allocate_cases hallocate with
    ⟨_, _, rfl⟩ | ⟨st, bases, own, e, _, _, _, _, hnone, hself, hothers⟩
  · exact h
  refine h.congr hpending ?_
  intro e'
  by_cases he : e' = e
  · rw [he, read, read, hself, hnone]
    refine iff_of_false ?_ ?_
    · intro hcontra
      cases hcontra
    · intro hcontra
      cases hcontra
  · have hsame : m'.read Element.computeScheduled e' = m.read Element.computeScheduled e' := by
      rw [read, hothers e' he, read, Option.map_map]
      congr 1
      funext el
      simp only [Function.comp_apply]
      split <;> rfl
    rw [hsame]

theorem Scheduled.apply (h : m.Scheduled) (howned : m.Owned) {op : Operation}
    (happly : m.apply op = .ok m') : m'.Scheduled := by
  cases op with
  | configure d =>
      rcases map_snd_eq_ok happly with ⟨id, hop⟩
      rcases configure_eq_ok hop with ⟨_, config, graph, graph', bases, _, _, rfl⟩
      exact ⟨h.nodup, h.read_iff⟩
  | allocate s =>
      rcases map_snd_eq_ok happly with ⟨r, hop⟩
      exact h.allocate howned hop
  | markAddrReady e =>
      rcases map_snd_eq_ok happly with ⟨r, hop⟩
      exact h.alike (alike_computeScheduled_markAddrReady hop)
  | issue _ | respond _ _ | respondFault _ | setValue _ _ _ | setValueFromPrevious _ =>
      exact h.alike ((exchanges_apply happly trivial).alike Element.steady_computeScheduled)
  | compute e => exact h.compute happly
  | tick now =>
      rcases map_snd_eq_ok happly with ⟨done, hop⟩
      exact h.tick hop
  | setFinalValue s idx w =>
      rcases map_snd_eq_ok happly with ⟨r, hop⟩
      rcases setFinalValue_eq_ok hop with rfl | ⟨st, _, _, rfl⟩
      · exact h
      · exact ⟨h.nodup, h.read_iff⟩
  | step s =>
      rcases map_snd_eq_ok happly with ⟨r, hop⟩
      exact h.alike (alike_computeScheduled_step hop)
  | flush e aliased => exact h.flush happly
  | release _ | releaseStepped _ | endStream _ =>
      exact keeps_of_isRelease (fun _ _ _ h => h.releaseFront) (fun _ _ _ h => ⟨h.nodup, h.read_iff⟩) h happly
        trivial

end Manager
end StreamEngine
