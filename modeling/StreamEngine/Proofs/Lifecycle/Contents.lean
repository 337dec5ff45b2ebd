import StreamEngine.Proofs.Lifecycle.Departures

/-!
# Operations that leave an element alone

Of what an element holds, its readiness and its bytes are what its users see. Few operations touch these,
and each of them touches one element.

- `Element.content`, `Manager.content?` : readiness and bytes;
- `content?_put`, `content?_put_of_ne` : changes that do not matter, and changes of other elements;
- `content?_allocate`, `content?_deliver`, `content?_tick` and the other operations.
-/

namespace StreamEngine

/-- What the users of an element see. -/
def Element.content (el : Element) : Bool × List UInt8 :=
  (el.valueReady, el.buffer)

namespace Manager

variable {m m' : Manager} {e e' : ElementId} {el el' : Element} {s : StreamId} {a : AccessId}

def content? (m : Manager) (e : ElementId) : Option (Bool × List UInt8) :=
  (m.element? e).map Element.content

theorem content?_congr (helements : m'.elements = m.elements) (e : ElementId) :
    m'.content? e = m.content? e := by
  rw [content?, element?, helements]
  rfl

theorem content?_put (hel : m.element? e = some el) (hcontent : el'.content = el.content)
    (e' : ElementId) : (m.putElement e el').content? e' = m.content? e' := by
  rw [content?, element?_putElement hel]
  by_cases he : e' = e
  · rw [if_pos he, content?, he, hel, Option.map_some, Option.map_some, hcontent]
  · rw [if_neg he, content?]

theorem content?_put_of_ne (hel : m.element? e = some el) (el' : Element) (hne : e' ≠ e) :
    (m.putElement e el').content? e' = m.content? e' := by
  rw [content?, element?_putElement_of_ne hel el' hne, content?]

/-! ## Chains -/

theorem content?_linkLast {chain : List ElementId} (h : m.linkLast chain e = .ok m')
    (e' : ElementId) : m'.content? e' = m.content? e' := by
  rcases linkLast_cases h with rfl | ⟨last, el, _, hel, rfl⟩
  · rfl
  · refine content?_put hel ?_ e'
    rfl

/-- A new element has the key of no other one. -/
theorem content?_allocate (howned : m.Owned) {r : Except EngineError ElementId}
    (h : m.allocate s = .ok (r, m')) (hlive : m.element? e' = some el') :
    m'.content? e' = m.content? e' := by
  rcases allocate_eq_ok h with ⟨_, rfl⟩ | ⟨st, el, e, m₁, graph, _, he, _, _, _, hlink, _, rfl⟩
  · rfl
  calc
    m₁.content? e' = ({ m with elements := (m.elements.insert el).2 } : Manager).content? e' :=
      content?_linkLast hlink e'
    _ = m.content? e' := by
      rw [content?, element?_insert_of_some howned.elements.sound el hlive, content?, hlive]

theorem content?_step {r : Except EngineError ElementId} (h : m.step s = .ok (r, m'))
    (e' : ElementId) : m'.content? e' = m.content? e' := by
  rcases step_eq_ok h with ⟨_, rfl⟩ | ⟨st, e, el, i, _, _, hel, _, _, _, rfl⟩
  · rfl
  · refine content?_put hel ?_ e'
    rfl

/-! ## Computations -/

theorem content?_commit {v : StreamValue} (h : m.commit e v = .ok m') (hne : e' ≠ e) :
    m'.content? e' = m.content? e' := by
  rcases commit_eq_ok h with ⟨el, el', hel, rfl, _⟩
  exact content?_put_of_ne hel el' hne

theorem content?_compute (h : m.compute e = .ok m') (hne : e' ≠ e) :
    m'.content? e' = m.content? e' := by
  rcases compute_cases h with ⟨v, hcommit⟩ | ⟨v, cycles, hschedule⟩
  · exact content?_commit hcommit hne
  · rcases schedule_eq_ok hschedule with ⟨el, hel, rfl⟩
    exact content?_put_of_ne hel { el with computeScheduled := true } hne

/-- The clock reaches an element by a computation that is due. -/
theorem content?_tick {now : Nat} {done : List ElementId} (h : m.tick now = .ok (done, m'))
    (hnot : ∀ p ∈ m.pending, p.element = e → ¬ p.readyAt ≤ now) :
    m'.content? e = m.content? e := by
  let kept : List PendingCompute → Manager → Prop := fun due m₁ =>
    (∀ p ∈ due, p.element ≠ e) ∧ m₁.content? e = m.content? e
  have hlast : kept [] m' := by
    refine foldlM_keeps kept ?_ ?_ (tick_eq_ok h)
    · rintro p rest m₁ m₂ ⟨hothers, hsame⟩ hcommit
      refine ⟨fun p' hp' => hothers p' (List.mem_cons_of_mem p hp'), ?_⟩
      exact (content?_commit hcommit (hothers p (List.mem_cons_self ..)).symm).trans hsame
    · refine ⟨?_, content?_congr rfl e⟩
      intro p hp he
      rcases List.mem_filter.1 hp with ⟨hpending, hdue⟩
      exact hnot p hpending he (of_decide_eq_true hdue)
  exact hlast.2

/-! ## Answers -/

/-- An answer for a store reaches no bytes. Any other answer reaches the elements that are told. -/
theorem content?_deliver {store : Bool} {settle : Element → Nat → Except Fault (Bool × Element)}
    {ws ready : List ElementId} (hnot : store = true ∨ e' ∉ ws)
    (h : m.deliver a store settle ws = .ok (ready, m')) : m'.content? e' = m.content? e' := by
  induction ws generalizing m ready with
  | nil =>
      cases h
      rfl
  | cons e ws ih =>
      rcases deliver_cons_eq_ok h with ⟨el, told, i, b, became, others, hel, _, _, hcase, hothers, _⟩
      have hrest : store = true ∨ e' ∉ ws := hnot.imp_right fun hmem => fun h =>
        hmem (List.mem_cons_of_mem e h)
      refine (ih hrest hothers).trans ?_
      rcases hcase with ⟨_, rfl, _⟩ | ⟨hstore, _⟩
      · refine content?_put hel ?_ e'
        rfl
      · have hmem := hnot.resolve_left fun hcontra => Bool.false_ne_true (hstore.symm.trans hcontra)
        exact content?_put_of_ne hel told fun he => hmem (he ▸ List.mem_cons_self ..)

/-! ## Releases -/

/-- What is left after a release was there before. -/
theorem element?_of_releaseFront (h : m.releaseFront s = .ok m') (hel : m'.element? e = some el) :
    m.element? e = some el := by
  rcases releaseFront_eq_ok h with ⟨st, e₀, rest, el₀, pool, freed, graph, _, _, hel₀, _, _, rfl⟩
  have hgone := (element?_erase hel₀ e).symm.trans hel
  by_cases he : e = e₀
  · rw [if_pos he] at hgone
    cases hgone
  · rwa [if_neg he] at hgone

theorem element?_of_isRelease {op : Operation} (happly : m.apply op = .ok m') (hop : op.IsRelease)
    (hel : m'.element? e = some el) : m.element? e = some el := by
  let left : Manager → Prop := fun m₁ => ∀ el, m₁.element? e = some el → m.element? e = some el
  have hleft : left m' := keeps_of_isRelease
    (fun _ _ _ hold hfront _ hel => hold _ (element?_of_releaseFront hfront hel)) (fun _ _ _ => id)
    (fun _ => id) happly hop
  exact hleft el hel

end Manager
end StreamEngine
