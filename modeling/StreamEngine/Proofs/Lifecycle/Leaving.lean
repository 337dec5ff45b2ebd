import StreamEngine.Proofs.Lifecycle.Replying

/-!
# Elements that stop waiting

An element that is rewound or released is registered with exactly the accesses that its blocks wait on, so
it can leave all of them.

- `Connected.flush_ok` : every allocated element can be rewound;
- `Connected.releaseFront_ok` : the head of every chain can be released;
- `Connected.apply` : every operation keeps blocks and accesses in agreement;
- `connected_run` : they agree after every run.
-/

namespace StreamEngine
namespace Manager

variable {k : Nat} {m m' : Manager} {pool : AccessPool} {e : ElementId} {el : Element} {s : StreamId}
  {st : LiveStream}

/-! ## Leaving all accesses -/

theorem Connected.deregisterAll_ok (h : m.Connected k) (hel : m.element? e = some el) :
    ∃ pool, el.takeAccesses.1.foldlM (fun p a => p.deregister a e) m.accesses = .ok pool ∧
      pool.Tidy ∧ ∀ a e' s line, pool.Serves a e' s line ↔
        m.accesses.Serves a e' s line ∧ ¬ (a ∈ el.blocks.filterMap Block.access ∧ e' = e) := by
  refine AccessPool.deregisterAll_ok h.pool (h.linked.tidy e el hel).once ?_
  intro a ha
  rcases Element.exists_waitsOn ha with ⟨line, hwaits⟩
  exact ⟨el.stream, line, (h.linked.serves_iff hel).2 ⟨rfl, hwaits⟩⟩

/-- When an element has left its accesses and is gone or has no blocks, the others are served as before. -/
theorem Linked.leave (h : m.Linked k m.accesses.Serves) (hel : m.element? e = some el)
    (hserves : ∀ a e' s line, pool.Serves a e' s line ↔
      m.accesses.Serves a e' s line ∧ ¬ (a ∈ el.blocks.filterMap Block.access ∧ e' = e))
    (hothers : ∀ e', e' ≠ e → m'.element? e' = m.element? e')
    (hself : ∀ el', m'.element? e = some el' → el'.lineSize = 2 ^ k ∧ el'.blocks = []) :
    m'.Linked k pool.Serves where
  tidy := by
    intro e' el' hel'
    by_cases he : e' = e
    · rcases hself el' (he ▸ hel') with ⟨hsize, hnil⟩
      exact Element.tidy_of_nil hsize hnil
    · exact h.tidy e' el' (hothers e' he ▸ hel')
  waits_iff := by
    intro a e' s line
    rw [hserves]
    by_cases he : e' = e
    · rw [he, h.serves_iff hel]
      constructor
      · rintro ⟨el', hel', _, hwaits⟩
        exact absurd hwaits (Element.not_waitsOn_of_nil (hself el' hel').2)
      · -- whatever the element waited on, it has left
        rintro ⟨⟨_, hwaits⟩, hnot⟩
        exact absurd ⟨Element.waitsOn_mem hwaits, rfl⟩ hnot
    · rw [← h.waits_iff, WaitsFor, hothers e' he]
      simp only [he, and_false, not_false_eq_true, and_true, WaitsFor]

/-! ## Rewinding -/

theorem Connected.flush_ok (h : m.Connected k) (hel : m.element? e = some el) (aliased : Bool) :
    ∃ m', m.flush e aliased = .ok m' := by
  rcases h.deregisterAll_ok hel with ⟨pool, hfold, _⟩
  refine exists_bind_ok (element_eq_ok.2 hel) ?_
  refine exists_bind_ok el.clearBlocks_takeAccesses ?_
  exact exists_bind_ok (bind_eq_ok.2 ⟨pool, hfold, rfl⟩) ⟨_, rfl⟩

theorem Connected.flush (h : m.Connected k) {aliased : Bool} (hflush : m.flush e aliased = .ok m') :
    m'.Connected k := by
  rcases flush_eq_ok hflush with ⟨el, pool, hel, hfold, rfl⟩
  rcases h.deregisterAll_ok hel with ⟨pool', hfold', hpool, hserves⟩
  rw [hfold'] at hfold
  cases hfold
  have hput : ∀ e', (m.putElement e (el.flush aliased).2).element? e' =
      if e' = e then some (el.flush aliased).2 else m.element? e' := element?_putElement hel _
  refine ⟨h.size_eq, h.linked.leave hel hserves ?_ ?_, hpool, ?_⟩
  · exact fun e' he => (hput e').trans (if_neg he)
  · intro el' hel'
    have hself := (hput e).trans (if_pos rfl)
    cases (hself.symm.trans hel')
    exact ⟨(h.linked.tidy e el hel).size_eq, rfl⟩
  · refine Resting.putElement h.resting hel ?_
    intro b hb
    cases hb

/-! ## Releasing -/

/-- The head of a chain can be released. -/
theorem Connected.releaseFront_ok (h : m.Connected k) (howned : m.Owned)
    (hst : m.stream? s = some st) {rest : List ElementId} (hchain : st.chain = e :: rest) :
    ∃ m', m.releaseFront s = .ok m' := by
  have hmem : e ∈ st.chain := hchain ▸ List.mem_cons_self ..
  rcases (howned.chained s st hst).exists_element hmem with ⟨el, hel, _⟩
  rcases h.deregisterAll_ok hel with ⟨pool, hfold, _⟩
  rcases el.clear_takeAccesses with ⟨cleared, hclear⟩
  have hheld := howned.held s st hst
  rw [hchain, List.length_cons] at hheld
  rcases hheld.release with ⟨graph, hgraph, _⟩
  refine exists_bind_ok (stream_eq_ok.2 hst) ?_
  rw [hchain]
  refine exists_bind_ok (element_eq_ok.2 hel) ?_
  refine exists_bind_ok (bind_eq_ok.2 ⟨pool, hfold, rfl⟩) ?_
  exact exists_bind_ok hclear (exists_bind_ok hgraph ⟨_, rfl⟩)

theorem Connected.releaseFront (h : m.Connected k) (hrelease : m.releaseFront s = .ok m') :
    m'.Connected k := by
  rcases releaseFront_eq_ok hrelease with
    ⟨st, e, rest, el, pool, freed, graph, _, _, hel, hfold, _, rfl⟩
  rcases h.deregisterAll_ok hel with ⟨pool', hfold', hpool, hserves⟩
  rw [hfold'] at hfold
  cases hfold
  have hgone : ∀ e', ({ m with elements := m.elements.erase e.val } : Manager).element? e' =
      if e' = e then none else m.element? e' := element?_erase hel
  refine ⟨h.size_eq, h.linked.leave hel hserves ?_ ?_, hpool, ?_⟩
  · exact fun e' he => (hgone e').trans (if_neg he)
  · intro el' hel'
    cases ((hgone e).trans (if_pos rfl)).symm.trans hel'
  · intro e' el' hel'
    have hold := (hgone e').symm.trans hel'
    by_cases he : e' = e
    · rw [if_pos he] at hold
      cases hold
    · rw [if_neg he] at hold
      exact h.resting e' el' hold

/-! ## Other operations -/

theorem Connected.configure (h : m.Connected k) {d : Declaration} {id : StreamId}
    (hconfigure : m.configure d = .ok (id, m')) : m'.Connected k := by
  rcases configure_eq_ok hconfigure with ⟨_, config, graph, graph', bases, _, _, rfl⟩
  exact h.congr rfl rfl rfl

/-- A new element waits for nothing, and no access knows its key. -/
theorem Connected.allocate (h : m.Connected k) (howned : m.Owned) {r : Except EngineError ElementId}
    (hallocate : m.allocate s = .ok (r, m')) : m'.Connected k := by
  rcases allocate_eq_ok hallocate with
    ⟨_, rfl⟩ | ⟨st, el, e, m₁, graph, _, he, _, hnil, hsize, hlink, _, rfl⟩
  · exact h
  have hsound := howned.elements.sound
  have hnew : m.element? e = none := he ▸ element?_insert_eq_none hsound el
  let grown : Manager := { m with elements := (m.elements.insert el).2 }
  have hgrown : ∀ e', grown.element? e' = if e' = e then some el else m.element? e' := by
    rw [he]
    exact element?_insert hsound el
  -- the new element has no blocks, so there is nothing that it could wait for
  have hconnected : grown.Connected k := by
    refine ⟨h.size_eq, ⟨?_, ?_⟩, h.pool, ?_⟩
    · intro e' el' hel'
      rw [hgrown] at hel'
      by_cases hkey : e' = e
      · rw [if_pos hkey] at hel'
        cases hel'
        exact Element.tidy_of_nil (hsize.trans h.size_eq) hnil
      · rw [if_neg hkey] at hel'
        exact h.linked.tidy e' el' hel'
    · intro a e' s line
      rw [← h.linked.waits_iff, WaitsFor, hgrown]
      by_cases hkey : e' = e
      · rw [if_pos hkey, WaitsFor, hkey, hnew]
        constructor
        · rintro ⟨el', hel', _, hwaits⟩
          cases hel'
          exact absurd hwaits (Element.not_waitsOn_of_nil hnil)
        · rintro ⟨el', hel', _⟩
          cases hel'
      · rw [if_neg hkey, WaitsFor]
    · intro e' el' hel'
      rw [hgrown] at hel'
      by_cases hkey : e' = e
      · rw [if_pos hkey] at hel'
        cases hel'
        intro b hb
        rw [hnil] at hb
        cases hb
      · rw [if_neg hkey] at hel'
        exact h.resting e' el' hel'
  have hlinked : m₁.Connected k := by
    rcases linkLast_cases hlink with rfl | ⟨last, el', _, hel', rfl⟩
    · exact hconnected
    · exact hconnected.putBlocks hel' ⟨rfl, rfl, rfl, rfl⟩
  exact hlinked.congr rfl rfl rfl

theorem Connected.markAddrReady (h : m.Connected k) (hk : k < 64) {r : Except EngineError Unit}
    (hmark : m.markAddrReady e = .ok (r, m')) : m'.Connected k := by
  rcases markAddrReady_eq_ok hmark with rfl | ⟨el, el', addr, hel, hready, _, rfl⟩
  · exact h
  rcases (h.linked.tidy e el hel).markAddrReady hk hready with ⟨htidy, hnew, hold⟩
  have hstream := congrArg Place.stream (Element.place_markAddrReady hready)
  refine h.putSame hel hstream htidy (fun a line => iff_of_false (hnew a line) (hold a line)) ?_
  rcases Element.markAddrReady_eq_ok hready with ⟨_, start, blocks, hblocks, rfl⟩
  intro b hb hstate
  rw [(mem_of_blocksFrom hblocks b hb).2] at hstate
  cases hstate

theorem Connected.setValueFromPrevious (h : m.Connected k) {became : Bool}
    (hset : m.setValueFromPrevious e = .ok (became, m')) : m'.Connected k := by
  rcases setValueFromPrevious_eq_ok hset with ⟨el, el', p, source, _, hel, _, hcopy, rfl⟩
  exact h.advances hel (Element.advances_copyFromPrev hcopy)

theorem Connected.commit (h : m.Connected k) {v : StreamValue} (hcommit : m.commit e v = .ok m') :
    m'.Connected k := by
  rcases commit_eq_ok hcommit with ⟨el, el', hel, rfl, rfl | hadv⟩
  · exact h.putBlocks hel ⟨rfl, rfl, rfl, rfl⟩
  · have htidy := h.linked.tidy e el hel
    have hidle : ({ el with computeScheduled := false } : Element).Tidy k :=
      htidy.congr rfl rfl rfl
    refine h.putSame hel (by rw [hadv.shape]) (hidle.advances hadv) (fun _ _ => hadv.waitsOn_iff) ?_
    intro b hb
    rcases List.mem_iff_getElem?.1 hb with ⟨j, hj⟩
    refine Element.not_prevElement_of_advances hadv ?_ hj
    exact fun b hb => h.resting e el hel b (List.mem_of_getElem? hb)

theorem Connected.compute (h : m.Connected k) (hcompute : m.compute e = .ok m') :
    m'.Connected k := by
  rcases compute_cases hcompute with ⟨v, hcommit⟩ | ⟨v, cycles, hschedule⟩
  · exact h.commit hcommit
  · rcases schedule_eq_ok hschedule with ⟨el, hel, rfl⟩
    have hput : (m.putElement e { el with computeScheduled := true }).Connected k :=
      h.putBlocks hel ⟨rfl, rfl, rfl, rfl⟩
    exact hput.congr rfl rfl rfl

theorem Connected.tick (h : m.Connected k) {now : Nat} {done : List ElementId}
    (htick : m.tick now = .ok (done, m')) : m'.Connected k := by
  refine foldlM_keeps (fun _ m₁ => m₁.Connected k) ?_ ?_ (tick_eq_ok htick)
  · exact fun _ _ _ _ h hcommit => h.commit hcommit
  · exact h.congr rfl rfl rfl

theorem Connected.setFinalValue (h : m.Connected k) {idx : Nat} {w : UInt64}
    {r : Except EngineError Unit} (hset : m.setFinalValue s idx w = .ok (r, m')) : m'.Connected k := by
  rcases setFinalValue_eq_ok hset with rfl | ⟨st, _, _, rfl⟩
  · exact h
  · exact h.congr rfl rfl rfl

theorem Connected.step (h : m.Connected k) {r : Except EngineError ElementId}
    (hstep : m.step s = .ok (r, m')) : m'.Connected k := by
  rcases step_eq_ok hstep with ⟨_, rfl⟩ | ⟨st, e, el, i, _, _, hel, _, _, _, rfl⟩
  · exact h
  · exact h.putBlocks hel ⟨rfl, rfl, rfl, rfl⟩

/-! ## Runs -/

theorem Connected.apply (h : m.Connected k) (hk : k < 64) (howned : m.Owned) {op : Operation}
    (happly : m.apply op = .ok m') : m'.Connected k := by
  cases op with
  | configure d =>
      rcases map_snd_eq_ok happly with ⟨id, hop⟩
      exact h.configure hop
  | allocate s =>
      rcases map_snd_eq_ok happly with ⟨r, hop⟩
      exact h.allocate howned hop
  | markAddrReady e =>
      rcases map_snd_eq_ok happly with ⟨r, hop⟩
      exact h.markAddrReady hk hop
  | issue e =>
      rcases map_snd_eq_ok happly with ⟨r, hop⟩
      exact h.issue howned hop
  | respond a data =>
      rcases map_snd_eq_ok happly with ⟨ready, hop⟩
      exact h.answer (settlesBlocks_settleData data) hop
  | respondFault a =>
      rcases map_snd_eq_ok happly with ⟨ready, hop⟩
      exact h.answer settlesBlocks_faultBlock hop
  | setValue e vaddr data =>
      rcases map_snd_eq_ok happly with ⟨became, hop⟩
      rcases setValue_eq_ok hop with ⟨el, el', hel, hset, rfl⟩
      exact h.advances hel (Element.advances_setValue hset)
  | setValueFromPrevious e =>
      rcases map_snd_eq_ok happly with ⟨became, hop⟩
      exact h.setValueFromPrevious hop
  | compute e => exact h.compute happly
  | tick now =>
      rcases map_snd_eq_ok happly with ⟨done, hop⟩
      exact h.tick hop
  | setFinalValue s idx w =>
      rcases map_snd_eq_ok happly with ⟨r, hop⟩
      exact h.setFinalValue hop
  | step s =>
      rcases map_snd_eq_ok happly with ⟨r, hop⟩
      exact h.step hop
  | flush e aliased => exact h.flush happly
  | release _ | releaseStepped _ | endStream _ =>
      exact keeps_of_isRelease (fun _ _ _ h => h.releaseFront) (fun _ _ _ h => h.congr rfl rfl rfl) h happly
        trivial

theorem connected_run (hk : k < 64) {o : Options} (hline : o.lineSize = 2 ^ k) {ops : List Operation}
    (hrun : Manager.run { options := o } ops = .ok m) : m.Owned ∧ m.Connected k :=
  (owned_new o).run_keeps (P := fun m => m.Connected k) (fun _ _ _ howned h => h.apply hk howned)
    (connected_new hline) hrun

end Manager
end StreamEngine
