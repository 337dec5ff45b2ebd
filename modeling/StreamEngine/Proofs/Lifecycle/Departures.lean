import StreamEngine.Proofs.Lifecycle.Chains

/-!
# Chains that shrink

A released element leaves its chain at the head, and its key and its reference to the configuration go with
it. A stream ends when its chain is empty.

- `Owned.releaseFront` and the releases made of it, `Owned.endStream`;
- `Owned.apply` : every operation keeps the tables in agreement;
- `Owned.run_keeps` : a run keeps what operations on such tables keep;
- `owned_run` : the tables agree after every run.
-/

namespace StreamEngine
namespace Manager

variable {m m' : Manager} {e : ElementId} {el : Element} {s s' : StreamId} {st st' : LiveStream}

/-! ## Releasing -/

theorem Chained.tail {rest : List ElementId} (h : m.Chained s st) (hchain : st.chain = e :: rest)
    (hplace : ∀ e' ∈ rest, m'.place? e' = m.place? e') :
    m'.Chained s { st with chain := rest } := by
  have hle := h.length_le
  rcases h.placed with ⟨n, hn, hplaced⟩
  rw [hchain] at hle hn
  refine ⟨Nat.le_of_succ_le hle, n - 1, by simp at hn ⊢; omega, ?_⟩
  intro i e' hi
  change rest[i]? = some e' at hi
  -- member `i` was member `i + 1`
  have hold := hplaced (i + 1) e' (by rw [hchain]; exact hi)
  have hidx : st.nextIdx - (rest.length + 1) + (i + 1) = st.nextIdx - rest.length + i := by
    simp only [List.length_cons] at hle
    omega
  have hstepped : decide (i + 1 < n) = decide (i < n - 1) := by
    rw [decide_eq_decide]
    omega
  rw [hplace e' (List.mem_of_getElem? hi), hold]
  simp only [LiveStream.placeAt, hchain, List.length_cons, hidx, hstepped, List.getElem?_cons_succ]

theorem Owned.releaseFront (h : m.Owned) (hrelease : m.releaseFront s = .ok m') : m'.Owned := by
  rcases releaseFront_eq_ok hrelease with
    ⟨st, e, rest, el, pool, freed, graph, hst, hchain, hel, _, hgraph, rfl⟩
  have hchained := h.chained s st hst
  have hnodup := hchained.nodup
  rw [hchain, List.nodup_cons] at hnodup
  -- the reference of the element goes with it
  have hheld := h.held s st hst
  rw [hchain, List.length_cons] at hheld
  rcases hheld.release with ⟨graph', hgraph', hfewer, hspares⟩
  rw [hgraph'] at hgraph
  cases hgraph
  have hplace : ∀ e', ({ m with elements := m.elements.erase e.val } : Manager).place? e' =
      if e' = e then none else m.place? e' := by
    intro e'
    rw [place?, element?_erase hel]
    by_cases he : e' = e
    · rw [if_pos he, if_pos he, Option.map_none]
    · rw [if_neg he, if_neg he, place?]
  refine h.update hst { st with chain := rest } (fun s' => stream?_putStream m s s' _) rfl rfl
    (h.elements.erase hel) rfl (hchained.tail hchain ?_) ?_ ?_ ?_ hfewer hspares
  · intro e' he'
    refine (hplace e').trans (if_neg ?_)
    rintro rfl
    exact hnodup.1 he'
  · intro e' hnot _
    refine (hplace e').trans (if_neg ?_)
    rintro rfl
    exact hnot (hchain ▸ List.mem_cons_self ..)
  · exact fun e' he' hnot => absurd (hchain ▸ List.mem_cons_of_mem e he') hnot
  · intro e' he' hnot
    rw [hchain] at he'
    have hhead := (List.mem_cons.1 he').resolve_right hnot
    exact (hplace e').trans (if_pos hhead)

/-! ## Ending -/

/-- Releasing as many heads as there are members empties the chain. -/
theorem stream?_releaseMany (st : LiveStream) {n : Nat} (hst : m.stream? s = some st)
    (hrelease : m.releaseMany s n = .ok m') :
    m'.stream? s = some { st with chain := st.chain.drop n } := by
  induction n generalizing m st with
  | zero =>
      cases hrelease
      exact hst
  | succ n ih =>
      rcases bind_eq_ok.1 hrelease with ⟨m₁, hhead, hrelease⟩
      rcases releaseFront_eq_ok hhead with
        ⟨st₀, e, rest, _, pool, _, graph, hst₀, hchain, _, _, _, rfl⟩
      rw [hst] at hst₀
      cases hst₀
      rw [hchain, List.drop_succ_cons]
      refine ih { st with chain := rest } ?_ hrelease
      exact (stream?_putStream m s s { st with chain := rest }).trans (if_pos rfl)

theorem Owned.dropStream (h : m.Owned) (hst : m.stream? s = some st) (hempty : st.chain = [])
    {graph : Graph} (hspares : m.graph.Spares st.config graph) :
    ({ m.dropStream s with graph } : Manager).Owned := by
  have hstream : ∀ s', (m.dropStream s).stream? s' = if s = s' then none else m.stream? s' :=
    fun s' => Table.find?_erase m.streams s s'
  have hold : ∀ s' st', (m.dropStream s).stream? s' = some st' → s ≠ s' ∧ m.stream? s' = some st' :=
    fun _ _ => stream?_of_erase
  refine ⟨h.elements, h.counted, fun s' st' hst' => h.issued s' st' (hold s' st' hst').2, ?_, ?_, ?_,
    ?_, ?_⟩
  · intro e p hp
    rcases h.home e p hp with ⟨st', hst', he⟩
    refine ⟨st', (hstream p.stream).trans ((if_neg ?_).trans hst'), he⟩
    rintro rfl
    rw [hst] at hst'
    cases hst'
    rw [hempty] at he
    cases he
  · intro s' st' hst'
    exact (h.chained s' st' (hold s' st' hst').2).congr fun _ _ => rfl
  · intro s' st' hst'
    rcases hold s' st' hst' with ⟨hne, hst'⟩
    refine hspares st'.config _ ?_ (h.held s' st' hst')
    exact fun heq => hne (h.apart s' s st' st hst' hst heq).symm
  · intro s₁ s₂ st₁ st₂ hst₁ hst₂
    exact h.apart s₁ s₂ st₁ st₂ (hold s₁ st₁ hst₁).2 (hold s₂ st₂ hst₂).2
  · intro key s' hlast
    -- the key of the stream is forgotten with it, so no other key names it
    have hlatest : m.latest.find? key = some s' ∧ s ≠ s' := by
      change (if m.latest.find? (s.core, s.staticId) = some s then
        m.latest.erase (s.core, s.staticId) else m.latest).find? key = some s' at hlast
      by_cases hown : m.latest.find? (s.core, s.staticId) = some s
      · rw [if_pos hown, Table.find?_erase] at hlast
        by_cases hkey : (s.core, s.staticId) = key
        · rw [if_pos hkey] at hlast
          cases hlast
        · rw [if_neg hkey] at hlast
          refine ⟨hlast, ?_⟩
          rintro rfl
          exact hkey (h.latest key s hlast).1.symm
      · rw [if_neg hown] at hlast
        refine ⟨hlast, ?_⟩
        rintro rfl
        rw [(h.latest key s hlast).1] at hlast
        exact hown hlast
    rcases h.latest key s' hlatest.1 with ⟨hkey, st', hst'⟩
    exact ⟨hkey, st', (hstream s').trans ((if_neg hlatest.2).trans hst')⟩

theorem Owned.endStream (h : m.Owned) {r : Except EngineError Bool}
    (hend : m.endStream s = .ok (r, m')) : m'.Owned := by
  rcases endStream_eq_ok hend with ⟨_, rfl⟩ | ⟨st, m₁, freed, graph, hst, hmany, hgraph, _, rfl⟩
  · exact h
  have h₁ := releaseMany_keeps (fun _ _ h => h.releaseFront) h hmany
  have hst₁ := stream?_releaseMany st hst hmany
  rw [List.drop_length] at hst₁
  rcases (h₁.held s _ hst₁).endStream with ⟨graph', hgraph', _, hspares⟩
  rw [hgraph'] at hgraph
  cases hgraph
  exact h₁.dropStream hst₁ rfl hspares

/-! ## Runs -/

theorem Owned.apply (h : m.Owned) {op : Operation} (happly : m.apply op = .ok m') : m'.Owned := by
  cases op with
  | configure d =>
      rcases map_snd_eq_ok happly with ⟨id, hop⟩
      exact h.configure hop
  | allocate s =>
      rcases map_snd_eq_ok happly with ⟨r, hop⟩
      exact h.allocate hop
  | markAddrReady _ | issue _ | respond _ _ | respondFault _ | setValue _ _ _ | setValueFromPrevious _
  | compute _ | tick _ | flush _ _ => exact h.quiet (quiet_apply happly trivial)
  | setFinalValue s idx w =>
      rcases map_snd_eq_ok happly with ⟨r, hop⟩
      exact h.setFinalValue hop
  | step s =>
      rcases map_snd_eq_ok happly with ⟨r, hop⟩
      exact h.step hop
  | release e =>
      rcases release_eq_ok happly with ⟨el, st, _, _, _, _, hfront⟩
      exact h.releaseFront hfront
  | releaseStepped s =>
      rcases map_snd_eq_ok happly with ⟨r, hop⟩
      exact releaseStepped_keeps (fun _ _ h => h.releaseFront) h hop
  | endStream s =>
      rcases map_snd_eq_ok happly with ⟨r, hop⟩
      exact h.endStream hop

/-- What every operation keeps as long as the tables agree is kept by a run, together with that. -/
theorem Owned.run_keeps {P : Manager → Prop} {ops : List Operation}
    (hstep : ∀ m m' op, m.Owned → P m → m.apply op = .ok m' → P m') (howned : m.Owned) (h : P m)
    (hrun : m.run ops = .ok m') : m'.Owned ∧ P m' :=
  Manager.run_keeps (P := fun m => m.Owned ∧ P m) (Q := fun _ _ => True)
    (fun m m' op hm _ happly => ⟨hm.1.apply happly, hstep m m' op hm.1 hm.2 happly⟩) (fun _ _ _ => trivial)
    ⟨howned, h⟩ hrun

theorem Owned.run {ops : List Operation} (h : m.Owned) (hrun : m.run ops = .ok m') : m'.Owned :=
  (h.run_keeps (P := fun _ => True) (fun _ _ _ _ _ _ => trivial) trivial hrun).1

theorem owned_run {o : Options} {ops : List Operation}
    (hrun : Manager.run { options := o } ops = .ok m) : m.Owned :=
  (owned_new o).run hrun

end Manager
end StreamEngine
