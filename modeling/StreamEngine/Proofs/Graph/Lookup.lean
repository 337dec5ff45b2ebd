import StreamEngine.Proofs.Graph.Splitting

/-!
# Finding configurations by their identity

A configuration is entered under the identity that it has then, and the index keeps that identity. The
configuration's own is computed from its fields whenever it is asked for, and taken out of the index
again when the configuration is freed. The two agree as long as nothing changes the identity of a
configuration that is in the graph, and one thing does: a strand that is split counts as one of its own
strands from then on.

- `Graph.Exact` : looking up an identity finds the live configuration that has it, and nothing else;
- `Exact.configure`, `Exact.put`, `Exact.freeIfDone`, `Exact.splitIntoStrands` : what keeps that;
- `not_exact_of_splitsStrand` : an accepted split of a strand never keeps it;
- `Graph.run_exact_iff` : every graph that changes lead to is exact just if none of them splits a strand.
-/

namespace StreamEngine

/-! ## Identities -/

theorem StrandId.part_eq {stream : StreamId} {index total : Nat} {k : StrandId}
    (h : StrandId.part stream index total = .ok k) :
    index < total ∧ k = { stream, index, total } := by
  by_cases hlt : index < total
  · rw [StrandId.part, if_pos hlt] at h
    exact ⟨hlt, (Except.ok.inj h).symm⟩
  · rw [StrandId.part, if_neg hlt] at h
    cases h

namespace Graph

variable {g g' : Graph} {c c' id : ConfigId} {config config' : Config} {k k' : StrandId}
  {split : StrandSplit} {ids : List ConfigId}

theorem strandId_of_isStrand (h : config.isStrand = true) (hk : config.strandId = .ok k) :
    config.strandIdx < config.totalStrands ∧
      k = { stream := config.id, index := config.strandIdx, total := config.totalStrands } := by
  rw [Config.strandId, if_pos h] at hk
  exact StrandId.part_eq hk

/-! ## The index -/

theorem lookup_eq_ok : g.lookup k = .ok c ↔ g.index.find? k = some c := by
  rw [lookup]
  cases g.index.find? k <;> simp

/-- A configuration is entered under its identity, which nothing had before. -/
theorem lookup_configure (h : g.configure config = .ok (c, g')) :
    ∃ k, config.strandId = .ok k ∧ (∀ c', g.lookup k ≠ .ok c') ∧
      ∀ k' c', g'.lookup k' = .ok c' ↔ k' = k ∧ c' = c ∨ k' ≠ k ∧ g.lookup k' = .ok c' := by
  rcases configure_iff.1 h with ⟨k, hk, htwice, rfl, rfl⟩
  refine ⟨k, hk, ?_, ?_⟩
  · intro c' hlookup
    rw [Table.contains, lookup_eq_ok.1 hlookup] at htwice
    exact htwice rfl
  · intro k' c'
    rw [lookup_eq_ok, lookup_eq_ok, Table.find?_insert]
    by_cases hkk : k = k'
    · simp [hkk, eq_comm]
    · simp [hkk, Ne.symm hkk]

/-- What can be found is found as before while configurations are entered. -/
theorem lookup_of_configure (h : g.configure config = .ok (id, g')) (hlookup : g.lookup k = .ok c) :
    g'.lookup k = .ok c := by
  rcases lookup_configure h with ⟨k', _, hfresh, hall⟩
  refine (hall k c).2 (Or.inr ⟨?_, hlookup⟩)
  rintro rfl
  exact hfresh c hlookup

/-- The strands are entered under identities that nothing had before. -/
theorem lookup_configureStrands {total s : Nat} {patterns : List LinearPattern}
    (h : g.configureStrands config c split total s patterns = .ok (ids, g')) :
    (∀ k c', g.lookup k = .ok c' → g'.lookup k = .ok c') ∧
      ∀ i < patterns.length, ∀ c',
        g.lookup { stream := config.id, index := s + i, total := split.totalStrands } ≠ .ok c' := by
  induction patterns generalizing g s ids with
  | nil =>
      cases h
      exact ⟨fun k c' hlookup => hlookup, fun i hi => absurd hi (Nat.not_lt_zero i)⟩
  | cons p patterns ih =>
      rcases configureStrands_cons_eq_ok.1 h with ⟨own, id, g₁, rest, _, hconfigure, hrest, rfl⟩
      rcases ih hrest with ⟨hkeep, hfresh⟩
      refine ⟨fun k c' hlookup => hkeep k c' (lookup_of_configure hconfigure hlookup), ?_⟩
      intro i hi c' hlookup
      cases i with
      | zero =>
          rcases lookup_configure hconfigure with ⟨k, hk, hnone, _⟩
          have hstrand : (config.strand c split s own p).isStrand = true := rfl
          have hname := strandId_of_isStrand hstrand hk
          rw [hname.2] at hnone
          exact hnone c' hlookup
      | succ i =>
          have hlater := hfresh i (Nat.lt_of_succ_lt_succ hi) c'
          rw [Nat.add_assoc, Nat.add_comm 1 i] at hlater
          exact hlater (lookup_of_configure hconfigure hlookup)

/-- A refused split leaves the graph as it was. -/
theorem splitIntoStrands_eq_error {refusal : PatternError}
    (h : g.splitIntoStrands c split = .ok (.error refusal, g')) : g' = g := by
  rcases bind_eq_ok.1 h with ⟨config, _, h⟩
  cases hpatterns : config.strandPatterns split with
  | error err =>
      simp only [hpatterns] at h
      cases err with
      | fault f => cases h
      | refused e =>
          cases h
          rfl
  | ok patterns =>
      simp only [hpatterns] at h
      rcases bind_eq_ok.1 h with ⟨answer, _, h⟩
      cases h

/-! ## Exactness -/

/-- The index tells the live configurations by their identities. -/
structure Exact (g : Graph) : Prop where
  /-- What a lookup finds is live and has the identity that was looked up. -/
  found : ∀ k c, g.lookup k = .ok c → ∃ config, g.find? c = some config ∧ config.strandId = .ok k
  /-- Every live configuration has an identity and is found under it. -/
  finds : ∀ c config, g.find? c = some config → ∃ k, config.strandId = .ok k ∧ g.lookup k = .ok c

namespace Exact

theorem empty : Exact {} := by
  refine ⟨?_, ?_⟩
  · intro k c hlookup
    cases hlookup
  · intro c config hfind
    cases hfind

/-- An identity is found just if a live configuration has it. -/
theorem lookup_iff (h : g.Exact) :
    g.lookup k = .ok c ↔ ∃ config, g.find? c = some config ∧ config.strandId = .ok k := by
  refine ⟨h.found k c, ?_⟩
  rintro ⟨config, hfind, hk⟩
  rcases h.finds c config hfind with ⟨k', hk', hlookup⟩
  rw [hk] at hk'
  cases hk'
  exact hlookup

theorem configure (h : g.Exact) (hg : g.configure config = .ok (c, g')) : g'.Exact := by
  rcases configure_eq_ok hg with ⟨_, hfind⟩
  rcases lookup_configure hg with ⟨k, hk, _, hlookup⟩
  refine ⟨?_, ?_⟩
  · intro k' c' hfound
    rcases (hlookup k' c').1 hfound with ⟨rfl, rfl⟩ | ⟨_, hold⟩
    · exact ⟨config, (hfind c').trans (if_pos rfl), hk⟩
    · rcases h.found k' c' hold with ⟨other, hother, hk'⟩
      exact ⟨other, find?_configure hg hother, hk'⟩
  · intro c' other hother
    by_cases hc : c' = c
    · rw [hfind, if_pos hc] at hother
      cases hother
      exact ⟨k, hk, (hlookup k c').2 (Or.inl ⟨rfl, hc⟩)⟩
    · rw [hfind, if_neg hc] at hother
      rcases h.finds c' other hother with ⟨k', hk', hold⟩
      exact ⟨k', hk', lookup_of_configure hg hold⟩

/-- A live configuration may be replaced by one of the same identity. -/
theorem put (h : g.Exact) (hfind : g.find? c = some config)
    (hsame : config'.strandId = config.strandId) : (g.put c (some config')).Exact := by
  refine ⟨?_, ?_⟩
  · intro k' c' hfound
    rcases h.found k' c' hfound with ⟨other, hother, hk'⟩
    by_cases hc : c' = c
    · rw [hc, hfind] at hother
      cases hother
      exact ⟨config', (find?_put hfind _ c').trans (if_pos hc), hsame.trans hk'⟩
    · exact ⟨other, (find?_put hfind _ c').trans ((if_neg hc).trans hother), hk'⟩
  · intro c' other hother
    rw [find?_put hfind] at hother
    by_cases hc : c' = c
    · rw [if_pos hc] at hother
      cases hother
      rcases h.finds c config hfind with ⟨k', hk', hold⟩
      rw [hc]
      exact ⟨k', hsame.trans hk', hold⟩
    · rw [if_neg hc] at hother
      exact h.finds c' other hother

theorem modify {f : Config → Config} (h : g.Exact) (hg : g.modify c f = .ok g')
    (hsame : ∀ config, (f config).strandId = config.strandId) : g'.Exact := by
  rcases modify_eq_ok.1 hg with ⟨config, hfind, rfl⟩
  exact h.put hfind (hsame config)

/-- A freed configuration takes its own entry with it: the others have other identities. -/
theorem freeIfDone {freed : Bool} (h : g.Exact) (hg : g.freeIfDone c = .ok (freed, g')) :
    g'.Exact := by
  rcases freeIfDone_eq_ok.1 hg with ⟨config, hfind, _, ⟨_, rfl⟩ | ⟨_, k, hk, rfl⟩⟩
  · exact h
  have hlookup : ∀ k' c', lookup ⟨(g.put c none).slots, g.index.erase k⟩ k' = .ok c' ↔
      k' ≠ k ∧ g.lookup k' = .ok c' := by
    intro k' c'
    rw [lookup_eq_ok, lookup_eq_ok, Table.find?_erase]
    by_cases hkk : k = k'
    · simp [hkk]
    · simp [hkk, Ne.symm hkk]
  have hfreed : ∀ c', find? ⟨(g.put c none).slots, g.index.erase k⟩ c' =
      if c' = c then none else g.find? c' := find?_put hfind none
  refine ⟨?_, ?_⟩
  · intro k' c' hfound
    rcases (hlookup k' c').1 hfound with ⟨hne, hold⟩
    rcases h.found k' c' hold with ⟨other, hother, hk'⟩
    refine ⟨other, (hfreed c').trans ((if_neg ?_).trans hother), hk'⟩
    rintro rfl
    rw [hfind] at hother
    cases hother
    exact hne (Except.ok.inj (hk'.symm.trans hk))
  · intro c' other hother
    by_cases hc : c' = c
    · rw [hfreed, if_pos hc] at hother
      cases hother
    rw [hfreed, if_neg hc] at hother
    rcases h.finds c' other hother with ⟨k', hk', hold⟩
    refine ⟨k', hk', (hlookup k' c').2 ⟨?_, hold⟩⟩
    rintro rfl
    exact hc (Except.ok.inj (hold.symm.trans (h.lookup_iff.2 ⟨config, hfind, hk⟩)))

/-! ### Edges and references -/

theorem addBaseEdge {e : Edge} (h : g.Exact) (hg : g.addBaseEdge c e = .ok g') : g'.Exact :=
  h.modify hg fun _ => rfl

theorem addDepEdge {e : Edge} (h : g.Exact) (hg : g.addDepEdge c e = .ok g') : g'.Exact :=
  h.modify hg fun _ => rfl

theorem addBaseOn {base : ConfigId} {reuse : Reuse} {skip : Int} {pred : Option Predicate}
    (h : g.Exact) (hg : g.addBaseOn c base reuse skip pred = .ok g') : g'.Exact := by
  rcases addBaseOn_eq_ok hg with ⟨_, _, _, _, hg⟩
  exact h.addBaseEdge hg

theorem addUsedBy {base : ConfigId} {reuse : Reuse} {pred : Option Predicate}
    (h : g.Exact) (hg : g.addUsedBy base c reuse pred = .ok g') : g'.Exact := by
  rcases addUsedBy_eq_ok hg with ⟨_, _, _, g₁, _, _, _, hdep, hbase⟩
  exact (h.addDepEdge hdep).addBaseEdge hbase

/-- An edge that is there already is not added again. -/
theorem addSendTo {recv : ConfigId} {reuse : Reuse} {skip : Int}
    (h : g.Exact) (hg : g.addSendTo c recv reuse skip = .ok g') : g'.Exact := by
  rcases addSendTo_eq_ok hg with rfl | ⟨_, _, e, _, _, _, _, hg⟩
  · exact h
  · exact h.addDepEdge hg

theorem addMemorySendTo {recv : ConfigId} {memory : MemorySend}
    (h : g.Exact) (hg : g.addMemorySendTo c recv memory = .ok g') : g'.Exact := by
  rcases addMemorySendTo_eq_ok hg with ⟨_, _, hg⟩
  exact h.addDepEdge hg

theorem acquire (h : g.Exact) (hg : g.acquire c = .ok g') : g'.Exact :=
  h.modify hg fun _ => rfl

theorem release {freed : Bool} (h : g.Exact) (hg : g.release c = .ok (freed, g')) : g'.Exact := by
  rcases release_eq_ok.1 hg with ⟨config, hfind, _, hg⟩
  have hput : (g.put c (some { config with refs := config.refs - 1 })).Exact := h.put hfind rfl
  exact hput.freeIfDone hg

theorem endStream {freed : Bool} (h : g.Exact) (hg : g.endStream c = .ok (freed, g')) :
    g'.Exact := by
  rcases endStream_eq_ok.1 hg with ⟨config, hfind, _, hg⟩
  have hput : (g.put c (some { config with ended := true })).Exact := h.put hfind rfl
  exact hput.freeIfDone hg

/-! ### Splitting -/

theorem configureStrands {total s : Nat} {patterns : List LinearPattern} (h : g.Exact)
    (hg : g.configureStrands config c split total s patterns = .ok (ids, g')) : g'.Exact := by
  induction patterns generalizing g s ids with
  | nil =>
      cases hg
      exact h
  | cons p patterns ih =>
      rcases configureStrands_cons_eq_ok.1 hg with ⟨own, id, g₁, rest, _, hconfigure, hrest, rfl⟩
      exact ih (h.configure hconfigure) hrest

/-- A whole stream keeps its identity when strands are split off it, as often as that is done. -/
theorem splitIntoStrands (h : g.Exact) (hfind : g.find? c = some config)
    (hwhole : config.isStrand = false) (hg : g.splitIntoStrands c split = .ok (.ok ids, g')) :
    g'.Exact := by
  rcases splitIntoStrands_eq_ok hg with ⟨stream, patterns, hstream, _, hstrands⟩
  rw [hfind] at hstream
  cases hstream
  have hparent : config.parent = none := Option.not_isSome_iff_eq_none.1 (Bool.eq_false_iff.1 hwhole)
  have hsame : Config.strandId { config with
      split := some split, totalStrands := split.totalStrands } = config.strandId := by
    rw [strandId_of_whole hparent]
    have hparent' : Config.parent { config with
        split := some split, totalStrands := split.totalStrands } = none := hparent
    exact strandId_of_whole hparent'
  exact (h.put hfind hsame).configureStrands hstrands

end Exact

/-- The graph accepts a split of a configuration that is a strand itself. -/
def SplitsStrand (g : Graph) (c : ConfigId) (split : StrandSplit) : Prop :=
  ∃ config ids g', g.find? c = some config ∧ config.isStrand = true ∧
    g.splitIntoStrands c split = .ok (.ok ids, g')

/-- A strand that is split changes its identity behind the back of the index, which goes on finding it
under the one it had. It cannot be split into as many strands as there are already, for then one of the
new ones would have its identity. -/
theorem lookup_of_splitsStrand (h : g.Exact) (hfind : g.find? c = some config)
    (hstrand : config.isStrand = true) (hg : g.splitIntoStrands c split = .ok (.ok ids, g')) :
    ∃ k config', g'.lookup k = .ok c ∧ g'.find? c = some config' ∧ config'.strandId ≠ .ok k := by
  rcases splitIntoStrands_eq_ok hg with ⟨stream, patterns, hstream, hpatterns, hstrands⟩
  rw [hfind] at hstream
  cases hstream
  rcases lookup_configureStrands hstrands with ⟨hkeep, hfresh⟩
  rcases h.finds c config hfind with ⟨k, hk, hlookup⟩
  have hstays := (configureStrands_eq_ok hstrands).2.1 c _ ((find?_put hfind _ c).trans (if_pos rfl))
  refine ⟨k, _, hkeep k c hlookup, hstays, ?_⟩
  intro hk'
  -- with the identity that it had, there is a new strand under that identity too
  have hstill : Config.isStrand { config with
      split := some split, totalStrands := split.totalStrands } = true := hstrand
  rcases strandId_of_isStrand hstill hk' with ⟨hlt, hnew⟩
  have hindex : config.strandIdx < patterns.strands.length := by
    rcases Config.strandPatterns_eq_ok hpatterns with ⟨_, _, _, _, hmap⟩
    rw [(mapM_eq_ok hmap).1, List.length_range]
    exact hlt
  refine hfresh config.strandIdx hindex c ?_
  rw [Nat.zero_add]
  rw [hnew] at hlookup
  exact hlookup

theorem not_exact_of_splitsStrand (h : g.Exact) (hsplits : g.SplitsStrand c split)
    (hg : (g.splitIntoStrands c split).map Prod.snd = .ok g') : ¬ g'.Exact := by
  rcases hsplits with ⟨config, ids, g'', hfind, hstrand, hsplit⟩
  rw [hsplit] at hg
  cases hg
  rcases lookup_of_splitsStrand h hfind hstrand hsplit with ⟨k, config', hlookup, hfind', hne⟩
  intro hexact
  rcases hexact.found k c hlookup with ⟨config'', hfind'', hk⟩
  rw [hfind'] at hfind''
  cases hfind''
  exact hne hk

/-! ## Runs of changes -/

/-- What a graph can be asked to change. Only whole streams are entered from outside; strands come from
splits. -/
inductive Change where
  | configure (stream : Config) (whole : stream.parent = none)
  | addBaseOn (this base : ConfigId) (reuse : Reuse) (skip : Int) (pred : Option Predicate)
  | addUsedBy (base dep : ConfigId) (reuse : Reuse) (pred : Option Predicate)
  | addSendTo (sender recv : ConfigId) (reuse : Reuse) (skip : Int)
  | addMemorySendTo (sender recv : ConfigId) (memory : MemorySend)
  | splitIntoStrands (c : ConfigId) (split : StrandSplit)
  | acquire (c : ConfigId)
  | release (c : ConfigId)
  | endStream (c : ConfigId)

/-- The graph that a change leaves behind. A refused split is an answer like any other. -/
def apply (g : Graph) : Change → Except Fault Graph
  | .configure stream _ => (g.configure stream).map Prod.snd
  | .addBaseOn this base reuse skip pred => g.addBaseOn this base reuse skip pred
  | .addUsedBy base dep reuse pred => g.addUsedBy base dep reuse pred
  | .addSendTo sender recv reuse skip => g.addSendTo sender recv reuse skip
  | .addMemorySendTo sender recv memory => g.addMemorySendTo sender recv memory
  | .splitIntoStrands c split => (g.splitIntoStrands c split).map Prod.snd
  | .acquire c => g.acquire c
  | .release c => (g.release c).map Prod.snd
  | .endStream c => (g.endStream c).map Prod.snd

/-- The graph that changes leave behind, one after another, from an empty one on. -/
def run (changes : List Change) : Except Fault Graph :=
  changes.foldlM apply {}

theorem Exact.apply {change : Change} (h : g.Exact)
    (hchange : ∀ c split, change = .splitIntoStrands c split → ¬ g.SplitsStrand c split)
    (hg : g.apply change = .ok g') : g'.Exact := by
  cases change with
  | configure stream whole =>
      rcases map_snd_eq_ok hg with ⟨c, hg⟩
      exact h.configure hg
  | addBaseOn this base reuse skip pred => exact h.addBaseOn hg
  | addUsedBy base dep reuse pred => exact h.addUsedBy hg
  | addSendTo sender recv reuse skip => exact h.addSendTo hg
  | addMemorySendTo sender recv memory => exact h.addMemorySendTo hg
  | splitIntoStrands c split =>
      rcases map_snd_eq_ok hg with ⟨answer, hg⟩
      rcases answer with refusal | ids
      · rw [splitIntoStrands_eq_error hg]
        exact h
      · rcases splitIntoStrands_eq_ok hg with ⟨config, _, hfind, _, _⟩
        have hwhole : config.isStrand = false := by
          by_contra hstrand
          exact hchange c split rfl
            ⟨config, ids, g', hfind, Bool.eq_true_of_not_eq_false hstrand, hg⟩
        exact h.splitIntoStrands hfind hwhole hg
  | acquire c => exact h.acquire hg
  | release c =>
      rcases map_snd_eq_ok hg with ⟨freed, hg⟩
      exact h.release hg
  | endStream c =>
      rcases map_snd_eq_ok hg with ⟨freed, hg⟩
      exact h.endStream hg

/-- Another change is one more step, or there are no changes left. -/
theorem run_take_succ {changes : List Change} {i : Nat} (h : run (changes.take (i + 1)) = .ok g') :
    ∃ g, run (changes.take i) = .ok g ∧
      (g' = g ∨ ∃ change, changes[i]? = some change ∧ g.apply change = .ok g') := by
  rw [List.take_add_one, run, List.foldlM_append] at h
  rcases bind_eq_ok.1 h with ⟨g, hg, h⟩
  refine ⟨g, hg, ?_⟩
  cases hchange : changes[i]? with
  | none =>
      rw [hchange] at h
      cases h
      exact Or.inl rfl
  | some change =>
      rw [hchange] at h
      rcases bind_eq_ok.1 h with ⟨g₁, happly, h⟩
      cases h
      exact Or.inr ⟨change, rfl, happly⟩

theorem run_take_succ_of_apply {changes : List Change} {change : Change} {i : Nat}
    (h : run (changes.take i) = .ok g) (hchange : changes[i]? = some change)
    (happly : g.apply change = .ok g') : run (changes.take (i + 1)) = .ok g' := by
  rw [List.take_add_one, run, List.foldlM_append, hchange]
  exact bind_eq_ok.2 ⟨g, h, bind_eq_ok.2 ⟨g', happly, rfl⟩⟩

/-- The graphs that changes lead to are all exact, lookups finding just the live configurations by their
identities, if and only if no strand is split on the way. -/
theorem run_exact_iff (changes : List Change) :
    (∀ i g, run (changes.take i) = .ok g → g.Exact) ↔
      ∀ i c split g, changes[i]? = some (.splitIntoStrands c split) →
        run (changes.take i) = .ok g → ¬ g.SplitsStrand c split := by
  constructor
  · intro hexact i c split g hchange hrun hsplits
    have hsplit := hsplits
    rcases hsplit with ⟨config, ids, g', _, _, hsplit⟩
    have happly : g.apply (.splitIntoStrands c split) = .ok g' := congrArg (Except.map Prod.snd) hsplit
    have hafter := hexact (i + 1) g' (run_take_succ_of_apply hrun hchange happly)
    exact not_exact_of_splitsStrand (hexact i g hrun) hsplits happly hafter
  · intro hsplits i
    induction i with
    | zero =>
        intro g hrun
        cases hrun
        exact Exact.empty
    | succ i ih =>
        intro g' hrun
        rcases run_take_succ hrun with ⟨g, hbefore, rfl | ⟨change, hchange, happly⟩⟩
        · exact ih _ hbefore
        · refine (ih g hbefore).apply ?_ happly
          rintro c split rfl
          exact hsplits i c split g hchange hbefore

/-! ## A strand split again -/

/-- A walk over twelve words. -/
def walk : Config :=
  { id := { core := 0, staticId := 1, instanceNo := 1 }, elemSize := 8,
    formal := Formal.ofWords [8, 12, 0x1000], generator := .linear }

theorem walk_whole : walk.parent = none :=
  rfl

/-- Single elements dealt to two strands. -/
def halves : StrandSplit :=
  .interleave { run := 1, strands := 2, run_pos := Nat.one_pos, strands_pos := Nat.two_pos }

/-- Single elements dealt to three strands. -/
def thirds : StrandSplit :=
  .interleave { run := 1, strands := 3, run_pos := Nat.one_pos, strands_pos := Nat.succ_pos 2 }

/-- The first half of a walk is split into thirds, and then it ends. Its old identity still finds it,
although it has been freed, and the first of its thirds, which is live, cannot be found any more. -/
theorem split_strand_ends :
    ∃ g third, run [.configure walk rfl, .splitIntoStrands { val := 0 } halves,
        .splitIntoStrands { val := 1 } thirds, .endStream { val := 1 }] = .ok g ∧
      g.lookup { stream := walk.id, index := 0, total := 2 } = .ok { val := 1 } ∧
      g.find? { val := 1 } = none ∧
      g.find? { val := 3 } = some third ∧
      third.strandId = .ok { stream := walk.id, index := 0, total := 3 } ∧
      g.lookup { stream := walk.id, index := 0, total := 3 } = .error (.unknownStream walk.id) :=
  ⟨_, _, rfl, rfl, rfl, rfl, rfl, rfl⟩

end Graph
end StreamEngine
