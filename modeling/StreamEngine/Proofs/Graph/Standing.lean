import StreamEngine.Proofs.Graph.Changes

/-!
# What stays of a configuration

As long as a configuration is live and is not split, changes add to its edges, count its references and
leave all else alone: its parameters, its place among the strands, and the identity that it is found under.

- `bare_of_run` : a configuration some changes later;
- `Graph.KeepsStrands` : no strand of a stream is split itself;
- `registered_of_run` : then a stream and its strands are found under their identities.
-/

namespace StreamEngine

/-- The configuration without its edges and counts. -/
def Config.bare (config : Config) : Config :=
  { config with baseEdges := [], depEdges := [], refs := 0, ended := false }

namespace Graph

variable {g g' : Graph} {c id : ConfigId} {config config' : Config} {change : Change}
  {changes : List Change} {stream : StreamId} {k : StrandId}

/-! ## Parameters -/

theorem Fate.bare (h : Fate g change id (some config) (some config'))
    (hsplit : ∀ split, change = .splitIntoStrands id split → ¬ g.Accepts id split) :
    config'.bare = config.bare := by
  cases h with
  | joined hadds => rfl
  | divided hchange haccepts => exact absurd haccepts (hsplit _ hchange)
  | counted hplain => rfl

/-- A key that was given away stays with the configuration that got it. -/
theorem bare_of_run {i j : Nat} (hij : i ≤ j) (hbefore : run (changes.take i) = .ok g)
    (hfind : g.find? c = some config)
    (hunsplit : ∀ j split g config', i ≤ j → changes[j]? = some (.splitIntoStrands c split) →
      run (changes.take j) = .ok g → g.find? c = some config' → config'.bare = config.bare →
      ¬ g.Accepts c split)
    (hafter : run (changes.take j) = .ok g') :
    c.val < g'.slots.length ∧ ∀ config', g'.find? c = some config' → config'.bare = config.bare := by
  induction j, hij using Nat.le_induction generalizing g' with
  | base =>
      rw [hbefore] at hafter
      cases hafter
      refine ⟨lt_of_find? hfind, fun config' hfind' => ?_⟩
      rw [hfind] at hfind'
      cases hfind'
      rfl
  | succ j hij ih =>
      rcases run_take_succ hafter with ⟨g₁, hrun, rfl | ⟨change, hchange, happly⟩⟩
      · exact ih hrun
      rcases ih hrun with ⟨hlt, hsame⟩
      refine ⟨Nat.lt_of_lt_of_le hlt (effect_of_apply happly).length_le, fun config' hfind' => ?_⟩
      rcases exists_fate happly hlt hfind' with ⟨old, hfound, hfate⟩
      have hold := hsame old hfound
      refine (hfate.bare fun split hsplit => ?_).trans hold
      rw [hsplit] at hchange
      exact hunsplit j split g₁ old hij hchange hrun hfound hold

/-! ## Identities -/

theorem stream_of_strandId (h : config.strandId = .ok k) : k.stream = config.id := by
  cases hparent : config.parent with
  | none =>
      rw [strandId_of_whole hparent] at h
      cases h
      rfl
  | some p =>
      have hstrand : config.isStrand = true := by
        rw [Config.isStrand, hparent]
        rfl
      rw [(strandId_of_isStrand hstrand h).2]

theorem Fate.strandId (h : Fate g change id (some config) (some config'))
    (hsplit : ∀ split, change = .splitIntoStrands id split → config.isStrand = true →
      ¬ g.Accepts id split) :
    config'.id = config.id ∧ config'.strandId = config.strandId := by
  cases h with
  | joined hadds => exact ⟨rfl, rfl⟩
  | divided hchange haccepts =>
      have hparent : config.parent = none :=
        Option.not_isSome_iff_eq_none.1 fun hstrand => hsplit _ hchange hstrand haccepts
      refine ⟨rfl, ?_⟩
      rw [strandId_of_whole hparent]
      exact strandId_of_whole hparent
  | counted hplain => exact ⟨rfl, rfl⟩

/-- The stream and its strands are found under their identities while they are live. -/
def Registered (g : Graph) (stream : StreamId) : Prop :=
  ∀ c config, g.find? c = some config → config.id = stream →
    ∃ k, config.strandId = .ok k ∧ g.lookup k = .ok c

/-- Only what has the same identity could take an entry away, and there is no other such. -/
theorem Registered.apply (h : g.Registered stream)
    (hsplit : ∀ c split config, change = .splitIntoStrands c split → g.find? c = some config →
      config.id = stream → config.isStrand = true → ¬ g.Accepts c split)
    (happly : g.apply change = .ok g') : g'.Registered stream := by
  intro c config hfind hid
  have heffect := effect_of_apply happly
  cases hbefore : g.find? c with
  | none => exact heffect.fresh c config hbefore hfind
  | some old =>
      have hfate := heffect.fate c
      rw [hbefore, hfind] at hfate
      have hold : old.id = stream := by
        cases hfate <;> exact hid
      have hname := hfate.strandId fun split hchange => hsplit c split old hchange hbefore hold
      rcases h c old hbefore hold with ⟨k, hk, hlookup⟩
      refine ⟨k, hname.2.trans hk, ?_⟩
      rcases heffect.lookup k c hlookup with hkept | ⟨freed, other, hother, hfrees, hsame⟩
      · exact hkept
      · exfalso
        have hstream : other.id = stream := by
          rw [← stream_of_strandId hsame, stream_of_strandId hk, hold]
        rcases h freed other hother hstream with ⟨k', hk', hlookup'⟩
        rw [hsame] at hk'
        cases hk'
        rw [hlookup] at hlookup'
        cases hlookup'
        rw [find?_of_frees hfrees hother happly] at hfind
        cases hfind

/-- The changes split no strand of the stream. -/
def KeepsStrands (changes : List Change) (stream : StreamId) : Prop :=
  ∀ i c split g config, changes[i]? = some (.splitIntoStrands c split) →
    run (changes.take i) = .ok g → g.find? c = some config → config.id = stream →
    config.isStrand = true → ¬ g.Accepts c split

theorem registered_of_run (hkeeps : KeepsStrands changes stream) {i : Nat}
    (hrun : run (changes.take i) = .ok g) : g.Registered stream := by
  induction i generalizing g with
  | zero =>
      cases hrun
      intro c config hfind
      cases hfind
  | succ i ih =>
      rcases run_take_succ hrun with ⟨g₁, hbefore, rfl | ⟨change, hchange, happly⟩⟩
      · exact ih hbefore
      · refine (ih hbefore).apply ?_ happly
        rintro c split config rfl
        exact hkeeps i c split g₁ config hchange hbefore

end Graph
end StreamEngine
