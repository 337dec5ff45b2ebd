import StreamEngine.Proofs.Graph.Changes

/-!
# Where identities come from

Nothing but an accepted split enters strands, and it names them after the configuration that it splits. A
configuration that was split says so as long as it is live.

- `Graph.lookup_cases_of_apply` : what is found after a change and was not before;
- `Graph.SplitWithin`, `Graph.exists_splitWithin` : the split that an identity comes from;
- `SplitWithin.isSplit` : what that split leaves behind.
-/

namespace StreamEngine
namespace Graph

variable {g g' : Graph} {c id : ConfigId} {config config' : Config} {k : StrandId}
  {split : StrandSplit} {change : Change} {changes : List Change} {stream : StreamId} {i j n : Nat}

/-! ## What is found -/

/-- All that is found was found before. -/
def FindsNothingNew (g g' : Graph) : Prop :=
  ∀ k c, g'.lookup k = .ok c → g.lookup k = .ok c

namespace FindsNothingNew

theorem refl (g : Graph) : FindsNothingNew g g :=
  fun _ _ => id

theorem modify {f : Config → Config} (h : g.modify c f = .ok g') : FindsNothingNew g g' := by
  intro k id hlookup
  rwa [lookup_modify h] at hlookup

theorem trans {g₁ : Graph} (h : FindsNothingNew g g₁) (h' : FindsNothingNew g₁ g') :
    FindsNothingNew g g' :=
  fun k id hlookup => h k id (h' k id hlookup)

theorem freeIfDone {freed : Bool} {x : Option Config}
    (h : (g.put c x).freeIfDone c = .ok (freed, g')) : FindsNothingNew g g' := by
  rcases freeIfDone_eq_ok.1 h with ⟨config, _, _, ⟨_, rfl⟩ | ⟨_, k, _, rfl⟩⟩
  · exact refl g
  · intro k' id hlookup
    rw [lookup_eq_ok, Table.find?_erase] at hlookup
    by_cases hk : k = k'
    · rw [if_pos hk] at hlookup
      cases hlookup
    · rw [if_neg hk] at hlookup
      exact lookup_eq_ok.2 hlookup

theorem addSendTo {recv : ConfigId} {reuse : Reuse} {skip : Int}
    (h : g.addSendTo c recv reuse skip = .ok g') : FindsNothingNew g g' := by
  rcases addSendTo_eq_ok h with rfl | ⟨_, _, _, _, _, _, _, h⟩
  · exact refl g'
  · exact modify h

theorem release {freed : Bool} (h : g.release c = .ok (freed, g')) : FindsNothingNew g g' := by
  rcases release_eq_ok.1 h with ⟨_, _, _, h⟩
  exact freeIfDone h

theorem endStream {freed : Bool} (h : g.endStream c = .ok (freed, g')) : FindsNothingNew g g' := by
  rcases endStream_eq_ok.1 h with ⟨_, _, _, h⟩
  exact freeIfDone h

end FindsNothingNew

/-- What is found after strands were entered is one of them, or it was found before. -/
theorem lookup_cases_of_configureStrands {total s : Nat} {patterns : List LinearPattern}
    {ids : List ConfigId}
    (h : g.configureStrands config c split total s patterns = .ok (ids, g'))
    (hlookup : g'.lookup k = .ok id) :
    g.lookup k = .ok id ∨ k.stream = config.id ∧ k.total = split.totalStrands := by
  induction patterns generalizing g s ids with
  | nil =>
      cases h
      exact Or.inl hlookup
  | cons p patterns ih =>
      rcases configureStrands_cons_eq_ok.1 h with ⟨own, new, g₁, rest, _, hconfigure, hrest, rfl⟩
      rcases ih hrest with hfirst | hstrand
      · rcases lookup_configure hconfigure with ⟨k', hk', _, hfound⟩
        rcases (hfound k id).1 hfirst with ⟨rfl, _⟩ | ⟨_, hbefore⟩
        · have hstrand : (config.strand c split s own p).isStrand = true := rfl
          rw [(strandId_of_isStrand hstrand hk').2]
          exact Or.inr ⟨rfl, rfl⟩
        · exact Or.inl hbefore
      · exact Or.inr hstrand

/-- A split into fewer than two strands is refused. -/
theorem two_le_of_accepts (h : g.Accepts c split) : 2 ≤ split.totalStrands := by
  rcases h with ⟨ids, g', h⟩
  rcases splitIntoStrands_eq_ok h with ⟨stream, patterns, _, hpatterns, _⟩
  exact Config.two_le_of_strandPatterns hpatterns

/-- Only an accepted split enters strands, and it names them after the configuration that it splits. -/
theorem lookup_cases_of_apply (h : g.apply change = .ok g')
    (hlookup : g'.lookup k = .ok id) (htwo : 2 ≤ k.total) :
    g.lookup k = .ok id ∨ ∃ c split old, change = .splitIntoStrands c split ∧ g.Accepts c split ∧
      g.find? c = some old ∧ k.stream = old.id ∧ k.total = split.totalStrands := by
  cases change with
  | configure stream whole =>
      rcases map_snd_eq_ok h with ⟨c, h⟩
      rcases lookup_configure h with ⟨k', hk', _, hfound⟩
      rcases (hfound k id).1 hlookup with ⟨rfl, _⟩ | ⟨_, hbefore⟩
      · rw [strandId_of_whole whole] at hk'
        cases hk'
        exact absurd htwo (Nat.not_succ_le_self 1)
      · exact Or.inl hbefore
  | addBaseOn this base reuse skip pred =>
      rcases addBaseOn_eq_ok h with ⟨_, _, _, _, h⟩
      exact Or.inl (FindsNothingNew.modify h k id hlookup)
  | addUsedBy base dep reuse pred =>
      rcases addUsedBy_eq_ok h with ⟨_, _, _, g₁, _, _, _, hdep, hbase⟩
      exact Or.inl (((FindsNothingNew.modify hdep).trans (.modify hbase)) k id hlookup)
  | addSendTo sender recv reuse skip => exact Or.inl (FindsNothingNew.addSendTo h k id hlookup)
  | addMemorySendTo sender recv memory =>
      rcases addMemorySendTo_eq_ok h with ⟨_, _, h⟩
      exact Or.inl (FindsNothingNew.modify h k id hlookup)
  | splitIntoStrands c split =>
      rcases map_snd_eq_ok h with ⟨refusal | ids, h⟩
      · rw [splitIntoStrands_eq_error h] at hlookup
        exact Or.inl hlookup
      · rcases splitIntoStrands_eq_ok h with ⟨old, patterns, hold, _, hstrands⟩
        rcases lookup_cases_of_configureStrands hstrands hlookup with hbefore | ⟨hstream, htotal⟩
        · exact Or.inl hbefore
        · exact Or.inr ⟨c, split, old, rfl, ⟨ids, g', h⟩, hold, hstream, htotal⟩
  | acquire c => exact Or.inl (FindsNothingNew.modify h k id hlookup)
  | release c =>
      rcases map_snd_eq_ok h with ⟨freed, h⟩
      exact Or.inl (FindsNothingNew.release h k id hlookup)
  | endStream c =>
      rcases map_snd_eq_ok h with ⟨freed, h⟩
      exact Or.inl (FindsNothingNew.endStream h k id hlookup)

/-- Among the first `i` changes of a run is an accepted split of this configuration, which has the identity
of the stream, into `n` strands. -/
def SplitWithin (changes : List Change) (i : Nat) (c : ConfigId) (stream : StreamId) (n : Nat) : Prop :=
  ∃ j < i, ∃ g old split, changes[j]? = some (.splitIntoStrands c split) ∧
    run (changes.take j) = .ok g ∧ g.Accepts c split ∧ g.find? c = some old ∧ stream = old.id ∧
      n = split.totalStrands

theorem SplitWithin.mono (h : SplitWithin changes i c stream n) (hij : i ≤ j) : SplitWithin changes j c stream n := by
  rcases h with ⟨m, hm, h⟩
  exact ⟨m, Nat.lt_of_lt_of_le hm hij, h⟩

/-- An identity of one of many strands comes from a split into as many. -/
theorem exists_splitWithin (hrun : run (changes.take i) = .ok g)
    (hlookup : g.lookup k = .ok id) (htwo : 2 ≤ k.total) :
    ∃ c, SplitWithin changes i c k.stream k.total := by
  induction i generalizing g with
  | zero =>
      cases hrun
      cases hlookup
  | succ i ih =>
      rcases run_take_succ hrun with ⟨g₀, hbefore, rfl | ⟨change, hchange, happly⟩⟩
      · rcases ih hbefore hlookup with ⟨c, hsplit⟩
        exact ⟨c, hsplit.mono (Nat.le_succ i)⟩
      rcases lookup_cases_of_apply happly hlookup htwo with hold |
        ⟨c, split, old, rfl, haccepts, hfind, hstream, htotal⟩
      · rcases ih hbefore hold with ⟨c, hsplit⟩
        exact ⟨c, hsplit.mono (Nat.le_succ i)⟩
      · exact ⟨c, i, Nat.lt_succ_self i, g₀, old, split, hchange, hbefore, haccepts, hfind, hstream, htotal⟩

/-- A configuration that is split stays so. -/
theorem Fate.isSplit (h : Fate g change id (some config) (some config')) (hsplit : config.isSplit = true) :
    config'.isSplit = true := by
  cases h with
  | joined hadds => exact hsplit
  | divided hchange haccepts => exact decide_eq_true (two_le_of_accepts haccepts)
  | counted hplain => exact hsplit

theorem isSplit_of_apply (h : g.apply change = .ok g') (hlt : c.val < g.slots.length)
    (hsplit : ∀ config, g.find? c = some config → config.isSplit = true) :
    c.val < g'.slots.length ∧ ∀ config, g'.find? c = some config → config.isSplit = true := by
  refine ⟨Nat.lt_of_lt_of_le hlt (effect_of_apply h).length_le, fun config' hfind' => ?_⟩
  rcases exists_fate h hlt hfind' with ⟨config, hfind, hfate⟩
  exact hfate.isSplit (hsplit config hfind)

/-- An accepted split leaves its mark on the configuration. -/
theorem isSplit_of_accepts (haccepts : g.Accepts c split) :
    ∃ g', g.apply (.splitIntoStrands c split) = .ok g' ∧ c.val < g'.slots.length ∧
      ∀ config, g'.find? c = some config → config.isSplit = true := by
  have htwo := two_le_of_accepts haccepts
  rcases haccepts with ⟨ids, g', h⟩
  rcases splitIntoStrands_eq_ok h with ⟨stream, patterns, hstream, _, hstrands⟩
  have hstays := (configureStrands_eq_ok hstrands).2.1 c _ ((find?_put hstream _ c).trans (if_pos rfl))
  refine ⟨g', congrArg (Except.map Prod.snd) h, lt_of_find? hstays, fun config hfind => ?_⟩
  rw [hstays] at hfind
  cases hfind
  exact decide_eq_true htwo

theorem SplitWithin.isSplit (h : SplitWithin changes i c stream n) (hrun : run (changes.take i) = .ok g) :
    c.val < g.slots.length ∧ ∀ config, g.find? c = some config → config.isSplit = true := by
  rcases h with ⟨j, hj, g₀, old, split, hchange, hbefore, haccepts, _⟩
  induction i, hj using Nat.le_induction generalizing g with
  | base =>
      rcases isSplit_of_accepts haccepts with ⟨g₁, happly, hmark⟩
      have hafter := run_take_succ_of_apply hbefore hchange happly
      rw [hrun] at hafter
      cases hafter
      exact hmark
  | succ i hij ih =>
      rcases run_take_succ hrun with ⟨g₁, hrun₁, rfl | ⟨change, _, happly⟩⟩
      · exact ih hrun₁
      · exact isSplit_of_apply happly (ih hrun₁).1 (ih hrun₁).2

end Graph
end StreamEngine
