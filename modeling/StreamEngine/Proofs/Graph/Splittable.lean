import StreamEngine.Proofs.Graph.Naming
import StreamEngine.Proofs.Linear.Decoding

/-!
# Streams that may be split

Whether a stream may be split is told from the trip count that was declared for it, from its edges and
float plan, and from a walk without gaps. A split itself takes the trip count out of the parameter list,
which need not have one, and enters the strands under identities that strands of an earlier stream may
still have. Nothing else comes between the two.

- `Config.exists_strandPatterns` : the patterns of the strands can always be made;
- `Graph.exists_configureStrands` : strands are entered where their identities are free;
- `Graph.splitIntoStrands_of_canSplit` : what becomes of a split of a stream that may be split;
- `Graph.run_split_of_canSplit` : the same in a graph that changes lead to.
-/

namespace StreamEngine

open Linear

/-! ## Patterns of the strands -/

namespace Config

open LinearPattern

variable {config : Config} {nested flat : LinearPattern} {i : Interleave}

/-- Every strand of a flat walk that is dealt in runs has a pattern. -/
theorem exists_strandPatterns (hdecode : decode config.formal = .ok nested)
    (hflat : nested.flatten? = some flat)
    (hcont : isContinuous config.formal config.elemSize = true) (htwo : 2 ≤ i.strands) :
    ∃ patterns, config.strandPatterns (.interleave i) = .ok patterns ∧
      patterns.strands.length = i.strands := by
  rcases Option.map_eq_some_iff.1 hflat with ⟨l, _, hloop⟩
  have hstrand : ∀ s, strandPattern nested flat true (.interleave i) s =
      .ok (dealRuns flat.start { stride := l.stride, trip := nested.totalTrip } i s) := by
    intro s
    rw [← hloop]
    simp only [strandPattern, splitRuns, oneDim, Interleave.checked_self]
    rfl
  have hstrands := exists_mapM_ok fun s (_ : s ∈ List.range i.strands) => ⟨_, hstrand s⟩
  rcases hstrands with ⟨strands, hstrands⟩
  refine ⟨{ flat, strands }, ?_, ?_⟩
  · have hmany : ¬ i.strands < 2 := Nat.not_lt.2 htwo
    refine bind_eq_ok.2 ⟨nested, Failure.ofRefusal_eq_ok.2 hdecode, ?_⟩
    simp only [StrandSplit.totalStrands, if_neg hmany, ite_self, hflat, hcont]
    exact bind_eq_ok.2 ⟨strands, hstrands, rfl⟩
  · rw [(mapM_eq_ok hstrands).1, List.length_range]

/-- A list that is not decoded is why the split is refused. -/
theorem strandPatterns_of_refused {split : StrandSplit} {refusal : PatternError}
    (hdecode : decode config.formal = .error refusal) :
    config.strandPatterns split = .error (.refused refusal) := by
  rw [strandPatterns, hdecode]
  rfl

end Config

namespace Graph

variable {g g' : Graph} {c id : ConfigId} {config stream : Config} {k : StrandId} {i : Interleave}
  {split : StrandSplit} {n : Nat}

/-! ## Entering strands -/

/-- A configuration is entered where nothing has its identity. -/
theorem exists_configure (hk : config.strandId = .ok k) (hfree : ∀ c', g.lookup k ≠ .ok c') :
    ∃ c g', g.configure config = .ok (c, g') := by
  have hnew : ¬ g.index.contains k = true := by
    intro hcontains
    rcases Option.isSome_iff_exists.1 hcontains with ⟨c', hc'⟩
    exact hfree c' (lookup_eq_ok.2 hc')
  exact ⟨_, _, configure_iff.2 ⟨k, hk, hnew, rfl, rfl⟩⟩

/-- The strands from `s` on are entered where nothing has their identities. -/
theorem exists_configureStrands {total s : Nat} {patterns : List LinearPattern}
    (hlen : s + patterns.length = i.strands)
    (hfree : ∀ j, s ≤ j → j < i.strands → ∀ c',
      g.lookup { stream := config.id, index := j, total := i.strands } ≠ .ok c') :
    ∃ ids g', g.configureStrands config c (.interleave i) total s patterns = .ok (ids, g') := by
  induction patterns generalizing g s with
  | nil => exact ⟨[], g, rfl⟩
  | cons p patterns ih =>
      rw [List.length_cons] at hlen
      have hs : s < i.strands := by omega
      have hk : (config.strand c (.interleave i) s (i.tripCount total s) p).strandId =
          .ok { stream := config.id, index := s, total := i.strands } := part_eq_ok hs
      rcases exists_configure hk (hfree s (Nat.le_refl s) hs) with ⟨id, g₁, hconfigure⟩
      rcases lookup_configure hconfigure with ⟨k, hk', _, hlookup⟩
      rw [hk] at hk'
      cases hk'
      -- this strand has taken no identity that a later one needs
      have hlater : ∀ j, s + 1 ≤ j → j < i.strands → ∀ c',
          g₁.lookup { stream := config.id, index := j, total := i.strands } ≠ .ok c' := by
        intro j hj hlt c' hc'
        rcases (hlookup _ c').1 hc' with ⟨hsame, _⟩ | ⟨_, hbefore⟩
        · injection hsame with _ hindex
          omega
        · exact hfree j (Nat.le_of_succ_le hj) hlt c' hbefore
      rcases ih (by omega) hlater with ⟨ids, g₂, hrest⟩
      exact ⟨id :: ids, g₂,
        configureStrands_cons_eq_ok.2 ⟨_, id, g₁, ids, rfl, hconfigure, hrest, rfl⟩⟩

/-- The identities that `n` strands of a stream would have are free. -/
def NamesFree (g : Graph) (stream : StreamId) (n : Nat) : Prop :=
  ∀ s < n, ∀ c, g.lookup { stream, index := s, total := n } ≠ .ok c

theorem configureStrands_ok_iff {total : Nat} {patterns : List LinearPattern}
    (hlen : patterns.length = i.strands) :
    (∃ ids g', g.configureStrands config c (.interleave i) total 0 patterns = .ok (ids, g')) ↔
      g.NamesFree config.id i.strands := by
  constructor
  · rintro ⟨ids, g', h⟩ s hs c'
    have hfree := (lookup_configureStrands h).2 s (hlen.symm ▸ hs) c'
    rwa [Nat.zero_add] at hfree
  · intro hfree
    exact exists_configureStrands ((Nat.zero_add _).trans hlen) fun j _ hj => hfree j hj

/-! ## Splitting what may be split -/

theorem splitIntoStrands_of_refused {refusal : PatternError} (hfind : g.find? c = some stream)
    (hpatterns : stream.strandPatterns split = .error (.refused refusal)) :
    g.splitIntoStrands c split = .ok (.error refusal, g) := by
  refine bind_eq_ok.2 ⟨stream, get_eq_ok.2 hfind, ?_⟩
  simp only [hpatterns]
  rfl

/-- Once the patterns are made, the split enters the strands and answers with their keys. -/
theorem splitIntoStrands_iff_of_patterns {patterns : StrandPatterns}
    {answer : Except PatternError (List ConfigId)} (hfind : g.find? c = some stream)
    (hpatterns : stream.strandPatterns split = .ok patterns) :
    g.splitIntoStrands c split = .ok (answer, g') ↔
      ∃ ids, answer = .ok ids ∧
        (g.put c (some { stream with split := some split, totalStrands := split.totalStrands
          })).configureStrands stream c split patterns.flat.totalTrip 0 patterns.strands =
            .ok (ids, g') := by
  constructor
  · intro h
    rcases bind_eq_ok.1 h with ⟨config, hget, h⟩
    rw [get_eq_ok, hfind] at hget
    cases hget
    simp only [hpatterns] at h
    rcases bind_eq_ok.1 h with ⟨⟨ids, g₁⟩, hstrands, h⟩
    cases h
    exact ⟨ids, rfl, hstrands⟩
  · rintro ⟨ids, rfl, hstrands⟩
    refine bind_eq_ok.2 ⟨stream, get_eq_ok.2 hfind, ?_⟩
    simp only [hpatterns]
    exact bind_eq_ok.2 ⟨_, hstrands, rfl⟩

/-- Only the identities of the strands can keep a decoded walk without gaps from being split. -/
theorem splitIntoStrands_of_decode {nested : LinearPattern} {words : List UInt64}
    (hfind : g.find? c = some stream) (hwords : stream.formal.words? = some words)
    (hcont : isContinuous stream.formal stream.elemSize = true)
    (hdecode : LinearPattern.decode stream.formal = .ok nested) (htwo : 2 ≤ i.strands) :
    ((∃ ids g', g.splitIntoStrands c (.interleave i) = .ok (.ok ids, g')) ↔
      g.NamesFree stream.id i.strands) ∧
      ∀ refusal g', g.splitIntoStrands c (.interleave i) ≠ .ok (.error refusal, g') := by
  have hflat := LinearPattern.flatten?_of_decode hwords hdecode
  rcases Config.exists_strandPatterns hdecode hflat hcont htwo with ⟨patterns, hpatterns, hlen⟩
  constructor
  · simp only [splitIntoStrands_iff_of_patterns hfind hpatterns, Except.ok.injEq, exists_eq_left']
    -- to note the split in the stream's own configuration takes no identity
    exact configureStrands_ok_iff hlen
  · intro refusal g' h
    rcases (splitIntoStrands_iff_of_patterns hfind hpatterns).1 h with ⟨ids, hanswer, _⟩
    cases hanswer

/-- A stream that may be split walks words, and walks them without gaps. -/
theorem continuous_of_canSplit (hfind : g.find? c = some stream) (hcan : g.canSplit [c] = .ok true) :
    isContinuous stream.formal stream.elemSize = true := by
  rcases bind_eq_ok.1 (allM_eq_true hcan c List.mem_cons_self) with ⟨config, hget, hconfig⟩
  rw [get_eq_ok, hfind] at hget
  cases hget
  have hmay : stream.canSplit = true := Except.ok.inj hconfig
  simp only [Config.canSplit, Bool.and_eq_true] at hmay
  exact hmay.1.1.2

/-- A stream that may be split is split just if its list has the total trip in it and the identities of
the strands are free. Without a total trip the split is refused, so that it is a fault where only an
identity is taken. -/
theorem splitIntoStrands_of_canSplit {m : Nat} (hfind : g.find? c = some stream)
    (hcan : g.canSplit [c] = .ok true) (hm : 0 < m) (hn : 2 ≤ n) :
    ∃ split, StrandSplit.interleaved m n = .ok split ∧
      ((∃ ids g', g.splitIntoStrands c split = .ok (.ok ids, g')) ↔
        (∃ words, stream.formal.Counted words) ∧ g.NamesFree stream.id n) ∧
      ((∃ refusal, g.splitIntoStrands c split = .ok (.error refusal, g)) ↔
        ¬ ∃ words, stream.formal.Counted words) := by
  have hcont := continuous_of_canSplit hfind hcan
  rcases exists_words_of_isContinuous hcont with ⟨words, hwords⟩
  have hpos : 0 < n := Nat.lt_of_lt_of_le Nat.two_pos hn
  have htwo : 2 ≤ (Interleave.mk m n hm hpos).strands := hn
  refine ⟨_, StrandSplit.interleaved_of_pos hm hpos, ?_⟩
  rw [← LinearPattern.exists_decode_iff hwords]
  cases hdecode : LinearPattern.decode stream.formal with
  | error refusal =>
      have hnone : ¬ ∃ p, (.error refusal : Except PatternError LinearPattern) = .ok p := by
        rintro ⟨p, hp⟩
        cases hp
      rw [splitIntoStrands_of_refused hfind (Config.strandPatterns_of_refused hdecode)]
      refine ⟨⟨?_, fun hdecoded => absurd hdecoded.1 hnone⟩, fun _ => hnone, fun _ => ⟨refusal, rfl⟩⟩
      rintro ⟨ids, g', h⟩
      cases h
  | ok nested =>
      have hsome : ∃ p, (.ok nested : Except PatternError LinearPattern) = .ok p := ⟨nested, rfl⟩
      rcases splitIntoStrands_of_decode hfind hwords hcont hdecode htwo with ⟨hok, hnever⟩
      refine ⟨hok.trans ⟨fun hfree => ⟨hsome, hfree⟩, And.right⟩, ?_, fun hnone => absurd hsome hnone⟩
      rintro ⟨refusal, h⟩
      exact absurd h (hnever refusal g)

/-- In a graph that changes lead to, a stream that may be split and has not been yet is split into runs just
if its list has the total trip in it and the identities of the strands are free. The split is refused just
if there is no total trip in the list. An identity is taken only after another configuration of the same
stream was split into as many strands. -/
theorem run_split_of_canSplit {changes : List Change} {m n : Nat} (hrun : run changes = .ok g)
    (hfind : g.find? c = some stream) (hunsplit : stream.isSplit = false)
    (hcan : g.canSplit [c] = .ok true) (hm : 0 < m) (hn : 2 ≤ n) :
    ∃ split, StrandSplit.interleaved m n = .ok split ∧
      (g.Accepts c split ↔ (∃ words, stream.formal.Counted words) ∧ g.NamesFree stream.id n) ∧
      ((∃ refusal, g.splitIntoStrands c split = .ok (.error refusal, g)) ↔
        ¬ ∃ words, stream.formal.Counted words) ∧
      (¬ g.NamesFree stream.id n →
        ∃ earlier ≠ c, SplitWithin changes changes.length earlier stream.id n) := by
  rcases splitIntoStrands_of_canSplit hfind hcan hm hn with ⟨split, hsplit, haccepts, hrefused⟩
  refine ⟨split, hsplit, haccepts, hrefused, fun htaken => ?_⟩
  simp only [NamesFree, not_forall, not_not] at htaken
  rcases htaken with ⟨s, _, id, hlookup⟩
  rw [← List.take_length (l := changes)] at hrun
  rcases exists_splitWithin hrun hlookup hn with ⟨earlier, hearlier⟩
  refine ⟨earlier, ?_, hearlier⟩
  -- the stream itself would show that it was split
  rintro rfl
  rw [(hearlier.isSplit hrun).2 stream hfind] at hunsplit
  cases hunsplit

/-! ## Twelve words with and without their trip -/

/-- A walk with a declared trip of twelve, which floats to a cache from its first element on. -/
def cached (words : List UInt64) : Config :=
  { walk with
    formal := Formal.ofWords words
    totalTrip := some 12
    floatPlan := { changes := [(0, .l3)] } }

def cachedGraph (words : List UInt64) : Graph :=
  { slots := [some (cached words)], index := Table.insert {} (.whole walk.id) { val := 0 } }

/-- With its trip in the list the stream is split into runs of four for two strands. -/
theorem run_split_of_canSplit_cached :
    ∃ split, StrandSplit.interleaved 4 2 = .ok split ∧
      (cachedGraph [8, 12, 0x1000]).Accepts { val := 0 } split := by
  have hcounted : (cached [8, 12, 0x1000]).formal.Counted [8, 12, 0x1000] :=
    ⟨rfl, ⟨1, by decide, rfl⟩, by decide⟩
  have hfree : (cachedGraph [8, 12, 0x1000]).NamesFree walk.id 2 := by
    intro s _ c hlookup
    have hne : StrandId.whole walk.id ≠ { stream := walk.id, index := s, total := 2 } := by
      intro hsame
      cases hsame
    rw [lookup_eq_ok, cachedGraph, Table.find?_insert, if_neg hne] at hlookup
    cases hlookup
  have hrun : run [.configure (cached [8, 12, 0x1000]) rfl] = .ok (cachedGraph [8, 12, 0x1000]) := rfl
  have hfind : (cachedGraph [8, 12, 0x1000]).find? { val := 0 } = some (cached [8, 12, 0x1000]) := rfl
  rcases run_split_of_canSplit hrun hfind rfl rfl (Nat.succ_pos 3) (Nat.le_refl 2) with
    ⟨split, hsplit, haccepts, _⟩
  exact ⟨split, hsplit, haccepts.2 ⟨⟨_, hcounted⟩, hfree⟩⟩

/-- Without its trip in the list it walks the same words. It may be split, and the split is refused. -/
theorem uncounted_refused :
    run [.configure (cached [8, 0x1000]) rfl] = .ok (cachedGraph [8, 0x1000]) ∧
      (cached [8, 0x1000]).isSplit = false ∧
      (cachedGraph [8, 0x1000]).canSplit [{ val := 0 }] = .ok true ∧
      StrandSplit.interleaved 1 2 = .ok halves ∧
      (cachedGraph [8, 0x1000]).splitIntoStrands { val := 0 } halves =
        .ok (.error (.paramCount (Formal.ofWords [8, 0x1000])), cachedGraph [8, 0x1000]) :=
  ⟨rfl, rfl, rfl, rfl, rfl⟩

/-- The strands of a stream that has ended still have the identities when the stream is entered again. -/
example :
    ∃ g, run [.configure (cached [8, 12, 0x1000]) rfl, .splitIntoStrands { val := 0 } halves,
        .endStream { val := 0 }, .configure (cached [8, 12, 0x1000]) rfl] = .ok g ∧
      g.canSplit [{ val := 3 }] = .ok true ∧
      g.splitIntoStrands { val := 3 } halves =
        .error (.graph (.configuredTwice { stream := walk.id, index := 0, total := 2 })) :=
  ⟨_, rfl, rfl, rfl⟩

end Graph
end StreamEngine
