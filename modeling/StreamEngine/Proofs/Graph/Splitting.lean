import StreamEngine.Graph.Forward
import StreamEngine.Graph.Split
import StreamEngine.Proofs.Graph.References
import StreamEngine.Proofs.Linear.Shares

/-!
# Strands reproduce their stream

Splitting a linear stream enters one configuration for each strand. Together they walk the elements of
the stream, each of them once and at the same address, and the maps between stream and strand indices
agree with that.

* `Config.address_eq_ok` — the address of an element out of the words of a list;
* `LinearPattern.IsShare` — each pattern of a split walks the strand's elements of the stream;
* `Graph.configureStrands_eq_ok` — entering the strands leaves the other configurations alone;
* `Graph.splitIntoStrands_reproduces` — all of it for every split that is not refused.
-/

namespace StreamEngine

open Linear

/-- A list of an odd number of at least three words, each cumulative trip of which is a positive
multiple of the one below it. -/
structure Formal.Documented (ps : Formal) (words : List UInt64) : Prop where
  words? : ps.words? = some words
  length : ∃ levels, 1 ≤ levels ∧ words.length = 2 * levels + 1
  nested : Nested ((tripsOf words.dropLast).map UInt64.toNat)

namespace Config

variable {c : Config} {words : List UInt64}

theorem address_eq_ok (hlinear : c.generator = .linear) (hwords : c.formal.words? = some words)
    (hlen : 2 ≤ words.length) (idx : Nat) : c.address idx = .ok (Linear.address words idx) := by
  rcases Formal.exists_of_words? hwords with ⟨vs, hformal, rfl⟩
  have haddr : Linear.address? (vs.map StreamValue.front) idx =
      .ok (Linear.address (vs.map StreamValue.front) idx) := by
    rw [Linear.address?, if_neg (Nat.not_lt.2 hlen)]
  rw [address, hlinear, hformal, Generator.invariantAddress, Generator.generate, Formal.resolve_map]
  refine bind_eq_ok.2 ⟨.ofWord (Linear.address (vs.map StreamValue.front) idx), ?_, rfl⟩
  exact bind_eq_ok.2 ⟨vs, rfl, bind_eq_ok.2 ⟨_, haddr, rfl⟩⟩

end Config

theorem Failure.ofRefusal_eq_ok {ε α : Type} {x : Except ε α} {a : α} :
    Failure.ofRefusal x = .ok a ↔ x = .ok a := by
  cases x with
  | error e => simp [Failure.ofRefusal]
  | ok b => simp [Failure.ofRefusal]

/-! ## Patterns of the strands -/

namespace LinearPattern

variable {start : UInt64} {below : List Level} {l : Level} {p flat q : LinearPattern}
  {split : StrandSplit} {continuous : Bool} {n s total own : Nat} {trip : Nat → Nat}

/-- The pattern walks the elements of `p` that strand `s` has, `own` of them. -/
structure IsShare (q p : LinearPattern) (split : StrandSplit) (s own : Nat) : Prop where
  levels_ne : q.levels ≠ []
  addr : ∀ e < own, ∀ idx, split.toStream ⟨s, e⟩ = .ok idx → q.addr e = p.addr idx

/-- The flat form is a single loop that has as many elements, and the same ones where the walk has no
gaps. -/
structure IsFlat (flat p : LinearPattern) (total : Nat) (continuous : Bool) : Prop where
  loop : ∃ stride, flat = oneDim p.start stride total
  addr : continuous = true → ∀ idx, flat.addr idx = p.addr idx

/-- The pattern of a range is no loop at all or a range of the flat form. -/
theorem strandPattern_ranges {bounds : List Nat}
    (h : Config.strandPattern p flat continuous (.ranges bounds) s = .ok q) :
    ∃ lo hi, bounds[s]? = some lo ∧ bounds[s + 1]? = some hi ∧
      (lo = hi ∧ q = { flat with levels := flat.levels.map fun l => { l with trip := 0 } } ∨
        flat.splitRange lo hi = .ok q) := by
  simp only [Config.strandPattern] at h
  cases hlo : bounds[s]? with
  | none =>
      simp only [hlo] at h
      cases h
  | some lo =>
      cases hhi : bounds[s + 1]? with
      | none =>
          simp only [hlo, hhi] at h
          cases h
      | some hi =>
          simp only [hlo, hhi] at h
          refine ⟨lo, hi, rfl, rfl, ?_⟩
          by_cases hempty : lo = hi
          · rw [if_pos hempty] at h
            exact Or.inl ⟨hempty, (Except.ok.inj h).symm⟩
          · rw [if_neg hempty] at h
            exact Or.inr (Failure.ofRefusal_eq_ok.1 h)

/-- Ranges of the flat form; an empty range has no element to speak of. -/
theorem isShare_of_ranges {bounds : List Nat} (hflat : flat.IsFlat p total true)
    (hown : (StrandSplit.ranges bounds).tripCount total s = .ok own)
    (h : Config.strandPattern p flat continuous (.ranges bounds) s = .ok q) :
    q.IsShare p (.ranges bounds) s own := by
  rcases hflat with ⟨⟨stride, rfl⟩, hsame⟩
  rcases strandPattern_ranges h with ⟨lo, hi, hlo, hhi, ⟨hempty, rfl⟩ | hrange⟩
  · simp only [StrandSplit.tripCount, hlo, hhi, hempty, Nat.lt_irrefl, if_false, Nat.sub_self] at hown
    cases hown
    exact ⟨List.cons_ne_nil _ _, fun e he => absurd he (Nat.not_lt_zero e)⟩
  · rw [splitRange_eq_ok hrange]
    refine ⟨List.cons_ne_nil _ _, fun e _ idx hidx => ?_⟩
    have hlocal : idx = lo + e := by
      simp only [StrandSplit.toStream, hlo] at hidx
      exact (Except.ok.inj hidx).symm
    rw [hlocal, ← hsame rfl]
    exact addr_range p.start { stride, trip := total } lo (hi - lo) e

/-- A pattern of a split walks the strand's elements of the stream. Only a walk without gaps is divided
into ranges. -/
theorem isShare_of_strandPattern (hnest : Nested ((below ++ [l]).map Level.trip))
    (hlt : l.trip < 2 ^ 64) (hflat : flat.IsFlat { start, levels := below ++ [l] } l.trip continuous)
    (hranges : ∀ bounds, split = .ranges bounds → continuous = true)
    (hdeals : split.Deals l.trip n trip) (hs : s < n)
    (h : Config.strandPattern { start, levels := below ++ [l] } flat continuous split s = .ok q) :
    q.IsShare { start, levels := below ++ [l] } split s (trip s) := by
  have hown := hdeals.tripCount s hs
  cases split with
  | ranges bounds =>
      have htrue := hranges bounds rfl
      rw [htrue] at hflat
      exact isShare_of_ranges hflat hown h
  | interleave i =>
      have hn : i.strands = n := hdeals.totalStrands
      rw [← hn] at hs
      have hcount : (.ok (i.tripCount l.trip s) : Except Fault Nat) = .ok (trip s) := hown
      rw [← Except.ok.inj hcount]
      -- without gaps the runs come off the flat form, with gaps off the outermost loop
      cases continuous with
      | true =>
          rcases hflat with ⟨⟨stride, rfl⟩, hsame⟩
          have hq := splitRuns_eq_ok h
          refine ⟨?_, fun e he idx hidx => ?_⟩
          · rw [hq]
            exact List.cons_ne_nil _ _
          · cases hidx
            rw [hq, ← hsame rfl]
            exact addr_dealRuns hlt he
      | false =>
          have hdim : dims { start, levels := below ++ [l] } - 1 = below.length := by
            rw [dims, List.length_append]
            rfl
          simp only [Config.strandPattern, hdim] at h
          refine ⟨?_, fun e he idx hidx => ?_⟩
          · rcases (splitDim_eq_ok hs).1 h with ⟨_, _, _, rfl⟩
            exact List.append_ne_nil_of_right_ne_nil _ (List.cons_ne_nil _ _)
          · cases hidx
            exact addr_splitDim hlt hnest h hs he

/-- The outermost level of a decoded list has the total trip. -/
theorem exists_levels {words : List UInt64} (hlen : 3 ≤ words.length) :
    ∃ below l, levelsOf words.dropLast = below ++ [l] ∧ l.trip = totalOf words := by
  have htotal : ((levelsOf words.dropLast).map Level.trip).getLastD 0 = totalOf words := by
    rw [map_trip_levelsOf, totalOf, List.getLastD_eq_getLast?, List.getLastD_eq_getLast?,
      List.getLast?_map]
    cases (tripsOf words.dropLast).getLast? <;> rfl
  rcases List.eq_nil_or_concat (levelsOf words.dropLast) with hnil | ⟨below, l, hlevels⟩
  · exfalso
    rcases words with _ | ⟨a, _ | ⟨b, _ | ⟨c, words⟩⟩⟩
    · simp at hlen
    · simp at hlen
    · simp at hlen
    · cases hnil
  · rw [List.concat_eq_append] at hlevels
    refine ⟨below, l, hlevels, ?_⟩
    rw [← htotal, hlevels, List.map_append, List.map_cons, List.map_nil]
    simp

/-- The flat form of a decoded list. -/
theorem isFlat_of_flatten? {ps : Formal} {words : List UInt64} (elemSize : Nat)
    (hwords : ps.words? = some words) (hdecode : decode ps = .ok p) (h : p.flatten? = some flat) :
    flat.IsFlat p p.totalTrip (isContinuous ps elemSize) := by
  rw [flatten?_of_decode hwords hdecode] at h
  rcases decode_eq_ok hwords hdecode with ⟨hodd, _, rfl⟩
  cases h
  refine ⟨⟨_, rfl⟩, fun hcont idx => ?_⟩
  calc addr (oneDim (startOf words) (innerStrideOf words).toInt64 _) idx
      = startOf words + innerStrideOf words * UInt64.ofNat idx := addr_oneDim _ _ _ idx
    _ = address words idx := (address_of_isContinuous hwords hcont idx).symm
    _ = addr { start := startOf words, levels := levelsOf words.dropLast } idx := by
        rw [addr, words_decoded hodd]

end LinearPattern

namespace Config

open LinearPattern

variable {c : Config} {words : List UInt64} {split : StrandSplit} {n : Nat} {trip : Nat → Nat}
  {patterns : StrandPatterns}

/-- The address of an element of a strand. -/
theorem address_strand {parent : ConfigId} {s own : Nat} {q : LinearPattern}
    (hlinear : c.generator = .linear) (hq : q.levels ≠ []) (idx : Nat) :
    (c.strand parent split s own q).address idx = .ok (q.addr idx) :=
  address_eq_ok (c := c.strand parent split s own q) hlinear (Formal.words?_ofWords q.words)
    (two_le_length_words hq) idx

/-- A split that is not refused: only a walk without gaps is divided into ranges. -/
theorem strandPatterns_eq_ok (h : c.strandPatterns split = .ok patterns) :
    ∃ nested, decode c.formal = .ok nested ∧ nested.flatten? = some patterns.flat ∧
      (∀ bounds, split = .ranges bounds → isContinuous c.formal c.elemSize = true) ∧
      (List.range split.totalStrands).mapM
        (strandPattern nested patterns.flat (isContinuous c.formal c.elemSize) split) =
        .ok patterns.strands := by
  rcases bind_eq_ok.1 h with ⟨nested, hnested, h⟩
  have hdecode := Failure.ofRefusal_eq_ok.1 hnested
  by_cases htwo : split.totalStrands < 2
  · simp only [if_pos htwo] at h
    cases h
  simp only [if_neg htwo] at h
  have hgaps : ∀ bounds, split = .ranges bounds → isContinuous c.formal c.elemSize = true := by
    rintro bounds rfl
    cases hcont : isContinuous c.formal c.elemSize with
    | true => rfl
    | false =>
        simp only [hcont] at h
        cases h
  -- the guard aside, the split goes on to the flat form and the strands
  cases hflat : nested.flatten? with
  | none =>
      cases split with
      | ranges bounds =>
          simp only [hflat, hgaps bounds rfl, Bool.not_true, Bool.false_eq_true, if_false] at h
          cases h
      | interleave i =>
          simp only [hflat, ite_self] at h
          cases h
  | some flat =>
      have hall : ((List.range split.totalStrands).mapM
          (strandPattern nested flat (isContinuous c.formal c.elemSize) split) >>=
            fun strands => .ok { flat, strands }) = .ok patterns := by
        cases split with
        | ranges bounds =>
            simp only [hflat, hgaps bounds rfl, Bool.not_true, Bool.false_eq_true, if_false] at h
            rw [hgaps bounds rfl]
            exact h
        | interleave i =>
            simp only [hflat, ite_self] at h
            exact h
      rcases bind_eq_ok.1 hall with ⟨strands, hstrands, hpatterns⟩
      cases hpatterns
      exact ⟨nested, hdecode, hflat, hgaps, hstrands⟩

/-- A split that is not refused makes at least two strands. -/
theorem two_le_of_strandPatterns (h : c.strandPatterns split = .ok patterns) :
    2 ≤ split.totalStrands := by
  rcases bind_eq_ok.1 h with ⟨nested, _, h⟩
  by_contra htwo
  simp only [if_pos (Nat.lt_of_not_le htwo)] at h
  cases h

/-- Each strand of a documented list gets its share of it. -/
theorem isShare_of_strandPatterns (hdoc : c.formal.Documented words)
    (hdeals : split.Deals (totalOf words) n trip) (h : c.strandPatterns split = .ok patterns) :
    patterns.flat.totalTrip = totalOf words ∧ patterns.strands.length = n ∧
      ∃ p : LinearPattern, p.words = words ∧
        ∀ s < n, ∃ q, patterns.strands[s]? = some q ∧ q.IsShare p split s (trip s) := by
  rcases strandPatterns_eq_ok h with ⟨nested, hdecode, hflat, hgaps, hstrands⟩
  have hisFlat := isFlat_of_flatten? c.elemSize hdoc.words? hdecode hflat
  rcases decode_eq_ok hdoc.words? hdecode with ⟨hodd, hlen, rfl⟩
  rcases exists_levels hlen with ⟨below, l, hlevels, htotal⟩
  have hlt : l.trip < 2 ^ 64 := by
    rw [htotal]
    exact UInt64.toNat_lt _
  have hnest : Nested ((below ++ [l]).map Level.trip) := by
    rw [← hlevels, map_trip_levelsOf]
    exact hdoc.nested
  -- the decoded nest is the list again, with a total trip that a word holds
  have hsum : LinearPattern.totalTrip { start := startOf words, levels := levelsOf words.dropLast } =
      l.trip := by
    rw [LinearPattern.totalTrip, trips, hlevels, List.map_append, List.map_cons, List.map_nil]
    simp
  have hwords := words_decoded hodd
  rw [hsum] at hisFlat
  rw [hlevels] at hisFlat hwords hstrands
  rcases mapM_eq_ok hstrands with ⟨hlength, hmembers⟩
  rw [List.length_range, hdeals.totalStrands] at hlength
  refine ⟨?_, hlength, { start := startOf words, levels := below ++ [l] }, hwords, ?_⟩
  · rcases hisFlat.loop with ⟨stride, hloop⟩
    rw [hloop, ← htotal]
    rfl
  · intro s hs
    have hrange : (List.range split.totalStrands)[s]? = some s := by
      rw [hdeals.totalStrands]
      exact List.getElem?_range hs
    rcases hmembers s s hrange with ⟨q, hq, hpattern⟩
    rw [← htotal] at hdeals
    exact ⟨q, hq, isShare_of_strandPattern hnest hlt hisFlat hgaps hdeals hs hpattern⟩

end Config

/-! ## Configurations of the strands -/

namespace Graph

variable {g g' : Graph} {c id : ConfigId} {config : Config} {split : StrandSplit}
  {total s : Nat} {patterns : List LinearPattern} {ids : List ConfigId}

/-- A new configuration leaves the others where they are. -/
theorem find?_configure {id' : ConfigId} (h : g.configure config = .ok (id, g'))
    {other : Config} (hfind : g.find? id' = some other) : g'.find? id' = some other := by
  rcases configure_eq_ok h with ⟨hnone, hall⟩
  rw [hall, if_neg ?_, hfind]
  rintro rfl
  rw [hnone] at hfind
  cases hfind

/-- The first strand is entered, and then the others. -/
theorem configureStrands_cons_eq_ok {p : LinearPattern} :
    g.configureStrands config c split total s (p :: patterns) = .ok (ids, g') ↔
      ∃ own id g₁ rest, split.tripCount total s = .ok own ∧
        g.configure (config.strand c split s own p) = .ok (id, g₁) ∧
        g₁.configureStrands config c split total (s + 1) patterns = .ok (rest, g') ∧
        ids = id :: rest := by
  constructor
  · intro h
    rcases bind_eq_ok.1 h with ⟨own, hown, h⟩
    rcases bind_eq_ok.1 h with ⟨⟨id, g₁⟩, hconfigure, h⟩
    rcases bind_eq_ok.1 h with ⟨⟨rest, g₂⟩, hrest, h⟩
    cases h
    exact ⟨own, id, g₁, rest, hown, hconfigure, hrest, rfl⟩
  · rintro ⟨own, id, g₁, rest, hown, hconfigure, hrest, rfl⟩
    exact bind_eq_ok.2 ⟨own, hown, bind_eq_ok.2 ⟨_, hconfigure, bind_eq_ok.2 ⟨_, hrest, rfl⟩⟩⟩

/-- Entering the strands from `s` on: each gets its pattern and its trip count, and the configurations
that were there stay. -/
theorem configureStrands_eq_ok
    (h : g.configureStrands config c split total s patterns = .ok (ids, g')) :
    ids.length = patterns.length ∧
      (∀ id other, g.find? id = some other → g'.find? id = some other) ∧
      ∀ (k : Nat) (q : LinearPattern), patterns[k]? = some q →
        ∃ id own, ids[k]? = some id ∧ split.tripCount total (s + k) = .ok own ∧
          g'.find? id = some (config.strand c split (s + k) own q) := by
  induction patterns generalizing g s ids with
  | nil =>
      cases h
      refine ⟨rfl, fun id other hfind => hfind, ?_⟩
      intro k q hq
      cases hq
  | cons p patterns ih =>
      rcases configureStrands_cons_eq_ok.1 h with ⟨own, id, g₁, rest, hown, hconfigure, hrest, rfl⟩
      rcases ih hrest with ⟨hlen, hkeep, hmembers⟩
      refine ⟨congrArg Nat.succ hlen, ?_, ?_⟩
      · intro id' other hfind
        exact hkeep id' other (find?_configure hconfigure hfind)
      · intro k q hq
        cases k with
        | zero =>
            -- the keys of the later strands are new, so they leave this one where it is
            cases hq
            refine ⟨id, own, rfl, hown, hkeep id _ ?_⟩
            rw [(configure_eq_ok hconfigure).2 id, if_pos rfl]
            rfl
        | succ k =>
            rcases hmembers k q hq with ⟨id', own', hid, hown', hfind⟩
            rw [Nat.add_assoc, Nat.add_comm 1 k] at hown' hfind
            exact ⟨id', own', hid, hown', hfind⟩

/-- Element `e` of a strand is element `i` of its stream: they have one address, the stream knows which
strand it is and where it is there, and the strand knows where it is in the stream. -/
structure Agree (g : Graph) (c id : ConfigId) (stream strand : Config) (e i : Nat) : Prop where
  address : ∃ addr, stream.address i = .ok addr ∧ strand.address e = .ok addr
  strandElem : ∃ name, strand.strandId = .ok name ∧ g.strandElem c i = .ok (name, e)
  streamIdx : g.streamIdx id e = .ok i

theorem splitIntoStrands_eq_ok (h : g.splitIntoStrands c split = .ok (.ok ids, g')) :
    ∃ config patterns, g.find? c = some config ∧ config.strandPatterns split = .ok patterns ∧
      (g.put c (some { config with split := some split, totalStrands := split.totalStrands
        })).configureStrands config c split patterns.flat.totalTrip 0 patterns.strands =
          .ok (ids, g') := by
  rcases bind_eq_ok.1 h with ⟨config, hget, h⟩
  cases hpatterns : config.strandPatterns split with
  | error err =>
      simp only [hpatterns] at h
      cases err <;> cases h
  | ok patterns =>
      simp only [hpatterns] at h
      rcases bind_eq_ok.1 h with ⟨⟨ids', g''⟩, hstrands, h⟩
      cases h
      exact ⟨config, patterns, get_eq_ok.1 hget, hpatterns, hstrands⟩

section Maps

variable {stream : Config} {q p : LinearPattern} {n e i own : Nat}

theorem part_eq_ok {stream : StreamId} {total : Nat} (hs : s < total) :
    StrandId.part stream s total = .ok { stream, index := s, total } := by
  rw [StrandId.part, if_pos hs]

/-- A stream finds its strands by the split that it was given last. -/
theorem strandElem_eq_ok (hfind : g.find? c = some stream) (hwhole : stream.parent = none)
    (hsplit : stream.split = some split) (htotal : stream.totalStrands = split.totalStrands)
    (htwo : 2 ≤ split.totalStrands) (hs : s < split.totalStrands)
    (helem : split.toStrand i = .ok ⟨s, e⟩) :
    g.strandElem c i =
      .ok ({ stream := stream.id, index := s, total := split.totalStrands }, e) := by
  have hroot : g.root c = .ok stream := by
    refine bind_eq_ok.2 ⟨stream, get_eq_ok.2 hfind, ?_⟩
    simp only [hwhole]
    rfl
  have hisSplit : stream.isSplit = true := by
    rw [Config.isSplit, htotal]
    exact decide_eq_true htwo
  refine bind_eq_ok.2 ⟨stream, hroot, ?_⟩
  simp only [hsplit, hisSplit, if_true, helem]
  exact bind_eq_ok.2 ⟨_, rfl, bind_eq_ok.2 ⟨_, part_eq_ok hs, rfl⟩⟩

/-- A strand finds its elements in the stream by the split that made it. -/
theorem streamIdx_eq (hfind : g.find? id = some stream) (hstrand : stream.isStrand = true)
    (hsplit : stream.split = some split) (htotal : stream.totalStrands = split.totalStrands)
    (htwo : 2 ≤ split.totalStrands) :
    g.streamIdx id e = split.toStream ⟨stream.strandIdx, e⟩ := by
  have hisSplit : stream.isSplit = true := by
    rw [Config.isSplit, htotal]
    exact decide_eq_true htwo
  rw [streamIdx, get_eq_ok.2 hfind]
  simp only [bind, Except.bind, hisSplit, hstrand, hsplit, Bool.not_true, Bool.false_eq_true, if_false]

end Maps

/-- Whatever split of a linear stream is not refused, dealing runs or even ranges: each strand has as
many elements as the split says, each is an element of the stream at the same address, and every element
of the stream is one of them, once. -/
theorem splitIntoStrands_reproduces {stream : Config} {words : List UInt64} {n : Nat}
    (hfind : g.find? c = some stream) (hwhole : stream.parent = none)
    (hlinear : stream.generator = .linear) (hdoc : stream.formal.Documented words) (hn : 2 ≤ n)
    (hsplit : (∃ run, StrandSplit.interleaved run n = .ok split) ∨
      StrandSplit.byElem (totalOf words) n = .ok split)
    (h : g.splitIntoStrands c split = .ok (.ok ids, g')) :
    ids.length = n ∧
      g'.find? c = some { stream with split := some split, totalStrands := n } ∧
      ∃ trip : Nat → Nat, ((List.range n).map trip).sum = totalOf words ∧
        (∀ s < n, ∃ id strand, ids[s]? = some id ∧ g'.find? id = some strand ∧
          split.tripCount (totalOf words) s = .ok (trip s) ∧ strand.totalTrip = some (trip s) ∧
          ∀ e < trip s, ∃ i < totalOf words, split.toStream ⟨s, e⟩ = .ok i ∧
            g'.Agree c id stream strand e i) ∧
        ∀ i < totalOf words, ∃! x : StrandElem,
          x.strand < n ∧ x.elem < trip x.strand ∧ split.toStream x = .ok i := by
  rcases StrandSplit.exists_deals hn hsplit with ⟨trip, hdeals⟩
  rcases splitIntoStrands_eq_ok h with ⟨config, patterns, hconfig, hpatterns, hstrands⟩
  rw [hfind] at hconfig
  cases hconfig
  rcases Config.isShare_of_strandPatterns hdoc hdeals hpatterns with
    ⟨hflat, hlength, p, hp, hshares⟩
  rw [hflat] at hstrands
  rcases configureStrands_eq_ok hstrands with ⟨hids, hkeep, hmembers⟩
  have hstream := hkeep c _ ((find?_put hfind _ c).trans (if_pos rfl))
  refine ⟨hids.trans hlength, ?_, trip, hdeals.sum_trip, ?_, fun i hi => hdeals.existsUnique hi⟩
  · rw [hstream, hdeals.totalStrands]
  · intro s hs
    rcases hshares s hs with ⟨q, hq, hshare⟩
    rcases hmembers s q hq with ⟨id, own, hid, hown, hstrand⟩
    rw [Nat.zero_add] at hown hstrand
    rw [hdeals.tripCount s hs] at hown
    cases hown
    refine ⟨id, _, hid, hstrand, hdeals.tripCount s hs, rfl, ?_⟩
    intro e he
    rcases hdeals.toStream s hs e he with ⟨i, hi, htoStream, htoStrand⟩
    refine ⟨i, hi, htoStream, ?_⟩
    have hlen : 2 ≤ p.words.length := by
      rcases hdoc.length with ⟨levels, hlevels, hwords⟩
      rw [hp, hwords]
      omega
    have hwords : stream.formal.words? = some p.words := by
      rw [hp]
      exact hdoc.words?
    have htwo : 2 ≤ split.totalStrands := by
      rw [hdeals.totalStrands]
      exact hn
    have hs' : s < split.totalStrands := by
      rw [hdeals.totalStrands]
      exact hs
    -- the name of the strand is the one that the stream gives to its part
    have hname : (stream.strand c split s (trip s) q).strandId =
        .ok { stream := stream.id, index := s, total := split.totalStrands } := part_eq_ok hs'
    have hstrandElem := strandElem_eq_ok hstream hwhole rfl rfl htwo hs' htoStrand
    refine ⟨⟨p.addr i, ?_, ?_⟩, ⟨_, hname, ?_⟩, ?_⟩
    · exact Config.address_eq_ok hlinear hwords hlen i
    · rw [← hshare.addr e he i htoStream]
      exact Config.address_strand hlinear hshare.levels_ne e
    · exact hstrandElem
    · exact (streamIdx_eq hstrand rfl rfl rfl htwo).trans htoStream

/-! ## Rows with gaps -/

/-- Five rows of four words, 1024 bytes apart. -/
def rows : Config :=
  { id := { core := 0, staticId := 1, instanceNo := 1 }, elemSize := 8,
    formal := Formal.ofWords [8, 4, 1024, 20, 0x1000], generator := .linear }

def rowsGraph : Graph :=
  { slots := [some rows], index := Table.insert {} (.whole rows.id) { val := 0 } }

/-- Two rows at a time for each of three strands. -/
def rowPairs : StrandSplit :=
  .interleave { run := 8, strands := 3, run_pos := Nat.succ_pos 7, strands_pos := by decide }

/-- The last strand has only the last row, which ends with the last element of the stream. -/
theorem splitIntoStrands_reproduces_rows :
    ∃ g' strand, rowsGraph.splitIntoStrands { val := 0 } rowPairs =
        .ok (.ok [{ val := 1 }, { val := 2 }, { val := 3 }], g') ∧
      g'.find? { val := 3 } = some strand ∧ strand.totalTrip = some 4 ∧
      g'.Agree { val := 0 } { val := 3 } rows strand 3 19 := by
  have hdoc : rows.formal.Documented [8, 4, 1024, 20, 0x1000] :=
    ⟨rfl, ⟨2, by decide, rfl⟩, by decide⟩
  have hsplits : ∃ g', rowsGraph.splitIntoStrands { val := 0 } rowPairs =
      .ok (.ok [{ val := 1 }, { val := 2 }, { val := 3 }], g') := ⟨_, rfl⟩
  rcases hsplits with ⟨g', hsplits⟩
  rcases splitIntoStrands_reproduces (n := 3) rfl rfl rfl hdoc (by decide) (Or.inl ⟨8, rfl⟩) hsplits with
    ⟨_, _, trip, _, hstrands, _⟩
  rcases hstrands 2 (by decide) with ⟨id, strand, hid, hstrand, htrip, htotal, helems⟩
  cases hid
  have hfour : trip 2 = 4 := (Except.ok.inj htrip).symm
  rw [hfour] at htotal helems
  rcases helems 3 (by decide) with ⟨i, _, hi, hagree⟩
  cases hi
  exact ⟨g', strand, hsplits, hstrand, htotal, hagree⟩

end Graph

end StreamEngine
