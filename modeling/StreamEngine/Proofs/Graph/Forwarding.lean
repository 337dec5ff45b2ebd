import StreamEngine.Proofs.Graph.Standing

/-!
# Forwarding to a stream and to its strands

A value can be forwarded to an element of a stream that is split, or to an element of one of its strands.
The first way goes through indices in the stream and asks the stream for the address, the second asks the
strand, whose parameters are other ones. Both land at the same element.

- `Graph.Divided` : a linear stream and how it was split last;
- `Divided.strand_of_run` : the strands, as they are whatever was changed since;
- `forward_stream_eq_ok`, `forward_strand_eq_ok` : the two ways;
- `Graph.run_forward_agree` : that they agree as long as no strand is split itself.
-/

namespace StreamEngine

open Linear

/-- The split deals every element of a stream, by runs or by ranges that are even. -/
def StrandSplit.Even (split : StrandSplit) (total : Nat) : Prop :=
  (∃ run n, interleaved run n = .ok split) ∨ ∃ n, byElem total n = .ok split

/-- Each element of the base is for the dependent element of the same index. -/
structure Edge.Plain (e : Edge) : Prop where
  count : e.reuse.count = 1
  skip : e.skip = 0

theorem Edge.Plain.toDependent {e : Edge} (h : e.Plain) (i : Nat) : e.toDependent i = i := by
  have hreused : e.reuse.isReused = false := by
    rw [Reuse.isReused, h.count]
    rfl
  rw [Edge.toDependent, Reuse.toDependent, hreused, h.skip]
  rfl

theorem StrandSplit.Even.exists_deals {split : StrandSplit} {total : Nat} (h : split.Even total)
    (htwo : 2 ≤ split.totalStrands) : ∃ trip, split.Deals total split.totalStrands trip := by
  rcases h with ⟨run, n, hruns⟩ | ⟨n, hranges⟩
  · have hn : split.totalStrands = n := by
      rcases bind_eq_ok.1 hruns with ⟨i, hi, hsplit⟩
      cases hsplit
      rw [Interleave.checked] at hi
      split at hi
      · split at hi
        · cases hi
          rfl
        · cases hi
      · cases hi
    rw [hn] at htwo ⊢
    exact StrandSplit.exists_deals htwo (Or.inl ⟨run, hruns⟩)
  · have hn : split.totalStrands = n := by
      rw [byElem] at hranges
      split at hranges
      · cases hranges
      · cases hranges
        rw [totalStrands, evenBounds, List.length_map, List.length_range, Nat.add_sub_cancel]
    rw [hn] at htwo ⊢
    exact StrandSplit.exists_deals htwo (Or.inr hranges)

namespace Graph

variable {g g' : Graph} {c id sender : ConfigId} {config stream strand : Config} {split : StrandSplit}
  {changes : List Change} {words : List UInt64} {ids : List ConfigId} {s e i own : Nat}
  {q : LinearPattern} {edge : Edge}

/-! ## Streams that are split -/

/-- A linear stream whose parameters are documented, how it was split last and the keys of its strands. -/
structure Divided (changes : List Change) (c : ConfigId) (stream : Config) (words : List UInt64)
    (split : StrandSplit) (ids : List ConfigId) : Prop where
  whole : stream.parent = none
  linear : stream.generator = .linear
  doc : stream.formal.Documented words
  even : split.Even (totalOf words)
  last : ∃ i g g', changes[i]? = some (.splitIntoStrands c split) ∧ run (changes.take i) = .ok g ∧
    g.find? c = some stream ∧ g.splitIntoStrands c split = .ok (.ok ids, g') ∧
    ∀ j split' g, i < j → changes[j]? = some (.splitIntoStrands c split') →
      run (changes.take j) = .ok g → ¬ g.Accepts c split'

/-- A live strand of a stream is the one with this index, and walks the elements that the split gives it. -/
structure IsStrandOf (stream : Config) (c : ConfigId) (words : List UInt64) (split : StrandSplit)
    (s own : Nat) (strand : Config) : Prop where
  id : strand.id = stream.id
  parent : strand.parent = some c
  strandIdx : strand.strandIdx = s
  totalStrands : strand.totalStrands = split.totalStrands
  totalTrip : strand.totalTrip = some own
  address : ∀ e < own, ∀ i, split.toStream ⟨s, e⟩ = .ok i →
    strand.address e = .ok (Linear.address words i)
  split : strand.split = some split

/-- The stream, however its edges and references changed since it was split. -/
structure IsSplitBy (stream : Config) (split : StrandSplit) (config : Config) : Prop where
  id : config.id = stream.id
  whole : config.parent = none
  totalStrands : config.totalStrands = split.totalStrands
  split : config.split = some split
  generator : config.generator = stream.generator
  formal : config.formal = stream.formal

theorem isStrandOf_of_bare {p : LinearPattern} (hlinear : stream.generator = .linear)
    (hp : p.words = words) (hshare : q.IsShare p split s own)
    (h : strand.bare = (stream.strand c split s own q).bare) :
    IsStrandOf stream c words split s own strand where
  id := (congrArg Config.id h :)
  parent := (congrArg Config.parent h :)
  strandIdx := (congrArg Config.strandIdx h :)
  totalStrands := (congrArg Config.totalStrands h :)
  split := (congrArg Config.split h :)
  totalTrip := (congrArg Config.totalTrip h :)
  address e he i hi := by
    have hgenerator : strand.generator = stream.generator := (congrArg Config.generator h :)
    have hformal : strand.formal = q.toFormal := (congrArg Config.formal h :)
    rw [← hp]
    refine (Config.address_eq_ok (hgenerator.trans hlinear) ?_
      (LinearPattern.two_le_length_words hshare.levels_ne) e).trans (congrArg Except.ok (hshare.addr e he i hi))
    rw [hformal]
    exact Formal.words?_ofWords q.words

namespace Divided

theorem two_le (h : Divided changes c stream words split ids) : 2 ≤ split.totalStrands := by
  rcases h.last with ⟨_, _, _, _, _, _, hsplit, _⟩
  rcases splitIntoStrands_eq_ok hsplit with ⟨_, _, _, hpatterns, _⟩
  exact Config.two_le_of_strandPatterns hpatterns

theorem stream_of_run (h : Divided changes c stream words split ids) (hrun : run changes = .ok g)
    (hfind : g.find? c = some config) : IsSplitBy stream split config := by
  rcases h.last with ⟨i, g₀, g₁, hchange, hbefore, hstream, hsplit, hlast⟩
  have hlt : i < changes.length := (List.getElem?_eq_some_iff.1 hchange).1
  have happly : g₀.apply (.splitIntoStrands c split) = .ok g₁ := congrArg (Except.map Prod.snd) hsplit
  rcases splitIntoStrands_eq_ok hsplit with ⟨found, patterns, hfound, _, hstrands⟩
  rw [hstream] at hfound
  cases hfound
  have hafter := (configureStrands_eq_ok hstrands).2.1 c _ ((find?_put hstream _ c).trans (if_pos rfl))
  have hbare := (bare_of_run hlt (run_take_succ_of_apply hbefore hchange happly) hafter
    (fun j split' g config' hj hsplit' hrun' _ _ => hlast j split' g hj hsplit' hrun')
    ((congrArg run List.take_length).trans hrun)).2 config hfind
  exact ⟨(congrArg Config.id hbare :), (congrArg Config.parent hbare :).trans h.whole,
    (congrArg Config.totalStrands hbare :), (congrArg Config.split hbare :), (congrArg Config.generator hbare :),
    (congrArg Config.formal hbare :)⟩

/-- The strands have keys, and what is live under such a key is still the strand. -/
theorem strand_of_run (h : Divided changes c stream words split ids)
    (hkeeps : KeepsStrands changes stream.id) (hrun : run changes = .ok g) :
    ids.length = split.totalStrands ∧
      ∃ trip, split.Deals (totalOf words) split.totalStrands trip ∧
        ∀ (s : Nat) id strand, ids[s]? = some id → g.find? id = some strand →
          IsStrandOf stream c words split s (trip s) strand := by
  rcases h.even.exists_deals h.two_le with ⟨trip, hdeals⟩
  rcases h.last with ⟨i, g₀, g₁, hchange, hbefore, hstream, hsplit, _⟩
  have hlt : i < changes.length := (List.getElem?_eq_some_iff.1 hchange).1
  have happly : g₀.apply (.splitIntoStrands c split) = .ok g₁ := congrArg (Except.map Prod.snd) hsplit
  rcases splitIntoStrands_eq_ok hsplit with ⟨found, patterns, hfound, hpatterns, hstrands⟩
  rw [hstream] at hfound
  cases hfound
  rcases Config.isShare_of_strandPatterns h.doc hdeals hpatterns with ⟨hflat, hlength, p, hp, hshares⟩
  rcases configureStrands_eq_ok hstrands with ⟨hids, _, hmembers⟩
  refine ⟨hids.trans hlength, trip, hdeals, fun s id strand hid hfind => ?_⟩
  have hs : s < split.totalStrands := by
    rw [← hids.trans hlength]
    exact (List.getElem?_eq_some_iff.1 hid).1
  rcases hshares s hs with ⟨q, hq, hshare⟩
  rcases hmembers s q hq with ⟨id', own, hid', hown, hafter⟩
  rw [hid] at hid'
  cases hid'
  rw [Nat.zero_add, hflat, hdeals.tripCount s hs] at hown
  cases hown
  rw [Nat.zero_add] at hafter
  have hbare := (bare_of_run hlt (run_take_succ_of_apply hbefore hchange happly) hafter
    (fun j split' g config' _ hsplit' hrun' hfind' hsame =>
      hkeeps j id split' g config' hsplit' hrun' hfind' (congrArg Config.id hsame :)
        (congrArg (fun bare : Config => bare.parent.isSome) hsame))
    ((congrArg run List.take_length).trans hrun)).2 strand hfind
  exact isStrandOf_of_bare h.linear hp hshare hbare

end Divided

/-! ## Indices -/

theorem IsStrandOf.isStrand (h : IsStrandOf stream c words split s own strand) :
    strand.isStrand = true := by
  rw [Config.isStrand, h.parent]
  rfl

theorem IsStrandOf.streamIdx (h : IsStrandOf stream c words split s own strand)
    (htwo : 2 ≤ split.totalStrands) (hfind : g.find? id = some strand) (e : Nat) :
    g.streamIdx id e = split.toStream ⟨s, e⟩ := by
  rw [streamIdx_eq hfind h.isStrand h.split h.totalStrands htwo, h.strandIdx]

theorem IsStrandOf.strandId (h : IsStrandOf stream c words split s own strand)
    (hs : s < split.totalStrands) :
    strand.strandId = .ok { stream := stream.id, index := s, total := split.totalStrands } := by
  rw [Config.strandId, if_pos h.isStrand, h.id, h.strandIdx, h.totalStrands]
  exact part_eq_ok hs

theorem IsSplitBy.strandElem (h : IsSplitBy stream split config) (htwo : 2 ≤ split.totalStrands)
    (hfind : g.find? c = some config) (hs : s < split.totalStrands)
    (helem : split.toStrand i = .ok ⟨s, e⟩) :
    g.strandElem c i = .ok ({ stream := stream.id, index := s, total := split.totalStrands }, e) := by
  rw [strandElem_eq_ok hfind h.whole h.split h.totalStrands htwo hs helem, h.id]

/-! ## Forwarding -/

/-- The target that both ways lead to. -/
def target (stream config : Config) (words : List UInt64) (split : StrandSplit) (s e i : Nat) :
    RecvTarget :=
  { strand := { stream := stream.id, index := s, total := split.totalStrands }
    elem := e
    vaddr := Linear.address words i
    machine := config.floatPlan.machineAt i }

/-- To the stream: its split says which strand has the element. -/
theorem forward_stream_eq_ok (h : Divided changes c stream words split ids)
    (hsplit : IsSplitBy stream split config) (hfind : g.find? c = some config) (hpeer : edge.peer = c)
    (hsent : g.streamIdx sender e = .ok i) (hs : s < split.totalStrands)
    {landed : Nat} (helem : split.toStrand (edge.toDependent i) = .ok ⟨s, landed⟩) :
    g.forward edge sender e = .ok (target stream config words split s landed (edge.toDependent i)) := by
  have haddress : config.address (edge.toDependent i) =
      .ok (Linear.address words (edge.toDependent i)) := by
    refine Config.address_eq_ok (hsplit.generator.trans h.linear) ?_ ?_ _
    · rw [hsplit.formal]
      exact h.doc.words?
    · rcases h.doc.length with ⟨levels, hlevels, hlength⟩
      omega
  have hstrandElem := hsplit.strandElem h.two_le hfind hs helem
  rw [← hpeer] at hfind hstrandElem
  refine bind_eq_ok.2 ⟨config, get_eq_ok.2 hfind, ?_⟩
  simp only [hsplit.whole]
  refine bind_eq_ok.2 ⟨i, hsent, bind_eq_ok.2 ⟨_, hstrandElem, ?_⟩⟩
  exact bind_eq_ok.2 ⟨_, haddress, rfl⟩

/-- To the strand: the float plan is that of the stream. -/
theorem forward_strand_eq_ok (hstrand : IsStrandOf stream c words split s own strand)
    (htwo : 2 ≤ split.totalStrands) (hs : s < split.totalStrands) (hfind : g.find? c = some config)
    (hfindStrand : g.find? id = some strand) (hpeer : edge.peer = id)
    (hlanded : edge.toDependent e < own) (hidx : split.toStream ⟨s, edge.toDependent e⟩ = .ok i) :
    g.forward edge sender e = .ok (target stream config words split s (edge.toDependent e) i) := by
  have hstreamIdx := (hstrand.streamIdx htwo hfindStrand (edge.toDependent e)).trans hidx
  rw [← hpeer] at hfindStrand hstreamIdx
  refine bind_eq_ok.2 ⟨strand, get_eq_ok.2 hfindStrand, ?_⟩
  simp only [hstrand.parent]
  refine bind_eq_ok.2 ⟨i, hstreamIdx, bind_eq_ok.2 ⟨config, get_eq_ok.2 hfind, ?_⟩⟩
  refine bind_eq_ok.2 ⟨_, hstrand.strandId hs, ?_⟩
  exact bind_eq_ok.2 ⟨_, hstrand.address _ hlanded i hidx, rfl⟩

/-- What is forwarded to an element of a stream that is split lands at the element of a strand that has
its address and its place in the stream, where the stream is to compute it. A stream of the same length
that is split alike can forward to the stream or strand to strand, and it makes no difference. No strand
of the streams is split itself, for then it would answer by the places of its own strands. -/
theorem run_forward_agree {b : ConfigId} {B current : Config} (hkeeps : KeepsStrands changes B.id)
    (hrun : run changes = .ok g) (hB : Divided changes b B words split ids)
    (hb : g.find? b = some current) :
    (∀ (edge : Edge) sender e i, edge.Legal → edge.peer = b → g.streamIdx sender e = .ok i →
      edge.toDependent i < totalOf words →
        ∃ target id, g.forward edge sender e = .ok target ∧ ids[target.strand.index]? = some id ∧
          target.machine = current.floatPlan.machineAt (edge.toDependent i) ∧
          ∀ strand, g.find? id = some strand → g.lookup target.strand = .ok id ∧
            strand.address target.elem = .ok target.vaddr ∧
            g.streamIdx id target.elem = .ok (edge.toDependent i)) ∧
      ∀ (a : ConfigId) (A : Config) wordsA idsA, KeepsStrands changes A.id →
        Divided changes a A wordsA split idsA → totalOf wordsA = totalOf words →
        ∀ (s : Nat) idA idB strandA strandB own, idsA[s]? = some idA → ids[s]? = some idB →
          g.find? idA = some strandA → g.find? idB = some strandB → strandA.totalTrip = some own →
          ∀ e < own, ∀ toStream toStrand : Edge, toStream.Plain → toStrand.Plain →
            toStream.peer = b → toStrand.peer = idB →
              ∃ target, g.forward toStream idA e = .ok target ∧ g.forward toStrand idA e = .ok target := by
  have htwo := hB.two_le
  have hstream := hB.stream_of_run hrun hb
  rcases hB.strand_of_run hkeeps hrun with ⟨hlength, trip, hdeals, hstrands⟩
  refine ⟨?_, ?_⟩
  · intro edge sender e i _ hpeer hsent hlt
    rcases hdeals.covers _ hlt with ⟨s, hs, landed, hlanded, htoStream⟩
    have htoStrand : split.toStrand (edge.toDependent i) = .ok ⟨s, landed⟩ := by
      rcases hdeals.toStream s hs landed hlanded with ⟨j, _, hj, hback⟩
      rw [htoStream] at hj
      cases hj
      exact hback
    have hid := List.getElem?_eq_getElem (hlength ▸ hs)
    refine ⟨_, _, forward_stream_eq_ok hB hstream hb hpeer hsent hs htoStrand, hid, rfl, ?_⟩
    intro strand hfind
    have hstrand := hstrands s _ strand hid hfind
    have hregistered : g.Registered B.id :=
      registered_of_run hkeeps ((congrArg run List.take_length).trans hrun)
    rcases hregistered _ strand hfind hstrand.id with ⟨k, hk, hlookup⟩
    rw [hstrand.strandId hs] at hk
    cases hk
    exact ⟨hlookup, hstrand.address landed hlanded _ htoStream,
      (hstrand.streamIdx htwo hfind landed).trans htoStream⟩
  · intro a A wordsA idsA hkeepsA hA htotal s idA idB strandA strandB own hidA hidB hfindA hfindB hown e he
      toStream toStrand hplainStream hplainStrand hpeerStream hpeerStrand
    rcases hA.strand_of_run hkeepsA hrun with ⟨_, tripA, hdealsA, hstrandsA⟩
    have hs : s < split.totalStrands := by
      rw [← hlength]
      exact (List.getElem?_eq_some_iff.1 hidB).1
    have hstrandA := hstrandsA s idA strandA hidA hfindA
    have hstrandB := hstrands s idB strandB hidB hfindB
    -- the strands have as many elements, for the streams have
    have htrip : tripA s = trip s := by
      have hsame := hdealsA.tripCount s hs
      rw [htotal, hdeals.tripCount s hs] at hsame
      exact (Except.ok.inj hsame).symm
    have hlt : e < trip s := by
      rw [hstrandA.totalTrip, htrip] at hown
      rw [Option.some.inj hown]
      exact he
    rcases hdeals.toStream s hs e hlt with ⟨i, _, hi, hback⟩
    have hsent := (hstrandA.streamIdx htwo hfindA e).trans hi
    have hsame := hplainStream.toDependent i
    have hsameStrand := hplainStrand.toDependent e
    rw [← hsame] at hback
    have hfirst := forward_stream_eq_ok hB hstream hb hpeerStream hsent hs hback
    rw [hsame] at hfirst
    rw [← hsameStrand] at hlt hi
    have hsecond : g.forward toStrand idA e = .ok _ :=
      forward_strand_eq_ok hstrandB htwo hs hb hfindB hpeerStrand hlt hi
    rw [hsameStrand] at hsecond
    exact ⟨_, hfirst, hsecond⟩

/-! ## Two walks split alike -/

/-- A walk elsewhere, which is computed in memory from its fifth element on. -/
def floated : Config :=
  { walk with
    id := { core := 0, staticId := 2, instanceNo := 1 }
    formal := Formal.ofWords [8, 12, 0x8000]
    floatPlan := { changes := [(4, .mem)] } }

def alike : List Change :=
  [.configure walk walk_whole, .configure floated rfl, .splitIntoStrands { val := 0 } halves,
    .splitIntoStrands { val := 1 } halves]

/-- Only the walks are split. -/
theorem alike_keepsStrands (stream : StreamId) : KeepsStrands alike stream := by
  intro i c split g config hchange hrun hfind _ hstrand
  exfalso
  rcases i with _ | _ | _ | _ | i
  · cases hchange
  · cases hchange
  · cases hchange
    cases hrun
    cases hfind
    cases hstrand
  · cases hchange
    cases hrun
    cases hfind
    cases hstrand
  · cases hchange

theorem walk_divided :
    Divided alike { val := 0 } walk [8, 12, 0x1000] halves [{ val := 2 }, { val := 3 }] where
  whole := rfl
  linear := rfl
  doc := ⟨rfl, ⟨1, by decide, rfl⟩, by decide⟩
  even := Or.inl ⟨1, 2, rfl⟩
  last := by
    refine ⟨2, _, _, rfl, rfl, rfl, rfl, ?_⟩
    intro j split g hj hchange _ _
    rcases j with _ | _ | _ | _ | j
    · omega
    · omega
    · omega
    · cases hchange
    · cases hchange

theorem floated_divided :
    Divided alike { val := 1 } floated [8, 12, 0x8000] halves [{ val := 4 }, { val := 5 }] where
  whole := rfl
  linear := rfl
  doc := ⟨rfl, ⟨1, by decide, rfl⟩, by decide⟩
  even := Or.inl ⟨1, 2, rfl⟩
  last := by
    refine ⟨3, _, _, rfl, rfl, rfl, rfl, ?_⟩
    intro j split g hj hchange _ _
    rcases j with _ | _ | _ | _ | j
    · omega
    · omega
    · omega
    · omega
    · cases hchange

def toFloated : Edge :=
  { kind := .sendTo, peer := { val := 1 }, peerStrand := .whole floated.id }

def toHalf : Edge :=
  { kind := .sendTo, peer := { val := 5 },
    peerStrand := { stream := floated.id, index := 1, total := 2 } }

/-- Element 3 of the second half of the walk is element 7 of the walk. -/
theorem run_forward_agree_alike :
    ∃ g half target, run alike = .ok g ∧ g.find? { val := 5 } = some half ∧
      g.forward toFloated { val := 3 } 3 = .ok target ∧ g.forward toHalf { val := 3 } 3 = .ok target ∧
      g.lookup target.strand = .ok { val := 5 } ∧ half.address target.elem = .ok target.vaddr ∧
      g.streamIdx { val := 5 } target.elem = .ok 7 ∧ target.machine = some .mem := by
  have hrun : ∃ g current first second landed, run alike = .ok g ∧ g.find? { val := 1 } = some current ∧
      g.find? { val := 3 } = some first ∧ g.find? { val := 5 } = some second ∧
      first.totalTrip = some 6 ∧ g.streamIdx { val := 3 } 3 = .ok 7 ∧
      g.forward toFloated { val := 3 } 3 = .ok landed ∧ landed.strand.index = 1 ∧
      landed.machine = some .mem :=
    ⟨_, _, _, _, _, rfl, rfl, rfl, rfl, rfl, rfl, rfl, rfl, rfl⟩
  rcases hrun with ⟨g, current, first, second, landed, hrun, hcurrent, hfirst, hsecond, htrip, hsent,
    hlands, hindex, hmachine⟩
  rcases run_forward_agree (alike_keepsStrands floated.id) hrun floated_divided hcurrent with
    ⟨hstream, hstrands⟩
  rcases hstream toFloated { val := 3 } 3 7 ⟨by decide, by decide⟩ rfl hsent (by decide) with
    ⟨target, id, hforward, hid, _, hregistered⟩
  rw [hlands] at hforward
  cases hforward
  rw [hindex] at hid
  cases hid
  rcases hregistered second hsecond with ⟨hlookup, haddress, hidx⟩
  rcases hstrands { val := 0 } walk _ _ (alike_keepsStrands walk.id) walk_divided rfl 1 { val := 3 }
      { val := 5 } first second 6 rfl rfl hfirst hsecond htrip 3 (by decide) toFloated toHalf ⟨rfl, rfl⟩
      ⟨rfl, rfl⟩ rfl rfl with ⟨target, hfrom, hto⟩
  rw [hlands] at hfrom
  cases hfrom
  exact ⟨g, second, landed, hrun, hsecond, hlands, hto, hlookup, haddress, hidx, hmachine⟩

/-! ## A half that is split again -/

def toWalk : Edge :=
  { kind := .sendTo, peer := { val := 0 }, peerStrand := .whole walk.id }

/-- The first half of a walk is split into thirds. What is forwarded to element 2 of the walk lands at
element 1 of the half, which is found under its old identity and has the address of element 2. But asked
for the place of that element in the stream, the half answers by how it is split itself: 3. -/
theorem half_split_again_misplaced :
    ∃ g half target, run [.configure walk walk_whole, .configure floated rfl,
        .splitIntoStrands { val := 0 } halves, .splitIntoStrands { val := 2 } thirds] = .ok g ∧
      g.streamIdx { val := 1 } 2 = .ok 2 ∧ toWalk.toDependent 2 = 2 ∧
      g.forward toWalk { val := 1 } 2 = .ok target ∧ target.elem = 1 ∧
      g.lookup target.strand = .ok { val := 2 } ∧ g.find? { val := 2 } = some half ∧
      half.address target.elem = .ok target.vaddr ∧
      g.streamIdx { val := 2 } target.elem = .ok 3 :=
  ⟨_, _, _, rfl, rfl, rfl, rfl, rfl, rfl, rfl, rfl, rfl⟩

end Graph
end StreamEngine
