import Mathlib.Data.List.Basic
import StreamEngine.Graph.Basic
import StreamEngine.Proofs.Outcome

/-!
# References to configurations

A configuration of a whole stream lives until its stream has ended and its last reference is gone. Edges
between configurations do not count as references.

- `find?_put`, `configure_eq_ok` : reading after writing;
- `addBaseOn_eq_ok`, `addUsedBy_eq_ok`, `addSendTo_eq_ok`, `addMemorySendTo_eq_ok` : the edges that a
  change adds;
- `freeIfDone_eq_ok`, `release_eq_ok`, `endStream_eq_ok` : references that are dropped and streams that
  end;
- `Graph.Holds` : a live configuration and the number of its references;
- `Holds.acquire`, `Holds.release`, `Holds.endStream` : counting, which always succeeds.
-/

namespace StreamEngine

theorem ConfigId.eq_of_val {a b : ConfigId} (h : a.val = b.val) : a = b := by
  cases a
  cases b
  cases h
  rfl

namespace Graph

variable {g g' : Graph} {c c' d : ConfigId} {config config' : Config} {n n' : Nat}

/-! ## Reading after writing -/

theorem get_eq_ok : g.get c = .ok config ↔ g.find? c = some config := by
  rw [get]
  cases g.find? c <;> simp

theorem lt_of_find? (h : g.find? c = some config) : c.val < g.slots.length := by
  by_contra hge
  rw [find?, List.getElem?_eq_none (Nat.le_of_not_lt hge)] at h
  cases h

theorem find?_put (h : g.find? c = some config) (x : Option Config) (c' : ConfigId) :
    (g.put c x).find? c' = if c' = c then x else g.find? c' := by
  by_cases hc : c' = c
  · rw [if_pos hc, hc, find?, put, List.getElem?_set_self (lt_of_find? h)]
    rfl
  · rw [if_neg hc, find?, put, List.getElem?_set_ne fun hval => hc (ConfigId.eq_of_val hval.symm)]
    rfl

theorem modify_eq_ok {f : Config → Config} :
    g.modify c f = .ok g' ↔ ∃ config, g.find? c = some config ∧ g' = g.put c (some (f config)) := by
  rw [modify, bind_eq_ok]
  simp only [get_eq_ok]
  exact exists_congr fun config => and_congr_right fun _ => by
    constructor <;> (intro h; cases h; rfl)

/-- A configuration is entered under an identity that the index does not know, in a slot of its own. -/
theorem configure_iff : g.configure config = .ok (c, g') ↔ ∃ strand, config.strandId = .ok strand ∧
    ¬ g.index.contains strand = true ∧ c = { val := g.slots.length } ∧
      g' = { slots := g.slots ++ [some config], index := g.index.insert strand c } := by
  rw [configure, bind_eq_ok]
  refine exists_congr fun strand => and_congr_right fun _ => ?_
  by_cases htwice : g.index.contains strand = true
  · simp only [if_pos htwice]
    constructor
    · intro h
      cases h
    · exact fun h => absurd htwice h.1
  · simp only [if_neg htwice]
    constructor
    · intro h
      cases h
      exact ⟨htwice, rfl, rfl⟩
    · rintro ⟨_, rfl, rfl⟩
      rfl

/-- A new configuration has the key of a slot that never was. -/
theorem configure_eq_ok (h : g.configure config = .ok (c, g')) :
    g.find? c = none ∧ ∀ c', g'.find? c' = if c' = c then some config else g.find? c' := by
  rcases configure_iff.1 h with ⟨strand, _, _, rfl, rfl⟩
  refine ⟨?_, ?_⟩
  · rw [find?, List.getElem?_eq_none (Nat.le_refl _)]
    rfl
  · intro c'
    by_cases hc : c' = { val := g.slots.length }
    · rw [if_pos hc, hc, find?, List.getElem?_concat_length]
      rfl
    · have hne : c'.val ≠ g.slots.length := fun hval => hc (ConfigId.eq_of_val hval)
      rw [if_neg hc, find?]
      by_cases hlt : c'.val < g.slots.length
      · rw [List.getElem?_append_left hlt]
        rfl
      · rw [List.getElem?_eq_none (by simp; omega), find?, List.getElem?_eq_none (by omega)]

/-! ## Adding edges -/

/-- An edge that is not refused is legal. -/
theorem checkEdge_eq_ok {kind : EdgeKind} {source target : ConfigId} {reuse : Reuse} {skip : Int}
    (h : g.checkEdge kind source target reuse skip = .ok n) :
    0 < reuse.count ∧ ¬ (1 < reuse.count ∧ 0 < n) := by
  by_cases hlegal : isLegal reuse skip = true
  · simp only [checkEdge, if_pos hlegal] at h
    cases h
    simp only [isLegal, Reuse.isReused, Bool.and_eq_true, bne_iff_ne, Bool.not_eq_true',
      Bool.and_eq_false_iff, decide_eq_true_eq, decide_eq_false_iff_not] at hlegal
    omega
  · simp only [checkEdge, if_neg hlegal] at h
    rcases bind_eq_ok.1 h with ⟨_, _, h⟩
    rcases bind_eq_ok.1 h with ⟨_, _, h⟩
    rcases bind_eq_ok.1 h with ⟨_, _, h⟩
    rcases bind_eq_ok.1 h with ⟨_, _, h⟩
    cases h

/-- An edge leads to a live peer. -/
theorem edgeTo_eq_ok {kind : EdgeKind} {peer : ConfigId} {reuse : Reuse} {skip : Nat} {e : Edge}
    (h : g.edgeTo kind peer reuse skip = .ok e) :
    (∃ config, g.find? peer = some config) ∧ ∃ peerStrand, e = { kind, peer, peerStrand, reuse, skip } := by
  rcases bind_eq_ok.1 h with ⟨config, hget, h⟩
  rcases bind_eq_ok.1 h with ⟨peerStrand, _, h⟩
  cases h
  exact ⟨⟨config, get_eq_ok.1 hget⟩, peerStrand, rfl⟩

theorem addBaseOn_eq_ok {base : ConfigId} {reuse : Reuse} {skip : Int} {pred : Option Predicate}
    (h : g.addBaseOn c base reuse skip pred = .ok g') :
    ∃ n e, g.checkEdge .baseOn c base reuse skip = .ok n ∧ g.edgeTo .baseOn base reuse n = .ok e ∧
      g.addBaseEdge c { e with pred } = .ok g' := by
  rcases bind_eq_ok.1 h with ⟨n, hn, h⟩
  rcases bind_eq_ok.1 h with ⟨e, he, h⟩
  exact ⟨n, e, hn, he, h⟩

/-- An indirect stream is joined from both sides. -/
theorem addUsedBy_eq_ok {base : ConfigId} {reuse : Reuse} {pred : Option Predicate}
    (h : g.addUsedBy base c reuse pred = .ok g') :
    ∃ n forward backward g₁, g.checkEdge .usedBy base c reuse 0 = .ok n ∧
      g.edgeTo .usedBy c reuse = .ok forward ∧ g.edgeTo .baseOn base reuse = .ok backward ∧
      g.addDepEdge base forward = .ok g₁ ∧
      g₁.addBaseEdge c { backward with answersUsedBy := true, pred } = .ok g' := by
  rcases bind_eq_ok.1 h with ⟨n, hn, h⟩
  rcases bind_eq_ok.1 h with ⟨forward, hforward, h⟩
  rcases bind_eq_ok.1 h with ⟨backward, hbackward, h⟩
  rcases bind_eq_ok.1 h with ⟨g₁, hdep, h⟩
  exact ⟨n, forward, backward, g₁, hn, hforward, hbackward, hdep, h⟩

theorem addMemorySendTo_eq_ok {recv : ConfigId} {memory : MemorySend}
    (h : g.addMemorySendTo c recv memory = .ok g') :
    ∃ e, g.edgeTo .memorySendTo recv = .ok e ∧
      g.addDepEdge c { e with memory := some memory } = .ok g' :=
  bind_eq_ok.1 h

/-- Adding an edge to send along changes nothing where there is one, and otherwise adds one edge. -/
theorem addSendTo_eq_ok {recv : ConfigId} {reuse : Reuse} {skip : Int}
    (h : g.addSendTo c recv reuse skip = .ok g') :
    g' = g ∨ ∃ config n e, g.find? c = some config ∧
      (config.depEdges.find? fun e => e.kind = .sendTo ∧ e.peer = recv) = none ∧
      g.checkEdge .sendTo c recv reuse skip = .ok n ∧ g.edgeTo .sendTo recv reuse n = .ok e ∧
      g.addDepEdge c e = .ok g' := by
  rcases bind_eq_ok.1 h with ⟨n, hn, h⟩
  rcases bind_eq_ok.1 h with ⟨config, hget, h⟩
  cases hedge : config.depEdges.find? fun e => e.kind = .sendTo ∧ e.peer = recv with
  | some e =>
      simp only [hedge] at h
      by_cases hsame : e.reuse = reuse ∧ e.skip = n
      · rw [if_pos hsame] at h
        cases h
        exact Or.inl rfl
      · rw [if_neg hsame] at h
        rcases bind_eq_ok.1 h with ⟨_, _, h⟩
        cases h
  | none =>
      simp only [hedge] at h
      rcases bind_eq_ok.1 h with ⟨e, he, h⟩
      exact Or.inr ⟨config, n, e, get_eq_ok.1 hget, hedge, hn, he, h⟩

/-! ## Dropping references -/

/-- Just a configuration that is done is freed, and its identity is taken out of the index. -/
theorem freeIfDone_eq_ok {freed : Bool} :
    g.freeIfDone c = .ok (freed, g') ↔ ∃ config, g.find? c = some config ∧ config.isDone = freed ∧
      (freed = false ∧ g' = g ∨ freed = true ∧ ∃ k, config.strandId = .ok k ∧
        g' = { slots := (g.put c none).slots, index := g.index.erase k }) := by
  rw [freeIfDone, bind_eq_ok]
  simp only [get_eq_ok]
  refine exists_congr fun config => and_congr_right fun _ => ?_
  cases hdone : config.isDone with
  | false =>
      constructor
      · intro h
        cases h
        exact ⟨rfl, Or.inl ⟨rfl, rfl⟩⟩
      · rintro ⟨rfl, ⟨_, rfl⟩ | ⟨hfreed, _⟩⟩
        · rfl
        · cases hfreed
  | true =>
      constructor
      · intro h
        rcases bind_eq_ok.1 h with ⟨k, hk, h⟩
        cases h
        exact ⟨rfl, Or.inr ⟨rfl, k, hk, rfl⟩⟩
      · rintro ⟨rfl, ⟨hfreed, _⟩ | ⟨_, k, hk, rfl⟩⟩
        · cases hfreed
        · exact bind_eq_ok.2 ⟨k, hk, rfl⟩

/-- A reference that is dropped was there. -/
theorem release_eq_ok {freed : Bool} :
    g.release c = .ok (freed, g') ↔ ∃ config, g.find? c = some config ∧ config.refs ≠ 0 ∧
      (g.put c (some { config with refs := config.refs - 1 })).freeIfDone c = .ok (freed, g') := by
  rw [release, bind_eq_ok]
  simp only [get_eq_ok]
  refine exists_congr fun config => and_congr_right fun _ => ?_
  by_cases hzero : config.refs = 0
  · rw [if_pos hzero]
    constructor
    · intro h
      rcases bind_eq_ok.1 h with ⟨_, _, h⟩
      cases h
    · exact fun h => absurd hzero h.1
  · rw [if_neg hzero]
    exact (and_iff_right hzero).symm

/-- A stream that ends had not ended. -/
theorem endStream_eq_ok {freed : Bool} :
    g.endStream c = .ok (freed, g') ↔ ∃ config, g.find? c = some config ∧ config.ended = false ∧
      (g.put c (some { config with ended := true })).freeIfDone c = .ok (freed, g') := by
  rw [endStream, bind_eq_ok]
  simp only [get_eq_ok]
  refine exists_congr fun config => and_congr_right fun _ => ?_
  by_cases hended : config.ended = true
  · rw [if_pos hended]
    constructor
    · intro h
      rcases bind_eq_ok.1 h with ⟨_, _, h⟩
      cases h
    · exact fun h => absurd hended (Bool.eq_false_iff.1 h.1)
  · rw [if_neg hended]
    exact (and_iff_right (Bool.eq_false_iff.2 hended)).symm

/-! ## Whole streams and their references -/

/-- The configuration of a whole stream is live and has this many references, and the stream has not
ended. -/
def Holds (g : Graph) (c : ConfigId) (n : Nat) : Prop :=
  ∃ config, g.find? c = some config ∧ config.ended = false ∧ config.refs = n ∧ config.parent = none

theorem strandId_of_whole (h : config.parent = none) : config.strandId = .ok (.whole config.id) := by
  rw [Config.strandId, Config.isStrand, h]
  rfl

/-- A change to one configuration leaves the others held as they were. -/
theorem Holds.put_of_ne (h : g.Holds c' n) (hfind : g.find? c = some config) (hne : c' ≠ c)
    (x : Option Config) : (g.put c x).Holds c' n := by
  rcases h with ⟨other, hother, hrest⟩
  refine ⟨other, ?_, hrest⟩
  rw [find?_put hfind, if_neg hne]
  exact hother

/-- A configuration may be replaced by one that counts the same. -/
theorem Holds.put (h : g.Holds c' n) (hfind : g.find? c = some config)
    (hsame : config'.ended = config.ended ∧ config'.refs = config.refs ∧
      config'.parent = config.parent) : (g.put c (some config')).Holds c' n := by
  by_cases hc : c' = c
  · rcases h with ⟨other, hother, hended, hrefs, hparent⟩
    rw [hc, hfind] at hother
    cases hother
    refine ⟨config', ?_, hsame.1.trans hended, hsame.2.1.trans hrefs, hsame.2.2.trans hparent⟩
    rw [hc, find?_put hfind, if_pos rfl]
  · exact h.put_of_ne hfind hc _

/-- Entering a configuration does not touch the others, and its key is new. -/
theorem Holds.configure (h : g.Holds c' n) (hg : g.configure config = .ok (c, g')) :
    c' ≠ c ∧ g'.Holds c' n := by
  rcases configure_eq_ok hg with ⟨hnone, hfind⟩
  rcases h with ⟨other, hother, hrest⟩
  have hne : c' ≠ c := by
    rintro rfl
    rw [hnone] at hother
    cases hother
  refine ⟨hne, other, ?_, hrest⟩
  rw [hfind, if_neg hne]
  exact hother

/-! ## Edges -/

theorem Holds.addBaseEdge {e : Edge} (h : g.Holds c n) (hg : g.addBaseEdge c' e = .ok g') :
    g'.Holds c n := by
  rcases modify_eq_ok.1 hg with ⟨config, hfind, rfl⟩
  exact h.put hfind ⟨rfl, rfl, rfl⟩

theorem Holds.addDepEdge {e : Edge} (h : g.Holds c n) (hg : g.addDepEdge c' e = .ok g') :
    g'.Holds c n := by
  rcases modify_eq_ok.1 hg with ⟨config, hfind, rfl⟩
  exact h.put hfind ⟨rfl, rfl, rfl⟩

theorem Holds.addBaseOn {base : ConfigId} {reuse : Reuse} {skip : Int} (h : g.Holds c n)
    (hg : g.addBaseOn d base reuse skip = .ok g') : g'.Holds c n := by
  rcases addBaseOn_eq_ok hg with ⟨_, _, _, _, hg⟩
  exact h.addBaseEdge hg

theorem Holds.addUsedBy {base : ConfigId} {reuse : Reuse} (h : g.Holds c n)
    (hg : g.addUsedBy base d reuse = .ok g') : g'.Holds c n := by
  rcases addUsedBy_eq_ok hg with ⟨_, _, _, g₁, _, _, _, hdep, hbase⟩
  exact (h.addDepEdge hdep).addBaseEdge hbase

/-! ## Counting -/

/-- What a step of counting says about the configurations that it is not about. -/
def Spares (c : ConfigId) (g g' : Graph) : Prop :=
  ∀ c' n, c' ≠ c → g.Holds c' n → g'.Holds c' n

theorem Holds.acquire (h : g.Holds c n) (hg : g.acquire c = .ok g') :
    g'.Holds c (n + 1) ∧ Spares c g g' := by
  rcases modify_eq_ok.1 hg with ⟨found, hfind, rfl⟩
  rcases h with ⟨config, hconfig, hended, hrefs, hparent⟩
  rw [hfind] at hconfig
  cases hconfig
  refine ⟨⟨{ found with refs := found.refs + 1 }, ?_, hended, congrArg (· + 1) hrefs, hparent⟩, ?_⟩
  · rw [find?_put hfind, if_pos rfl]
  · exact fun c' n hne h' => h'.put_of_ne hfind hne _

/-- One reference can always be dropped while there is one. The stream has not ended, so nothing is
freed. -/
theorem Holds.release (h : g.Holds c (n + 1)) :
    ∃ g', g.release c = .ok (false, g') ∧ g'.Holds c n ∧ Spares c g g' := by
  rcases h with ⟨config, hfind, hended, hrefs, hparent⟩
  let fewer : Config := { config with refs := config.refs - 1 }
  have hput : (g.put c (some fewer)).find? c = some fewer := by
    rw [find?_put hfind, if_pos rfl]
  refine ⟨g.put c (some fewer), ?_, ?_, ?_⟩
  · have hpos : config.refs ≠ 0 := by omega
    have hdone : fewer.isDone = false := by
      simp only [Config.isDone, fewer, hended, Bool.false_and]
    exact release_eq_ok.2 ⟨config, hfind, hpos,
      freeIfDone_eq_ok.2 ⟨fewer, hput, hdone, Or.inl ⟨rfl, rfl⟩⟩⟩
  · refine ⟨fewer, hput, hended, ?_, hparent⟩
    simp only [fewer]
    omega
  · exact fun c' n hne h' => h'.put_of_ne hfind hne _

/-- A stream without references can always end, and its configuration is freed. -/
theorem Holds.endStream (h : g.Holds c 0) :
    ∃ g', g.endStream c = .ok (true, g') ∧ g'.find? c = none ∧ Spares c g g' := by
  rcases h with ⟨config, hfind, hended, hrefs, hparent⟩
  let done : Config := { config with ended := true }
  have hput : (g.put c (some done)).find? c = some done := by
    rw [find?_put hfind, if_pos rfl]
  refine ⟨{ slots := ((g.put c (some done)).put c none).slots
            index := g.index.erase (.whole config.id) }, ?_, ?_, ?_⟩
  · have hdone : done.isDone = true := by
      simp only [Config.isDone, done, hrefs, beq_self_eq_true, Bool.and_self]
    have hwhole : done.strandId = .ok (.whole config.id) := strandId_of_whole hparent
    exact endStream_eq_ok.2 ⟨config, hfind, hended,
      freeIfDone_eq_ok.2 ⟨done, hput, hdone, Or.inr ⟨rfl, _, hwhole, rfl⟩⟩⟩
  · exact (find?_put hput none c).trans (if_pos rfl)
  · intro c' n hne h'
    exact (h'.put_of_ne hfind hne (some done)).put_of_ne hput hne none

end Graph
end StreamEngine
