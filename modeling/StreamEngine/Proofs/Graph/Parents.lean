import StreamEngine.Graph.Forward
import StreamEngine.Proofs.Graph.Changes

/-!
# Strands and the streams they were split from

A strand names the configuration that it was split from by key. That is no reference, so a stream can be
freed while there are strands of it, and then whatever is asked about one of them by way of the stream
stops at a configuration that is not live.

- `Graph.Rooted` : what every live strand was split from is live;
- `Graph.Orphans` : a change that frees a stream before its strands;
- `Rooted.traced` : strands of a rooted graph can be traced back to their streams;
- `Graph.run_rooted_iff` : graphs stay rooted just as long as no change orphans a strand.
-/

namespace StreamEngine

/-- A key was followed to a configuration that is not live. -/
def Fault.IsNotLive (f : Fault) : Prop :=
  ∃ c, f = .graph (.notLive c)

namespace Graph

variable {g g' : Graph} {c id : ConfigId} {config config' stream strand : Config} {change : Change}
  {changes : List Change} {found found' : Option Config}

def Rooted (g : Graph) : Prop :=
  ∀ id strand c, g.find? id = some strand → strand.parent = some c → ∃ stream, g.find? c = some stream

/-- Strands are entered after what they are split from. -/
def Ordered (g : Graph) : Prop :=
  ∀ id strand c, g.find? id = some strand → strand.parent = some c → c.val < id.val

/-- The change frees a configuration of which there is a live strand. -/
def Orphans (g : Graph) (change : Change) : Prop :=
  ∃ c stream id strand, g.find? c = some stream ∧ change.Frees c stream ∧
    g.find? id = some strand ∧ strand.parent = some c

/-! ## Steps -/

/-- A configuration keeps what it was split from, and a new one was split from a live one, if any. -/
theorem Fate.parent (h : Fate g change id found (some config)) :
    (∃ old, found = some old ∧ config.parent = old.parent) ∨
      g.slots.length ≤ id.val ∧ ∀ c, config.parent = some c →
        ∃ split stream, change = .splitIntoStrands c split ∧ g.find? c = some stream := by
  cases h with
  | @entered stream whole hchange hnew =>
      refine Or.inr ⟨hnew, fun c hparent => ?_⟩
      rw [whole] at hparent
      cases hparent
  | splitOff hchange hstream hnew =>
      refine Or.inr ⟨hnew, fun c hparent => ?_⟩
      cases hparent
      exact ⟨_, _, hchange, hstream⟩
  | joined hadds => exact Or.inl ⟨_, rfl, rfl⟩
  | divided hchange haccepts => exact Or.inl ⟨_, rfl, rfl⟩
  | counted hplain => exact Or.inl ⟨_, rfl, rfl⟩

theorem Fate.kept_or_freed (h : Fate g change id (some config) found) :
    (∃ config', found = some config' ∧ config'.parent = config.parent) ∨ change.Frees id config := by
  cases h with
  | joined hadds => exact Or.inl ⟨_, rfl, rfl⟩
  | divided hchange haccepts => exact Or.inl ⟨_, rfl, rfl⟩
  | counted hplain => exact Or.inl ⟨_, rfl, rfl⟩
  | freed hfrees => exact Or.inr hfrees

theorem parent_of_apply (h : g.apply change = .ok g') (hfind : g'.find? id = some config) :
    (∃ old, g.find? id = some old ∧ config.parent = old.parent) ∨
      g.slots.length ≤ id.val ∧ ∀ c, config.parent = some c →
        ∃ split stream, change = .splitIntoStrands c split ∧ g.find? c = some stream := by
  have hfate := (effect_of_apply h).fate id
  rw [hfind] at hfate
  exact hfate.parent

theorem kept_or_freed_of_apply (h : g.apply change = .ok g') (hfind : g.find? id = some config) :
    (∃ config', g'.find? id = some config' ∧ config'.parent = config.parent) ∨
      change.Frees id config := by
  have hfate := (effect_of_apply h).fate id
  rw [hfind] at hfate
  exact hfate.kept_or_freed

theorem Ordered.apply (h : g.Ordered) (happly : g.apply change = .ok g') : g'.Ordered := by
  intro id strand c hstrand hparent
  rcases parent_of_apply happly hstrand with ⟨old, hold, hsame⟩ | ⟨hnew, hsplit⟩
  · exact h id old c hold (hsame ▸ hparent)
  · rcases hsplit c hparent with ⟨_, stream, _, hstream⟩
    exact Nat.lt_of_lt_of_le (lt_of_find? hstream) hnew

theorem Rooted.apply (h : g.Rooted) (horphans : ¬ g.Orphans change) (happly : g.apply change = .ok g') :
    g'.Rooted := by
  intro id strand c hstrand hparent
  rcases parent_of_apply happly hstrand with ⟨old, hold, hsame⟩ | ⟨_, hsplit⟩
  · rw [hsame] at hparent
    rcases h id old c hold hparent with ⟨stream, hstream⟩
    rcases kept_or_freed_of_apply happly hstream with ⟨stream', hkept, _⟩ | hfrees
    · exact ⟨stream', hkept⟩
    · exact absurd ⟨c, stream, id, old, hstream, hfrees, hold, hparent⟩ horphans
  · rcases hsplit c hparent with ⟨split, stream, rfl, hstream⟩
    rcases kept_or_freed_of_apply happly hstream with ⟨stream', hkept, _⟩ | ⟨hchange, _⟩ | ⟨hchange, _⟩
    · exact ⟨stream', hkept⟩
    · cases hchange
    · cases hchange

/-- The strand stays, for a change frees one configuration only. -/
theorem not_rooted_of_orphans (hordered : g.Ordered) (horphans : g.Orphans change)
    (happly : g.apply change = .ok g') : ¬ g'.Rooted := by
  rcases horphans with ⟨c, stream, id, strand, hstream, hfrees, hstrand, hparent⟩
  intro hrooted
  rcases kept_or_freed_of_apply happly hstrand with ⟨strand', hkept, hsame⟩ | hboth
  · rcases hrooted id strand' c hkept (hsame.trans hparent) with ⟨stream', hstream'⟩
    rw [find?_of_frees hfrees hstream happly] at hstream'
    cases hstream'
  · have hid : id = c := by
      rcases hfrees with ⟨rfl, _⟩ | ⟨rfl, _⟩ <;> rcases hboth with ⟨hchange, _⟩ | ⟨hchange, _⟩ <;>
        cases hchange
      · rfl
      · rfl
    rw [hid] at hstrand
    exact Nat.lt_irrefl c.val (hordered c strand c hstrand hparent)

/-! ## Questions about strands -/

theorem avoids_other {α : Type} {f : Fault} (h : ∀ c, f ≠ .graph (.notLive c)) :
    Avoids Fault.IsNotLive (.error f : Except Fault α) := by
  refine avoids_error ?_
  rintro ⟨c, hc⟩
  exact h c hc

theorem avoids_part (stream : StreamId) (index total : Nat) :
    Avoids Fault.IsNotLive (StrandId.part stream index total) :=
  avoids_ite (avoids_ok _) (avoids_other fun _ h => by cases h)

theorem avoids_strandId (config : Config) : Avoids Fault.IsNotLive config.strandId :=
  avoids_ite (avoids_part _ _ _) (avoids_ok _)

theorem avoids_toStrand (split : StrandSplit) (idx : Nat) :
    Avoids Fault.IsNotLive (split.toStrand idx) := by
  cases split with
  | interleave i => exact avoids_ok _
  | ranges bounds =>
      rw [StrandSplit.toStrand]
      cases bounds[StrandSplit.rangeOf bounds idx]? with
      | none => exact avoids_other fun _ h => by cases h
      | some lo => exact avoids_ite (avoids_other fun _ h => by cases h) (avoids_ok _)

theorem avoids_toStream (split : StrandSplit) (e : StrandElem) :
    Avoids Fault.IsNotLive (split.toStream e) := by
  cases split with
  | interleave i => exact avoids_ok _
  | ranges bounds =>
      rw [StrandSplit.toStream]
      cases bounds[e.strand]? with
      | none => exact avoids_other fun _ h => by cases h
      | some lo => exact avoids_ok _

theorem avoids_address (config : Config) (idx : Nat) :
    Avoids Fault.IsNotLive (config.address idx) := by
  refine Generator.avoids_invariantAddress (fun f => ?_) config.generator config.formal idx
  rintro ⟨c, hc⟩
  cases hc

theorem avoids_streamIdx (hfind : g.find? c = some config) (elem : Nat) :
    Avoids Fault.IsNotLive (g.streamIdx c elem) := by
  refine (avoids_of_ok ⟨config, get_eq_ok.2 hfind⟩).bind fun found hfound => ?_
  refine avoids_ite (avoids_ok elem) (avoids_ite (avoids_other fun _ h => by cases h) ?_)
  cases found.split with
  | none => exact (avoids_strandId found).bind fun _ _ => avoids_other fun _ h => by cases h
  | some split => exact avoids_toStream split _

/-- The configuration can be traced back to a whole stream, and no question about its elements or about
what is forwarded to it as a strand ends at a configuration that is not live. -/
structure Traced (g : Graph) (c : ConfigId) (config : Config) : Prop where
  root : ∃ stream, g.root c = .ok stream ∧ stream.parent = none
  strandElem : ∀ idx, Avoids Fault.IsNotLive (g.strandElem c idx)
  forward : config.isStrand = true → ∀ e sender elem, e.peer = c →
    Avoids Fault.IsNotLive (g.forward e sender elem)

/-- Each step up leads to a smaller key. -/
theorem rootWithin_eq_ok (hordered : g.Ordered) (hrooted : g.Rooted) {steps : Nat}
    (hfind : g.find? c = some config) (hsteps : c.val < steps) :
    ∃ stream, g.rootWithin c steps = .ok stream ∧ stream.parent = none := by
  induction steps generalizing c config with
  | zero => exact absurd hsteps (Nat.not_lt_zero c.val)
  | succ steps ih =>
      cases hparent : config.parent with
      | none =>
          refine ⟨config, bind_eq_ok.2 ⟨config, get_eq_ok.2 hfind, ?_⟩, hparent⟩
          simp only [hparent]
          rfl
      | some p =>
          have hlt := hordered c config p hfind hparent
          rcases hrooted c config p hfind hparent with ⟨above, habove⟩
          rcases ih habove (by omega) with ⟨stream, hstream, hwhole⟩
          refine ⟨stream, bind_eq_ok.2 ⟨config, get_eq_ok.2 hfind, ?_⟩, hwhole⟩
          simp only [hparent]
          exact hstream

theorem Rooted.traced (hrooted : g.Rooted) (hordered : g.Ordered) (hfind : g.find? c = some config) :
    g.Traced c config := by
  have hroot : ∃ stream, g.root c = .ok stream ∧ stream.parent = none :=
    rootWithin_eq_ok hordered hrooted hfind (Nat.lt_succ_self c.val)
  refine ⟨hroot, fun idx => ?_, ?_⟩
  · rcases hroot with ⟨stream, hstream, _⟩
    refine (avoids_of_ok ⟨stream, hstream⟩).bind fun found _ => ?_
    cases found.split with
    | none => exact avoids_ok _
    | some split =>
        refine avoids_ite ?_ (avoids_ok _)
        exact (avoids_toStrand split idx).bind fun _ _ =>
          (avoids_part _ _ _).bind fun _ _ => avoids_ok _
  · intro hstrand e sender elem hpeer
    rcases Option.isSome_iff_exists.1 hstrand with ⟨p, hparent⟩
    rcases hrooted c config p hfind hparent with ⟨stream, hstream⟩
    rw [← hpeer] at hfind
    refine (avoids_of_ok ⟨config, get_eq_ok.2 hfind⟩).bind fun found hfound => ?_
    rw [get_eq_ok.2 hfind] at hfound
    cases hfound
    simp only [hparent]
    refine (avoids_streamIdx hfind _).bind fun _ _ => ?_
    refine (avoids_of_ok ⟨stream, get_eq_ok.2 hstream⟩).bind fun _ _ => ?_
    exact (avoids_strandId config).bind fun _ _ => (avoids_address config _).bind fun _ _ => avoids_ok _

/-! ## Runs -/

theorem run_ordered (hrun : run changes = .ok g) : g.Ordered := by
  refine run_induction (I := fun _ g => g.Ordered) ?_ ?_ hrun
  · intro id strand c hstrand
    cases hstrand
  · intro changes change g g' _ hordered happly
    exact hordered.apply happly

/-- What the live strands were split from is live in every graph that changes lead to, if and only if no
change on the way frees a configuration while a strand of it is live. In such a graph every strand can be
traced back to its stream. -/
theorem run_rooted_iff (changes : List Change) :
    ((∀ i g, run (changes.take i) = .ok g → g.Rooted) ↔
      ∀ i change g g', changes[i]? = some change → run (changes.take i) = .ok g →
        g.apply change = .ok g' → ¬ g.Orphans change) ∧
      ∀ i g, run (changes.take i) = .ok g → g.Rooted →
        ∀ c config, g.find? c = some config → g.Traced c config := by
  refine ⟨⟨?_, ?_⟩, ?_⟩
  · intro hrooted i change g g' hchange hrun happly horphans
    have hafter := hrooted (i + 1) g' (run_take_succ_of_apply hrun hchange happly)
    exact not_rooted_of_orphans (run_ordered hrun) horphans happly hafter
  · intro horphans i
    induction i with
    | zero =>
        intro g hrun
        cases hrun
        intro id strand c hstrand
        cases hstrand
    | succ i ih =>
        intro g' hrun
        rcases run_take_succ hrun with ⟨g, hbefore, rfl | ⟨change, hchange, happly⟩⟩
        · exact ih _ hbefore
        · exact (ih g hbefore).apply (horphans i change g g' hchange hbefore happly) happly
  · intro i g hrun hrooted c config hfind
    exact hrooted.traced (run_ordered hrun) hfind

/-! ## A stream that ends before its strands -/

/-- A walk is split and ends. Nothing refers to it, so it is freed, and its halves stay behind. -/
theorem halves_outlive_walk :
    ∃ g half, run [.configure walk walk_whole, .splitIntoStrands { val := 0 } halves,
        .endStream { val := 0 }] = .ok g ∧
      g.find? { val := 1 } = some half ∧ half.parent = some { val := 0 } ∧
      g.find? { val := 0 } = none ∧
      g.strandElem { val := 1 } 0 = .error (.graph (.notLive { val := 0 })) ∧
      ∀ peerStrand sender, g.forward { kind := .sendTo, peer := { val := 1 }, peerStrand } sender 0 =
        .error (.graph (.notLive { val := 0 })) :=
  ⟨_, _, rfl, rfl, rfl, rfl, rfl, fun _ _ => rfl⟩

end Graph
end StreamEngine
