import StreamEngine.Proofs.Outcome
import StreamEngine.Proofs.Slicing.Allocation

/-!
# Asking a slicer

Callers of a slicer ask for the next slice, look at it ahead of time, or ask whether it lies behind the
end of the stream. Whatever the order of these calls, the slices handed out are the first runs of the
stream.

- `Slicer.Stops` : the ways in which allocating elements gives up;
- `Looks`, `Ends`, `Allocates` : looking ahead, a call and a sequence of calls, told with the elements that
  they allocate;
- `next_of_peek` : looking ahead changes nothing;
- `Allocates.follows` : calls go on with the runs, as long as the elements that they allocate have addresses;
- `calls_runs` : what a sequence of calls hands out.
-/

namespace StreamEngine

/-- The first runs of a walk, in order: no element starts a run ahead of the last one that is missing. -/
structure Walk.FirstRuns (w : Walk) (qs : List Run) : Prop where
  isRun : ∀ q ∈ qs, w.IsRun q
  sorted : qs.Pairwise Run.Before
  complete : ∀ q ∈ qs, ∀ i v, w.Touches i v → ¬ w.Continues i v →
    i < q.lhs ∨ i = q.lhs ∧ v < q.line → ∃ r ∈ qs, r.lhs = i ∧ r.line = v

namespace Slicer

inductive Call
  | next
  | peek
  | overflowed
  deriving DecidableEq, Repr

/-- One call, with the slices it hands out. -/
def call (s : Slicer) : Call → Except Fault (List Slice × Slicer)
  | .next => do
    let (front, s) ← s.next
    return ([front], s)
  | .peek => do
    let (_, s) ← s.peek
    return ([], s)
  | .overflowed => do
    let (_, s) ← s.hasOverflowed
    return ([], s)

def calls (s : Slicer) : List Call → Except Fault (List Slice × Slicer)
  | [] => .ok ([], s)
  | c :: cs => do
    let (out, s) ← s.call c
    let (rest, s) ← s.calls cs
    return (out ++ rest, s)

/-- The elements before `n` can be allocated: none of them overlaps, and their lines end inside memory. -/
def Clear (start : Slicer) (A : Nat → UInt64) (n : Nat) : Prop :=
  ∀ i < n, ¬ (start.walk A).Overlaps i ∧ ((start.walk A).last i + 1) * start.lineSize < 2 ^ 64

/-- The faults with which a slicer gives up: at an element that overlaps, at one on the last line of
memory, or once it has used up all indices. -/
inductive Stops (start : Slicer) (A : Nat → UInt64) : Fault → Prop
  | overlap (n : Nat) (q : Run) (hn : n < 2 ^ 64) (hclear : start.Clear A n)
      (hover : (start.walk A).Overlaps n) (hmem : q ∈ (start.walk A).runsUpTo n)
      (hrhs : q.rhs = n) (hline : q.line = (start.walk A).first (n - 1)) :
      Stops start A (.slice (.overlap start.strand n (A n) (q.toSlice start.strand start.lineSize)))
  | memory (n : Nat) (hn : n < 2 ^ 64) (hclear : start.Clear A n)
      (hover : ¬ (start.walk A).Overlaps n)
      (hend : 2 ^ 64 ≤ ((start.walk A).last n + 1) * start.lineSize) : Stops start A .arithmetic
  | indices (hclear : start.Clear A (2 ^ 64)) : Stops start A .arithmetic

/-- The trip is the largest word, and no index lies behind the one element past it. -/
def hasMaximalTrip (s : Slicer) : Bool :=
  s.totalTrip.any fun total => 2 ^ 64 ≤ total + 1

/-! ## Counting allocations -/

/-- Looking ahead from a state allocates `n` elements, the one of a fault among them, and gives `r`. -/
inductive Looks : Slicer → Nat → Except Fault (Slice × Slicer) → Prop
  | indices {s : Slicer} (hindex : 2 ^ 64 ≤ s.tail) : Looks s 0 (.error .arithmetic)
  | found {s : Slicer} {front : Slice} (hindex : s.tail < 2 ^ 64)
      (hfront : s.sealedFront? = some front) : Looks s 0 (.ok (front, s))
  | stopped {s : Slicer} {f : Fault} (hindex : s.tail < 2 ^ 64) (hopen : s.sealedFront? = none)
      (hcover : s.cover = .error f) : Looks s 1 (.error f)
  | allocated {s s' : Slicer} {n : Nat} {r : Except Fault (Slice × Slicer)} (hindex : s.tail < 2 ^ 64)
      (hopen : s.sealedFront? = none) (hcover : s.cover = .ok s') (hrest : Looks s' n r) :
      Looks s (n + 1) r

/-- What a call makes of the slice that it finds ahead of `s`. -/
def answer (s : Slicer) : Call → Slice × Slicer → Except Fault (List Slice × Slicer)
  | .next, (front, ahead) => .ok ([front], { ahead with queue := ahead.queue.tail })
  | .peek, (_, ahead) => .ok ([], ahead)
  | .overflowed, (_, ahead) => if s.hasMaximalTrip then .error .arithmetic else .ok ([], ahead)

/-- A call allocates `n` elements and answers `r`. Only the question for an overflow does not look ahead,
where the stream has no end or no elements. -/
inductive Ends (s : Slicer) : Call → Nat → Except Fault (List Slice × Slicer) → Prop
  | looked {c : Call} {n : Nat} {r : Except Fault (Slice × Slicer)}
      (hasks : c = .overflowed → ∃ last, s.totalTrip = some (last + 1)) (hlooks : Looks s n r) :
      Ends s c n (r >>= s.answer c)
  | idle (hnone : ∀ last, s.totalTrip ≠ some (last + 1)) : Ends s .overflowed 0 (.ok ([], s))

/-- Calls allocate `n` elements altogether and answer `r`. -/
inductive Allocates : Slicer → List Call → Nat → Except Fault (List Slice × Slicer) → Prop
  | nil {s : Slicer} : Allocates s [] 0 (.ok ([], s))
  | stopped {s : Slicer} {c : Call} {cs : List Call} {n : Nat} {f : Fault}
      (hends : Ends s c n (.error f)) : Allocates s (c :: cs) n (.error f)
  | cons {s s' : Slicer} {c : Call} {cs : List Call} {n m : Nat} {given : List Slice}
      {r : Except Fault (List Slice × Slicer)} (hends : Ends s c n (.ok (given, s')))
      (hrest : Allocates s' cs m r) :
      Allocates s (c :: cs) (n + m) (r.map fun rest => (given ++ rest.1, rest.2))

variable {start s s' : Slicer} {A : Nat → UInt64} {k limit n : Nat} {out : List Run} {c : Call}
  {cs : List Call} {given : List Slice} {front : Slice}

theorem cover_tail {s' : Slicer} (h : s.cover = .ok s') : s'.tail = s.tail + 1 := by
  rcases bind_eq_ok.1 h with ⟨addr, _, h⟩
  rcases bind_eq_ok.1 h with ⟨⟨queue, head, left⟩, _, h⟩
  rcases bind_eq_ok.1 h with ⟨fresh, _, h⟩
  cases h
  rfl

theorem Looks.peek_eq {r : Except Fault (Slice × Slicer)} (h : Looks s n r) : s.peek = r := by
  have hroom : ∀ s : Slicer, s.tail < 2 ^ 64 → 2 ^ 64 - s.tail = (2 ^ 64 - (s.tail + 1)) + 1 := by
    intro s hindex
    omega
  induction h with
  | indices hindex => rw [peek, Nat.sub_eq_zero_of_le hindex, settle]
  | found hindex hfront => rw [peek, hroom _ hindex, settle, hfront]
  | stopped hindex hopen hcover =>
      rw [peek, hroom _ hindex, settle, hopen, hcover]
      rfl
  | allocated hindex hopen hcover _ ih =>
      rw [peek, cover_tail hcover] at ih
      rw [peek, hroom _ hindex, settle, hopen, hcover, ← ih]
      rfl

/-- Looking ahead comes to an end, with the indices at the latest. -/
theorem exists_looks (s : Slicer) : ∃ n, Looks s n s.peek := by
  have hlooks : ∃ n r, Looks s n r := by
    induction hroom : 2 ^ 64 - s.tail generalizing s with
    | zero => exact ⟨0, _, .indices (by omega)⟩
    | succ room ih =>
        have hindex : s.tail < 2 ^ 64 := by omega
        cases hfront : s.sealedFront? with
        | some front => exact ⟨0, _, .found hindex hfront⟩
        | none =>
            cases hcover : s.cover with
            | error f => exact ⟨1, _, .stopped hindex hfront hcover⟩
            | ok s' =>
                have htail := cover_tail hcover
                rcases ih s' (by omega) with ⟨n, r, hrest⟩
                exact ⟨n + 1, r, .allocated hindex hfront hcover hrest⟩
  rcases hlooks with ⟨n, r, hlooks⟩
  exact ⟨n, hlooks.peek_eq.symm ▸ hlooks⟩

/-- The slice that is found cannot grow any more. -/
theorem Looks.sealed (h : Looks s n (.ok (front, s'))) :
    s'.sealedFront? = some front ∧ s'.tail = s.tail + n ∧ s'.tail < 2 ^ 64 := by
  generalize hr : Except.ok (front, s') = r at h
  induction h with
  | indices => cases hr
  | found hindex hfront =>
      cases hr
      exact ⟨hfront, rfl, hindex⟩
  | stopped => cases hr
  | allocated _ _ hcover _ ih =>
      rcases ih hr with ⟨hfront, htail, hindex⟩
      have hnext := cover_tail hcover
      exact ⟨hfront, by omega, hindex⟩

theorem Ends.call_eq {r : Except Fault (List Slice × Slicer)} (h : Ends s c n r) : s.call c = r := by
  -- all three calls look ahead first, and differ in what they make of what they find
  cases h with
  | @looked _ _ r hasks hlooks =>
      cases c with
      | next =>
          rw [call, next, hlooks.peek_eq]
          cases r <;> rfl
      | peek =>
          rw [call, hlooks.peek_eq]
          cases r <;> rfl
      | overflowed =>
          rcases hasks rfl with ⟨last, hlast⟩
          rw [call, hasOverflowed, hlast, hlooks.peek_eq]
          cases r with
          | error f => rfl
          | ok found =>
              -- the front is compared with the index behind the one element past the end
              have hmaximal : s.hasMaximalTrip = decide (2 ^ 64 ≤ last + 2) := by
                rw [hasMaximalTrip, hlast]
                rfl
              simp only [bind, Except.bind, answer, hmaximal, decide_eq_true_eq]
              by_cases hlong : 2 ^ 64 ≤ last + 2
              · rw [if_pos hlong, if_pos hlong]
              · rw [if_neg hlong, if_neg hlong]
                rfl
  | idle hnone =>
      rw [call, hasOverflowed]
      split
      · exact absurd ‹_› (hnone _)
      · rfl

theorem Ends.tail_eq (h : Ends s c n (.ok (given, s'))) : s'.tail = s.tail + n := by
  generalize hr : Except.ok (given, s') = r at h
  cases h with
  | idle =>
      cases hr
      rfl
  | looked hasks hlooks =>
      rcases bind_eq_ok.1 hr.symm with ⟨found, rfl, hanswer⟩
      have htail := hlooks.sealed.2.1
      cases c with
      | next =>
          cases hanswer
          exact htail
      | peek =>
          cases hanswer
          exact htail
      | overflowed =>
          rw [answer] at hanswer
          split at hanswer
          · cases hanswer
          · cases hanswer
            exact htail

theorem exists_ends (s : Slicer) (c : Call) : ∃ n, Ends s c n (s.call c) := by
  have hcall {n : Nat} {r : Except Fault (List Slice × Slicer)} (h : Ends s c n r) :
      ∃ n, Ends s c n (s.call c) := ⟨n, h.call_eq.symm ▸ h⟩
  rcases exists_looks s with ⟨n, hlooks⟩
  by_cases hasks : c = .overflowed → ∃ last, s.totalTrip = some (last + 1)
  · exact hcall (.looked hasks hlooks)
  · rcases Classical.not_imp.1 hasks with ⟨rfl, hnone⟩
    exact hcall (.idle (not_exists.1 hnone))

theorem Allocates.calls_eq {r : Except Fault (List Slice × Slicer)} (h : Allocates s cs n r) :
    s.calls cs = r := by
  induction h with
  | nil => rfl
  | stopped hends =>
      rw [calls, hends.call_eq]
      rfl
  | @cons _ _ _ _ _ _ _ r hends _ ih =>
      rw [calls, hends.call_eq]
      simp only [bind, Except.bind, ih]
      cases r <;> rfl

theorem Allocates.tail_eq (h : Allocates s cs n (.ok (given, s'))) : s'.tail = s.tail + n := by
  generalize hr : Except.ok (given, s') = r at h
  induction h generalizing given with
  | nil =>
      cases hr
      rfl
  | stopped => cases hr
  | @cons _ _ _ _ _ _ _ r hends _ ih =>
      have htail := hends.tail_eq
      cases r with
      | error f => cases hr
      | ok rest =>
          cases hr
          have hrest := ih rfl
          omega

theorem exists_allocates (s : Slicer) (cs : List Call) : ∃ n, Allocates s cs n (s.calls cs) := by
  have hallocates : ∃ n r, Allocates s cs n r := by
    induction cs generalizing s with
    | nil => exact ⟨0, _, .nil⟩
    | cons c cs ih =>
        rcases exists_ends s c with ⟨n, hends⟩
        cases hcall : s.call c with
        | error f =>
            rw [hcall] at hends
            exact ⟨n, _, .stopped hends⟩
        | ok answer =>
            rw [hcall] at hends
            rcases ih answer.2 with ⟨m, r, hrest⟩
            exact ⟨n + m, _, .cons hends hrest⟩
  rcases hallocates with ⟨n, r, hallocates⟩
  exact ⟨n, hallocates.calls_eq.symm ▸ hallocates⟩

/-! ## Looking ahead changes nothing -/

/-- A slicer that has looked ahead hands out what it would have handed out without. -/
theorem next_of_peek (h : s.peek = .ok (front, s')) : s'.next = s.next := by
  rcases exists_looks s with ⟨n, hlooks⟩
  rw [h] at hlooks
  rcases hlooks.sealed with ⟨hfront, _, hindex⟩
  rw [next, next, h, (Looks.found hindex hfront).peek_eq]

theorem take_of_peek {front : Slice} {s' : Slicer} (h : s.peek = .ok (front, s')) {n : Nat}
    {slices : List Slice} {s₁ : Slicer} (htake : s'.take n = .ok (slices, s₁)) :
    ∃ s₂, s.take n = .ok (slices, s₂) := by
  cases n with
  | zero =>
      cases htake
      exact ⟨s, rfl⟩
  | succ n =>
      rw [take, next_of_peek h] at htake
      exact ⟨s₁, htake⟩

theorem length_of_take {n : Nat} {slices : List Slice} {s' : Slicer}
    (h : s.take n = .ok (slices, s')) : slices.length = n := by
  induction n generalizing s slices with
  | zero =>
      cases h
      rfl
  | succ n ih =>
      rcases bind_eq_ok.1 h with ⟨⟨front, s₁⟩, _, h⟩
      rcases bind_eq_ok.1 h with ⟨⟨rest, s₂⟩, hrest, h⟩
      cases h
      rw [List.length_cons, ih hrest]

/-- Asking for an overflow looks ahead at most. -/
theorem take_of_overflowed {past : Bool} {s' : Slicer} (h : s.hasOverflowed = .ok (past, s')) {n : Nat}
    {slices : List Slice} {s₁ : Slicer} (htake : s'.take n = .ok (slices, s₁)) :
    ∃ s₂, s.take n = .ok (slices, s₂) := by
  rw [hasOverflowed] at h
  split at h
  · rcases bind_eq_ok.1 h with ⟨⟨front, s₀⟩, hpeek, h⟩
    dsimp only at h
    split at h
    · cases h
    · cases h
      exact take_of_peek hpeek htake
  · cases h
    exact ⟨s₁, htake⟩

/-- Without the calls that look ahead, the same slices are handed out. -/
theorem take_of_calls {cs : List Call} {slices : List Slice} {s' : Slicer}
    (h : s.calls cs = .ok (slices, s')) :
    ∃ s'', s.take (cs.count .next) = .ok (slices, s'') := by
  -- only the calls of `next` count, as the others look ahead at most
  induction cs generalizing s slices with
  | nil =>
      cases h
      exact ⟨_, rfl⟩
  | cons c cs ih =>
      rcases bind_eq_ok.1 h with ⟨⟨given, s₁⟩, hcall, h⟩
      rcases bind_eq_ok.1 h with ⟨⟨rest, s₂⟩, hrest, h⟩
      cases h
      rcases ih hrest with ⟨s'', htake⟩
      cases c with
      | next =>
          rcases bind_eq_ok.1 hcall with ⟨⟨front, s₀⟩, hnext, hcall⟩
          cases hcall
          refine ⟨s'', ?_⟩
          rw [List.count_cons_self, take, hnext]
          simp only [bind, Except.bind, htake]
          rfl
      | peek =>
          rcases bind_eq_ok.1 hcall with ⟨⟨front, s₀⟩, hpeek, hcall⟩
          cases hcall
          rw [List.count_cons_of_ne (by decide)]
          exact take_of_peek hpeek htake
      | overflowed =>
          rcases bind_eq_ok.1 hcall with ⟨⟨past, s₀⟩, hpast, hcall⟩
          cases hcall
          rw [List.count_cons_of_ne (by decide)]
          exact take_of_overflowed hpast htake

/-! ## Every call -/

theorem Follows.clear (h : start.Follows A out s) : start.Clear A s.tail :=
  fun i hi => ⟨h.apart i hi, h.inside i hi⟩

/-- Allocating an element goes on with the runs, or stops the slicer. -/
theorem cover_cases (hruns : start.RunsTo A k limit) (h : start.Follows A out s)
    (hopen : s.sealedFront? = none) (htail : s.tail < limit) (hindex : s.tail < 2 ^ 64) :
    (∃ s', s.cover = .ok s' ∧ start.Follows A out s') ∨
      ∃ f, s.cover = .error f ∧ start.Stops A f := by
  by_cases hover : (start.walk A).Overlaps s.tail
  · rcases cover_overlap hruns h hopen htail hover with ⟨q, hmem, hrhs, hline, hcover⟩
    exact Or.inr ⟨_, hcover, Stops.overlap s.tail q hindex h.clear hover hmem hrhs hline⟩
  · by_cases hend : ((start.walk A).last s.tail + 1) * start.lineSize < 2 ^ 64
    · rcases cover_ok hruns h hopen htail hover hend with ⟨s', hcover, h', _⟩
      exact Or.inl ⟨s', hcover, h'⟩
    · have hend := Nat.le_of_not_lt hend
      exact Or.inr ⟨_, cover_end hruns h hopen htail hover hend,
        Stops.memory s.tail hindex h.clear hover hend⟩

theorem follows_of_cover (hruns : start.RunsTo A k limit) (h : start.Follows A out s)
    (hopen : s.sealedFront? = none) (htail : s.tail < limit) (hindex : s.tail < 2 ^ 64)
    (hcover : s.cover = .ok s') : start.Follows A out s' := by
  rcases cover_cases hruns h hopen htail hindex with ⟨s₁, hs₁, h'⟩ | ⟨f, hf, _⟩
  · cases hcover.symm.trans hs₁
    exact h'
  · cases hcover.symm.trans hf

theorem stops_of_cover {f : Fault} (hruns : start.RunsTo A k limit) (h : start.Follows A out s)
    (hopen : s.sealedFront? = none) (htail : s.tail < limit) (hindex : s.tail < 2 ^ 64)
    (hcover : s.cover = .error f) : start.Stops A f := by
  rcases cover_cases hruns h hopen htail hindex with ⟨s₁, hs₁, _⟩ | ⟨f, hf, hstops⟩
  · cases hcover.symm.trans hs₁
  · cases hcover.symm.trans hf
    exact hstops

/-- A slice that cannot grow any more is the next run. -/
theorem Follows.pop (h : start.Follows A out s) {front : Slice} (hfront : s.sealedFront? = some front) :
    ∃ q, front = q.toSlice start.strand start.lineSize ∧
      start.Follows A (out ++ [q]) { s with queue := s.queue.tail } := by
  rcases h.listed with ⟨qs, hqueue, hlist⟩
  cases qs with
  | nil =>
      rw [sealedFront?, hqueue] at hfront
      cases hfront
  | cons q qs =>
      rw [sealedFront?, hqueue] at hfront
      simp only [List.map_cons, Run.toSlice] at hfront
      by_cases hrhs : q.rhs = s.tail
      · rw [if_pos hrhs] at hfront
        cases hfront
      · rw [if_neg hrhs] at hfront
        cases hfront
        have hmem : q ∈ (start.walk A).runsUpTo s.tail := by
          rw [← hlist]
          simp
        -- the run ends before the next element, so it is past
        have hle := (Walk.isRunUpTo_of_mem hmem).rhs_le
        refine ⟨q, rfl, ?_, ⟨qs, ?_, ?_⟩, ?_, h.apart, h.inside, h.head_le, h.open_head⟩
        · rw [h.shape]
        · rw [hqueue]
          rfl
        · rw [List.append_assoc]
          exact hlist
        · intro r hr
          rcases List.mem_append.1 hr with hr | hr
          · exact h.past r hr
          · rw [List.mem_singleton.1 hr]
            exact Nat.lt_of_le_of_ne hle hrhs

/-- Looking ahead goes on with the runs or stops the slicer, as long as the elements that it allocates lie
before the limit. An element is reached only where those before it are clear. -/
theorem Looks.follows {r : Except Fault (Slice × Slicer)} (hlooks : Looks s n r)
    (hruns : start.RunsTo A k limit) (h : start.Follows A out s)
    (hclear : ∀ m, start.Clear A m → m < s.tail + n → m < limit) :
    (∃ found, r = .ok found ∧ start.Follows A out found.2) ∨ ∃ f, r = .error f ∧ start.Stops A f := by
  -- every allocation moves the tail by one, and the count of those that are left with it
  induction hlooks with
  | indices hindex =>
      exact Or.inr ⟨_, rfl, .indices fun i hi => h.clear i (Nat.lt_of_lt_of_le hi hindex)⟩
  | found => exact Or.inl ⟨_, rfl, h⟩
  | stopped hindex hopen hcover =>
      have hlimit := hclear _ h.clear (Nat.lt_succ_self _)
      exact Or.inr ⟨_, rfl, stops_of_cover hruns h hopen hlimit hindex hcover⟩
  | allocated hindex hopen hcover _ ih =>
      have htail := cover_tail hcover
      have hlimit := hclear _ h.clear (by omega)
      exact ih (follows_of_cover hruns h hopen hlimit hindex hcover) fun m hm hlt =>
        hclear m hm (by omega)

/-- The faults with which calls end: those of allocating, and that of asking whether a stream of the
longest trip has overflowed. -/
def StopsCalls (start : Slicer) (A : Nat → UInt64) (cs : List Call) (f : Fault) : Prop :=
  start.Stops A f ∨ f = .arithmetic ∧ .overflowed ∈ cs ∧ start.hasMaximalTrip = true

theorem StopsCalls.mono {cs' : List Call} {f : Fault} (h : start.StopsCalls A cs f) (hsub : cs ⊆ cs') :
    start.StopsCalls A cs' f :=
  h.imp_right fun hmaximal => ⟨hmaximal.1, hsub hmaximal.2.1, hmaximal.2.2⟩

theorem Ends.follows {r : Except Fault (List Slice × Slicer)} (hends : Ends s c n r)
    (hruns : start.RunsTo A k limit) (h : start.Follows A out s)
    (hclear : ∀ m, start.Clear A m → m < s.tail + n → m < limit) :
    (∃ more s', r = .ok (more.map (Run.toSlice start.strand start.lineSize), s') ∧
        start.Follows A (out ++ more) s') ∨
      ∃ f, r = .error f ∧ start.StopsCalls A [c] f := by
  cases hends with
  | idle => exact Or.inl ⟨[], s, rfl, by rwa [List.append_nil]⟩
  | looked hasks hlooks =>
      rcases hlooks.follows hruns h hclear with ⟨⟨front, s'⟩, rfl, h'⟩ | ⟨f, rfl, hf⟩
      swap
      · exact Or.inr ⟨f, rfl, Or.inl hf⟩
      cases c with
      | next =>
          rcases h'.pop hlooks.sealed.1 with ⟨q, rfl, h₁⟩
          exact Or.inl ⟨[q], _, rfl, h₁⟩
      | peek => exact Or.inl ⟨[], s', rfl, by rwa [List.append_nil]⟩
      | overflowed =>
          have hmaximal : s.hasMaximalTrip = start.hasMaximalTrip := by rw [h.shape]; rfl
          by_cases hstart : start.hasMaximalTrip = true
          · refine Or.inr ⟨.arithmetic, ?_, Or.inr ⟨rfl, by simp, hstart⟩⟩
            exact if_pos (hmaximal.trans hstart)
          · refine Or.inl ⟨[], s', ?_, by rwa [List.append_nil]⟩
            exact if_neg (hmaximal ▸ hstart)

/-- Calls go on with the runs, as long as the elements that they allocate lie before the limit. -/
theorem Allocates.follows {r : Except Fault (List Slice × Slicer)} (hallocates : Allocates s cs n r)
    (hruns : start.RunsTo A k limit) (h : start.Follows A out s)
    (hclear : ∀ m, start.Clear A m → m < s.tail + n → m < limit) :
    (∃ more s', r = .ok (more.map (Run.toSlice start.strand start.lineSize), s') ∧
        start.Follows A (out ++ more) s') ∨
      ∃ f, r = .error f ∧ start.StopsCalls A cs f := by
  induction hallocates generalizing out with
  | nil => exact Or.inl ⟨[], _, rfl, by rwa [List.append_nil]⟩
  | stopped hends =>
      rcases hends.follows hruns h hclear with ⟨more, s', hr, _⟩ | ⟨f, hr, hf⟩
      · cases hr
      · cases hr
        exact Or.inr ⟨_, rfl, hf.mono (by simp)⟩
  | @cons s _ c cs n m given r hends _ ih =>
      have htail := hends.tail_eq
      -- the limit lies behind what all calls allocate, and so behind what the first one and the others do
      rcases hends.follows hruns h fun a ha hlt => hclear a ha (by omega) with
        ⟨more, s', hr, h'⟩ | ⟨f, hr, _⟩
      swap
      · cases hr
      cases hr
      rcases ih h' fun a ha hlt => hclear a ha (by omega) with ⟨rest, s'', rfl, h''⟩ | ⟨f, rfl, hf⟩
      · refine Or.inl ⟨more ++ rest, s'', ?_, by rwa [← List.append_assoc]⟩
        rw [List.map_append]
        rfl
      · exact Or.inr ⟨f, rfl, hf.mono (List.subset_cons_self c cs)⟩

theorem Follows.firstRuns (h : start.Follows A out s) : (start.walk A).FirstRuns out := by
  rcases h.listed with ⟨qs, _, hlist⟩
  have hsorted := Walk.pairwise_runsUpTo (start.walk A) s.tail
  rw [← hlist, List.pairwise_append] at hsorted
  have hmem : ∀ q ∈ out, (start.walk A).IsRunUpTo s.tail q := by
    intro q hq
    apply Walk.isRunUpTo_of_mem
    rw [← hlist]
    exact List.mem_append_left _ hq
  refine ⟨fun q hq => (hmem q hq).isRun (h.past q hq), hsorted.1, ?_⟩
  intro q hq i v htouch hstart hbefore
  have hne := (hmem q hq).nonempty
  have hover := h.past q hq
  rcases Walk.exists_mem_runsUpTo (n := s.tail) (by omega) htouch hstart with ⟨r, hr, hlhs, hline⟩
  rw [← hlist] at hr
  rcases List.mem_append.1 hr with hr | hr
  · exact ⟨r, hr, hlhs, hline⟩
  · -- what is still queued comes later
    have hlater := hsorted.2.2 q hq r hr
    rw [Run.Before] at hlater
    omega

/-- Whatever the calls, a new slicer hands out the slices of the first runs, in order, and the calls that
look ahead change nothing. It gives up only at the first element that overlaps the open slices, or at the
ends of the words: of memory, of the indices, or behind a trip that asking for an overflow cannot count
past. The elements that the calls allocate, `n` of them, must have addresses that do not wrap. -/
theorem calls_runs (hruns : start.RunsTo A k limit)
    (hfresh : start.tail = 0 ∧ start.head = 0 ∧ start.queue = []) (cs : List Call) :
    (∃ n, Allocates start cs n (start.calls cs)) ∧
      ∀ n ≤ limit, Allocates start cs n (start.calls cs) →
        match start.calls cs with
        | .ok (slices, s) => s.tail = n ∧ start.Clear A n ∧ slices.length = cs.count .next ∧
            (∃ s', start.take (cs.count .next) = .ok (slices, s')) ∧
            ∃ runs, slices = runs.map (Run.toSlice start.strand start.lineSize) ∧
              (start.walk A).FirstRuns runs
        | .error f => start.StopsCalls A cs f := by
  refine ⟨exists_allocates start cs, fun n hn hallocates => ?_⟩
  have hbelow : ∀ m, start.Clear A m → m < start.tail + n → m < limit := by
    intro m _ hm
    omega
  rcases hallocates.follows hruns (follows_start hfresh) hbelow with
    ⟨given, s, hcalls, h⟩ | ⟨f, hcalls, hf⟩
  · rcases take_of_calls hcalls with ⟨s', htake⟩
    rw [hcalls] at hallocates ⊢
    have htail : s.tail = n := by
      rw [hallocates.tail_eq, hfresh.1, Nat.zero_add]
    exact ⟨htail, htail ▸ h.clear, length_of_take htake, ⟨s', htake⟩, given, rfl, h.firstRuns⟩
  · rw [hcalls]
    exact hf

/-! ## Elements across two lines -/

/-- Four elements of 16 bytes, `stride` bytes apart. The first one lies across the end of a line. -/
def spaced (stride : UInt64) : Slicer :=
  { strand := .whole { core := 0, staticId := 1, instanceNo := 1 },
    formal := Formal.ofWords [stride, 0x1038], generator := .linear,
    elemSize := 16, totalTrip := some 4, lineSize := 64, coalesce := true }

def spacedStart (stride : UInt64) (i : Nat) : UInt64 :=
  Linear.address [stride, 0x1038] i

theorem toNat_spacedStart {stride : UInt64} (hstride : stride.toNat ≤ 16) {i : Nat} (hi : i < 2 ^ 59) :
    (spacedStart stride i).toNat = 0x1038 + stride.toNat * i := by
  have haddr : spacedStart stride i = 0x1038 + stride * UInt64.ofNat i := rfl
  have hbase : (0x1038 : UInt64).toNat = 0x1038 := rfl
  have hle : stride.toNat * i ≤ 16 * i := Nat.mul_le_mul_right i hstride
  rw [haddr, UInt64.toNat_add, UInt64.toNat_mul, toNat_ofNat_of_lt (by omega), hbase]
  omega

theorem runsTo_spaced {stride : UInt64} (hstride : stride.toNat ≤ 16) :
    (spaced stride).RunsTo (spacedStart stride) 6 (2 ^ 59) where
  address _ _ := rfl
  line_eq := rfl
  line_lt := by decide
  elem_pos := Nat.succ_pos 15
  fits := by
    intro i hi
    have hle : stride.toNat * i ≤ 16 * i := Nat.mul_le_mul_right i hstride
    rw [toNat_spacedStart hstride hi]
    simp only [spaced]
    omega

/-- Side by side, the elements leave one slice on the line that the first one begins on and one on the line
that all four touch. Past the end the slices are those of one element. -/
theorem calls_runs_spaced :
    ∃ slices runs s,
      (spaced 16).calls [.peek, .next, .overflowed, .next, .next, .next] = .ok (slices, s) ∧
      slices.map (fun q => (q.lhs, q.rhs, q.vaddr)) =
        [(0, 1, 0x1000), (0, 4, 0x1040), (4, 5, 0x1040), (4, 5, 0x1080)] ∧
      slices = runs.map (Run.toSlice (spaced 16).strand (spaced 16).lineSize) ∧
      ((spaced 16).walk (spacedStart 16)).FirstRuns runs := by
  rcases calls_runs (runsTo_spaced (by decide : (16 : UInt64).toNat ≤ 16)) ⟨rfl, rfl, rfl⟩
    [.peek, .next, .overflowed, .next, .next, .next] with ⟨⟨n, hallocates⟩, hruns⟩
  have hslices : ((spaced 16).calls [.peek, .next, .overflowed, .next, .next, .next]).map
      (fun answer => (answer.1.map fun q => (q.lhs, q.rhs, q.vaddr), answer.2.tail)) = .ok
        ([(0, 1, 0x1000), (0, 4, 0x1040), (4, 5, 0x1040), (4, 5, 0x1080)], 6) := by
    rfl
  specialize hruns n
  cases hcalls : (spaced 16).calls [.peek, .next, .overflowed, .next, .next, .next] with
  | error f =>
      rw [hcalls] at hslices
      cases hslices
  | ok answer =>
      rcases answer with ⟨slices, s⟩
      rw [hcalls] at hruns hslices hallocates
      have hshape := Except.ok.inj hslices
      simp only [Prod.mk.injEq] at hshape
      have htail : s.tail = 0 + n := hallocates.tail_eq
      rcases (hruns (by omega) hallocates).2.2.2.2 with ⟨runs, hmap, hfirst⟩
      exact ⟨slices, runs, s, rfl, hshape.1, hmap, hfirst⟩

/-- Calls also end in faults that are none of slicing: asking for an overflow behind the longest trip, and
any call on a stream whose parameters hold no stride. -/
theorem calls_end_elsewhere :
    ({ spaced 16 with totalTrip := some (2 ^ 64 - 1) } : Slicer).calls [.overflowed] =
        .error .arithmetic ∧
      ({ spaced 16 with formal := Formal.ofWords [0x1000] } : Slicer).calls [.next] =
        .error (.pattern .tooFewWords) :=
  ⟨rfl, rfl⟩

/-! ## Rows that overlap -/

/-- Rows of four elements, each of which begins a third before the last one ends, walked again and
again. -/
def rows : Slicer :=
  { strand := .whole { core := 0, staticId := 1, instanceNo := 1 },
    formal := Formal.ofWords [32, 4, 0, 8, 0x1000], generator := .linear,
    elemSize := 48, totalTrip := some 6, lineSize := 64, coalesce := true }

/-- The first row ends up on three lines; the second goes back to the line of the first. -/
example : (rows.calls [.peek, .next, .overflowed, .next, .next, .next, .next]).map
    (fun answer => answer.1.map fun q => (q.lhs, q.rhs, q.vaddr)) =
      .ok [(0, 2, 0x1000), (1, 4, 0x1040), (3, 4, 0x1080), (4, 6, 0x1000), (5, 6, 0x1040)] :=
  rfl

end Slicer
end StreamEngine
