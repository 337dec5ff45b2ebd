import StreamEngine.Proofs.Linear.Addresses
import StreamEngine.Proofs.Slicing.Calls

/-!
# How far a slicer looks ahead

A call allocates elements until the oldest slice cannot grow any more. That slice may grow with every one
of them, as long as elements join: a stream that stands still is waited for up to its end. An element that
joins nothing leaves every slice as it is, so one of them is enough, and two where nothing is queued yet.

- `Allocates.element_eq` : a fault of slicing names the last element that was allocated;
- `follows_of_calls` : the states that calls lead to;
- `sealed_of_apart` : an element that joins nothing seals the oldest slice;
- `Looks.le` : looking ahead comes to an end behind the last element that joins;
- `call_ends` : how many elements a call allocates at most.
-/

namespace StreamEngine

/-- The element at which slicing stopped. -/
def SliceFault.element : SliceFault → Nat
  | .overlap _ idx _ _ => idx
  | .hole _ idx _ => idx

namespace Slicer

variable {start s s' : Slicer} {A : Nat → UInt64} {k limit total n : Nat} {out : List Run} {c : Call}
  {cs : List Call} {given : List Slice}

/-! ## Faults of an element -/

/-- The fault is one of slicing, but at another element. -/
def Elsewhere (idx : Nat) (f : Fault) : Prop :=
  ∃ e, f = .slice e ∧ e.element ≠ idx

theorem avoids_extend (strand : StrandId) (size head idx : Nat) (last line : UInt64)
    (qs : List Slice) : Avoids (Elsewhere idx) (extend strand size head idx last line qs) := by
  induction qs generalizing line with
  | nil => exact avoids_ok _
  | cons q qs ih =>
      rw [extend]
      refine avoids_ite ((ih line).bind fun _ _ => avoids_ok _) (avoids_ite (avoids_error ?_) ?_)
      · rintro ⟨e, he, hne⟩
        cases he
        exact hne rfl
      · exact avoids_ite (avoids_ok _) ((ih _).bind fun _ _ => avoids_ok _)

theorem avoids_merge (s : Slicer) (addr first last : UInt64) :
    Avoids (Elsewhere s.tail) (s.merge addr first last) := by
  rw [merge]
  refine avoids_ite ?_ (avoids_ok _)
  cases s.queue.getLast? with
  | none => exact avoids_ok _
  | some newest =>
      refine avoids_ite ?_ ((avoids_extend _ _ _ _ _ _ _).bind fun _ _ => avoids_ok _)
      cases s.queue.find? fun q => q.vaddr ≤ last with
      | none => exact avoids_ok _
      | some q =>
          refine avoids_error ?_
          rintro ⟨e, he, hne⟩
          cases he
          exact hne rfl

/-- An element is the only one at which allocating it can stop. -/
theorem avoids_cover (s : Slicer) : Avoids (Elsewhere s.tail) s.cover := by
  have haddress : Avoids (Elsewhere s.tail) (s.address s.tail) := by
    refine Generator.avoids_invariantAddress (fun f => ?_) s.generator s.formal s.tail
    rintro ⟨e, he, _⟩
    cases he
  refine haddress.bind fun addr _ => (avoids_merge s addr _ _).bind fun merged _ => ?_
  refine Avoids.bind ?_ fun _ _ => avoids_ok _
  refine avoids_ite (avoids_ok _) (avoids_ite (avoids_error ?_) (avoids_ok _))
  rintro ⟨e, he, _⟩
  cases he

/-- A fault of slicing is that of the last element that was allocated. -/
theorem Looks.element_eq {e : SliceFault} (h : Looks s n (.error (.slice e))) :
    e.element + 1 = s.tail + n := by
  generalize hr : Except.error (Fault.slice e) = r at h
  induction h with
  | indices => cases hr
  | found => cases hr
  | @stopped s f _ _ hcover =>
      cases hr
      by_contra hne
      exact avoids_cover s _ hcover ⟨e, rfl, by omega⟩
  | allocated _ _ hcover _ ih =>
      have htail := cover_tail hcover
      have helement := ih hr
      omega

theorem Ends.element_eq {e : SliceFault} (h : Ends s c n (.error (.slice e))) :
    e.element + 1 = s.tail + n := by
  generalize hr : Except.error (Fault.slice e) = r at h
  cases h with
  | idle => cases hr
  | looked hasks hlooks =>
      rcases bind_eq_error.1 hr.symm with rfl | ⟨found, rfl, hanswer⟩
      · exact hlooks.element_eq
      · cases c with
        | next => cases hanswer
        | peek => cases hanswer
        | overflowed =>
            rw [answer] at hanswer
            split at hanswer <;> cases hanswer

theorem Allocates.element_eq {e : SliceFault} (h : Allocates s cs n (.error (.slice e))) :
    e.element + 1 = s.tail + n := by
  generalize hr : Except.error (Fault.slice e) = r at h
  induction h with
  | nil => cases hr
  | stopped hends =>
      cases hr
      exact hends.element_eq
  | @cons _ _ _ _ _ _ _ r hends _ ih =>
      cases r with
      | ok rest => cases hr
      | error f =>
          cases hr
          have htail := hends.tail_eq
          have helement := ih rfl
          omega

/-! ## States that calls lead to -/

theorem Looks.add_le {r : Except Fault (Slice × Slicer)} (h : Looks s n r) (hindex : s.tail ≤ 2 ^ 64) :
    s.tail + n ≤ 2 ^ 64 := by
  induction h with
  | indices => exact hindex
  | found => exact hindex
  | stopped hlt => exact hlt
  | allocated hlt _ hcover _ ih =>
      have htail := cover_tail hcover
      have hle := ih (by omega)
      omega

theorem Ends.add_le {r : Except Fault (List Slice × Slicer)} (h : Ends s c n r)
    (hindex : s.tail ≤ 2 ^ 64) : s.tail + n ≤ 2 ^ 64 := by
  cases h with
  | idle => exact hindex
  | looked _ hlooks => exact hlooks.add_le hindex

/-- There are no more elements to allocate than indices. -/
theorem Allocates.add_le {r : Except Fault (List Slice × Slicer)} (h : Allocates s cs n r)
    (hindex : s.tail ≤ 2 ^ 64) : s.tail + n ≤ 2 ^ 64 := by
  induction h with
  | nil => exact hindex
  | stopped hends => exact hends.add_le hindex
  | cons hends _ ih =>
      have hle := hends.add_le hindex
      have htail := hends.tail_eq
      have hrest := ih (by omega)
      omega

/-- A state that calls lead to lies within the indices, and follows the runs unless it has gone beyond the
limit. -/
theorem follows_of_calls (hruns : start.RunsTo A k limit)
    (hfresh : start.tail = 0 ∧ start.head = 0 ∧ start.queue = [])
    (hcalls : start.calls cs = .ok (given, s)) :
    s.tail ≤ 2 ^ 64 ∧ (s.tail ≤ limit → ∃ out, start.Follows A out s) := by
  rcases exists_allocates start cs with ⟨n, hallocates⟩
  rw [hcalls] at hallocates
  have htail := hallocates.tail_eq
  have hle := hallocates.add_le (by omega)
  refine ⟨by omega, fun hlimit => ?_⟩
  rcases hallocates.follows hruns (follows_start hfresh) fun m _ hm => by omega with
    ⟨more, s', hr, h⟩ | ⟨f, hr, _⟩
  · cases hr
    exact ⟨_, h⟩
  · cases hr

/-! ## Elements that join nothing -/

/-- An element that joins nothing leaves the oldest slice as it is, which then cannot grow any more. -/
theorem sealed_of_apart (h : start.Follows A out s) (hopen : s.sealedFront? = none)
    (hpos : 0 < s.tail) (hapart : (start.walk A).joins s.tail = false) (hcover : s.cover = .ok s') :
    ∃ front, s'.sealedFront? = some front := by
  rcases h.queue_eq hopen with ⟨hzero, _⟩ | ⟨m, reaching, hm, hfrontier, hqueue⟩
  · exact absurd hzero (Nat.ne_of_gt hpos)
  rcases hfrontier.exists_oldest with ⟨q, rest, hsplit, _⟩
  have hrhs : q.rhs = m + 1 := hfrontier.reaching_rhs q (by simp [hsplit])
  have hjoins : (s.coalesce && !s.pastEnd s.tail) = false := h.joins_eq.trans hapart
  rcases bind_eq_ok.1 hcover with ⟨addr, _, hrest⟩
  rcases bind_eq_ok.1 hrest with ⟨⟨queue, head, left⟩, hmerge, hrest⟩
  rcases bind_eq_ok.1 hrest with ⟨fresh, _, hresult⟩
  rw [merge, hjoins] at hmerge
  cases hmerge
  cases hresult
  refine ⟨q.toSlice start.strand start.lineSize, ?_⟩
  simp only [sealedFront?, hqueue, hsplit, List.map_cons, List.cons_append, Run.toSlice]
  rw [if_neg (by omega)]

theorem Looks.eq_zero {r : Except Fault (Slice × Slicer)} (hlooks : Looks s n r) {front : Slice}
    (hfront : s.sealedFront? = some front) : n = 0 := by
  cases hlooks with
  | indices => rfl
  | found => rfl
  | stopped _ hopen => cases hfront.symm.trans hopen
  | allocated _ hopen => cases hfront.symm.trans hopen

/-- Once something is queued, looking ahead comes to an end at the first element that joins nothing. -/
theorem Looks.le_of_pos {r : Except Fault (Slice × Slicer)} (hlooks : Looks s n r)
    (hruns : start.RunsTo A k limit) (h : start.Follows A out s) (hpos : 0 < s.tail)
    (hapart : ∀ i, total ≤ i → (start.walk A).joins i = false)
    (hlimit : min (max total s.tail + 1) (2 ^ 64) ≤ limit) : n ≤ total - s.tail + 1 := by
  induction hlooks with
  | indices => exact Nat.zero_le _
  | found => exact Nat.zero_le _
  | stopped => omega
  | @allocated s s' n r hindex hopen hcover hrest ih =>
      have htail := cover_tail hcover
      by_cases hpast : total ≤ s.tail
      · -- the element joins nothing
        rcases sealed_of_apart h hopen hpos (hapart _ hpast) hcover with ⟨front, hfront⟩
        have hzero := hrest.eq_zero hfront
        omega
      · have hle := ih (follows_of_cover hruns h hopen (by omega) hindex hcover) (by omega) (by omega)
        omega

/-- Looking ahead ends behind the last element that joins. -/
theorem Looks.le {r : Except Fault (Slice × Slicer)} (hlooks : Looks s n r)
    (hruns : start.RunsTo A k limit) (h : start.Follows A out s)
    (hapart : ∀ i, total ≤ i → (start.walk A).joins i = false)
    (hlimit : min (max total s.tail + 2) (2 ^ 64) ≤ limit) : n ≤ total - s.tail + 2 := by
  cases hlooks with
  | indices => exact Nat.zero_le _
  | found => exact Nat.zero_le _
  | stopped => omega
  | @allocated _ s' n r hindex hopen hcover hrest =>
      -- nothing may be queued before the first element is allocated, but there is something after it
      have htail := cover_tail hcover
      have hnext := follows_of_cover hruns h hopen (by omega) hindex hcover
      have hle := hrest.le_of_pos hruns hnext (by omega) hapart (by omega)
      omega

/-- Where no element overlaps and every line ends inside memory, looking ahead finds a slice unless the
indices run out. -/
theorem Looks.exists_found {r : Except Fault (Slice × Slicer)} (hlooks : Looks s n r)
    (hruns : start.RunsTo A k limit) (h : start.Follows A out s)
    (hover : ∀ i < limit, ¬ (start.walk A).Overlaps i)
    (hinside : ∀ i < limit, ((start.walk A).last i + 1) * start.lineSize < 2 ^ 64)
    (hlimit : min (s.tail + n) (2 ^ 64) ≤ limit) :
    2 ^ 64 ≤ s.tail + n ∨ ∃ found, r = .ok found := by
  induction hlooks with
  | indices hindex => exact Or.inl hindex
  | found hindex hfront => exact Or.inr ⟨_, rfl⟩
  | @stopped s f hindex hopen hcover =>
      have htail : s.tail < limit := by omega
      rcases cover_ok hruns h hopen htail (hover _ htail) (hinside _ htail) with ⟨s', hs', _⟩
      rw [hcover] at hs'
      cases hs'
  | @allocated s s' n r hindex hopen hcover _ ih =>
      have htail := cover_tail hcover
      have hlt : s.tail < limit := by omega
      rcases ih (follows_of_cover hruns h hopen hlt hindex hcover) (by omega) with hend | hfound
      · exact Or.inl (by omega)
      · exact Or.inr hfound

/-! ## Calls -/

theorem Ends.le {r : Except Fault (List Slice × Slicer)} {b : Nat} (h : Ends s c n r)
    (hlooks : ∀ m r, Looks s m r → m ≤ b) : n ≤ b := by
  cases h with
  | looked _ h => exact hlooks _ _ h
  | idle => exact Nat.zero_le b

/-- A call that finds a slice has an answer, unless it asks for an overflow behind the longest trip. -/
theorem Ends.exists_answer {r : Except Fault (List Slice × Slicer)} (h : Ends s c n r)
    (hfound : ∀ r, Looks s n r → ∃ found, r = .ok found) :
    (c = .overflowed ∧ s.hasMaximalTrip = true ∧ r = .error .arithmetic) ∨ ∃ answer, r = .ok answer := by
  cases h with
  | idle => exact Or.inr ⟨_, rfl⟩
  | looked hasks hlooks =>
      rcases hfound _ hlooks with ⟨found, rfl⟩
      cases c with
      | next => exact Or.inr ⟨_, rfl⟩
      | peek => exact Or.inr ⟨_, rfl⟩
      | overflowed =>
          by_cases hmaximal : s.hasMaximalTrip = true
          · exact Or.inl ⟨rfl, hmaximal, if_pos hmaximal⟩
          · exact Or.inr ⟨_, if_neg hmaximal⟩

theorem joins_eq_false_of_le (htotal : start.totalTrip = some total) {i : Nat} (hi : total ≤ i) :
    (start.walk A).joins i = false := by
  simp [walk, pastEnd, htotal, hi]

theorem joins_eq_false_of_apart (hapart : start.coalesce = false) (i : Nat) :
    (start.walk A).joins i = false := by
  simp [walk, hapart]

/-- From every state that calls lead to, a call on a stream of known length allocates at most the elements
that are left and two more, and a call that does not let elements join at most two; this one always gives an
answer, as long as there are indices, for the elements and for the one that asking for an overflow compares
with. The addresses of the elements up to there must not wrap. -/
theorem call_ends (hruns : start.RunsTo A k limit)
    (hfresh : start.tail = 0 ∧ start.head = 0 ∧ start.queue = []) {cs : List Call}
    (hcalls : start.calls cs = .ok (given, s)) (c : Call) :
    (∀ total, start.totalTrip = some total → min (max total s.tail + 2) (2 ^ 64) ≤ limit →
        ∃ n ≤ total - s.tail + 2, Ends s c n (s.call c)) ∧
      (start.coalesce = false → min (s.tail + 2) (2 ^ 64) ≤ limit →
        (∀ i < limit, ((start.walk A).last i + 1) * start.lineSize < 2 ^ 64) →
          ∃ n ≤ 2, Ends s c n (s.call c) ∧
            (2 ^ 64 ≤ s.tail + 2 ∨
              (c = .overflowed ∧ start.hasMaximalTrip = true ∧ s.call c = .error .arithmetic) ∨
                ∃ answer, s.call c = .ok answer)) := by
  rcases follows_of_calls hruns hfresh hcalls with ⟨hindex, hfollows⟩
  rcases exists_ends s c with ⟨n, hends⟩
  constructor
  · intro total htotal hlimit
    rcases hfollows (by omega) with ⟨out, h⟩
    have hapart : ∀ i, total ≤ i → (start.walk A).joins i = false := fun i hi =>
      joins_eq_false_of_le htotal hi
    exact ⟨n, hends.le fun _ _ hlooks => hlooks.le hruns h hapart hlimit, hends⟩
  · intro hcoalesce hlimit hinside
    rcases hfollows (by omega) with ⟨out, h⟩
    have hapart : ∀ i, 0 ≤ i → (start.walk A).joins i = false := fun i _ =>
      joins_eq_false_of_apart hcoalesce i
    have hover : ∀ i < limit, ¬ (start.walk A).Overlaps i := by
      rintro i _ ⟨_, hjoins, _⟩
      rw [hapart i (Nat.zero_le i)] at hjoins
      cases hjoins
    have hle : ∀ m r, Looks s m r → m ≤ 2 := by
      intro m r hlooks
      have hm := hlooks.le hruns h hapart (by omega)
      omega
    have hmaximal : s.hasMaximalTrip = start.hasMaximalTrip := by rw [h.shape]; rfl
    refine ⟨n, hends.le hle, hends, ?_⟩
    by_cases hend : 2 ^ 64 ≤ s.tail + 2
    · exact Or.inl hend
    rw [← hmaximal]
    refine Or.inr (hends.exists_answer fun r hlooks => ?_)
    have hn := hle n r hlooks
    exact (hlooks.exists_found hruns h hover hinside (by omega)).resolve_left (by omega)

/-! ## A stream that stands still -/

/-- Five words at one address. -/
def still : Slicer :=
  { strand := .whole { core := 0, staticId := 1, instanceNo := 1 },
    formal := Formal.ofWords [0, 0x1000], generator := .linear,
    elemSize := 8, totalTrip := some 5, lineSize := 64, coalesce := true }

/-- The same words without an end, and each by itself. -/
def loose : Slicer :=
  { still with totalTrip := none, coalesce := false }

def stillStart (i : Nat) : UInt64 :=
  Linear.address [0, 0x1000] i

theorem runsTo_still : still.RunsTo stillStart 6 7 :=
  ⟨fun _ _ => rfl, rfl, by decide, by decide, by decide⟩

theorem runsTo_loose : loose.RunsTo stillStart 6 7 :=
  ⟨fun _ _ => rfl, rfl, by decide, by decide, by decide⟩

/-- The first slice of the five words is waited for up to their end, and the second one of the loose words
is there after one more. -/
theorem call_ends_still :
    (∃ n ≤ 7, Ends still .next n (still.call .next)) ∧
      ∃ given s, loose.calls [.next] = .ok (given, s) ∧ s.tail = 2 ∧
        ∃ n ≤ 2, Ends s .peek n (s.call .peek) ∧ ∃ answer, s.call .peek = .ok answer := by
  have hnone : still.calls [] = .ok ([], still) := rfl
  have hwhole := (call_ends runsTo_still ⟨rfl, rfl, rfl⟩ hnone .next).1 5 rfl (by decide)
  have hcalls : ∃ given s, loose.calls [.next] = .ok (given, s) ∧ s.tail = 2 := ⟨_, _, rfl, rfl⟩
  rcases hcalls with ⟨given, s, hcalls, htail⟩
  have hmany := (call_ends runsTo_loose ⟨rfl, rfl, rfl⟩ hcalls .peek).2 rfl (by omega) (by decide)
  rcases hmany with ⟨n, hn, hends, hend | ⟨hask, _⟩ | hanswer⟩
  · omega
  · cases hask
  · exact ⟨hwhole, given, s, hcalls, htail, n, hn, hends, hanswer⟩

/-- Without joining, a call gives up all the same where it asks for an overflow behind the longest trip, or
where the parameters hold no stride. -/
theorem call_loose_fails :
    ({ loose with totalTrip := some (2 ^ 64 - 1) } : Slicer).call .overflowed = .error .arithmetic ∧
      ({ loose with formal := Formal.ofWords [0x1000] } : Slicer).call .next =
        .error (.pattern .tooFewWords) :=
  ⟨rfl, rfl⟩

end Slicer
end StreamEngine
