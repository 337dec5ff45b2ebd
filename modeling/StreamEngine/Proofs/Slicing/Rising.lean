import StreamEngine.Proofs.Slicing.LookingAhead

/-!
# Slices of rising addresses

A slicer tells whether addresses fall by lines: the first line of an element against the line of the newest
slice, which is the last line of the element before. Where an element straddles lines, the next one may rise
and yet begin on an earlier line than that, and the slicer takes it for a falling one that overlaps.

- `overlaps_iff` : among rising addresses, just the elements that begin below the last line before them;
- `exists_calls_stop` : an element that overlaps is reached, and stops the slicer;
- `calls_stop_iff` : which rising streams are sliced without a stop;
- `standing_stops` : a stream that stands still and stops the slicer.
-/

namespace StreamEngine

namespace Walk

variable {w : Walk}

theorem length_runsUpTo_le {m n : Nat} (h : m ≤ n) :
    (w.runsUpTo m).length ≤ (w.runsUpTo n).length := by
  induction h with
  | refl => exact Nat.le_refl _
  | step _ ih =>
      rw [runsUpTo, List.length_append, List.length_map]
      exact Nat.le_add_right_of_le ih

end Walk

namespace Slicer

variable {start s : Slicer} {A : Nat → UInt64} {k limit n : Nat} {out : List Run}

/-- Where addresses do not fall, an element overlaps if it joins the one before and begins on a line below
the last line of that. -/
theorem overlaps_iff {i : Nat} (hrising : A i ≤ A (i + 1)) :
    (start.walk A).Overlaps (i + 1) ↔
      (start.walk A).joins (i + 1) = true ∧
        (start.walk A).first (i + 1) < (start.walk A).last i := by
  -- it reaches the lines of that element, because it does not begin before them
  have hreach : (start.walk A).first i ≤ (start.walk A).last (i + 1) :=
    Nat.le_trans (Nat.div_le_div_right hrising) ((start.walk A).first_le (i + 1))
  rw [Walk.Overlaps, Nat.add_sub_cancel]
  constructor
  · rintro ⟨_, hjoins, hdown, _⟩
    exact ⟨hjoins, hdown⟩
  · rintro ⟨hjoins, hdown⟩
    exact ⟨Nat.succ_pos i, hjoins, hdown, hreach⟩

/-- Callers who go on asking for slices reach an element that overlaps, unless one before it has stopped the
slicer already. -/
theorem exists_calls_stop (hruns : start.RunsTo A k limit) (hlimit : limit ≤ 2 ^ 64)
    (hfresh : start.tail = 0 ∧ start.head = 0 ∧ start.queue = [])
    (hinside : ∀ i < limit, ((start.walk A).last i + 1) * start.lineSize < 2 ^ 64)
    (hn : n < limit) (hover : (start.walk A).Overlaps n) :
    ∃ cs e, start.calls cs = .error (.slice e) ∧ e.element < limit := by
  -- nothing gets past the element, so that everything that is reached lies before the limit
  have hbefore : ∀ m, start.Clear A m → m ≤ n := by
    intro m hclear
    by_contra hlt
    exact (hclear n (Nat.lt_of_not_le hlt)).1 hover
  rcases exists_allocates start (List.replicate (((start.walk A).runsUpTo n).length + 1) .next) with
    ⟨_, hallocates⟩
  rcases hallocates.follows hruns (follows_start hfresh) fun m hm _ =>
    Nat.lt_of_le_of_lt (hbefore m hm) hn with ⟨given, s, hcalls, h⟩ | ⟨f, hcalls, hstops | ⟨_, hask, _⟩⟩
  · -- there are not that many runs before the element
    rcases take_of_calls hcalls with ⟨_, htake⟩
    have hlength := length_of_take htake
    rw [List.length_map, List.count_replicate_self] at hlength
    rcases h.listed with ⟨qs, _, hlist⟩
    have hall := congrArg List.length hlist
    have hle := Walk.length_runsUpTo_le (w := start.walk A) (hbefore s.tail h.clear)
    rw [List.nil_append, List.length_append] at hall
    omega
  · cases hstops with
    | overlap m q hm hclear hover' hmem hrhs hline =>
        exact ⟨_, _, hcalls, Nat.lt_of_le_of_lt (hbefore m hclear) hn⟩
    | memory m hm hclear hover' hend =>
        have hlt := hinside m (Nat.lt_of_le_of_lt (hbefore m hclear) hn)
        omega
    | indices hclear =>
        have hle := hbefore _ hclear
        omega
  · cases List.eq_of_mem_replicate hask

/-- A slicer over addresses that do not fall, as far as the limit, is stopped at none of these elements by
any calls, exactly if each of them that joins the one before begins on its last line or behind it. -/
theorem calls_stop_iff (hruns : start.RunsTo A k limit) (hlimit : limit ≤ 2 ^ 64)
    (hfresh : start.tail = 0 ∧ start.head = 0 ∧ start.queue = [])
    (hrising : ∀ i, i + 1 < limit → A i ≤ A (i + 1))
    (hinside : ∀ i < limit, ((start.walk A).last i + 1) * start.lineSize < 2 ^ 64) :
    (∀ cs e, start.calls cs = .error (.slice e) → limit ≤ e.element) ↔
      ∀ i, i + 1 < limit → (start.walk A).joins (i + 1) = true →
        (start.walk A).last i ≤ (start.walk A).first (i + 1) := by
  constructor
  · intro hnever i hi hjoins
    by_contra hdown
    have hover := (overlaps_iff (hrising i hi)).2 ⟨hjoins, Nat.lt_of_not_le hdown⟩
    rcases exists_calls_stop hruns hlimit hfresh hinside hi hover with ⟨cs, e, hcalls, hlt⟩
    exact Nat.not_lt.2 (hnever cs e hcalls) hlt
  · intro hclear cs e hcalls
    by_contra hlt
    rcases exists_allocates start cs with ⟨n, hallocates⟩
    rw [hcalls] at hallocates
    have helement := hallocates.element_eq
    rcases hallocates.follows hruns (follows_start hfresh) fun m _ hm => by omega with
      ⟨_, _, hr, _⟩ | ⟨f, hr, hstops | ⟨hf, _⟩⟩
    · cases hr
    swap
    · cases hr
      cases hf
    cases hr
    -- a fault of slicing is that of an element which overlaps
    cases hstops with
    | overlap n q hn _ hover _ _ _ =>
        have hn : n < limit := Nat.lt_of_not_le hlt
        rcases Nat.exists_eq_succ_of_ne_zero (Nat.ne_of_gt hover.1) with ⟨i, rfl⟩
        rcases (overlaps_iff (hrising i hn)).1 hover with ⟨hjoins, hdown⟩
        exact Nat.not_lt.2 (hclear i hn hjoins) hdown

/-! ## Elements across two lines -/

theorem spacedStart_le {stride : UInt64} (hstride : stride.toNat ≤ 16) {i : Nat}
    (hi : i + 1 < 2 ^ 59) : spacedStart stride i ≤ spacedStart stride (i + 1) := by
  rw [UInt64.le_iff_toNat_le, toNat_spacedStart hstride (Nat.lt_of_succ_lt hi),
    toNat_spacedStart hstride hi]
  exact Nat.add_le_add_left (Nat.mul_le_mul_left _ (Nat.le_succ i)) _

theorem spaced_inside {stride : UInt64} (hstride : stride.toNat ≤ 16) {i : Nat} (hi : i < 2 ^ 59) :
    (((spaced stride).walk (spacedStart stride)).last i + 1) * (spaced stride).lineSize < 2 ^ 64 := by
  have hle : stride.toNat * i ≤ 16 * i := Nat.mul_le_mul_right i hstride
  simp only [walk, toNat_spacedStart hstride hi, spaced]
  omega

/-- Side by side the elements are sliced without a stop. Every four bytes the second one begins on the first
of the two lines of the first one. -/
theorem calls_stop_iff_spaced :
    (∀ cs e, (spaced 16).calls cs = .error (.slice e) → 2 ^ 59 ≤ e.element) ∧
      ¬ ∀ cs e, (spaced 4).calls cs = .error (.slice e) → 2 ^ 59 ≤ e.element := by
  have hiff {stride : UInt64} (hstride : stride.toNat ≤ 16) :=
    calls_stop_iff (runsTo_spaced hstride) (by decide) ⟨rfl, rfl, rfl⟩
      (fun _ hi => spacedStart_le hstride hi) (fun _ hi => spaced_inside hstride hi)
  constructor
  · refine (hiff (by decide)).2 fun i hi _ => ?_
    have h16 : (16 : UInt64).toNat = 16 := rfl
    have hle : (16 : UInt64).toNat ≤ 16 := Nat.le_of_eq h16
    simp only [walk, toNat_spacedStart hle hi, toNat_spacedStart hle (Nat.lt_of_succ_lt hi), spaced, h16]
    omega
  · intro hnever
    have hle := (hiff (by decide)).1 hnever 0 (by decide) rfl
    exact absurd hle (by decide)

/-- All four elements at one address that lies across the end of a line: no address falls, and the second
element stops the slicer. -/
theorem standing_stops :
    (∀ i, (spaced 0).address i = .ok (spacedStart 0 i)) ∧
      (∀ i, spacedStart 0 i ≤ spacedStart 0 (i + 1)) ∧
      (∀ i, (spacedStart 0 i).toNat + (spaced 0).elemSize ≤ 2 ^ 64) ∧
      (spaced 0).calls [.next] =
        .error (.slice (.overlap (spaced 0).strand 1 0x1038
          { strand := (spaced 0).strand, lhs := 0, rhs := 1, vaddr := 0x1000, size := 64 })) := by
  have haddr : ∀ i, spacedStart 0 i = 0x1038 := by
    intro i
    have hstep : spacedStart 0 i = 0x1038 + 0 * UInt64.ofNat i := rfl
    rw [hstep, UInt64.zero_mul, UInt64.add_zero]
  refine ⟨fun _ => rfl, fun i => ?_, fun i => ?_, rfl⟩
  · rw [haddr, haddr]
    exact UInt64.le_refl _
  · rw [haddr]
    decide

end Slicer
end StreamEngine
