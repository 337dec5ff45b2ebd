import StreamEngine.Proofs.Affine.Regions
import StreamEngine.Proofs.DataMove.Copying
import StreamEngine.Proofs.DataMove.Parts

/-!
# An align moves every element once

The tiles cut the distance of an align in two: elements on the lower bitlines stay in their tile when they
are shifted, those on the upper bitlines go on to the next one. Both lots are first shifted inside their
tiles and then moved with them. Every element is read once in each of these stages, at the place to which
the stage before has brought it, and nothing else is read.

* `Tiling.SelectsOnce` — commands of one kind that read some points, each of them once;
* `Tiling.Travels` — points that are taken along a dimension in two stages;
* `travels_alignLane` — the bitlines of one lane;
* `align_travels` — the whole align.
-/

namespace StreamEngine

namespace Tiling

variable {t : Tiling} {d : Nat} {dim : TiledDim} {delta : Int} {l : Lane} {region : Box} {p : List Int}
  {cs ds : List Command} {kind : CommandKind} {S S' : List Int → Prop}

/-! ## Commands of one kind -/

/-- Of the commands of this kind just one reads each of the points, and together they read nothing else. -/
structure SelectsOnce (t : Tiling) (cs : List Command) (kind : CommandKind) (S : List Int → Prop) : Prop where
  within : ∀ p, S p → t.Within p
  once : ∀ p, S p → cs.countP (fun c => c.kind = kind ∧ t.Selects c (t.placeOf p)) = 1
  only : ∀ c ∈ cs, c.kind = kind → ∀ l, t.Selects c l → ∃ p, S p ∧ t.placeOf p = l

theorem SelectsOnce.congr (h : t.SelectsOnce cs kind S) (hsame : ∀ p, S p ↔ S' p) :
    t.SelectsOnce cs kind S' := by
  have hS : S = S' := funext fun p => propext (hsame p)
  rwa [← hS]

/-- Commands of other kinds do not matter. -/
theorem SelectsOnce.between (h : t.SelectsOnce cs kind S) {before after : List Command}
    (hbefore : ∀ c ∈ before, c.kind ≠ kind) (hafter : ∀ c ∈ after, c.kind ≠ kind) :
    t.SelectsOnce (before ++ cs ++ after) kind S := by
  have hnone : ∀ {others : List Command}, (∀ c ∈ others, c.kind ≠ kind) → ∀ p,
      others.countP (fun c => c.kind = kind ∧ t.Selects c (t.placeOf p)) = 0 := by
    intro others hothers p
    refine List.countP_eq_zero.2 fun c hc hsel => ?_
    exact hothers c hc (of_decide_eq_true hsel).1
  refine ⟨h.within, fun p hp => ?_, fun c hc hkind => ?_⟩
  · rw [List.countP_append, List.countP_append, hnone hbefore, hnone hafter, h.once p hp]
  · rcases List.mem_append.1 hc with hc | hc
    · rcases List.mem_append.1 hc with hc | hc
      · exact absurd hkind (hbefore c hc)
      · exact h.only c hc hkind
    · exact absurd hkind (hafter c hc)

theorem kind_of_mem_maskByRegion {c c' : Command} (h : c' ∈ t.maskByRegion c region) : c'.kind = c.kind := by
  rcases mem_maskByRegion h with ⟨pieces, rfl⟩
  rfl

/-- The parts of a command without stride masks. -/
theorem selectsOnce_maskByRegion {c : Command} (hc : t.Shaped c) (hdense : c.strideMasks = [])
    (hregion : region.spans.length = t.dims.length) :
    t.SelectsOnce (t.maskByRegion c region) c.kind
      fun p => t.Within p ∧ t.Covers c p ∧ region.contains p = true := by
  have hselects : ∀ c' ∈ t.maskByRegion c region, ∀ p, t.Within p →
      (t.Selects c' (t.placeOf p) ↔ t.Covers c' p) := by
    intro c' hc' p hp
    rcases mem_maskByRegion hc' with ⟨pieces, rfl⟩
    have hnil : (maskByPieces c pieces).strideMasks = [] := hdense
    rw [selects_placeOf hp, hnil]
    exact and_iff_left (onStrides_nil p)
  refine ⟨fun p hp => hp.1, ?_, ?_⟩
  · rintro p ⟨hp, hcovers⟩
    have hcount := countP_maskByRegion hc hregion hp
    rw [if_pos hcovers] at hcount
    rw [← hcount]
    refine List.countP_congr fun c' hc' => ?_
    simp only [decide_eq_true_eq, kind_of_mem_maskByRegion hc', true_and]
    exact hselects c' hc' p hp
  · intro c' hc' _ l hl
    rcases exists_point hl.1 with ⟨p, hp, rfl⟩
    refine ⟨p, ⟨hp, ?_⟩, rfl⟩
    exact (exists_covers_maskByRegion hc hregion hp).1 ⟨c', hc', (hselects c' hc' p hp).1 hl⟩

theorem pairwise_kinds {kind' : CommandKind} (hfirst : ∀ c ∈ cs, c.kind ≠ kind')
    (hlast : ∀ c ∈ ds, c.kind ≠ kind) :
    (cs ++ ds).Pairwise fun c c' => c.kind = kind' → c'.kind ≠ kind := by
  refine List.pairwise_append.2 ⟨?_, ?_, fun c _ c' hc' _ => hlast c' hc'⟩
  · exact List.pairwise_of_forall_mem_list fun c hc _ _ hkind => absurd hkind (hfirst c hc)
  · exact List.pairwise_of_forall_mem_list fun _ _ c' hc' _ => hlast c' hc'

/-! ## Two stages -/

/-- The points are taken over the distance along dimension `d` in two stages, first inside their tiles and
then with them. A stage that goes nowhere has no commands. -/
structure Travels (t : Tiling) (d : Nat) (cs : List Command) (S : List Int → Prop)
    (lineShift tileShift delta : Int) : Prop where
  shifted : lineShift ≠ 0 → t.SelectsOnce cs (.intraArray (lineShift * t.bitlineStride d)) S
  moved : tileShift ≠ 0 → t.SelectsOnce cs (.interArray (tileShift * t.tileStride d))
    fun p => ∃ p₀, S p₀ ∧ p₀.modify d (· + lineShift) = p
  /-- No shift comes behind a move. -/
  order : cs.Pairwise fun c c' => c.kind = .interArray (tileShift * t.tileStride d) →
    c'.kind ≠ .intraArray (lineShift * t.bitlineStride d)
  inside : ∀ p, S p → t.Within (p.modify d (· + lineShift)) ∧ t.Within (p.modify d (· + delta))
  shift_lands : ∀ p, S p → ∀ c ∈ cs, c.kind = .intraArray (lineShift * t.bitlineStride d) →
    t.displaced c (t.placeOf p) = [t.placeOf (p.modify d (· + lineShift))]
  move_lands : ∀ p, S p → ∀ c ∈ cs, c.kind = .interArray (tileShift * t.tileStride d) →
    t.displaced c (t.placeOf (p.modify d (· + lineShift))) = [t.placeOf (p.modify d (· + delta))]
  /-- If no tile moves, the shift goes the whole distance. -/
  still : tileShift = 0 → lineShift = delta

theorem Travels.congr {lineShift tileShift : Int} (h : t.Travels d cs S lineShift tileShift delta)
    (hsame : ∀ p, S p ↔ S' p) : t.Travels d cs S' lineShift tileShift delta := by
  have hS : S = S' := funext fun p => propext (hsame p)
  rwa [← hS]

/-- The points of a region on the bitlines of a lane. -/
def OnLane (d : Nat) (dim : TiledDim) (region : Box) (l : Lane) (p : List Int) : Prop :=
  p ∈ region.points ∧ l.lines.contains (p.getD d 0 % dim.tile) = true

theorem onLane_iff (hinside : region.Inside t.arraySizes) {x : Int} (hx : p[d]? = some x) :
    OnLane d dim region l p ↔
      (t.Within p ∧ region.contains p = true) ∧ l.lines.contains (x % dim.tile) = true := by
  have hpoints : p ∈ region.points ↔ t.Within p ∧ region.contains p = true := by
    refine ⟨fun hp => ⟨hinside.inArray hp, (Box.mem_points_iff_contains.1 hp).2⟩, ?_⟩
    rintro ⟨hp, hin⟩
    exact Box.mem_points_iff_contains.2 ⟨(InArray.length_eq hp).trans hinside.length_eq.symm, hin⟩
  rw [OnLane, hpoints, List.getD_eq_getElem?_getD, hx, Option.getD_some]

/-- The commands of one stage. -/
def stage (t : Tiling) (shift : Int) (c : Command) (region : Box) : List Command :=
  if shift = 0 then [] else t.maskByRegion c region

theorem alignLane_eq_stages (d : Nat) (dim : TiledDim) (region : Box) (l : Lane) :
    t.alignLane d dim region l = t.stage l.lineShift (t.lineCommand d l) region ++
      t.stage l.tileShift (t.tileCommand d dim l) (region.shift d l.lineShift) := rfl

theorem stage_of_ne {shift : Int} (h : shift ≠ 0) (c : Command) (region : Box) :
    t.stage shift c region = t.maskByRegion c region :=
  if_neg h

/-- The commands of a stage that goes somewhere are parts of one command. -/
theorem mem_stage {shift : Int} {c c' : Command} (h : c' ∈ t.stage shift c region) :
    shift ≠ 0 ∧ c'.kind = c.kind ∧ ∀ place, t.displaced c' place = t.displaced c place := by
  by_cases hshift : shift = 0
  · rw [stage, if_pos hshift] at h
    cases h
  · rw [stage_of_ne hshift] at h
    rcases mem_maskByRegion h with ⟨pieces, rfl⟩
    exact ⟨hshift, rfl, fun _ => rfl⟩

/-- A command is not of a lane if its kind is of neither stage. -/
def Foreign (t : Tiling) (d : Nat) (l : Lane) (c : Command) : Prop :=
  c.kind ≠ .intraArray (l.lineShift * t.bitlineStride d) ∧
    c.kind ≠ .interArray (l.tileShift * t.tileStride d)

/-- Where a point of the region ends lies in the array if the moved region does. -/
theorem within_modify (hmoved : (region.shift d delta).Inside t.arraySizes) (hp : p ∈ region.points) :
    t.Within (p.modify d (· + delta)) := by
  rcases Box.mem_points_iff_contains.1 hp with ⟨hlen, hin⟩
  refine hmoved.inArray (Box.mem_points_iff_contains.2 ⟨?_, (box_contains_shift d delta).2 hin⟩)
  rw [List.length_modify, Box.dims, length_shift]
  exact hlen

section Lane

variable (hl : l.Fits dim.tile delta) (hdim : t.dims[d]? = some dim)
  (hinside : region.Inside t.arraySizes) (hmoved : (region.shift d delta).Inside t.arraySizes)

include hl hdim hinside hmoved

/-- A point of a lane has a coordinate, and it lies in the array before, between and after the stages. -/
theorem within_of_onLane (h : OnLane d dim region l p) :
    ∃ x, p[d]? = some x ∧ t.Within p ∧ region.contains p = true ∧
      l.lines.contains (x % dim.tile) = true ∧ t.Within (p.modify d (· + l.lineShift)) ∧
      t.Within (p.modify d (· + delta)) := by
  have hp : t.Within p := hinside.inArray h.1
  rcases hp.exists_coordinate hdim with ⟨x, hx⟩
  rcases (onLane_iff hinside hx).1 h with ⟨⟨_, hin⟩, hline⟩
  exact ⟨x, hx, hp, hin, hline, (displaced_lineCommand hl hdim hp hx hline).2, within_modify hmoved h.1⟩

/-- Where a point of a lane stands between the stages, its tile may move. -/
theorem movable_of_onLane (h : OnLane d dim region l p) :
    ∃ x, (p.modify d (· + l.lineShift))[d]? = some x ∧
      (movable dim.count l.tileShift).contains (x / dim.tile) = true ∧
      (l.lines.shift l.lineShift).contains (x % dim.tile) = true := by
  rcases within_of_onLane hl hdim hinside hmoved h with ⟨x, hx, _, _, hline, hbetween, hend⟩
  have hx₁ : (p.modify d (· + l.lineShift))[d]? = some (x + l.lineShift) := by
    rw [List.getElem?_modify_eq, hx]
    rfl
  have hx₂ : (p.modify d (· + delta))[d]? = some (x + l.lineShift + l.tileShift * dim.tile) := by
    rw [List.getElem?_modify_eq, hx, Int.add_assoc, hl.shifts]
    rfl
  refine ⟨_, hx₁, (contains_movable hbetween hdim hx₁ l.tileShift).2 (hend.bounds hdim hx₂), ?_⟩
  rcases contains_iff.1 hline with ⟨hlo, hhi⟩
  rw [contains_iff, (hl.shift_line hline).2]
  simp only [Span.shift]
  omega

/-- The shift of the bitlines of a lane reads its points. -/
theorem selectsOnce_lineCommand : t.SelectsOnce (t.maskByRegion (t.lineCommand d l) region)
    (.intraArray (l.lineShift * t.bitlineStride d)) (OnLane d dim region l) := by
  have hregion := hinside.length_eq.trans t.length_arraySizes
  refine (selectsOnce_maskByRegion (shaped_lineCommand d l) rfl hregion).congr fun p => ?_
  constructor
  · rintro ⟨hp, hcov, hin⟩
    rcases hp.exists_coordinate hdim with ⟨x, hx⟩
    exact (onLane_iff hinside hx).2 ⟨⟨hp, hin⟩, (covers_lineCommand hdim hp hx).1 hcov⟩
  · intro h
    rcases within_of_onLane hl hdim hinside hmoved h with ⟨x, hx, hp, hin, hline, _⟩
    exact ⟨hp, (covers_lineCommand hdim hp hx).2 hline, hin⟩

/-- The move of its tiles reads them where they have been shifted to. -/
theorem selectsOnce_tileCommand :
    t.SelectsOnce (t.maskByRegion (t.tileCommand d dim l) (region.shift d l.lineShift))
      (.interArray (l.tileShift * t.tileStride d))
      fun p => ∃ p₀, OnLane d dim region l p₀ ∧ p₀.modify d (· + l.lineShift) = p := by
  have hregion : (region.shift d l.lineShift).spans.length = t.dims.length := by
    rw [length_shift, hinside.length_eq, length_arraySizes]
  refine (selectsOnce_maskByRegion (shaped_tileCommand d dim l) rfl hregion).congr fun p => ?_
  constructor
  · rintro ⟨hp, hcov, hin⟩
    rcases hp.exists_coordinate hdim with ⟨x, hx⟩
    rcases exists_unshifted hl hdim hp hx ((covers_tileCommand hdim hp hx).1 hcov).2 with
      ⟨q, hq, hxq, hline, rfl⟩
    exact ⟨q, (onLane_iff hinside hxq).2 ⟨⟨hq, (box_contains_shift d _).1 hin⟩, hline⟩, rfl⟩
  · rintro ⟨q, hq, rfl⟩
    rcases within_of_onLane hl hdim hinside hmoved hq with ⟨_, _, _, hin, _, hbetween, _⟩
    rcases movable_of_onLane hl hdim hinside hmoved hq with ⟨x, hx, hcov⟩
    exact ⟨hbetween, (covers_tileCommand hdim hbetween hx).2 hcov, (box_contains_shift d _).2 hin⟩

/-- From there the move takes them over the whole distance. -/
theorem displaced_of_onLane (h : OnLane d dim region l p) :
    t.displaced (t.tileCommand d dim l) (t.placeOf (p.modify d (· + l.lineShift))) =
      [t.placeOf (p.modify d (· + delta))] := by
  rcases within_of_onLane hl hdim hinside hmoved h with ⟨_, _, _, _, _, hbetween, _⟩
  rcases movable_of_onLane hl hdim hinside hmoved h with ⟨x, hx, hmove, _⟩
  rw [(displaced_tileCommand hdim hbetween hx hmove).1, shift_shift, hl.shifts]

/-- The commands of a lane take its points over the distance, whatever the commands of other lanes do. -/
theorem travels_alignLane {before after : List Command} (hbefore : ∀ c ∈ before, t.Foreign d l c)
    (hafter : ∀ c ∈ after, t.Foreign d l c) :
    t.Travels d (before ++ t.alignLane d dim region l ++ after) (OnLane d dim region l) l.lineShift
      l.tileShift delta := by
  have hline : ∀ c ∈ t.stage l.lineShift (t.lineCommand d l) region,
      c.kind = .intraArray (l.lineShift * t.bitlineStride d) ∧
        ∀ place, t.displaced c place = t.displaced (t.lineCommand d l) place :=
    fun _ hc => (mem_stage hc).2
  have htile : ∀ c ∈ t.stage l.tileShift (t.tileCommand d dim l) (region.shift d l.lineShift),
      c.kind = .interArray (l.tileShift * t.tileStride d) ∧
        ∀ place, t.displaced c place = t.displaced (t.tileCommand d dim l) place :=
    fun _ hc => (mem_stage hc).2
  rw [alignLane_eq_stages, ← List.append_assoc, List.append_assoc (before ++ _)]
  generalize hshifts : t.stage l.lineShift (t.lineCommand d l) region = shifts at hline ⊢
  generalize hmoves : t.stage l.tileShift (t.tileCommand d dim l) (region.shift d l.lineShift) = moves
    at htile ⊢
  -- no move of the lane comes first, and no shift last
  have hfirst : ∀ c ∈ before ++ shifts, c.kind ≠ .interArray (l.tileShift * t.tileStride d) := by
    intro c hc hkind
    rcases List.mem_append.1 hc with hc | hc
    · exact (hbefore c hc).2 hkind
    · rw [(hline c hc).1] at hkind
      cases hkind
  have hlast : ∀ c ∈ moves ++ after, c.kind ≠ .intraArray (l.lineShift * t.bitlineStride d) := by
    intro c hc hkind
    rcases List.mem_append.1 hc with hc | hc
    · rw [(htile c hc).1] at hkind
      cases hkind
    · exact (hafter c hc).1 hkind
  refine ⟨fun hne => ?_, fun hne => ?_, pairwise_kinds hfirst hlast, fun p hp => ?_, fun p hp c hc hkind => ?_,
    fun p hp c hc hkind => ?_, fun hstill => ?_⟩
  · have honce := selectsOnce_lineCommand hl hdim hinside hmoved
    rw [← stage_of_ne hne, hshifts] at honce
    exact honce.between (fun c hc => (hbefore c hc).1) hlast
  · have honce := selectsOnce_tileCommand hl hdim hinside hmoved
    rw [← stage_of_ne hne, hmoves] at honce
    rw [← List.append_assoc]
    exact honce.between hfirst fun c hc => (hafter c hc).2
  · rcases within_of_onLane hl hdim hinside hmoved hp with ⟨_, _, _, _, _, hbetween, hend⟩
    exact ⟨hbetween, hend⟩
  · rcases within_of_onLane hl hdim hinside hmoved hp with ⟨x, hx, hin, _, hlane, _⟩
    rcases List.mem_append.1 hc with hc | hc
    · rcases List.mem_append.1 hc with hc | hc
      · exact absurd hkind (hbefore c hc).1
      · rw [(hline c hc).2]
        exact (displaced_lineCommand hl hdim hin hx hlane).1
    · exact absurd hkind (hlast c hc)
  · rcases List.mem_append.1 hc with hc | hc
    · exact absurd hkind (hfirst c hc)
    · rcases List.mem_append.1 hc with hc | hc
      · rw [(htile c hc).2]
        exact displaced_of_onLane hl hdim hinside hmoved hp
      · exact absurd hkind (hafter c hc).2
  · have hsum := hl.shifts
    rw [hstill, Int.zero_mul, Int.add_zero] at hsum
    exact hsum

end Lane

/-! ## Both lanes -/

/-- The bitlines of a tile that stay in it when they are shifted up. -/
def lowLane (tile delta : Int) : Lane :=
  { lines := { lo := 0, hi := tile - delta % tile }, lineShift := delta % tile, tileShift := delta / tile }

/-- The bitlines that go on to the next tile, and are shifted down. -/
def highLane (tile delta : Int) : Lane :=
  { lines := { lo := tile - delta % tile, hi := tile }, lineShift := delta % tile - tile,
    tileShift := delta / tile + 1 }

/-- A distance of whole tiles has no upper bitlines. -/
theorem lanes_eq {tile : Int} (htile : 0 < tile) (delta : Int) : lanes tile delta =
    lowLane tile delta :: if delta % tile = 0 then [] else [highLane tile delta] := by
  have hr := Int.emod_lt_of_pos delta htile
  have hr0 := Int.emod_nonneg delta (Int.ne_of_gt htile)
  have hlow : (lowLane tile delta).lines.isEmpty = false := by
    refine decide_eq_false ?_
    change ¬ tile - delta % tile ≤ 0
    omega
  have hhigh : (highLane tile delta).lines.isEmpty = decide (delta % tile = 0) := by
    refine decide_eq_decide.2 ?_
    change tile ≤ tile - delta % tile ↔ delta % tile = 0
    omega
  change [lowLane tile delta, highLane tile delta].filter (fun l => !l.lines.isEmpty) = _
  by_cases hzero : delta % tile = 0
  · simp [hlow, hhigh, hzero]
  · simp [hlow, hhigh, hzero]

theorem tileStride_pos (hd : d < t.dims.length) : 0 < t.tileStride d :=
  canonicalStrides_getD_pos t.tileCounts_pos (t.length_tileCounts.symm ▸ hd)

theorem bitlineStride_pos (hd : d < t.dims.length) : 0 < t.bitlineStride d :=
  canonicalStrides_getD_pos t.tileSizes_pos (t.length_tileSizes.symm ▸ hd)

/-- A command of a lane makes one of its two stages, and the stage goes somewhere. -/
theorem kind_of_mem_alignLane {c : Command} (h : c ∈ t.alignLane d dim region l) :
    l.lineShift ≠ 0 ∧ c.kind = .intraArray (l.lineShift * t.bitlineStride d) ∨
      l.tileShift ≠ 0 ∧ c.kind = .interArray (l.tileShift * t.tileStride d) := by
  rw [alignLane_eq_stages, List.mem_append] at h
  rcases h with h | h
  · exact .inl ⟨(mem_stage h).1, (mem_stage h).2.1⟩
  · exact .inr ⟨(mem_stage h).1, (mem_stage h).2.1⟩

/-- Lanes with other distances have commands of other kinds. -/
theorem foreign_of_mem_alignLane (hd : d < t.dims.length) {l' : Lane} (hline : l.lineShift ≠ l'.lineShift)
    (htile : l.tileShift ≠ l'.tileShift) : ∀ c ∈ t.alignLane d dim region l, t.Foreign d l' c := by
  intro c hc
  rcases kind_of_mem_alignLane hc with ⟨_, hkind⟩ | ⟨_, hkind⟩
  · refine ⟨fun h => hline ?_, fun h => ?_⟩
    · rw [hkind] at h
      exact Int.eq_of_mul_eq_mul_right (Int.ne_of_gt (bitlineStride_pos hd)) (CommandKind.intraArray.inj h)
    · rw [hkind] at h
      cases h
  · refine ⟨fun h => ?_, fun h => htile ?_⟩
    · rw [hkind] at h
      cases h
    · rw [hkind] at h
      exact Int.eq_of_mul_eq_mul_right (Int.ne_of_gt (tileStride_pos hd)) (CommandKind.interArray.inj h)

theorem selectsOnce_none (hS : ∀ p, ¬ S p) (hkind : ∀ c ∈ cs, c.kind ≠ kind) : t.SelectsOnce cs kind S :=
  ⟨fun p hp => absurd hp (hS p), fun p hp => absurd hp (hS p), fun c hc h => absurd h (hkind c hc)⟩

/-- Where a lane has no points, no commands have to be there. -/
theorem travels_none (hsum : l.lineShift + l.tileShift * dim.tile = delta) (hS : ∀ p, ¬ S p)
    (hcs : ∀ c ∈ cs, t.Foreign d l c) : t.Travels d cs S l.lineShift l.tileShift delta where
  shifted _ := selectsOnce_none hS fun c hc => (hcs c hc).1
  moved _ := selectsOnce_none (fun _ h => hS _ h.choose_spec.1) fun c hc => (hcs c hc).2
  order := List.pairwise_of_forall_mem_list fun c hc _ _ h => absurd h (hcs c hc).2
  inside p hp := absurd hp (hS p)
  shift_lands p hp := absurd hp (hS p)
  move_lands p hp := absurd hp (hS p)
  still h := by rwa [h, Int.zero_mul, Int.add_zero] at hsum

theorem onLane_lowLane (p : List Int) : OnLane d dim region (lowLane dim.tile delta) p ↔
    p ∈ region.points ∧ p.getD d 0 % dim.tile < dim.tile - delta % dim.tile := by
  have hpos := Int.emod_nonneg (p.getD d 0) (Int.ne_of_gt dim.tile_pos)
  rw [OnLane, contains_iff]
  exact and_congr_right fun _ => and_iff_right hpos

theorem onLane_highLane (p : List Int) : OnLane d dim region (highLane dim.tile delta) p ↔
    p ∈ region.points ∧ dim.tile - delta % dim.tile ≤ p.getD d 0 % dim.tile := by
  have hlt := Int.emod_lt_of_pos (p.getD d 0) dim.tile_pos
  rw [OnLane, contains_iff]
  exact and_congr_right fun _ => and_iff_left hlt

section Align

variable (hdim : t.dims[d]? = some dim)

include hdim

/-- The commands of an align are those of the lower bitlines and then, unless the distance is one of whole
tiles, those of the upper ones. -/
theorem align_eq_lanes : t.align d delta region =
    t.alignLane d dim region (lowLane dim.tile delta) ++
      if delta % dim.tile = 0 then [] else t.alignLane d dim region (highLane dim.tile delta) := by
  rw [align_eq hdim, lanes_eq dim.tile_pos, List.flatMap_cons]
  split
  · rfl
  · rw [List.flatMap_singleton]

theorem foreign_highLane : ∀ c ∈ t.alignLane d dim region (lowLane dim.tile delta),
    t.Foreign d (highLane dim.tile delta) c := by
  have hpos := dim.tile_pos
  refine foreign_of_mem_alignLane (List.getElem?_eq_some_iff.1 hdim).1 ?_ ?_
  · change delta % dim.tile ≠ delta % dim.tile - dim.tile
    omega
  · change delta / dim.tile ≠ delta / dim.tile + 1
    omega

theorem foreign_lowLane : ∀ c ∈ t.alignLane d dim region (highLane dim.tile delta),
    t.Foreign d (lowLane dim.tile delta) c := by
  have hpos := dim.tile_pos
  refine foreign_of_mem_alignLane (List.getElem?_eq_some_iff.1 hdim).1 ?_ ?_
  · change delta % dim.tile - dim.tile ≠ delta % dim.tile
    omega
  · change delta / dim.tile + 1 ≠ delta / dim.tile
    omega

variable (hinside : region.Inside t.arraySizes) (hmoved : (region.shift d delta).Inside t.arraySizes)

include hinside hmoved

theorem travels_lowLane : t.Travels d (t.align d delta region)
    (fun p => p ∈ region.points ∧ p.getD d 0 % dim.tile < dim.tile - delta % dim.tile)
    (delta % dim.tile) (delta / dim.tile) delta := by
  have hfits : (lowLane dim.tile delta).Fits dim.tile delta := by
    refine lanes_spec dim.tile_pos ?_
    rw [lanes_eq dim.tile_pos]
    exact List.mem_cons_self
  rw [align_eq_lanes hdim, ← List.nil_append (t.alignLane d dim region (lowLane dim.tile delta))]
  refine (travels_alignLane hfits hdim hinside hmoved ?_ ?_).congr onLane_lowLane
  · intro c hc
    cases hc
  · split
    · intro c hc
      cases hc
    · exact foreign_lowLane hdim

/-- On the upper bitlines there is nothing to be brought over a distance of whole tiles. -/
theorem travels_highLane : t.Travels d (t.align d delta region)
    (fun p => p ∈ region.points ∧ dim.tile - delta % dim.tile ≤ p.getD d 0 % dim.tile)
    (delta % dim.tile - dim.tile) (delta / dim.tile + 1) delta := by
  rw [align_eq_lanes hdim]
  by_cases hr : delta % dim.tile = 0
  · rw [if_pos hr, List.append_nil]
    have hsum : (highLane dim.tile delta).lineShift + (highLane dim.tile delta).tileShift * dim.tile = delta := by
      have hsplit := Int.emod_add_mul_ediv delta dim.tile
      simp only [highLane, Int.add_mul, Int.one_mul, Int.mul_comm (delta / dim.tile)]
      omega
    refine travels_none hsum ?_ (foreign_highLane hdim)
    rintro p ⟨_, hp⟩
    have hlt := Int.emod_lt_of_pos (p.getD d 0) dim.tile_pos
    omega
  · have hfits : (highLane dim.tile delta).Fits dim.tile delta := by
      refine lanes_spec dim.tile_pos ?_
      rw [lanes_eq dim.tile_pos, if_neg hr]
      exact List.mem_cons_of_mem _ List.mem_cons_self
    rw [if_neg hr, ← List.append_nil (_ ++ _)]
    refine (travels_alignLane hfits hdim hinside hmoved (foreign_highLane hdim) ?_).congr onLane_highLane
    intro c hc
    cases hc

end Align

/-- Take a dimension in tiles of size `T`, a distance, and a region that lies in the array before and after it
is moved over the distance. With `q` and `r` the quotient and the remainder of the distance by `T`, the
elements of the region on the first `T - r` bitlines of their tiles are shifted by `r` and moved by `q` tiles,
and the others are shifted by `r - T` and moved by `q + 1` tiles. There are no other commands, and none that
go nowhere. What lies on an element of the region is brought over the whole distance. -/
theorem align_travels (hdim : t.dims[d]? = some dim) (hinside : region.Inside t.arraySizes)
    (hmoved : (region.shift d delta).Inside t.arraySizes) :
    t.Travels d (t.align d delta region)
      (fun p => p ∈ region.points ∧ p.getD d 0 % dim.tile < dim.tile - delta % dim.tile)
      (delta % dim.tile) (delta / dim.tile) delta ∧
    t.Travels d (t.align d delta region)
      (fun p => p ∈ region.points ∧ dim.tile - delta % dim.tile ≤ p.getD d 0 % dim.tile)
      (delta % dim.tile - dim.tile) (delta / dim.tile + 1) delta ∧
    (∀ c ∈ t.align d delta region,
      (∃ shift, shift ≠ 0 ∧ (shift = delta % dim.tile ∨ shift = delta % dim.tile - dim.tile) ∧
        c.kind = .intraArray (shift * t.bitlineStride d)) ∨
      ∃ shift, shift ≠ 0 ∧ (shift = delta / dim.tile ∨ shift = delta / dim.tile + 1) ∧
        c.kind = .interArray (shift * t.tileStride d)) ∧
    ∀ tokens i, ∀ p ∈ region.points, t.tokenAt i p ∈ tokens →
      t.tokenAt i (p.modify d (· + delta)) ∈ t.drive [] tokens (t.align d delta region) := by
  refine ⟨travels_lowLane hdim hinside hmoved, travels_highLane hdim hinside hmoved, ?_, ?_⟩
  · intro c hc
    rw [align_eq_lanes hdim, List.mem_append] at hc
    rcases hc with hc | hc
    · rcases kind_of_mem_alignLane hc with ⟨hne, hkind⟩ | ⟨hne, hkind⟩
      · exact .inl ⟨_, hne, .inl rfl, hkind⟩
      · exact .inr ⟨_, hne, .inl rfl, hkind⟩
    · have hc : c ∈ t.alignLane d dim region (highLane dim.tile delta) := by
        split at hc
        · cases hc
        · exact hc
      rcases kind_of_mem_alignLane hc with ⟨hne, hkind⟩ | ⟨hne, hkind⟩
      · exact .inl ⟨_, hne, .inr rfl, hkind⟩
      · exact .inr ⟨_, hne, .inr rfl, hkind⟩
  · intro tokens i p hp hk
    have hregion := hinside.length_eq.trans t.length_arraySizes
    have hwithin : t.Within p := hinside.inArray hp
    rcases hwithin.exists_coordinate hdim with ⟨x, hx⟩
    have hin : region.contains p = true := (Box.mem_points_iff_contains.1 hp).2
    have hx' : (p.modify d (· + delta))[d]? = some (x + delta) := by
      rw [List.getElem?_modify_eq, hx]
      rfl
    have hbounds := (within_modify hmoved hp).bounds hdim hx'
    refine mem_drive_align hdim hregion hwithin hx hin hbounds.1 hbounds.2 (onStrides_nil p) (.inr ?_) hk
    intro m hm
    cases hm

/-! ## A move back over tiles -/

/-- Three columns of two rows, the first of them the last of its tile. -/
def lastColumns : Box :=
  { spans := [⟨3, 6⟩, ⟨1, 3⟩] }

/-- Three columns back, with tiles of two: the first column of a tile is shifted up and moved two tiles back,
the second is shifted down and moved one tile back. -/
theorem align_travels_back :
    sixByFour.Travels 0 (sixByFour.align 0 (-3) lastColumns)
      (fun p => p ∈ lastColumns.points ∧ p.getD 0 0 % 2 < 1) 1 (-2) (-3) ∧
    sixByFour.Travels 0 (sixByFour.align 0 (-3) lastColumns)
      (fun p => p ∈ lastColumns.points ∧ 1 ≤ p.getD 0 0 % 2) (-1) (-1) (-3) ∧
    (sixByFour.align 0 (-3) lastColumns).length = 6 ∧
    sixByFour.tokenAt 0 [1, 2] ∈
      sixByFour.drive [] [sixByFour.tokenAt 0 [4, 2]] (sixByFour.align 0 (-3) lastColumns) := by
  have hinside : lastColumns.Inside sixByFour.arraySizes := by
    refine List.Forall₂.cons ?_ (List.Forall₂.cons ?_ List.Forall₂.nil)
    · decide
    · decide
  have hmoved : (lastColumns.shift 0 (-3)).Inside sixByFour.arraySizes := by
    refine List.Forall₂.cons ?_ (List.Forall₂.cons ?_ List.Forall₂.nil)
    · decide
    · decide
  have hall := align_travels (d := 0) rfl hinside hmoved
  refine ⟨hall.1, hall.2.1, by decide, ?_⟩
  exact hall.2.2.2 [sixByFour.tokenAt 0 [4, 2]] 0 [4, 2] (by decide) (List.mem_singleton_self _)

end Tiling
end StreamEngine
