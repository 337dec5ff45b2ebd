import StreamEngine.Proofs.Affine.Boxes

/-!
# Sub-regions and boxes

The canonical sub-regions of an array are the patterns of its boxes, each of one box. Elements of such a
pattern are the points of the box in order.

* `Box.occupies_iff` : boxes with points, inside an array;
* `AffinePattern.axesFit_iff`, `AffinePattern.isSubRegion_iff` : what fits an array is the pattern of a box;
* `Box.Occupies.toBox_toPattern` : the box of the pattern of a box;
* `Box.pointsOf_eq_map`, `Box.Occupies.allValues_toPattern` : points and elements by number;
* `AffinePattern.isSubRegion_iff_box` : sub-regions are boxes.
-/

namespace StreamEngine

variable {sizes : List Int} {R : Box} {p : AffinePattern}

/-! ## Boxes with points -/

namespace Box

/-- The box has a span with coordinates in each dimension of an array of these sizes. -/
def Occupies (sizes : List Int) (b : Box) : Prop :=
  List.Forall₂ (fun size (s : Span) => 0 ≤ s.lo ∧ s.lo < s.hi ∧ s.hi ≤ size) sizes b.spans

theorem occupies_iff : R.Occupies sizes ↔ R.Inside sizes ∧ R.isEmpty = false := by
  rcases R with ⟨spans⟩
  simp only [Occupies, Inside, isEmpty, List.any_eq_false, Span.isEmpty, decide_eq_true_eq, Int.not_le]
  induction sizes generalizing spans with
  | nil =>
      rw [List.forall₂_nil_left_iff, List.forall₂_nil_left_iff]
      refine (and_iff_left_of_imp ?_).symm
      rintro rfl s hs
      cases hs
  | cons size sizes ih =>
      cases spans with
      | nil => simp
      | cons s spans =>
          rw [List.forall₂_cons, List.forall₂_cons, ih, List.forall_mem_cons]
          tauto

namespace Occupies

theorem length_eq (h : R.Occupies sizes) : R.spans.length = sizes.length :=
  (List.Forall₂.length_eq h).symm

theorem lo_lt_hi (h : R.Occupies sizes) : ∀ s ∈ R.spans, s.lo < s.hi := by
  have hempty := (occupies_iff.1 h).2
  simpa only [isEmpty, List.any_eq_false, Span.isEmpty, decide_eq_true_eq, Int.not_le] using hempty

/-- The lower corner is a point of the array. -/
theorem inArray_lo (h : R.Occupies sizes) : InArray sizes R.lo := by
  rw [InArray, lo, List.forall₂_map_right_iff]
  exact h.imp fun size s hs => ⟨hs.1, Int.lt_of_lt_of_le hs.2.1 hs.2.2⟩

end Occupies
end Box

/-! ## Canonical patterns -/

theorem canonicalFrom_pos (hpos : ∀ s ∈ sizes, 0 < s) {unit : Int} (hunit : 0 < unit) :
    ∀ c ∈ canonicalFrom unit sizes, 0 < c := by
  induction sizes generalizing unit with
  | nil =>
      intro c hc
      cases hc
  | cons s sizes ih =>
      have hs : 0 < s := hpos s List.mem_cons_self
      rw [canonicalFrom, List.forall_mem_cons]
      exact ⟨hunit, ih (fun x hx => hpos x (List.mem_cons_of_mem _ hx)) (Int.mul_pos hunit hs)⟩

theorem canonicalStrides_getD_pos (hpos : ∀ s ∈ sizes, 0 < s) {d : Nat} (hd : d < sizes.length) :
    0 < (canonicalStrides sizes).getD d 0 := by
  have hlt : d < (canonicalStrides sizes).length := by
    rwa [canonicalStrides, length_canonicalFrom]
  rw [List.getD_eq_getElem?_getD, List.getElem?_eq_getElem hlt, Option.getD_some]
  exact canonicalFrom_pos hpos Int.one_pos _ (List.getElem_mem hlt)

theorem toPattern?_eq_ok (h : R.spans.length = sizes.length) :
    R.toPattern? sizes = .ok p ↔ R.toPattern sizes = p := by
  have hlengths : sizes.length = R.lo.length ∧ sizes.length = R.extents.length := by
    rw [Box.lo, Box.extents, List.length_map, List.length_map, h]
    exact ⟨rfl, rfl⟩
  rw [Box.toPattern?, AffinePattern.subRegion?, if_pos hlengths, Except.ok.injEq]
  rfl

namespace AffinePattern

/-- What fits a dimension steps over a span from the corner. -/
theorem axisFits_iff {corner unit size : Int} {a : Axis} :
    axisFits false corner unit size a = true ↔ ∃ s : Span, s.lo = corner ∧ s.lo < s.hi ∧
      s.hi ≤ size ∧ Axis.mk unit s.extent = a := by
  have hmoving : axisFits false corner unit size a = true ↔
      0 < a.trip ∧ a.stride = unit ∧ corner + a.trip ≤ size := by
    by_cases hstride : a.stride = unit
    · simp [axisFits, hstride]
    · simp [axisFits, hstride]
  rw [hmoving]
  constructor
  · rintro ⟨htrip, hstride, hfits⟩
    have hlt : corner < corner + a.trip := by omega
    refine ⟨⟨corner, corner + a.trip⟩, rfl, hlt, hfits, ?_⟩
    rw [Span.extent_of_lt hlt, ← hstride, add_sub_cancel_left]
  · rintro ⟨s, rfl, hlt, hfits, rfl⟩
    change 0 < s.extent ∧ unit = unit ∧ s.lo + s.extent ≤ size
    rw [Span.extent_of_lt hlt]
    omega

/-- What fits the dimensions steps over a span in each of them, from the coordinates of the start. -/
theorem axesFit_iff (hpos : ∀ s ∈ sizes, 0 < s) {start unit : Int} (hstart : 0 ≤ start)
    (hunit : 0 < unit) {axes : List Axis} :
    axesFit false start unit sizes axes = true ↔ ∃ spans, Box.Occupies sizes { spans } ∧
      spans.map Span.lo = coordinates sizes (start / unit) ∧
      List.zipWith Axis.mk (canonicalFrom unit sizes) (spans.map Span.extent) = axes := by
  induction sizes generalizing unit axes with
  | nil =>
      cases axes with
      | nil => exact iff_of_true rfl ⟨[], List.Forall₂.nil, rfl, rfl⟩
      | cons a axes =>
          refine iff_of_false (fun h => by cases h) ?_
          rintro ⟨spans, _, _, haxes⟩
          cases haxes
  | cons size sizes ih =>
      have hsize : 0 < size := hpos size List.mem_cons_self
      have hrest := @ih (fun x hx => hpos x (List.mem_cons_of_mem _ hx)) _ (Int.mul_pos hunit hsize)
      have hnext : start / (unit * size) = start / unit / size := (Int.ediv_ediv_of_nonneg hunit.le).symm
      have hlow : 0 ≤ start / unit % size := Int.emod_nonneg _ hsize.ne'
      cases axes with
      | nil =>
          refine iff_of_false (fun h => by cases h) ?_
          rintro ⟨spans, hspans, _, haxes⟩
          cases hspans
          cases haxes
      | cons a axes =>
          rw [axesFit, Bool.and_eq_true, axisFits_iff, hrest, coordinate_eq hstart hunit, hnext]
          constructor
          · rintro ⟨⟨s, hs, hlt, hfits, rfl⟩, spans, hspans, hlo, rfl⟩
            refine ⟨s :: spans, List.Forall₂.cons ⟨hs ▸ hlow, hlt, hfits⟩ hspans, ?_, rfl⟩
            rw [List.map_cons, hs, hlo, coordinates]
          · rintro ⟨_, hspans, hlo, haxes⟩
            cases hspans with
            | @cons _ s _ spans hs hspans =>
                rw [List.map_cons, coordinates, List.cons.injEq] at hlo
                rw [List.map_cons, canonicalFrom, List.zipWith_cons_cons, List.cons.injEq] at haxes
                exact ⟨⟨s, hlo.1, hs.2.1, hs.2.2, haxes.1⟩, spans, hspans, hlo.2, haxes.2⟩

theorem corner_toPattern (hpos : ∀ s ∈ sizes, 0 < s) (h : R.Occupies sizes) :
    (R.toPattern sizes).corner sizes = R.lo := by
  have hstart : 0 ≤ (R.toPattern sizes).start := (linearize_bounds h.inArray_lo).1
  rw [corner_eq_coordinates hpos _ hstart]
  exact coordinates_linearize h.inArray_lo

/-- Sub-regions are the patterns of the boxes with points inside the array. -/
theorem isSubRegion_iff (hpos : ∀ s ∈ sizes, 0 < s) :
    p.isSubRegion sizes false = true ↔ ∃ R : Box, R.Occupies sizes ∧ R.toPattern sizes = p := by
  rw [isSubRegion, Bool.and_eq_true, Bool.and_eq_true, decide_eq_true_eq, decide_eq_true_eq]
  constructor
  · rintro ⟨⟨hlow, hhigh⟩, hfits⟩
    rcases (axesFit_iff hpos hlow Int.one_pos).1 hfits with ⟨spans, hspans, hlo, haxes⟩
    rw [Int.ediv_one] at hlo
    refine ⟨{ spans }, hspans, ?_⟩
    -- the start is the index of its coordinates
    have hstart : linearize (spans.map Span.lo) sizes = p.start := by
      rw [hlo, linearize_coordinates hpos hlow hhigh]
    exact congrArg₂ AffinePattern.mk hstart haxes
  · rintro ⟨R, hR, rfl⟩
    have hbounds := linearize_bounds hR.inArray_lo
    refine ⟨hbounds, (axesFit_iff hpos hbounds.1 Int.one_pos).2 ⟨R.spans, hR, ?_, rfl⟩⟩
    rw [Int.ediv_one]
    exact (coordinates_linearize hR.inArray_lo).symm

theorem divides_of_pos (a : Int) {b : Int} (hb : 0 < b) : divides a b = true := by
  have hne : (b != 0) = true := bne_iff_ne.2 hb.ne'
  have hminus : (b == -1) = false := beq_eq_false_iff_ne.2 (by omega)
  rw [divides, hne, hminus, Bool.and_false]
  rfl

theorem corner?_eq_ok (hpos : ∀ s ∈ sizes, 0 < s) (p : AffinePattern) :
    p.corner? sizes = .ok (p.corner sizes) := by
  rw [corner?, if_pos]
  rw [List.all_eq_true]
  rintro ⟨unit, size⟩ hmem
  rcases List.of_mem_zip hmem with ⟨hunit, hsize⟩
  simp only [divides_of_pos _ (canonicalFrom_pos hpos Int.one_pos unit hunit),
    divides_of_pos _ (hpos size hsize), Bool.and_self]

end AffinePattern

namespace Box.Occupies

/-- A span is what its axis steps over from its lower end. -/
theorem zipWith_spanAt (h : R.Occupies sizes) (hpos : ∀ s ∈ sizes, 0 < s) {unit : Int}
    (hunit : 0 < unit) :
    List.zipWith AffinePattern.spanAt R.lo (List.zipWith Axis.mk (canonicalFrom unit sizes) R.extents) =
      R.spans := by
  rcases R with ⟨spans⟩
  simp only [Occupies, Box.lo, Box.extents] at h ⊢
  induction h generalizing unit with
  | nil => rfl
  | @cons size s sizes spans hs hspans ih =>
      have hsize : 0 < size := hpos size List.mem_cons_self
      rw [List.map_cons, List.map_cons, canonicalFrom, List.zipWith_cons_cons, List.zipWith_cons_cons,
        ih (fun x hx => hpos x (List.mem_cons_of_mem _ hx)) (Int.mul_pos hunit hsize)]
      congr 1
      rw [AffinePattern.spanAt, if_neg hunit.ne', Span.extent_of_lt hs.2.1]
      exact congrArg (Span.mk s.lo) (add_sub_cancel s.lo s.hi)

theorem toBox_toPattern (h : R.Occupies sizes) (hpos : ∀ s ∈ sizes, 0 < s) :
    (R.toPattern sizes).toBox? sizes = .ok R := by
  have hdims : (R.toPattern sizes).dims = R.lo.length := by
    change (List.zipWith Axis.mk (canonicalFrom 1 sizes) R.extents).length = _
    rw [List.length_zipWith, length_canonicalFrom, extents, List.length_map, h.length_eq, Nat.min_self, lo,
      List.length_map, h.length_eq]
  rw [AffinePattern.toBox?, AffinePattern.corner?_eq_ok hpos]
  refine (if_neg ?_).trans ?_
  · rw [AffinePattern.corner_toPattern hpos h, hdims]
    exact Nat.lt_irrefl _
  · rw [AffinePattern.toBox, AffinePattern.corner_toPattern hpos h]
    exact congrArg (fun spans => Except.ok (Box.mk spans)) (h.zipWith_spanAt hpos Int.one_pos)

end Box.Occupies

/-! ## Points by number -/

theorem range_mul (m n : Nat) :
    List.range (m * n) = (List.range m).flatMap fun q => (List.range n).map fun r => q * n + r := by
  induction m with
  | zero => rw [Nat.zero_mul, List.range_zero, List.flatMap_nil]
  | succ m ih =>
      rw [Nat.succ_mul, List.range_add, ih, List.range_succ, List.flatMap_append, List.flatMap_singleton]

namespace Box

theorem extents_prod_nonneg (spans : List Span) : 0 ≤ (spans.map Span.extent).prod := by
  induction spans with
  | nil => exact Int.one_nonneg
  | cons s spans ih =>
      rw [List.map_cons, List.prod_cons]
      exact Int.mul_nonneg (Int.le_max_right _ _) ih

/-- The points of a box are its lower corner with the digits of their numbers. -/
theorem pointsOf_eq_map (spans : List Span) :
    pointsOf spans = (List.range (spans.map Span.extent).prod.toNat).map fun (i : Nat) =>
      List.zipWith (· + ·) (spans.map Span.lo) (coordinates (spans.map Span.extent) i) := by
  induction spans with
  | nil => rfl
  | cons s spans ih =>
      have hextent : 0 ≤ s.extent := Int.le_max_right _ _
      have hcount : ((s :: spans).map Span.extent).prod.toNat =
          (spans.map Span.extent).prod.toNat * s.extent.toNat := by
        rw [List.map_cons, List.prod_cons, Int.toNat_mul hextent (extents_prod_nonneg spans), Nat.mul_comm]
      rw [hcount, range_mul, List.map_flatMap, pointsOf, ih, List.flatMap_map]
      refine List.flatMap_congr fun q _ => ?_
      rw [Span.toList, List.map_map, List.map_map]
      refine List.map_congr_left fun r hr => ?_
      have hr' : (r : Int) < s.extent := by
        have := List.mem_range.1 hr
        omega
      have hcast : ((q * s.extent.toNat + r : Nat) : Int) = r + s.extent * q := by
        rw [Int.natCast_add, Int.natCast_mul, Int.toNat_of_nonneg hextent, Int.add_comm, Int.mul_comm]
      have hmod : (r + s.extent * q : Int) % s.extent = r := by
        rw [Int.add_mul_emod_self_left, Int.emod_eq_of_lt (Int.natCast_nonneg r) hr']
      have hdiv : (r + s.extent * q : Int) / s.extent = q := by
        rw [Int.add_mul_ediv_left _ _ (by omega), Int.ediv_eq_zero_of_lt (Int.natCast_nonneg r) hr',
          Int.zero_add]
      simp only [Function.comp_apply, hcast, List.map_cons, coordinates, hmod, hdiv,
        List.zipWith_cons_cons]

end Box

/-! ## Elements by number -/

theorem map_trip_zipWith {strides trips : List Int} (h : trips.length = strides.length) :
    (List.zipWith Axis.mk strides trips).map Axis.trip = trips := by
  induction strides generalizing trips with
  | nil => rw [List.length_eq_zero_iff.1 h, List.zipWith_nil_left, List.map_nil]
  | cons c strides ih =>
      cases trips with
      | nil => cases h
      | cons e trips => rw [List.zipWith_cons_cons, List.map_cons, ih (Nat.succ.inj h)]

theorem zipWith_steps {strides trips digits : List Int} (h : digits.length = trips.length) :
    List.zipWith (fun (a : Axis) k => a.stride * k) (List.zipWith Axis.mk strides trips) digits =
      List.zipWith (· * ·) digits strides := by
  induction strides generalizing trips digits with
  | nil => rw [List.zipWith_nil_left, List.zipWith_nil_left, List.zipWith_nil_right]
  | cons c strides ih =>
      cases trips with
      | nil => rw [List.length_eq_zero_iff.1 h, List.zipWith_nil_right, List.zipWith_nil_left]
      | cons e trips =>
          cases digits with
          | nil => cases h
          | cons k digits =>
              rw [List.zipWith_cons_cons, List.zipWith_cons_cons, List.zipWith_cons_cons,
                ih (Nat.succ.inj h), Int.mul_comm]

namespace Box.Occupies

theorem extents_pos (h : R.Occupies sizes) : ∀ e ∈ R.extents, 0 < e := by
  intro e he
  rcases List.mem_map.1 he with ⟨s, hs, rfl⟩
  rw [Span.extent_of_lt (h.lo_lt_hi s hs)]
  exact Int.sub_pos_of_lt (h.lo_lt_hi s hs)

theorem trips_toPattern (h : R.Occupies sizes) : (R.toPattern sizes).trips = R.extents := by
  refine map_trip_zipWith ?_
  rw [canonicalStrides, length_canonicalFrom, extents, List.length_map, h.length_eq]

/-- The steps of the pattern lead to the lower corner with the digits added. -/
theorem value_toPattern (h : R.Occupies sizes) {i : Int} (hi : 0 ≤ i) :
    (R.toPattern sizes).value i =
      linearize (List.zipWith (· + ·) R.lo (coordinates R.extents i)) sizes := by
  have htrips := h.trips_toPattern
  have hlength := (inArray_coordinates h.extents_pos i).length_eq
  have hpos : ∀ a ∈ (R.toPattern sizes).axes, 0 < a.trip := by
    intro a ha
    exact h.extents_pos _ (htrips ▸ List.mem_map_of_mem ha)
  have hcorner : R.lo.length = (coordinates R.extents i).length := by
    rw [hlength, lo, extents, List.length_map, List.length_map]
  rw [AffinePattern.trips] at htrips
  rw [AffinePattern.value, walk_eq_sum hpos _ hi, htrips, linearize_add sizes hcorner]
  congr 1
  exact congrArg List.sum (zipWith_steps hlength)

theorem allValues_toPattern (h : R.Occupies sizes) :
    (R.toPattern sizes).allValues = R.points.map fun pt => linearize pt sizes := by
  rw [AffinePattern.allValues, AffinePattern.totalTrip, h.trips_toPattern, points, pointsOf_eq_map,
    List.map_map]
  exact List.map_congr_left fun i _ => h.value_toPattern (Int.natCast_nonneg i)

end Box.Occupies

/-! ## Sub-regions are boxes -/

namespace AffinePattern

/-- A pattern is a sub-region if it is the pattern of a box with points inside the array. This is then the
box of the pattern, and the elements of the pattern are the indices of its points, in increasing order. The
points are listed one after the other from the lower corner on, each once. -/
theorem isSubRegion_iff_box (hpos : ∀ s ∈ sizes, 0 < s) (p : AffinePattern) :
    (p.isSubRegion sizes false = true ↔
      ∃ R : Box, R.Inside sizes ∧ R.isEmpty = false ∧ R.toPattern? sizes = .ok p) ∧
    ∀ R : Box, R.Inside sizes → R.isEmpty = false → R.toPattern? sizes = .ok p →
      p.toBox? sizes = .ok R ∧
      p.allValues = R.points.map (fun pt => linearize pt sizes) ∧
      (∀ pt, pt ∈ R.points ↔ pt.length = R.dims ∧ R.contains pt = true) ∧ R.points.Nodup ∧
      (R.points.head? = some R.lo ∧ R.points.IsChain (fun pt next => Box.advance R.spans pt = some next) ∧
        ∀ pt, R.points.getLast? = some pt → Box.advance R.spans pt = none) ∧
      p.allValues.Pairwise (· < ·) ∧ ∀ v ∈ p.allValues, 0 ≤ v ∧ v < sizes.prod := by
  constructor
  · rw [isSubRegion_iff hpos]
    refine exists_congr fun R => ?_
    rw [Box.occupies_iff, and_assoc]
    refine and_congr_right fun hinside => and_congr_right fun _ => ?_
    exact (toPattern?_eq_ok hinside.length_eq).symm
  · intro R hinside hempty hp
    have hR : R.Occupies sizes := Box.occupies_iff.2 ⟨hinside, hempty⟩
    rw [toPattern?_eq_ok hinside.length_eq] at hp
    subst hp
    have hvalues := hR.allValues_toPattern
    refine ⟨hR.toBox_toPattern hpos, hvalues, fun pt => Box.mem_points_iff_contains, R.nodup_points,
      ⟨Box.head?_pointsOf hR.lo_lt_hi, Box.isChain_pointsOf hR.lo_lt_hi, ?_⟩, ?_, ?_⟩
    · intro pt hpt
      rw [Box.points, Box.getLast?_pointsOf hR.lo_lt_hi] at hpt
      cases hpt
      exact Box.advance_last R.spans
    · rw [hvalues, List.pairwise_map]
      exact hinside.pairwise_points
    · intro v hv
      rw [hvalues] at hv
      rcases List.mem_map.1 hv with ⟨pt, hpt, rfl⟩
      exact linearize_bounds (hinside.inArray hpt)

/-- Two by three cells of an array with a dimension of one cell in between. -/
def patch : AffinePattern :=
  { start := 9,
    axes := [{ stride := 1, trip := 2 }, { stride := 8, trip := 1 }, { stride := 8, trip := 3 }] }

theorem isSubRegion_iff_box_patch :
    patch.isSubRegion [8, 1, 4] false = true ∧
      patch.toBox? [8, 1, 4] = .ok { spans := [⟨1, 3⟩, ⟨0, 1⟩, ⟨1, 4⟩] } ∧
      patch.allValues = [9, 10, 17, 18, 25, 26] ∧ patch.allValues.Pairwise (· < ·) := by
  have hpos : ∀ s ∈ ([8, 1, 4] : List Int), 0 < s := by decide
  have hbox := isSubRegion_iff_box hpos patch
  have hinside : Box.Inside [8, 1, 4] { spans := [⟨1, 3⟩, ⟨0, 1⟩, ⟨1, 4⟩] } := by
    simp [Box.Inside]
  rcases hbox.2 _ hinside rfl rfl with ⟨htoBox, hvalues, _, _, _, hsorted, _⟩
  refine ⟨hbox.1.2 ⟨_, hinside, rfl, rfl⟩, htoBox, ?_, hsorted⟩
  rw [hvalues]
  rfl

end AffinePattern
end StreamEngine
