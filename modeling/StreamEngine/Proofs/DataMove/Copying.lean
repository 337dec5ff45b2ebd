import StreamEngine.Proofs.DataMove.Alignment

/-!
# Copying a region

One copy of a region is an align for each dimension, the next one starting from where the last one left
the region, and at the end a multicast along a dimension whose tiles have one element.

* `Room` — the region and the places it goes to lie in the array;
* `carried` — where the aligns take a point;
* `mem_drive_alignFrom`, `mem_drive_multicast` — every element of the region gets there;
* `readsTokens_moveCopy` — the commands of a copy read nothing but elements of the region.
-/

namespace StreamEngine
namespace Tiling

variable {t : Tiling} {skip : Option Nat} {d : Nat} {region : Box} {δ : Int} {δs : List Int}
  {masks : List StrideMask} {tokens : List Token} {p : List Int}

/-! ## Regions with room -/

/-- A region, and the same region moved along any of the dimensions from `d` on, lie in the array. -/
structure Room (t : Tiling) (skip : Option Nat) (d : Nat) (region : Box) (δs : List Int) : Prop where
  length_eq : region.spans.length = t.dims.length
  fits : d + δs.length = t.dims.length
  inside : ∀ (e : Nat) (dim : TiledDim) (s : Span), t.dims[e]? = some dim →
    region.spans[e]? = some s → 0 ≤ s.lo ∧ s.hi ≤ dim.size
  moved : ∀ (j : Nat) (δ : Int) (dim : TiledDim) (s : Span), δs[j]? = some δ →
    t.dims[d + j]? = some dim → region.spans[d + j]? = some s → skip ≠ some (d + j) →
    0 ≤ s.lo + δ ∧ s.hi + δ ≤ dim.size

theorem Room.exists_dim (h : t.Room skip d region (δ :: δs)) : ∃ dim, t.dims[d]? = some dim := by
  have hd : d < t.dims.length := by
    have := h.fits
    simp only [List.length_cons] at this
    omega
  exact ⟨t.dims[d], List.getElem?_eq_getElem hd⟩

theorem Room.exists_span (h : t.Room skip d region (δ :: δs)) :
    ∃ s, region.spans[d]? = some s := by
  rcases h.exists_dim with ⟨dim, hdim⟩
  have hd : d < region.spans.length := by
    rw [h.length_eq]
    exact (List.getElem?_eq_some_iff.1 hdim).1
  exact ⟨region.spans[d], List.getElem?_eq_getElem hd⟩

/-- A dimension is passed over. -/
theorem Room.pass (h : t.Room skip d region (δ :: δs)) : t.Room skip (d + 1) region δs where
  length_eq := h.length_eq
  fits := by
    have := h.fits
    simp only [List.length_cons] at this
    omega
  inside := h.inside
  moved := by
    intro j δ' dim s hδ hdim hs hskip
    rw [Nat.add_right_comm, Nat.add_assoc] at hdim hs hskip
    exact h.moved (j + 1) δ' dim s (by simpa using hδ) hdim hs hskip

/-- The region is moved along a dimension. -/
theorem Room.shift (h : t.Room skip d region (δ :: δs)) (hskip : skip ≠ some d) :
    t.Room skip (d + 1) (region.shift d δ) δs where
  length_eq := by simpa using h.length_eq
  fits := h.pass.fits
  inside := by
    intro e dim s hdim hs
    by_cases he : d = e
    · subst he
      rcases h.exists_span with ⟨s₀, hs₀⟩
      simp only [Box.shift, List.getElem?_modify_eq, hs₀, Option.map_eq_map, Option.map_some,
        Option.some.injEq] at hs
      rw [← hs]
      exact h.moved 0 δ dim s₀ rfl hdim hs₀ hskip
    · simp only [Box.shift, List.getElem?_modify_ne _ _ he] at hs
      exact h.inside e dim s hdim hs
  moved := by
    intro j δ' dim s hδ hdim hs hskip'
    have he : d ≠ d + 1 + j := by omega
    simp only [Box.shift, List.getElem?_modify_ne _ _ he] at hs
    exact h.pass.moved j δ' dim s hδ hdim hs hskip'

/-- A point of the region moved along a dimension lies in the array. -/
theorem Room.bounds (h : t.Room skip d region (δ :: δs)) (hskip : skip ≠ some d)
    (hin : region.contains p = true) {dim : TiledDim} {x : Int} (hdim : t.dims[d]? = some dim)
    (hx : p[d]? = some x) : 0 ≤ x + δ ∧ x + δ < dim.size := by
  rcases h.exists_span with ⟨s, hs⟩
  have hspan := box_contains_iff.1 hin d s x hs hx
  have hmoved := h.moved 0 δ dim s rfl hdim hs hskip
  omega

/-- A point that the moved region has came from a point of the region. -/
theorem Room.exists_unmoved (h : t.Room skip d region (δ :: δs)) (hp : t.Within p)
    (hin : (region.shift d δ).contains p = true) :
    ∃ q, t.Within q ∧ region.contains q = true ∧ q.modify d (· + δ) = p := by
  rcases h.exists_dim with ⟨dim, hdim⟩
  rcases h.exists_span with ⟨s, hs⟩
  rcases hp.exists_coordinate hdim with ⟨x, hx⟩
  have hback : (p.modify d (· + -δ)).modify d (· + δ) = p := by
    rw [shift_shift, Int.add_left_neg, shift_zero]
  have hinq : region.contains (p.modify d (· + -δ)) = true := by
    rw [← hback] at hin
    exact (box_contains_shift d δ).1 hin
  have hspan := box_contains_iff.1 hinq d s (x + -δ) hs (by simp [hx])
  have hinside := h.inside d dim s hdim hs
  exact ⟨_, hp.shift hdim hx (by omega) (by omega), hinq, hback⟩

/-! ## Aligns in order -/

/-- Where the aligns from dimension `d` on take a point. -/
def carried (skip : Option Nat) : Nat → List Int → List Int → List Int
  | _, [], p => p
  | d, δ :: δs, p =>
    carried skip (d + 1) δs (if skip = some d ∨ δ = 0 then p else p.modify d (· + δ))

theorem getElem?_carried (e : Nat) :
    (carried skip d δs p)[e]? =
      if d ≤ e ∧ skip ≠ some e then p[e]?.map (· + δs.getD (e - d) 0) else p[e]? := by
  induction δs generalizing d p with
  | nil => simp [carried]
  | cons δ δs ih =>
      rw [carried, ih]
      -- the first distance belongs to dimension `d`, and the others to those behind it
      by_cases he : d = e
      · subst he
        rw [if_neg (by omega)]
        by_cases hpass : skip = some d ∨ δ = 0
        · rw [if_pos hpass]
          rcases hpass with hskip | hzero
          · simp [hskip]
          · simp [hzero]
        · simp only [not_or] at hpass
          simp [hpass]
      · have hentry : (if skip = some d ∨ δ = 0 then p else p.modify d (· + δ))[e]? = p[e]? := by
          by_cases hpass : skip = some d ∨ δ = 0
          · rw [if_pos hpass]
          · rw [if_neg hpass, List.getElem?_modify_ne _ _ he]
        rw [hentry]
        by_cases hle : d ≤ e
        · have hindex : e - d = e - (d + 1) + 1 := by omega
          rw [hindex, List.getD_cons_succ]
          have hiff : d + 1 ≤ e ∧ skip ≠ some e ↔ d ≤ e ∧ skip ≠ some e := by
            constructor
            · rintro ⟨_, h⟩
              exact ⟨hle, h⟩
            · rintro ⟨_, h⟩
              exact ⟨by omega, h⟩
          simp only [hiff]
        · rw [if_neg (by omega), if_neg (by omega)]

theorem within_carried (h : t.Room skip d region δs) (hp : t.Within p)
    (hin : region.contains p = true) : t.Within (carried skip d δs p) := by
  induction δs generalizing d region p with
  | nil => exact hp
  | cons δ δs ih =>
      rw [carried]
      by_cases hpass : skip = some d ∨ δ = 0
      · rw [if_pos hpass]
        exact ih h.pass hp hin
      · rw [if_neg hpass]
        rcases h.exists_dim with ⟨dim, hdim⟩
        rcases hp.exists_coordinate hdim with ⟨x, hx⟩
        have hskip : skip ≠ some d := fun hs => hpass (Or.inl hs)
        rcases h.bounds hskip hin hdim hx with ⟨h0, h1⟩
        exact ih (h.shift hskip) (hp.shift hdim hx h0 h1) ((box_contains_shift d δ).2 hin)

theorem length_alignFrom (h : t.Room skip d region δs) :
    (t.alignFrom skip d region δs).region.spans.length = t.dims.length := by
  induction δs generalizing d region with
  | nil => exact h.length_eq
  | cons δ δs ih =>
      rw [alignFrom]
      by_cases hpass : skip = some d ∨ δ = 0
      · rw [if_pos hpass]
        exact ih h.pass
      · rw [if_neg hpass]
        exact ih (h.shift fun hs => hpass (Or.inl hs))

/-- The region after the aligns has the points that they take there. -/
theorem contains_alignFrom (skip : Option Nat) (d : Nat) (region : Box) (δs p : List Int) :
    (t.alignFrom skip d region δs).region.contains (carried skip d δs p) = true ↔
      region.contains p = true := by
  induction δs generalizing d region p with
  | nil => exact Iff.rfl
  | cons δ δs ih =>
      rw [alignFrom, carried]
      by_cases hpass : skip = some d ∨ δ = 0
      · rw [if_pos hpass, if_pos hpass]
        exact ih (d + 1) region p
      · rw [if_neg hpass, if_neg hpass]
        exact (ih (d + 1) _ _).trans (box_contains_shift d δ)

/-- Aligns over no distance do nothing. -/
theorem alignFrom_still (h : ∀ (j : Nat) (δ : Int), δs[j]? = some δ → skip = some (d + j) ∨ δ = 0)
    (region : Box) (p : List Int) :
    t.alignFrom skip d region δs = { commands := [], region } ∧ carried skip d δs p = p := by
  induction δs generalizing d with
  | nil => exact ⟨rfl, rfl⟩
  | cons δ δs ih =>
      have hpass : skip = some d ∨ δ = 0 := h 0 δ rfl
      rw [alignFrom, carried, if_pos hpass, if_pos hpass]
      apply ih
      intro j δ' hj
      have := h (j + 1) δ' (by simpa using hj)
      rwa [Nat.add_right_comm, Nat.add_assoc]

/-- An element may pass the aligns from dimension `d` on: in every dimension, either the distance keeps
it on the stride masks, or it stays in its tile and no later dimension moves. -/
def Passes (t : Tiling) (masks : List StrideMask) (skip : Option Nat) (d : Nat) (δs p : List Int) :
    Prop :=
  ∀ (j : Nat) (δ : Int) (dim : TiledDim) (x : Int), δs[j]? = some δ → t.dims[d + j]? = some dim →
    p[d + j]? = some x → skip ≠ some (d + j) →
    (∀ m ∈ masks, m.dim = d + j → m.stride ∣ dim.tile ∧ m.stride ∣ δ) ∨
      (x + δ) / dim.tile = x / dim.tile ∧
        ∀ (k : Nat) (δ' : Int), j < k → δs[k]? = some δ' → skip = some (d + k) ∨ δ' = 0

theorem Passes.tail (h : t.Passes masks skip d (δ :: δs) p) {q : List Int}
    (hq : ∀ e, d < e → q[e]? = p[e]?) : t.Passes masks skip (d + 1) δs q := by
  intro j δ' dim x hδ hdim hx hskip
  have hindex : d + 1 + j = d + (j + 1) := by omega
  rw [hindex] at hdim hx hskip
  rw [hq _ (by omega)] at hx
  rcases h (j + 1) δ' dim x (by simpa using hδ) hdim hx hskip with hstride | ⟨hsame, hstill⟩
  · refine Or.inl ?_
    rwa [hindex]
  · refine Or.inr ⟨hsame, ?_⟩
    intro k δ'' hk hδ'
    have := hstill (k + 1) δ'' (by omega) (by simpa using hδ')
    rwa [Nat.add_right_comm, Nat.add_assoc]

/-- The aligns carry an element of the region to where they take its point. -/
theorem mem_drive_alignFrom (h : t.Room skip d region δs) (hp : t.Within p)
    (hin : region.contains p = true) (hmask : t.OnStrides masks p)
    (hpass : t.Passes masks skip d δs p) {i : Nat} (hk : t.tokenAt i p ∈ tokens) :
    t.tokenAt i (carried skip d δs p) ∈
      t.drive masks tokens (t.alignFrom skip d region δs).commands := by
  induction δs generalizing d region p tokens with
  | nil => exact hk
  | cons δ δs ih =>
      rw [alignFrom, carried]
      by_cases hstill : skip = some d ∨ δ = 0
      · rw [if_pos hstill, if_pos hstill]
        exact ih h.pass hp hin hmask (hpass.tail fun _ _ => rfl) hk
      · rw [if_neg hstill, if_neg hstill]
        have hskip : skip ≠ some d := fun hs => hstill (Or.inl hs)
        rcases h.exists_dim with ⟨dim, hdim⟩
        rcases hp.exists_coordinate hdim with ⟨x, hx⟩
        rcases h.bounds hskip hin hdim hx with ⟨h0, h1⟩
        rw [drive_append]
        rcases hpass 0 δ dim x rfl hdim hx hskip with hstride | ⟨hsame, hlast⟩
        · have hmoved := mem_drive_align hdim h.length_eq hp hx hin h0 h1 hmask (Or.inr hstride) hk
          refine ih (h.shift hskip) (hp.shift hdim hx h0 h1) ((box_contains_shift d δ).2 hin)
            (hmask.shift hdim hstride) ?_ hmoved
          exact hpass.tail fun e he => List.getElem?_modify_ne _ _ (by omega)
        · -- the element may have left the stride masks, but nothing moves any more
          have hmoved := mem_drive_align hdim h.length_eq hp hx hin h0 h1 hmask (Or.inl hsame) hk
          have hrest : ∀ (j : Nat) (δ' : Int), δs[j]? = some δ' →
              skip = some (d + 1 + j) ∨ δ' = 0 := by
            intro j δ' hj
            have := hlast (j + 1) δ' (by omega) (by simpa using hj)
            rwa [Nat.add_right_comm, Nat.add_assoc]
          have hstay := alignFrom_still (t := t) hrest (region.shift d δ) (p.modify d (· + δ))
          rw [hstay.1, hstay.2, drive_nil]
          exact hmoved

/-- The region that the aligns leave is full of elements if the one they start from is, and the aligns
read nothing else. -/
theorem readsTokens_alignFrom (h : t.Room skip d region δs)
    (hfull : ∀ p, t.Within p → region.contains p = true → ∃ i, t.tokenAt i p ∈ tokens) :
    t.ReadsTokens tokens ((t.alignFrom skip d region δs).commands.map (t.dressed [])) ∧
      ∀ p, t.Within p → (t.alignFrom skip d region δs).region.contains p = true →
        ∃ i, t.tokenAt i p ∈ t.drive [] tokens (t.alignFrom skip d region δs).commands := by
  induction δs generalizing d region tokens with
  | nil => exact ⟨trivial, hfull⟩
  | cons δ δs ih =>
      rw [alignFrom]
      by_cases hstill : skip = some d ∨ δ = 0
      · rw [if_pos hstill]
        exact ih h.pass hfull
      · rw [if_neg hstill]
        have hskip : skip ≠ some d := fun hs => hstill (Or.inl hs)
        rcases h.exists_dim with ⟨dim, hdim⟩
        -- the region moves as a whole, so it stays full
        have hmoved : ∀ p, t.Within p → (region.shift d δ).contains p = true →
            ∃ i, t.tokenAt i p ∈ t.drive [] tokens (t.align d δ region) := by
          intro p hp hin
          rcases h.exists_unmoved hp hin with ⟨q, hq, hinq, rfl⟩
          rcases hq.exists_coordinate hdim with ⟨x, hx⟩
          rcases h.bounds hskip hinq hdim hx with ⟨h0, h1⟩
          rcases hfull q hq hinq with ⟨i, hi⟩
          refine ⟨i, mem_drive_align hdim h.length_eq hq hx hinq h0 h1 (onStrides_nil q)
            (Or.inr ?_) hi⟩
          intro m hm
          cases hm
        rcases ih (h.shift hskip) hmoved with ⟨hreads, hend⟩
        refine ⟨?_, ?_⟩
        · rw [List.map_append, readsTokens_append]
          exact ⟨readsTokens_align hdim h.length_eq hfull, hreads⟩
        · simpa only [drive_append] using hend

/-! ## Multicasts -/

/-- The copies of tiles along a dimension whose tiles have one element. -/
def wideCommand (t : Tiling) (r : Multicast) (delta : Int) (dim : TiledDim) : Command :=
  { kind := .interArray (delta * t.tileStride r.dim)
    bitlineMask := Box.full t.tileSizes
    tileMask := (Box.full t.tileCounts).withDim r.dim
      { lo := max 0 (-delta), hi := min dim.count (dim.count - delta - r.count + 1) }
    reuse := some r }

section Multicast

variable {r : Multicast} {delta : Int} {dim : TiledDim} {x : Int}

theorem multicast_eq (hdim : t.dims[r.dim]? = some dim) :
    t.multicast r delta region = t.maskByRegion (t.wideCommand r delta dim) region := by
  simp [multicast, hdim, wideCommand]

theorem shaped_wideCommand : t.Shaped (t.wideCommand r delta dim) := by
  simp [Shaped, wideCommand, Box.full, Box.withDim, tileCounts, tileSizes]

theorem covers_wideCommand (hdim : t.dims[r.dim]? = some dim) (htile : dim.tile = 1)
    (hp : t.Within p) (hx : p[r.dim]? = some x) :
    t.Covers (t.wideCommand r delta dim) p ↔
      0 ≤ x + delta ∧ x + delta + r.count ≤ dim.size := by
  have hd : r.dim < t.dims.length := (List.getElem?_eq_some_iff.1 hdim).1
  have hline : (Box.full t.tileSizes).contains (t.linePoint p) = true :=
    box_contains_full (inArray_linePoint hp)
  have htilemask : (Box.full t.tileCounts).contains (t.tilePoint p) = true :=
    box_contains_full (inArray_tilePoint hp)
  have hbounds := hp.bounds hdim hx
  have hsize : dim.size = dim.count := by rw [TiledDim.size, htile, Int.one_mul]
  simp only [Covers, wideCommand, hline, and_true]
  rw [box_contains_withDim htilemask (by simpa [Box.full, tileCounts] using hd)
    (getElem?_tilePoint hdim hx), contains_iff, htile, Int.ediv_one]
  simp only
  omega

theorem displaced_wideCommand (hdim : t.dims[r.dim]? = some dim) (htile : dim.tile = 1)
    (hp : t.Within p) :
    t.displaced (t.wideCommand r delta dim) (t.placeOf p) =
      (List.range r.count.toNat).map fun (j : Nat) =>
        t.placeOf (p.modify r.dim (· + (delta + j))) := by
  have hplace : ∀ s : Int, t.placeOf (p.modify r.dim (· + s)) =
      { t.placeOf p with tile := (t.placeOf p).tile + s * t.tileStride r.dim } := by
    intro s
    have h := placeOf_shift_tile hp hdim s
    rwa [htile, Int.mul_one] at h
  have hdist : t.displaced (t.wideCommand r delta dim) (t.placeOf p) =
      (t.distances (delta * t.tileStride r.dim) (some r)).map fun s =>
        { t.placeOf p with tile := (t.placeOf p).tile + s } := rfl
  rw [hdist, distances, List.map_map]
  refine List.map_congr_left ?_
  intro j _
  rw [hplace, Int.add_mul]
  rfl

/-- A multicast carries an element of the region to every place in a row. -/
theorem mem_drive_multicast (hdim : t.dims[r.dim]? = some dim) (htile : dim.tile = 1)
    (hregion : region.spans.length = t.dims.length) (hp : t.Within p) (hx : p[r.dim]? = some x)
    (hin : region.contains p = true) (h0 : 0 ≤ x + delta) (h1 : x + delta + r.count ≤ dim.size)
    (hmask : t.OnStrides masks p) {j : Nat} (hj : j < r.count.toNat) {i : Nat}
    (hk : t.tokenAt i p ∈ tokens) :
    t.tokenAt i (p.modify r.dim (· + (delta + j))) ∈
      t.drive masks tokens (t.multicast r delta region) := by
  rw [multicast_eq hdim]
  refine mem_drive_maskByRegion shaped_wideCommand hregion hp
    ((covers_wideCommand hdim htile hp hx).2 ⟨h0, h1⟩) hin hmask hk ?_
  rw [displaced_wideCommand hdim htile hp]
  exact List.mem_map.2 ⟨j, List.mem_range.2 hj, rfl⟩

/-- It reads nothing but elements of a region that is full of them. -/
theorem readsTokens_multicast (hdim : t.dims[r.dim]? = some dim) (htile : dim.tile = 1)
    (hregion : region.spans.length = t.dims.length)
    (hfull : ∀ p, t.Within p → region.contains p = true → ∃ i, t.tokenAt i p ∈ tokens) :
    t.ReadsTokens tokens ((t.multicast r delta region).map (t.dressed [])) := by
  rw [multicast_eq hdim]
  refine readsTokens_maskByRegion shaped_wideCommand hregion ?_
  intro p hp hcov hin
  rcases hp.exists_coordinate hdim with ⟨x, hx⟩
  rcases (covers_wideCommand hdim htile hp hx).1 hcov with ⟨h0, h1⟩
  refine ⟨hfull p hp hin, ?_⟩
  intro l hl
  rw [displaced_wideCommand hdim htile hp] at hl
  rcases List.mem_map.1 hl with ⟨j, hj, rfl⟩
  rw [List.mem_range] at hj
  exact hasPlace_placeOf (hp.shift hdim hx (by omega) (by omega))

end Multicast

/-! ## One copy -/

/-- A multicast is along a dimension whose tiles have one element, and the region and all places it is
copied to lie in the array. -/
structure Spreads (t : Tiling) (r : Multicast) (region : Box) (δs : List Int) (dim : TiledDim) :
    Prop where
  dim_eq : t.dims[r.dim]? = some dim
  tile_eq : dim.tile = 1
  inside : ∀ s, region.spans[r.dim]? = some s →
    0 ≤ s.lo + δs.getD r.dim 0 ∧ s.hi + δs.getD r.dim 0 + r.count ≤ dim.size + 1

/-- Where a copy takes a point, if the multicast takes it `j` places on. -/
def arrival (wide : Option Multicast) (δs : List Int) (j : Nat) (p : List Int) : List Int :=
  match wide with
  | none => carried none 0 δs p
  | some r => (carried (some r.dim) 0 δs p).modify r.dim (· + (δs.getD r.dim 0 + j))

theorem getElem?_arrival (wide : Option Multicast) (δs : List Int) (j : Nat) (p : List Int) (e : Nat) :
    (arrival wide δs j p)[e]? = p[e]?.map
      (· + (δs.getD e 0 + if wide.map Multicast.dim = some e then (j : Int) else 0)) := by
  cases wide with
  | none => simp [arrival, getElem?_carried]
  | some r =>
      by_cases he : r.dim = e
      · subst he
        simp [arrival, getElem?_carried]
      · simp [arrival, getElem?_carried, he]

/-- Distances that the strides divide keep an element on the stride masks. -/
theorem onStrides_carried (h : d + δs.length ≤ t.dims.length) (hmask : t.OnStrides masks p)
    (hstride : ∀ m ∈ masks, ∀ (j : Nat) (δ : Int) (dim : TiledDim), δs[j]? = some δ →
      t.dims[d + j]? = some dim → m.dim = d + j → m.stride ∣ dim.tile ∧ m.stride ∣ δ) :
    t.OnStrides masks (carried skip d δs p) := by
  induction δs generalizing d p with
  | nil => exact hmask
  | cons δ δs ih =>
      rw [carried]
      simp only [List.length_cons] at h
      have hrest : ∀ m ∈ masks, ∀ (j : Nat) (δ : Int) (dim : TiledDim), δs[j]? = some δ →
          t.dims[d + 1 + j]? = some dim → m.dim = d + 1 + j →
          m.stride ∣ dim.tile ∧ m.stride ∣ δ := by
        intro m hm j δ' dim hδ hdim hmd
        have hindex : d + 1 + j = d + (j + 1) := by omega
        rw [hindex] at hdim hmd
        exact hstride m hm (j + 1) δ' dim (by simpa using hδ) hdim hmd
      by_cases hpass : skip = some d ∨ δ = 0
      · rw [if_pos hpass]
        exact ih (by omega) hmask hrest
      · rw [if_neg hpass]
        have hdim : t.dims[d]? = some t.dims[d] := List.getElem?_eq_getElem (by omega)
        refine ih (by omega) (hmask.shift hdim ?_) hrest
        intro m hm hmd
        exact hstride m hm 0 δ _ rfl hdim hmd

section MoveCopy

variable {wide : Option Multicast}

/-- The commands of a copy carry an element of the region to each of its places. -/
theorem mem_drive_moveCopy (h : t.Room (wide.map Multicast.dim) 0 region δs) (hp : t.Within p)
    (hin : region.contains p = true) (hmask : t.OnStrides masks p)
    (hpass : t.Passes masks (wide.map Multicast.dim) 0 δs p) {j : Nat}
    (hwide : ∀ r, wide = some r → j < r.count.toNat ∧ (∃ dim, t.Spreads r region δs dim) ∧
      t.OnStrides masks (carried (some r.dim) 0 δs p)) {i : Nat} (hk : t.tokenAt i p ∈ tokens) :
    t.tokenAt i (arrival wide δs j p) ∈ t.drive masks tokens (t.moveCopy wide region δs) := by
  have haligned := mem_drive_alignFrom h hp hin hmask hpass hk
  cases wide with
  | none => exact haligned
  | some r =>
      rcases hwide r rfl with ⟨hj, ⟨dim, hspread⟩, hon⟩
      have hdim := hspread.dim_eq
      rcases hp.exists_coordinate hdim with ⟨x, hx⟩
      have hlen : r.dim < region.spans.length := by
        rw [h.length_eq]
        exact (List.getElem?_eq_some_iff.1 hdim).1
      have hs : region.spans[r.dim]? = some region.spans[r.dim] := List.getElem?_eq_getElem hlen
      have hspan := box_contains_iff.1 hin r.dim _ x hs hx
      have hroom := hspread.inside _ hs
      have hx' : (carried (some r.dim) 0 δs p)[r.dim]? = some x := by simp [getElem?_carried, hx]
      have hmoved := (contains_alignFrom (t := t) (some r.dim) 0 region δs p).2 hin
      simp only [moveCopy, drive_append, arrival]
      exact mem_drive_multicast hdim hspread.tile_eq (length_alignFrom h) (within_carried h hp hin)
        hx' hmoved (by omega) (by omega) hon hj haligned

/-- They read nothing but elements of a region that is full of them, or of places it was moved to. -/
theorem readsTokens_moveCopy (h : t.Room (wide.map Multicast.dim) 0 region δs)
    (hwide : ∀ r, wide = some r → ∃ dim, t.Spreads r region δs dim)
    (hfull : ∀ p, t.Within p → region.contains p = true → ∃ i, t.tokenAt i p ∈ tokens) :
    t.ReadsTokens tokens ((t.moveCopy wide region δs).map (t.dressed [])) := by
  rcases readsTokens_alignFrom h hfull with ⟨hreads, hfull'⟩
  cases wide with
  | none => exact hreads
  | some r =>
      rcases hwide r rfl with ⟨dim, hspread⟩
      simp only [moveCopy, List.map_append]
      exact readsTokens_append.2 ⟨hreads,
        readsTokens_multicast hspread.dim_eq hspread.tile_eq (length_alignFrom h) hfull'⟩

end MoveCopy

/-! ## Where commands come from -/

theorem mem_alignLane {dim : TiledDim} {l : Lane} {c : Command}
    (h : c ∈ t.alignLane d dim region l) :
    c ∈ t.maskByRegion (t.lineCommand d l) region ∨
      c ∈ t.maskByRegion (t.tileCommand d dim l) (region.shift d l.lineShift) := by
  rw [alignLane_eq, List.mem_append] at h
  refine h.imp ?_ ?_
  · intro h
    by_cases hline : l.lineShift = 0
    · rw [if_pos hline] at h
      cases h
    · rwa [if_neg hline] at h
  · intro h
    by_cases htile : l.tileShift = 0
    · rw [if_pos htile] at h
      cases h
    · rwa [if_neg htile] at h

/-- What a command of a lane does to a point of its region that it covers: it takes the point along the
dimension, by the shift of the bitlines or by that of the tiles. -/
theorem displaced_alignLane {dim : TiledDim} {delta : Int} {l : Lane} {c : Command} {p : List Int}
    {x : Int} (hl : l.Fits dim.tile delta) (hdim : t.dims[d]? = some dim)
    (hregion : region.spans.length = t.dims.length) (hc : c ∈ t.alignLane d dim region l)
    (hp : t.Within p) (hx : p[d]? = some x) (hcov : t.Covers c p) :
    (l.lines.contains (x % dim.tile) = true ∧ region.contains p = true ∧
        t.displaced c (t.placeOf p) = [t.placeOf (p.modify d (· + l.lineShift))] ∧
        t.Within (p.modify d (· + l.lineShift))) ∨
      (t.displaced c (t.placeOf p) = [t.placeOf (p.modify d (· + l.tileShift * dim.tile))] ∧
        t.Within (p.modify d (· + l.tileShift * dim.tile))) := by
  rcases mem_alignLane hc with hc | hc
  · refine Or.inl ?_
    rcases (exists_covers_maskByRegion (shaped_lineCommand d l) hregion hp).1 ⟨c, hc, hcov⟩ with
      ⟨hlinecov, hin⟩
    rcases mem_maskByRegion hc with ⟨pieces, rfl⟩
    have hlines := (covers_lineCommand hdim hp hx).1 hlinecov
    exact ⟨hlines, hin, displaced_lineCommand hl hdim hp hx hlines⟩
  · refine Or.inr ?_
    rcases (exists_covers_maskByRegion (shaped_tileCommand d dim l) (by simpa using hregion)
      hp).1 ⟨c, hc, hcov⟩ with ⟨htilecov, _⟩
    rcases mem_maskByRegion hc with ⟨pieces, rfl⟩
    have hmove := ((covers_tileCommand hdim hp hx).1 htilecov).1
    exact displaced_tileCommand (l := l) hdim hp hx hmove

theorem mem_align {c : Command} (h : c ∈ t.align d δ region) :
    ∃ dim, t.dims[d]? = some dim ∧ ∃ l ∈ lanes dim.tile δ, c ∈ t.alignLane d dim region l := by
  unfold align at h
  cases hdim : t.dims[d]? with
  | none =>
      rw [hdim] at h
      cases h
  | some dim =>
      rw [hdim] at h
      exact ⟨dim, rfl, List.mem_flatMap.1 h⟩

/-- A command of the aligns belongs to one of them. Until then the region has only moved along the
dimensions before. -/
theorem mem_alignFrom {c : Command} (h : c ∈ (t.alignFrom skip d region δs).commands) :
    ∃ (j : Nat) (δ : Int) (before : Box), δs[j]? = some δ ∧ c ∈ t.align (d + j) δ before ∧
      before.spans.length = region.spans.length ∧
      ∀ e, d + j ≤ e ∨ skip = some e → before.spans[e]? = region.spans[e]? := by
  induction δs generalizing d region with
  | nil => cases h
  | cons δ δs ih =>
      rw [alignFrom] at h
      by_cases hpass : skip = some d ∨ δ = 0
      · rw [if_pos hpass] at h
        rcases ih h with ⟨j, δ', before, hδ, hc, hlen, hspans⟩
        refine ⟨j + 1, δ', before, by simpa using hδ, ?_, hlen, ?_⟩
        · rwa [Nat.add_right_comm, Nat.add_assoc] at hc
        · intro e he
          exact hspans e (he.imp_left (by omega))
      · rw [if_neg hpass] at h
        rcases List.mem_append.1 h with h | h
        · exact ⟨0, δ, region, rfl, h, rfl, fun _ _ => rfl⟩
        · rcases ih h with ⟨j, δ', before, hδ, hc, hlen, hspans⟩
          refine ⟨j + 1, δ', before, by simpa using hδ, ?_, by simpa using hlen, ?_⟩
          · rwa [Nat.add_right_comm, Nat.add_assoc] at hc
          · intro e he
            -- what moves here is neither a later dimension nor the one that is skipped
            have hde : d ≠ e := by
              rintro rfl
              rcases he with he | he
              · omega
              · exact hpass (Or.inl he)
            rw [hspans e (he.imp_left (by omega)), Box.shift, List.getElem?_modify_ne _ _ hde]

/-- Every command of a copy has something to do. -/
theorem not_isEmpty_of_mem_moveCopy {wide : Option Multicast} {c : Command}
    (h : c ∈ t.moveCopy wide region δs) : c.isEmpty = false := by
  have haligned : ∀ skip, c ∈ (t.alignFrom skip 0 region δs).commands → c.isEmpty = false := by
    intro skip hc
    rcases mem_alignFrom hc with ⟨j, δ, before, _, hc, _⟩
    rcases mem_align hc with ⟨dim, _, l, _, hc⟩
    rcases mem_alignLane hc with hc | hc
    · exact not_isEmpty_of_mem_maskByRegion hc
    · exact not_isEmpty_of_mem_maskByRegion hc
  cases wide with
  | none => exact haligned none h
  | some r =>
      rcases List.mem_append.1 h with h | h
      · exact haligned (some r.dim) h
      · unfold multicast at h
        split at h
        · cases h
        · exact not_isEmpty_of_mem_maskByRegion h

end Tiling
end StreamEngine
