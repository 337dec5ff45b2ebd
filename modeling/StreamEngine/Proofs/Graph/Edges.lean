import StreamEngine.Proofs.Graph.Changes

/-!
# Edges in every graph

Edges are added in five ways, one of which adds two at once, and a split hands all edges of a stream on to
its strands. Whichever way an edge came about, translating indices along it divides by its reuse count and
takes its skip away, so it must be legal.

- `Config.WellEdged` : legal edges, at most one of which forwards values to a receiver;
- `Graph.Entered`, `Graph.joins` : what a key stood for first, and how often streams were joined;
- `Graph.Gained` : each time is one edge on either side, and nothing else adds such edges;
- `Graph.run_edges` : all of it for every graph that changes lead to.
-/

namespace StreamEngine

namespace Config

/-- The number of edges along which the stream feeds `dep`. -/
def uses (config : Config) (dep : ConfigId) : Nat :=
  config.depEdges.countP (Edge.feeds dep)

/-- The number of edges that answer an edge along which `base` feeds the stream. -/
def answers (config : Config) (base : ConfigId) : Nat :=
  config.baseEdges.countP (Edge.answers base)

structure WellEdged (config : Config) : Prop where
  legal : ∀ e ∈ config.baseEdges ++ config.depEdges, e.Legal
  sends : ∀ recv, (config.baseEdges ++ config.depEdges).countP (Edge.sends recv) ≤ 1
  kind : ∀ e ∈ config.baseEdges, e.kind = .baseOn

variable {config : Config} {change : Graph.Change} {id : ConfigId} {bs ds : List Edge}

theorem countP_sends_of_kind (hkind : ∀ e ∈ bs, e.kind = .baseOn) (recv : ConfigId) :
    bs.countP (Edge.sends recv) = 0 := by
  refine List.countP_eq_zero.2 fun e he hsends => ?_
  rw [Edge.sends, hkind e he] at hsends
  cases hsends

theorem wellEdged_of_bare (hbase : config.baseEdges = []) (hdep : config.depEdges = []) :
    config.WellEdged := by
  refine ⟨?_, ?_, ?_⟩
  · intro e he
    rw [hbase, hdep] at he
    cases he
  · intro recv
    rw [hbase, hdep]
    exact Nat.zero_le 1
  · intro e he
    rw [hbase] at he
    cases he

theorem WellEdged.withEdges (h : config.WellEdged) (hadds : change.Adds id config bs ds) :
    (config.withEdges bs ds).WellEdged := by
  have hbase : ∀ e ∈ config.baseEdges ++ bs, e.kind = .baseOn := by
    intro e he
    rcases List.mem_append.1 he with he | he
    · exact h.kind e he
    · exact hadds.kind e he
  refine ⟨?_, ?_, hbase⟩
  · intro e he
    have hor : e ∈ config.baseEdges ++ config.depEdges ∨ e ∈ bs ++ ds := by
      simp only [Config.withEdges, List.mem_append] at he ⊢
      tauto
    exact hor.elim (h.legal e) (hadds.legal e)
  · intro recv
    have hold := h.sends recv
    rw [List.countP_append, countP_sends_of_kind h.kind, Nat.zero_add] at hold
    rw [Config.withEdges, List.countP_append, countP_sends_of_kind hbase, Nat.zero_add]
    rcases hadds.sends recv with hnone | hone
    · rw [List.countP_append, hnone]
      exact hold
    · exact hone

end Config

namespace Graph

variable {g g' : Graph} {c id base dep : ConfigId} {config config' : Config} {change : Change}
  {changes : List Change} {found found' : Option Config}

/-- A stream that is entered has no edges yet. -/
def Change.Bare : Change → Prop
  | .configure stream _ => stream.baseEdges = [] ∧ stream.depEdges = []
  | _ => True

/-! ## Legal edges -/

/-- A strand has the edges of its stream. -/
theorem Fate.wellEdged (h : Fate g change id found found') (hbare : change.Bare)
    (hgraph : ∀ c config, g.find? c = some config → config.WellEdged)
    (hfound : ∀ config, found = some config → config.WellEdged) (hfound' : found' = some config) :
    config.WellEdged := by
  cases h with
  | absent => cases hfound'
  | @entered stream whole hchange hnew =>
      cases hfound'
      rw [hchange] at hbare
      exact Config.wellEdged_of_bare hbare.1 hbare.2
  | splitOff hchange hstream hnew =>
      cases hfound'
      have hedges := hgraph _ _ hstream
      exact ⟨hedges.legal, hedges.sends, hedges.kind⟩
  | joined hadds =>
      cases hfound'
      exact (hfound _ rfl).withEdges hadds
  | divided hchange haccepts =>
      cases hfound'
      have hedges := hfound _ rfl
      exact ⟨hedges.legal, hedges.sends, hedges.kind⟩
  | counted hplain =>
      cases hfound'
      have hedges := hfound _ rfl
      exact ⟨hedges.legal, hedges.sends, hedges.kind⟩
  | freed hchange => cases hfound'

theorem wellEdged_of_apply (hbare : change.Bare)
    (hgraph : ∀ c config, g.find? c = some config → config.WellEdged) (h : g.apply change = .ok g')
    (hfind : g'.find? id = some config) : config.WellEdged :=
  ((effect_of_apply h).fate id).wellEdged hbare hgraph (hgraph id) hfind

/-! ## Indirect streams -/

/-- How often the changes make `dep` an indirect stream of `base`. -/
def joins (changes : List Change) (base dep : ConfigId) : Nat :=
  changes.countP fun change => change.joins base dep

theorem joins_concat : joins (changes ++ [change]) base dep =
    joins changes base dep + (change.joins base dep).toNat := by
  rw [joins, List.countP_append, List.countP_singleton]
  cases change.joins base dep <;> rfl

/-- Only streams that are live are joined. -/
theorem live_of_joins (h : g.apply change = .ok g') (hjoins : change.joins base dep = true) :
    (∃ config, g.find? base = some config) ∧ ∃ config, g.find? dep = some config := by
  cases change with
  | addUsedBy b d reuse pred =>
      rw [Change.joins, Bool.and_eq_true, beq_iff_eq, beq_iff_eq] at hjoins
      rcases addUsedBy_eq_ok h with ⟨_, forward, backward, _, _, hforward, hbackward, _, _⟩
      rw [← hjoins.1, ← hjoins.2]
      exact ⟨(edgeTo_eq_ok hbackward).1, (edgeTo_eq_ok hforward).1⟩
  | _ => cases hjoins

/-- The key stood for this configuration first. -/
def Entered (changes : List Change) (id : ConfigId) (config : Config) : Prop :=
  ∃ before change g g', before ++ [change] <+: changes ∧ run before = .ok g ∧ g.find? id = none ∧
    g.apply change = .ok g' ∧ g'.find? id = some config

theorem Entered.concat (h : Entered changes id config) (change : Change) :
    Entered (changes ++ [change]) id config := by
  rcases h with ⟨before, first, g, g', hprefix, hrest⟩
  exact ⟨before, first, g, g', hprefix.trans (List.prefix_append changes [change]), hrest⟩

/-- What the configuration under a key has gained since it was entered. -/
structure Gained (changes : List Change) (id : ConfigId) (first config : Config) : Prop where
  entered : Entered changes id first
  /-- Strands are entered with edges, streams are not. -/
  whole : config.parent = none → first.baseEdges = [] ∧ first.depEdges = []
  uses : ∀ dep, config.uses dep = first.uses dep + joins changes id dep
  answers : ∀ base, config.answers base = first.answers base + joins changes base id

/-- A configuration that stays gains an edge on its side when it is joined, and none otherwise. -/
theorem Fate.gained {first : Config} (h : Fate g change id (some config) (some config'))
    (hgained : Gained changes id first config) : Gained (changes ++ [change]) id first config' := by
  have hplain : change.IsPlain → config'.depEdges = config.depEdges →
      config'.baseEdges = config.baseEdges → config'.parent = config.parent →
      Gained (changes ++ [change]) id first config' := by
    intro hplain hdep hbase hparent
    refine ⟨hgained.entered.concat change, hparent ▸ hgained.whole, ?_, ?_⟩
    · intro dep
      rw [joins_concat, hplain, Config.uses, hdep]
      exact hgained.uses dep
    · intro base
      rw [joins_concat, hplain, Config.answers, hbase]
      exact hgained.answers base
  cases h with
  | joined hadds =>
      refine ⟨hgained.entered.concat change, hgained.whole, ?_, ?_⟩
      · intro dep
        rw [joins_concat, ← Nat.add_assoc, ← hgained.uses, Config.uses, Config.withEdges,
          List.countP_append, hadds.feeds]
        rfl
      · intro base
        rw [joins_concat, ← Nat.add_assoc, ← hgained.answers, Config.answers, Config.withEdges,
          List.countP_append, hadds.answers]
        rfl
  | divided hchange haccepts =>
      rw [hchange] at hplain ⊢
      exact hplain (fun _ _ => rfl) rfl rfl rfl
  | counted hcounted => exact hplain hcounted rfl rfl rfl

/-- Keys that nothing has yet were never joined, and every live configuration has gained just the edges
of the times that it was joined. -/
def Balanced (changes : List Change) (g : Graph) : Prop :=
  (∀ base dep, g.slots.length ≤ base.val ∨ g.slots.length ≤ dep.val → joins changes base dep = 0) ∧
    ∀ id config, g.find? id = some config → ∃ first, Gained changes id first config

theorem Balanced.apply (h : Balanced changes g) (hrun : run changes = .ok g) (hbare : change.Bare)
    (happly : g.apply change = .ok g') : Balanced (changes ++ [change]) g' := by
  have heffect := effect_of_apply happly
  -- a key is new just as long as it has no configuration to join
  have hnone : ∀ base dep, g.slots.length ≤ base.val ∨ g.slots.length ≤ dep.val →
      joins (changes ++ [change]) base dep = 0 := by
    intro base dep hnew
    rw [joins_concat, h.1 base dep hnew]
    cases hjoins : change.joins base dep with
    | false => rfl
    | true =>
        rcases live_of_joins happly hjoins with ⟨⟨_, hbase⟩, _, hdep⟩
        have hltBase := lt_of_find? hbase
        have hltDep := lt_of_find? hdep
        omega
  refine ⟨fun base dep hnew => hnone base dep ?_, ?_⟩
  · have hle := heffect.length_le
    omega
  intro id config hfind
  have hfate := heffect.fate id
  rw [hfind] at hfate
  cases hbefore : g.find? id with
  | some old =>
      rw [hbefore] at hfate
      rcases h.2 id old hbefore with ⟨first, hgained⟩
      exact ⟨first, hfate.gained hgained⟩
  | none =>
      have hentered : Entered (changes ++ [change]) id config :=
        ⟨changes, change, g, g', List.prefix_refl _, hrun, hbefore, happly, hfind⟩
      have hfresh : g.slots.length ≤ id.val → (config.parent = none →
          config.baseEdges = [] ∧ config.depEdges = []) → Gained (changes ++ [change]) id config config := by
        intro hnew hwhole
        refine ⟨hentered, hwhole, fun dep => ?_, fun base => ?_⟩
        · rw [hnone id dep (Or.inl hnew), Nat.add_zero]
        · rw [hnone base id (Or.inr hnew), Nat.add_zero]
      rw [hbefore] at hfate
      refine ⟨config, ?_⟩
      cases hfate with
      | entered hchange hnew =>
          rw [hchange] at hbare
          exact hfresh hnew fun _ => hbare
      | splitOff hchange hstream hnew => exact hfresh hnew fun hparent => by cases hparent

/-- In every graph that changes lead to, all edges are legal and none but one forwards values to a
receiver. A live configuration has as many edges to an indirect stream, and the stream as many that answer
them, as the two were entered with and as they were joined since then. Whole streams are entered with none,
so that the two numbers are equal there, whatever is split. -/
theorem run_edges (hbare : ∀ change ∈ changes, change.Bare) (hrun : run changes = .ok g) :
    (∀ c config, g.find? c = some config → config.WellEdged) ∧
      ∀ base dep b d, g.find? base = some b → g.find? dep = some d →
        ∃ b₀ d₀, Entered changes base b₀ ∧ Entered changes dep d₀ ∧
          b.uses dep = b₀.uses dep + joins changes base dep ∧
          d.answers base = d₀.answers base + joins changes base dep ∧
          (b.parent = none → b₀.uses dep = 0) ∧ (d.parent = none → d₀.answers base = 0) := by
  have hinvariant : (∀ change ∈ changes, change.Bare) →
      (∀ c config, g.find? c = some config → config.WellEdged) ∧ Balanced changes g := by
    refine run_induction (I := fun changes g => (∀ change ∈ changes, change.Bare) →
      (∀ c config, g.find? c = some config → config.WellEdged) ∧ Balanced changes g) ?_ ?_ hrun
    · refine fun _ => ⟨?_, ?_, ?_⟩
      · intro c config hfind
        cases hfind
      · intro base dep _
        rfl
      · intro id config hfind
        cases hfind
    · intro changes change g g' hrun ih happly hbare
      rcases ih fun other hother => hbare other (List.mem_append_left _ hother) with ⟨hedges, hbalanced⟩
      have hlast := hbare change (List.mem_append_right _ (List.mem_singleton_self change))
      exact ⟨fun c config hfind => wellEdged_of_apply hlast hedges happly hfind,
        hbalanced.apply hrun hlast happly⟩
  rcases hinvariant hbare with ⟨hedges, _, hgained⟩
  refine ⟨hedges, ?_⟩
  intro base dep b d hbase hdep
  rcases hgained base b hbase with ⟨b₀, hb⟩
  rcases hgained dep d hdep with ⟨d₀, hd⟩
  refine ⟨b₀, d₀, hb.entered, hd.entered, hb.uses dep, hd.answers base, ?_, ?_⟩
  · intro hwhole
    rw [Config.uses, (hb.whole hwhole).2, List.countP_nil]
  · intro hwhole
    rw [Config.answers, (hd.whole hwhole).1, List.countP_nil]

/-! ## A strand that feeds what its stream feeds -/

/-- Another walk, fed by the first one. -/
def fed : Config :=
  { walk with id := { core := 0, staticId := 2, instanceNo := 1 } }

/-- A walk feeds another one and is split, and then its first half is made to feed that one too. -/
def feedTwice : List Change :=
  [.configure walk walk_whole, .configure fed rfl, .addUsedBy { val := 0 } { val := 1 } {} none,
    .splitIntoStrands { val := 0 } halves, .addUsedBy { val := 2 } { val := 1 } {} none]

/-- The half had the edge of the walk from the start, which nothing on the other side answers. Neither the
half nor the walk that it feeds is split. -/
theorem half_feeds_twice :
    ∃ g half d, run feedTwice = .ok g ∧ g.find? { val := 2 } = some half ∧
      g.find? { val := 1 } = some d ∧ half.uses { val := 1 } = 2 ∧ d.answers { val := 2 } = 1 :=
  ⟨_, _, _, rfl, rfl, rfl, rfl, rfl⟩

theorem run_edges_feedTwice :
    ∃ g walk d, run feedTwice = .ok g ∧ g.find? { val := 0 } = some walk ∧
      g.find? { val := 1 } = some d ∧ walk.WellEdged ∧
      walk.uses { val := 1 } = 1 ∧ d.answers { val := 0 } = 1 := by
  have hrun : ∃ g walk d, run feedTwice = .ok g ∧ g.find? { val := 0 } = some walk ∧
      g.find? { val := 1 } = some d ∧ walk.parent = none ∧ d.parent = none :=
    ⟨_, _, _, rfl, rfl, rfl, rfl, rfl⟩
  rcases hrun with ⟨g, walk, d, hrun, hwalk, hd, hwholeWalk, hwholeD⟩
  have hbare : ∀ change ∈ feedTwice, change.Bare := by
    simp only [feedTwice, List.forall_mem_cons]
    exact ⟨⟨rfl, rfl⟩, ⟨rfl, rfl⟩, trivial, trivial, trivial, fun _ h => by cases h⟩
  rcases run_edges hbare hrun with ⟨hedges, hjoined⟩
  rcases hjoined _ _ walk d hwalk hd with ⟨b₀, d₀, _, _, huses, hanswers, hb₀, hd₀⟩
  rw [hb₀ hwholeWalk] at huses
  rw [hd₀ hwholeD] at hanswers
  exact ⟨g, walk, d, hrun, hwalk, hd, hedges _ _ hwalk, huses, hanswers⟩

end Graph
end StreamEngine
