import StreamEngine.Proofs.Graph.Lookup

/-!
# What becomes of a configuration

A change does little to the configuration under any one key. It enters one under a new key, frees one,
gives it edges, counts its references, or notes how it is split. This is told once here for all changes,
so that what holds in every graph is shown by going through these cases.

- `Edge.Legal`, `Change.Adds` : the edges that a change gives to a configuration;
- `Graph.Fate` : what may become of a key;
- `Graph.effect_of_apply` : nothing else becomes of any key, and slots are never taken away;
- `Graph.exists_fate` : a key that was given away is never given away again.
-/

namespace StreamEngine

/-! ## Edges -/

namespace Edge

/-- The holder feeds `dep` as an indirect stream. -/
def feeds (dep : ConfigId) (e : Edge) : Bool :=
  e.kind == .usedBy && e.peer == dep

/-- The edge answers a `usedBy` edge of `base`. -/
def answers (base : ConfigId) (e : Edge) : Bool :=
  e.answersUsedBy && e.peer == base

/-- The holder forwards its values to `recv`. -/
def sends (recv : ConfigId) (e : Edge) : Bool :=
  e.kind == .sendTo && e.peer == recv

/-- Every base element is used, and the edge does not both repeat elements and skip some. -/
structure Legal (e : Edge) : Prop where
  count_pos : 0 < e.reuse.count
  exclusive : ¬ (1 < e.reuse.count ∧ 0 < e.skip)

end Edge

/-- The configuration with more edges behind those that it has. -/
def Config.withEdges (config : Config) (bs ds : List Edge) : Config :=
  { config with baseEdges := config.baseEdges ++ bs, depEdges := config.depEdges ++ ds }

theorem Config.withEdges_nil (config : Config) : config.withEdges [] [] = config := by
  rw [withEdges, List.append_nil, List.append_nil]

theorem Config.withEdges_withEdges (config : Config) (bs ds bs' ds' : List Edge) :
    (config.withEdges bs ds).withEdges bs' ds' = config.withEdges (bs ++ bs') (ds ++ ds') := by
  simp only [withEdges, List.append_assoc]

theorem Config.withEdges_base (config : Config) (e : Edge) :
    { config with baseEdges := config.baseEdges ++ [e] } = config.withEdges [e] [] := by
  rw [withEdges, List.append_nil]

theorem Config.withEdges_dep (config : Config) (e : Edge) :
    { config with depEdges := config.depEdges ++ [e] } = config.withEdges [] [e] := by
  rw [withEdges, List.append_nil]

namespace Graph

/-- The change makes `dep` an indirect stream of `base`. -/
def Change.joins (change : Change) (base dep : ConfigId) : Bool :=
  match change with
  | .addUsedBy b d _ _ => b == base && d == dep
  | _ => false

/-- A change that makes no indirect stream. -/
def Change.IsPlain (change : Change) : Prop :=
  ∀ base dep, change.joins base dep = false

/-- The change drops the last reference of a stream that has ended, or ends one that has no references. -/
def Change.Frees (change : Change) (id : ConfigId) (config : Config) : Prop :=
  change = .release id ∧ config.ended = true ∧ config.refs = 1 ∨
    change = .endStream id ∧ config.ended = false ∧ config.refs = 0

/-- The change may give these base and dependent edges to the configuration under a key. -/
structure Change.Adds (change : Change) (id : ConfigId) (config : Config) (bs ds : List Edge) :
    Prop where
  legal : ∀ e ∈ bs ++ ds, e.Legal
  kind : ∀ e ∈ bs, e.kind = .baseOn
  /-- No second edge along which values are forwarded to one receiver. -/
  sends : ∀ recv, ds.countP (Edge.sends recv) = 0 ∨
    (config.depEdges ++ ds).countP (Edge.sends recv) ≤ 1
  answers : ∀ base, bs.countP (Edge.answers base) = (change.joins base id).toNat
  feeds : ∀ dep, ds.countP (Edge.feeds dep) = (change.joins id dep).toNat

variable {g g' : Graph} {c id : ConfigId} {config : Config} {change : Change} {e : Edge}
  {bs ds : List Edge}

namespace Change

theorem Adds.nothing (hbase : ∀ base, change.joins base id = false)
    (hdep : ∀ dep, change.joins id dep = false) : change.Adds id config [] [] where
  legal e he := by cases he
  kind e he := by cases he
  sends recv := Or.inl rfl
  answers base := by rw [hbase, List.countP_nil, Bool.toNat_false]
  feeds dep := by rw [hdep, List.countP_nil, Bool.toNat_false]

/-- A base edge that answers no other edge. -/
theorem Adds.base (hplain : change.IsPlain) (hlegal : e.Legal) (hkind : e.kind = .baseOn)
    (hanswers : e.answersUsedBy = false) : change.Adds id config [e] [] where
  legal e' he' := by
    cases List.mem_singleton.1 he'
    exact hlegal
  kind e' he' := by
    cases List.mem_singleton.1 he'
    exact hkind
  sends recv := Or.inl rfl
  answers base := by
    rw [hplain, Bool.toNat_false, List.countP_singleton, Edge.answers, hanswers]
    rfl
  feeds dep := by rw [hplain, List.countP_nil, Bool.toNat_false]

/-- The edge and its answer, which stand on one configuration where a stream feeds itself. -/
theorem Adds.usedBy {base dep : ConfigId} {reuse : Reuse} {pred : Option Predicate}
    {edge answer : Edge} {depStrand baseStrand : StrandId} (hreuse : 0 < reuse.count)
    (hedge : edge = { kind := .usedBy, peer := dep, peerStrand := depStrand, reuse, skip := 0 })
    (hanswer : answer =
      { kind := .baseOn, peer := base, peerStrand := baseStrand, reuse, skip := 0, answersUsedBy := true, pred }) :
    (Change.addUsedBy base dep reuse pred).Adds id config (if id = dep then [answer] else [])
      (if id = base then [edge] else []) where
  legal e he := by
    rw [List.mem_append, List.mem_ite_nil_right, List.mem_ite_nil_right] at he
    rcases he with ⟨_, he⟩ | ⟨_, he⟩
    · rw [List.mem_singleton.1 he, hanswer]
      exact ⟨hreuse, fun hboth => Nat.lt_irrefl 0 hboth.2⟩
    · rw [List.mem_singleton.1 he, hedge]
      exact ⟨hreuse, fun hboth => Nat.lt_irrefl 0 hboth.2⟩
  kind e he := by
    rw [List.mem_singleton.1 (List.mem_ite_nil_right.1 he).2, hanswer]
  sends recv := by
    refine Or.inl (List.countP_eq_zero.2 fun e he => ?_)
    rw [List.mem_singleton.1 (List.mem_ite_nil_right.1 he).2, hedge]
    exact Bool.false_ne_true
  answers other := by
    by_cases hid : id = dep
    · rw [if_pos hid, hid, List.countP_singleton, hanswer]
      simp only [Edge.answers, Change.joins, Bool.true_and, beq_self_eq_true, Bool.and_true]
      cases base == other <;> rfl
    · have hne : (dep == id) = false := beq_eq_false_iff_ne.2 (Ne.symm hid)
      rw [if_neg hid, List.countP_nil, Change.joins, hne, Bool.and_false, Bool.toNat_false]
  feeds other := by
    by_cases hid : id = base
    · rw [if_pos hid, hid, List.countP_singleton, hedge]
      simp only [Edge.feeds, Change.joins, Bool.true_and, beq_self_eq_true]
      cases dep == other <;> rfl
    · have hne : (base == id) = false := beq_eq_false_iff_ne.2 (Ne.symm hid)
      rw [if_neg hid, List.countP_nil, Change.joins, hne, Bool.false_and, Bool.toNat_false]

/-- A dependent edge that feeds no indirect stream. -/
theorem Adds.dep (hplain : change.IsPlain) (hlegal : e.Legal) (hkind : e.kind ≠ .usedBy)
    (hfresh : e.kind = .sendTo → config.depEdges.countP (Edge.sends e.peer) = 0) :
    change.Adds id config [] [e] where
  legal e' he' := by
    cases List.mem_singleton.1 he'
    exact hlegal
  kind e' he' := by cases he'
  sends recv := by
    rw [List.countP_singleton]
    by_cases hsends : e.sends recv = true
    · rw [Edge.sends, Bool.and_eq_true, beq_iff_eq, beq_iff_eq] at hsends
      have hone := List.countP_le_length (p := Edge.sends recv) (l := [e])
      rw [← hsends.2] at hone
      rw [← hsends.2, List.countP_append, hfresh hsends.1, Nat.zero_add]
      exact Or.inr hone
    · rw [if_neg hsends]
      exact Or.inl rfl
  answers base := by rw [hplain, List.countP_nil, Bool.toNat_false]
  feeds dep := by
    rw [hplain, Bool.toNat_false, List.countP_singleton, Edge.feeds, beq_eq_false_iff_ne.2 hkind]
    rfl

end Change

/-! ## Fates -/

/-- The graph splits the stream when asked to. -/
def Accepts (g : Graph) (c : ConfigId) (split : StrandSplit) : Prop :=
  ∃ ids g', g.splitIntoStrands c split = .ok (.ok ids, g')

/-- What a change may make of the configuration under a key, or of its absence. -/
inductive Fate (g : Graph) (change : Change) (id : ConfigId) : Option Config → Option Config → Prop where
  | absent : Fate g change id none none
  | entered {stream : Config} {whole : stream.parent = none}
      (hchange : change = .configure stream whole) (hnew : g.slots.length ≤ id.val) :
      Fate g change id none (some stream)
  | splitOff {c : ConfigId} {stream : Config} {split : StrandSplit} {s own : Nat} {q : LinearPattern}
      (hchange : change = .splitIntoStrands c split) (hstream : g.find? c = some stream)
      (hnew : g.slots.length ≤ id.val) :
      Fate g change id none (some (stream.strand c split s own q))
  | joined {config : Config} {bs ds : List Edge} (hadds : change.Adds id config bs ds) :
      Fate g change id (some config) (some (config.withEdges bs ds))
  | divided {config : Config} {split : StrandSplit} (hchange : change = .splitIntoStrands id split)
      (haccepts : g.Accepts id split) :
      Fate g change id (some config)
        (some { config with split := some split, totalStrands := split.totalStrands })
  | counted {config : Config} {refs : Nat} {ended : Bool} (hplain : change.IsPlain) :
      Fate g change id (some config) (some { config with refs, ended })
  | freed {config : Config} (hfrees : change.Frees id config) : Fate g change id (some config) none

/-- What a change may make of a graph. -/
structure Effect (g : Graph) (change : Change) (g' : Graph) : Prop where
  length_le : g.slots.length ≤ g'.slots.length
  fate : ∀ id, Fate g change id (g.find? id) (g'.find? id)
  /-- What is found under an identity stays, unless a configuration with that identity is freed. -/
  lookup : ∀ k c, g.lookup k = .ok c → g'.lookup k = .ok c ∨
    ∃ freed config, g.find? freed = some config ∧ change.Frees freed config ∧ config.strandId = .ok k
  /-- What is new is found under its identity. -/
  fresh : ∀ id config, g.find? id = none → g'.find? id = some config →
    ∃ k, config.strandId = .ok k ∧ g'.lookup k = .ok id

theorem Fate.same (hbase : ∀ base, change.joins base id = false)
    (hdep : ∀ dep, change.joins id dep = false) (found : Option Config) :
    Fate g change id found found := by
  cases found with
  | none => exact .absent
  | some config =>
      have h : Fate g change id (some config) (some (config.withEdges [] [])) :=
        .joined (.nothing hbase hdep)
      rwa [Config.withEdges_nil] at h

theorem Fate.untouched (hplain : change.IsPlain) (found : Option Config) :
    Fate g change id found found :=
  .same (fun base => hplain base id) (fun dep => hplain id dep) found

/-- A change that enters nothing. -/
theorem effect_of_length_eq (hlength : g'.slots.length = g.slots.length)
    (hfate : ∀ id, Fate g change id (g.find? id) (g'.find? id))
    (hlookup : ∀ k c, g.lookup k = .ok c → g'.lookup k = .ok c ∨
      ∃ freed config, g.find? freed = some config ∧ change.Frees freed config ∧ config.strandId = .ok k) :
    Effect g change g' where
  length_le := Nat.le_of_eq hlength.symm
  fate := hfate
  lookup := hlookup
  fresh id config hnone hfind := by
    have hlt := lt_of_find? hfind
    have h := hfate id
    rw [hnone, hfind] at h
    cases h <;> omega

theorem effect_refl (hplain : change.IsPlain) : Effect g change g :=
  effect_of_length_eq rfl (fun id => .untouched hplain (g.find? id)) fun _ _ => Or.inl

@[simp] theorem length_put (g : Graph) (c : ConfigId) (x : Option Config) :
    (g.put c x).slots.length = g.slots.length := by
  rw [put, List.length_set]

/-! ## Edges -/

theorem find?_modify {f : Config → Config} (h : g.modify c f = .ok g') (id : ConfigId) :
    g'.find? id = (g.find? id).map fun config => if id = c then f config else config := by
  rcases modify_eq_ok.1 h with ⟨config, hfind, rfl⟩
  rw [find?_put hfind]
  by_cases hid : id = c
  · rw [if_pos hid, hid, hfind, Option.map_some, if_pos rfl]
  · simp only [if_neg hid, Option.map_id']

theorem length_modify {f : Config → Config} (h : g.modify c f = .ok g') :
    g'.slots.length = g.slots.length := by
  rcases modify_eq_ok.1 h with ⟨config, _, rfl⟩
  exact length_put g c _

theorem lookup_modify {f : Config → Config} (h : g.modify c f = .ok g') (k : StrandId) :
    g'.lookup k = g.lookup k := by
  rcases modify_eq_ok.1 h with ⟨config, _, rfl⟩
  rfl

theorem find?_addBaseEdge (h : g.addBaseEdge c e = .ok g') (id : ConfigId) :
    g'.find? id =
      (g.find? id).map fun config => config.withEdges (if id = c then [e] else []) [] := by
  rw [find?_modify h]
  by_cases hid : id = c
  · simp only [if_pos hid, Config.withEdges_base]
  · simp only [if_neg hid, Config.withEdges_nil]

theorem find?_addDepEdge (h : g.addDepEdge c e = .ok g') (id : ConfigId) :
    g'.find? id =
      (g.find? id).map fun config => config.withEdges [] (if id = c then [e] else []) := by
  rw [find?_modify h]
  by_cases hid : id = c
  · simp only [if_pos hid, Config.withEdges_dep]
  · simp only [if_neg hid, Config.withEdges_nil]

/-- A change that modifies one configuration. -/
theorem effect_modify {f : Config → Config} (hplain : change.IsPlain) (h : g.modify c f = .ok g')
    (hfate : ∀ config, g.find? c = some config → Fate g change c (some config) (some (f config))) :
    Effect g change g' := by
  refine effect_of_length_eq (length_modify h) (fun id => ?_)
    fun k _ hlookup => Or.inl ((lookup_modify h k).trans hlookup)
  rw [find?_modify h]
  cases hfind : g.find? id with
  | none => exact .absent
  | some config =>
      by_cases hid : id = c
      · rw [Option.map_some, if_pos hid]
        rw [hid] at hfind ⊢
        exact hfate config hfind
      · rw [Option.map_some, if_neg hid]
        exact .untouched hplain _

theorem effect_addBaseOn {base : ConfigId} {reuse : Reuse} {skip : Int} {pred : Option Predicate}
    (h : g.addBaseOn c base reuse skip pred = .ok g') :
    Effect g (.addBaseOn c base reuse skip pred) g' := by
  rcases addBaseOn_eq_ok h with ⟨n, e, hn, he, h⟩
  rcases edgeTo_eq_ok he with ⟨_, peerStrand, rfl⟩
  have hlegal := checkEdge_eq_ok hn
  have hplain : Change.IsPlain (.addBaseOn c base reuse skip pred) := fun _ _ => rfl
  refine effect_modify hplain h fun config _ => ?_
  rw [Config.withEdges_base]
  exact .joined (.base hplain ⟨hlegal.1, hlegal.2⟩ rfl rfl)

theorem effect_addUsedBy {base dep : ConfigId} {reuse : Reuse} {pred : Option Predicate}
    (h : g.addUsedBy base dep reuse pred = .ok g') :
    Effect g (.addUsedBy base dep reuse pred) g' := by
  rcases addUsedBy_eq_ok h with ⟨n, forward, backward, g₁, hn, hforward, hbackward, hdep, hbase⟩
  rcases edgeTo_eq_ok hforward with ⟨_, depStrand, hforward⟩
  rcases edgeTo_eq_ok hbackward with ⟨_, baseStrand, rfl⟩
  refine effect_of_length_eq ((length_modify hbase).trans (length_modify hdep)) (fun id => ?_)
    fun k _ hlookup => Or.inl (((lookup_modify hbase k).trans (lookup_modify hdep k)).trans hlookup)
  rw [find?_addBaseEdge hbase, find?_addDepEdge hdep]
  cases g.find? id with
  | none => exact .absent
  | some config =>
      rw [Option.map_some, Option.map_some, Config.withEdges_withEdges, List.append_nil, List.nil_append]
      exact .joined (.usedBy (checkEdge_eq_ok hn).1 hforward rfl)

/-- A dependent edge without a partner on the other side. -/
theorem effect_addDepEdge (hplain : change.IsPlain) (hlegal : e.Legal) (hkind : e.kind ≠ .usedBy)
    (hfresh : ∀ sender, g.find? c = some sender → e.kind = .sendTo →
      sender.depEdges.countP (Edge.sends e.peer) = 0)
    (h : g.addDepEdge c e = .ok g') : Effect g change g' := by
  refine effect_modify hplain h fun config hfind => ?_
  rw [Config.withEdges_dep]
  exact .joined (.dep hplain hlegal hkind (hfresh config hfind))

/-- A second edge to one receiver is not added. -/
theorem effect_addSendTo {recv : ConfigId} {reuse : Reuse} {skip : Int}
    (h : g.addSendTo c recv reuse skip = .ok g') : Effect g (.addSendTo c recv reuse skip) g' := by
  have hplain : Change.IsPlain (.addSendTo c recv reuse skip) := fun _ _ => rfl
  rcases addSendTo_eq_ok h with rfl | ⟨sender, n, e, hsender, hedge, hn, he, h⟩
  · exact effect_refl hplain
  rcases edgeTo_eq_ok he with ⟨_, peerStrand, rfl⟩
  have hlegal := checkEdge_eq_ok hn
  refine effect_addDepEdge hplain ⟨hlegal.1, hlegal.2⟩ (fun hkind => by cases hkind) ?_ h
  intro sender' hsender' _
  rw [hsender] at hsender'
  cases hsender'
  refine List.countP_eq_zero.2 fun other hother hsends => ?_
  rw [Edge.sends, Bool.and_eq_true, beq_iff_eq, beq_iff_eq] at hsends
  exact List.find?_eq_none.1 hedge other hother (decide_eq_true hsends)

theorem effect_addMemorySendTo {recv : ConfigId} {memory : MemorySend}
    (h : g.addMemorySendTo c recv memory = .ok g') :
    Effect g (.addMemorySendTo c recv memory) g' := by
  rcases addMemorySendTo_eq_ok h with ⟨e, he, h⟩
  rcases edgeTo_eq_ok he with ⟨_, peerStrand, rfl⟩
  refine effect_addDepEdge (fun _ _ => rfl) ⟨Nat.one_pos, fun hboth => ?_⟩ (fun hkind => by cases hkind)
    (fun _ _ hkind => by cases hkind) h
  exact absurd hboth.1 (Nat.lt_irrefl 1)

/-! ## Configurations and references -/

theorem slots_configure (h : g.configure config = .ok (c, g')) :
    c.val = g.slots.length ∧ g'.slots.length = g.slots.length + 1 := by
  rcases configure_iff.1 h with ⟨strand, _, _, rfl, rfl⟩
  exact ⟨rfl, List.length_append⟩

theorem find?_eq_none_of_le (h : g.slots.length ≤ id.val) : g.find? id = none := by
  rw [find?, List.getElem?_eq_none h]
  rfl

/-- The only new configuration is the one that is entered, and it is found under its identity. -/
theorem fresh_configure {other : Config} (h : g.configure config = .ok (c, g')) (hbefore : g.find? id = none)
    (hafter : g'.find? id = some other) : ∃ k, other.strandId = .ok k ∧ g'.lookup k = .ok id := by
  rw [(configure_eq_ok h).2] at hafter
  by_cases hid : id = c
  · rw [if_pos hid] at hafter
    cases hafter
    rcases lookup_configure h with ⟨k, hk, _, hlookup⟩
    exact ⟨k, hk, (hlookup k id).2 (Or.inl ⟨rfl, hid⟩)⟩
  · rw [if_neg hid, hbefore] at hafter
    cases hafter

theorem effect_configure {stream : Config} {whole : stream.parent = none}
    (h : g.configure stream = .ok (c, g')) : Effect g (.configure stream whole) g' := by
  rcases slots_configure h with ⟨hval, hlength⟩
  rcases configure_eq_ok h with ⟨hnone, hfind⟩
  refine ⟨hlength ▸ Nat.le_succ _, fun id => ?_, fun k c' hold => Or.inl (lookup_of_configure h hold), ?_⟩
  · rw [hfind]
    by_cases hid : id = c
    · rw [if_pos hid, hid, hnone]
      exact .entered rfl (Nat.le_of_eq hval.symm)
    · rw [if_neg hid]
      exact .untouched (fun _ _ => rfl) _
  · intro id config hbefore hafter
    exact fresh_configure h hbefore hafter

/-- Counting, after which a configuration that is done is freed. -/
theorem find?_of_freeIfDone {freed : Bool} {counted : Config} (hfind : g.find? c = some config)
    (h : (g.put c (some counted)).freeIfDone c = .ok (freed, g')) :
    g'.slots.length = g.slots.length ∧
      (∀ id, g'.find? id = if id = c then (if counted.isDone then none else some counted)
        else g.find? id) ∧
      ∀ k c', g.lookup k = .ok c' →
        g'.lookup k = .ok c' ∨ counted.isDone = true ∧ counted.strandId = .ok k := by
  have hput : (g.put c (some counted)).find? c = some counted := by
    rw [find?_put hfind, if_pos rfl]
  rcases freeIfDone_eq_ok.1 h with ⟨found, hfound, hdone, hcases⟩
  rw [hput] at hfound
  cases hfound
  rcases hcases with ⟨rfl, rfl⟩ | ⟨rfl, k, hk, rfl⟩
  · refine ⟨length_put g c _, fun id => ?_, fun k c' => Or.inl⟩
    rw [find?_put hfind, hdone]
    rfl
  · refine ⟨?_, fun id => ?_, fun k' c' hlookup => ?_⟩
    · rw [length_put, length_put]
    · refine (find?_put hput none id).trans ?_
      rw [find?_put hfind, hdone]
      by_cases hid : id = c
      · rw [if_pos hid, if_pos hid]
        rfl
      · rw [if_neg hid, if_neg hid, if_neg hid]
    · by_cases hkk : k = k'
      · exact Or.inr ⟨hdone, hkk ▸ hk⟩
      · refine Or.inl (lookup_eq_ok.2 ?_)
        rw [Table.find?_erase, if_neg hkk]
        exact lookup_eq_ok.1 hlookup

theorem effect_freeIfDone {freed : Bool} {refs : Nat} {ended : Bool} (hplain : change.IsPlain)
    (hfrees : ended = true → refs = 0 → change.Frees c config) (hfind : g.find? c = some config)
    (h : (g.put c (some { config with refs, ended })).freeIfDone c = .ok (freed, g')) :
    Effect g change g' := by
  rcases find?_of_freeIfDone hfind h with ⟨hlength, hafter, hlookup⟩
  have hisDone : Config.isDone { config with refs, ended } = true → change.Frees c config := by
    intro hdone
    rw [Config.isDone, Bool.and_eq_true, beq_iff_eq] at hdone
    exact hfrees hdone.1 hdone.2
  refine effect_of_length_eq hlength (fun id => ?_) fun k c' hold => ?_
  · rw [hafter]
    by_cases hid : id = c
    · rw [if_pos hid, hid, hfind]
      by_cases hdone : Config.isDone { config with refs, ended } = true
      · rw [if_pos hdone]
        exact .freed (hisDone hdone)
      · rw [if_neg hdone]
        exact .counted hplain
    · rw [if_neg hid]
      exact .untouched hplain _
  · rcases hlookup k c' hold with hkept | ⟨hdone, hk⟩
    · exact Or.inl hkept
    · exact Or.inr ⟨c, config, hfind, hisDone hdone, hk⟩

theorem effect_acquire (h : g.acquire c = .ok g') : Effect g (.acquire c) g' :=
  effect_modify (fun _ _ => rfl) h fun _ _ => .counted fun _ _ => rfl

theorem effect_release {freed : Bool} (h : g.release c = .ok (freed, g')) :
    Effect g (.release c) g' := by
  rcases release_eq_ok.1 h with ⟨config, hfind, hpos, h⟩
  refine effect_freeIfDone (fun _ _ => rfl) ?_ hfind h
  exact fun hended hone => Or.inl ⟨rfl, hended, by omega⟩

theorem effect_endStream {freed : Bool} (h : g.endStream c = .ok (freed, g')) :
    Effect g (.endStream c) g' := by
  rcases endStream_eq_ok.1 h with ⟨config, hfind, hended, h⟩
  refine effect_freeIfDone (fun _ _ => rfl) ?_ hfind h
  exact fun _ hzero => Or.inr ⟨rfl, hended, hzero⟩

/-- A change that frees a configuration frees it. -/
theorem find?_of_frees (hfrees : change.Frees c config) (hfind : g.find? c = some config)
    (h : g.apply change = .ok g') : g'.find? c = none := by
  rcases hfrees with ⟨rfl, hended, hone⟩ | ⟨rfl, hended, hzero⟩
  · rcases map_snd_eq_ok h with ⟨freed, h⟩
    rcases release_eq_ok.1 h with ⟨found, hfound, _, h⟩
    rw [hfind] at hfound
    cases hfound
    have hdone : Config.isDone { config with refs := config.refs - 1 } = true := by
      rw [Config.isDone, hended, hone]
      rfl
    rw [(find?_of_freeIfDone hfind h).2.1, if_pos rfl, if_pos hdone]
  · rcases map_snd_eq_ok h with ⟨freed, h⟩
    rcases endStream_eq_ok.1 h with ⟨found, hfound, _, h⟩
    rw [hfind] at hfound
    cases hfound
    have hdone : Config.isDone { config with ended := true } = true := by
      rw [Config.isDone, hzero]
      rfl
    rw [(find?_of_freeIfDone hfind h).2.1, if_pos rfl, if_pos hdone]

/-! ## Splitting -/

/-- Entering strands: what has a key keeps its configuration, and new keys have those of strands. -/
theorem effect_configureStrands {split : StrandSplit} {total s : Nat} {patterns : List LinearPattern}
    {ids : List ConfigId} (h : g.configureStrands config c split total s patterns = .ok (ids, g')) :
    g.slots.length ≤ g'.slots.length ∧
      (∀ id, g'.find? id = g.find? id ∨
        g.slots.length ≤ id.val ∧ ∃ k own q, g'.find? id = some (config.strand c split k own q)) ∧
      ∀ id other, g.find? id = none → g'.find? id = some other →
        ∃ k, other.strandId = .ok k ∧ g'.lookup k = .ok id := by
  induction patterns generalizing g s ids with
  | nil =>
      cases h
      refine ⟨Nat.le_refl _, fun id => Or.inl rfl, fun id other hbefore hafter => ?_⟩
      rw [hbefore] at hafter
      cases hafter
  | cons p patterns ih =>
      rcases configureStrands_cons_eq_ok.1 h with ⟨own, new, g₁, rest, _, hconfigure, hrest, rfl⟩
      rcases slots_configure hconfigure with ⟨hval, hlength⟩
      rcases ih hrest with ⟨hle, hids, hfresh⟩
      refine ⟨by omega, fun id => ?_, fun id other hbefore hafter => ?_⟩
      · rcases hids id with hsame | ⟨hlater, hstrand⟩
        · rw [hsame, (configure_eq_ok hconfigure).2]
          by_cases hid : id = new
          · rw [if_pos hid, hid]
            exact Or.inr ⟨Nat.le_of_eq hval.symm, s, own, p, rfl⟩
          · rw [if_neg hid]
            exact Or.inl rfl
        · exact Or.inr ⟨by omega, hstrand⟩
      · cases hfirst : g₁.find? id with
        | none => exact hfresh id other hfirst hafter
        | some first =>
            -- the strand that was entered first stays as it is, and so does its name
            have hsame : g'.find? id = some first :=
              (configureStrands_eq_ok hrest).2.1 id first hfirst
            rw [hsame] at hafter
            cases hafter
            rcases fresh_configure hconfigure hbefore hfirst with ⟨k, hk, hlookup⟩
            exact ⟨k, hk, (lookup_configureStrands hrest).1 k id hlookup⟩

theorem effect_splitIntoStrands {split : StrandSplit} {answer : Except PatternError (List ConfigId)}
    (h : g.splitIntoStrands c split = .ok (answer, g')) :
    Effect g (.splitIntoStrands c split) g' := by
  have hplain : Change.IsPlain (.splitIntoStrands c split) := fun _ _ => rfl
  rcases answer with refusal | ids
  · rw [splitIntoStrands_eq_error h]
    exact effect_refl hplain
  rcases splitIntoStrands_eq_ok h with ⟨stream, patterns, hstream, _, hstrands⟩
  rcases effect_configureStrands hstrands with ⟨hle, hids, hfresh⟩
  rw [length_put] at hle
  refine ⟨hle, fun id => ?_, fun k c' hold => ?_, fun id other hbefore hafter => ?_⟩
  · rcases hids id with hsame | ⟨hnew, k, own, q, hstrand⟩
    · rw [hsame, find?_put hstream]
      by_cases hid : id = c
      · rw [if_pos hid, hid, hstream]
        exact .divided rfl ⟨ids, g', h⟩
      · rw [if_neg hid]
        exact .untouched hplain _
    · rw [length_put] at hnew
      rw [hstrand, find?_eq_none_of_le hnew]
      exact .splitOff rfl hstream hnew
  · exact Or.inl ((lookup_configureStrands hstrands).1 k c' hold)
  · refine hfresh id other ?_ hafter
    rw [find?_put hstream, if_neg ?_, hbefore]
    rintro rfl
    rw [hstream] at hbefore
    cases hbefore

/-- Whatever a change does, it does by these cases. -/
theorem effect_of_apply (h : g.apply change = .ok g') : Effect g change g' := by
  cases change with
  | configure stream whole =>
      rcases map_snd_eq_ok h with ⟨c, h⟩
      exact effect_configure h
  | addBaseOn this base reuse skip pred => exact effect_addBaseOn h
  | addUsedBy base dep reuse pred => exact effect_addUsedBy h
  | addSendTo sender recv reuse skip => exact effect_addSendTo h
  | addMemorySendTo sender recv memory => exact effect_addMemorySendTo h
  | splitIntoStrands c split =>
      rcases map_snd_eq_ok h with ⟨answer, h⟩
      exact effect_splitIntoStrands h
  | acquire c => exact effect_acquire h
  | release c =>
      rcases map_snd_eq_ok h with ⟨freed, h⟩
      exact effect_release h
  | endStream c =>
      rcases map_snd_eq_ok h with ⟨freed, h⟩
      exact effect_endStream h

/-- No configuration is entered under a key that was given away. -/
theorem exists_fate {config' : Config} (h : g.apply change = .ok g') (hlt : c.val < g.slots.length)
    (hfind : g'.find? c = some config') :
    ∃ config, g.find? c = some config ∧ Fate g change c (some config) (some config') := by
  have hfate := (effect_of_apply h).fate c
  rw [hfind] at hfate
  cases hbefore : g.find? c with
  | none =>
      rw [hbefore] at hfate
      cases hfate <;> omega
  | some config =>
      rw [hbefore] at hfate
      exact ⟨config, rfl, hfate⟩

/-! ## Runs -/

theorem run_concat {changes : List Change} :
    run (changes ++ [change]) = .ok g' ↔ ∃ g, run changes = .ok g ∧ g.apply change = .ok g' := by
  rw [run, List.foldlM_append, bind_eq_ok]
  refine exists_congr fun g => and_congr_right fun _ => ?_
  rw [List.foldlM_cons, bind_eq_ok]
  constructor
  · rintro ⟨_, happly, hnil⟩
    cases hnil
    exact happly
  · exact fun happly => ⟨g', happly, rfl⟩

/-- What holds of the empty graph and outlasts every change holds of every graph that changes lead to. -/
theorem run_induction {I : List Change → Graph → Prop} (hnil : I [] {})
    (hstep : ∀ changes change g g', run changes = .ok g → I changes g → g.apply change = .ok g' →
      I (changes ++ [change]) g')
    {changes : List Change} (hrun : run changes = .ok g) : I changes g := by
  induction changes using List.reverseRecOn generalizing g with
  | nil =>
      cases hrun
      exact hnil
  | append_singleton changes change ih =>
      rcases run_concat.1 hrun with ⟨g₀, hbefore, happly⟩
      exact hstep changes change g₀ g hbefore (ih hbefore) happly

end Graph
end StreamEngine
