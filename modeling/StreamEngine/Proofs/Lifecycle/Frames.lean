import StreamEngine.Proofs.Lifecycle.Answering
import StreamEngine.Proofs.Lifecycle.Asking
import StreamEngine.Proofs.Lifecycle.Computing
import StreamEngine.Proofs.Lifecycle.Pool
import StreamEngine.Proofs.Lifecycle.Retiring

/-!
# What requests and answers leave alone

Addresses, requests, answers, results and rewinding change what an element holds and what it waits for.
They do not change where an element stands: its stream, its index, its neighbour in the chain, or whether
it was stepped over.

- `Element.place`, `Element.bare` : where an element stands, and what requests and answers leave of it;
- `Manager.Quiet` : every element is still where it was;
- `Manager.Exchanges`, `exchanges_apply` : requests, answers and writes change only what elements hold;
- `quiet_apply` : the operations that are quiet.
-/

namespace StreamEngine

/-- Where an element stands in the chain of its stream. -/
structure Place where
  stream : StreamId
  config : ConfigId
  idx : Nat
  next : Option ElementId
  stepped : Bool

namespace Element

variable {α : Type} {f : Element → α} {e e' : Element}

def place (e : Element) : Place :=
  { stream := e.stream, config := e.config, idx := e.idx, next := e.next, stepped := e.stepped }

theorem place_markAddrReady {addr : UInt64} {policy : OverflowPolicy}
    (h : e.markAddrReady addr policy = .ok e') : e'.place = e.place := by
  rcases markAddrReady_eq_ok h with ⟨_, start, blocks, _, rfl⟩
  rfl

/-- The projection reads nothing that requests, answers and writes change. -/
def Steady (f : Element → α) : Prop :=
  ∀ (el : Element) blocks buffer valueReady reqIssued,
    f { el with blocks, buffer, valueReady, reqIssued } = f el

/-- What requests, answers and writes leave of an element. -/
def bare (e : Element) : Element :=
  { e with blocks := [], buffer := [], valueReady := false, reqIssued := false }

theorem Advances.bare_eq (h : e.Advances e') : e'.bare = e.bare := by
  rw [h.shape]
  rfl

/-- A steady projection reads what is left of the element. -/
theorem Steady.bare (hf : Steady f) (e : Element) : f e.bare = f e :=
  hf e [] [] false false

theorem Steady.advances (hf : Steady f) (h : e.Advances e') : f e' = f e := by
  rw [← hf.bare, h.bare_eq, hf.bare]

theorem steady_place : Steady place :=
  fun _ _ _ _ _ => rfl

end Element

namespace Manager

variable {α : Type} {f : Element → α} {m m' m'' : Manager} {e : ElementId} {el el' : Element}
  {a : AccessId} {s : StreamId} {st : LiveStream}

/-! ## Projections of elements -/

/-- A projection of the element of a key. -/
def read (m : Manager) (f : Element → α) (e : ElementId) : Option α :=
  (m.element? e).map f

theorem read_putElement (hel : m.element? e = some el) (hsame : f el' = f el) (e' : ElementId) :
    (m.putElement e el').read f e' = m.read f e' := by
  rw [read, element?_putElement hel]
  by_cases he : e' = e
  · rw [if_pos he, read, he, hel, Option.map_some, Option.map_some, hsame]
  · rw [if_neg he, read]

/-! ## Quiet changes -/

/-- Where the element of a key stands. -/
def place? (m : Manager) (e : ElementId) : Option Place :=
  (m.element? e).map Element.place

/-- Streams, configurations and instances are as before, and every element stands where it did. -/
structure Quiet (m m' : Manager) : Prop where
  shape : m' = { m with
    elements := m'.elements, accesses := m'.accesses, pending := m'.pending, now := m'.now }
  exact : m.elements.Exact → m'.elements.Exact
  place_eq : ∀ e, m'.place? e = m.place? e

theorem quiet_refl (m : Manager) : m.Quiet m :=
  ⟨rfl, id, fun _ => rfl⟩

theorem Quiet.trans (h : m.Quiet m') (h' : m'.Quiet m'') : m.Quiet m'' := by
  refine ⟨?_, fun hexact => h'.exact (h.exact hexact), fun e => (h'.place_eq e).trans (h.place_eq e)⟩
  rw [h'.shape, h.shape]

theorem quiet_putElement (hel : m.element? e = some el) (hplace : el'.place = el.place) :
    m.Quiet (m.putElement e el') :=
  ⟨rfl, fun hexact => hexact.replace hel el', read_putElement hel hplace⟩

/-- Accesses, computations under way and the clock have no part in where elements stand. -/
theorem Quiet.setOthers (h : m.Quiet m') (accesses : AccessPool) (pending : List PendingCompute)
    (now : Nat) : m.Quiet { m' with accesses, pending, now } := by
  refine ⟨?_, h.exact, h.place_eq⟩
  rw [h.shape]

theorem Quiet.stream?_eq (h : m.Quiet m') (s : StreamId) : m'.stream? s = m.stream? s := by
  rw [h.shape]
  rfl

/-! ## Requests and answers -/

/-- Which accesses are in flight has changed, and what the elements hold of their lines. -/
structure Exchanges (m m' : Manager) : Prop where
  shape : m' = { m with elements := m'.elements, accesses := m'.accesses }
  exact : m.elements.Exact → m'.elements.Exact
  bare_eq : ∀ e, m'.read Element.bare e = m.read Element.bare e

theorem exchanges_refl (m : Manager) : m.Exchanges m :=
  ⟨rfl, id, fun _ => rfl⟩

theorem Exchanges.trans (h : m.Exchanges m') (h' : m'.Exchanges m'') : m.Exchanges m'' := by
  refine ⟨?_, fun hexact => h'.exact (h.exact hexact), fun e => (h'.bare_eq e).trans (h.bare_eq e)⟩
  rw [h'.shape, h.shape]

theorem exchanges_putElement (hel : m.element? e = some el) (hbare : el'.bare = el.bare) :
    m.Exchanges (m.putElement e el') :=
  ⟨rfl, fun hexact => hexact.replace hel el', read_putElement hel hbare⟩

theorem Exchanges.setAccesses (h : m.Exchanges m') (accesses : AccessPool) :
    m.Exchanges { m' with accesses } := by
  refine ⟨?_, h.exact, h.bare_eq⟩
  rw [h.shape]

/-- Whatever reads no line and no access reads the same as before. -/
theorem Exchanges.read_eq (h : m.Exchanges m') (hf : Element.Steady f) (e : ElementId) :
    m'.read f e = m.read f e := by
  have hbare : ∀ m : Manager, m.read f e = (m.read Element.bare e).map f := by
    intro m
    rw [read, read, Option.map_map]
    exact Option.map_congr fun el _ => (hf.bare el).symm
  rw [hbare, hbare, h.bare_eq]

theorem Exchanges.quiet (h : m.Exchanges m') : m.Quiet m' := by
  refine ⟨?_, h.exact, h.read_eq Element.steady_place⟩
  rw [h.shape]

theorem exchanges_setValue {vaddr : UInt64} {data : List UInt8} {became : Bool}
    (h : m.setValue e vaddr data = .ok (became, m')) : m.Exchanges m' := by
  rcases setValue_eq_ok h with ⟨el, el', hel, hset, rfl⟩
  exact exchanges_putElement hel (Element.advances_setValue hset).bare_eq

theorem exchanges_setValueFromPrevious {became : Bool}
    (h : m.setValueFromPrevious e = .ok (became, m')) : m.Exchanges m' := by
  rcases setValueFromPrevious_eq_ok h with ⟨el, el', p, source, _, hel, _, hcopy, rfl⟩
  exact exchanges_putElement hel (Element.advances_copyFromPrev hcopy).bare_eq

theorem exchanges_attach {i : Nat} {r : Except EngineError Unit} (h : m.attach e i a = .ok (r, m')) :
    m.Exchanges m' := by
  rcases attach_cases h with ⟨_, rfl⟩ | ⟨_, access, receivers, el, _, _, hel, rfl⟩
  · exact exchanges_refl m'
  · exact ((exchanges_refl m).setAccesses _).trans (exchanges_putElement hel rfl)

theorem exchanges_issueBlock {i : Nat} {plan : IssuePlan} {r : Except EngineError (Option AccessId)}
    (h : m.issueBlock e i plan = .ok (r, m')) : m.Exchanges m' := by
  rcases issueBlock_cases h with
    ⟨a, r₁, _, hattach, _⟩ | ⟨_, _, el, hel, rfl⟩ | ⟨el, b, r₁, _, _, _, hattach, _⟩
  · exact exchanges_attach hattach
  · exact exchanges_putElement hel rfl
  · exact ((exchanges_refl m).setAccesses _).trans (exchanges_attach hattach)

theorem exchanges_issueBlocks {plans : List (Nat × IssuePlan)} {r : Except EngineError (List AccessId)}
    (h : m.issueBlocks e plans = .ok (r, m')) : m.Exchanges m' := by
  induction plans generalizing m r with
  | nil =>
      cases h
      exact exchanges_refl m'
  | cons x rest ih =>
      rcases x with ⟨i, plan⟩
      rcases issueBlocks_cons_eq_ok h with ⟨first, m₁, hblock, ⟨_, rfl⟩ | ⟨made, more, _, hrest, _⟩⟩
      · exact exchanges_issueBlock hblock
      · exact (exchanges_issueBlock hblock).trans (ih hrest)

theorem exchanges_issue {r : Except EngineError (List AccessId)} (h : m.issue e = .ok (r, m')) :
    m.Exchanges m' := by
  rcases issue_eq_ok h with ⟨prev, el, plans, _, ⟨_, rfl⟩ | ⟨_, r₁, m₁, hblocks, hcase⟩⟩
  · exact exchanges_refl m'
  have hasked := exchanges_issueBlocks hblocks
  rcases hcase with ⟨_, rfl⟩ | ⟨_, el₁, hel₁, hends⟩
  · exact hasked
  have hbare : ({ el₁ with reqIssued := true } : Element).bare = el₁.bare := rfl
  have hput := hasked.trans (exchanges_putElement hel₁ hbare)
  rcases hends with ⟨_, rfl⟩ | ⟨_, became, hset⟩
  · exact hput
  · exact hput.trans (exchanges_setValueFromPrevious hset)

/-- Settling a block with this function settles blocks only. -/
def SettlesBlocks (settle : Element → Nat → Except Fault (Bool × Element)) : Prop :=
  ∀ el i became el', settle el i = .ok (became, el') → el.Advances el'

theorem settlesBlocks_settleData (data : List UInt8) : SettlesBlocks (settleData data) := by
  intro el i became el' h
  rcases settleData_eq_ok h with ⟨b, _, hset⟩
  exact Element.advances_setValue hset

theorem settlesBlocks_faultBlock : SettlesBlocks Element.faultBlock :=
  fun _ _ _ _ => Element.advances_faultBlock

theorem exchanges_deliver {store : Bool} {settle : Element → Nat → Except Fault (Bool × Element)}
    (hsettle : SettlesBlocks settle) {ws ready : List ElementId}
    (h : m.deliver a store settle ws = .ok (ready, m')) : m.Exchanges m' := by
  induction ws generalizing m ready with
  | nil =>
      cases h
      exact exchanges_refl m'
  | cons e ws ih =>
      rcases deliver_cons_eq_ok h with ⟨el, told, i, b, became, others, hel, _, _, hcase, hothers, _⟩
      have hbare : told.bare = el.bare := by
        rcases hcase with ⟨_, rfl, _⟩ | ⟨_, hsettled⟩
        · rfl
        · exact (hsettle _ i became told hsettled).bare_eq
      exact (exchanges_putElement hel hbare).trans (ih hothers)

theorem exchanges_answer {settle : Element → Nat → Except Fault (Bool × Element)}
    (hsettle : SettlesBlocks settle) {ready : List ElementId}
    (h : m.answer a settle = .ok (ready, m')) : m.Exchanges m' := by
  rcases answer_eq_ok h with ⟨access, _, hdeliver⟩
  exact ((exchanges_refl m).setAccesses _).trans (exchanges_deliver hsettle hdeliver)

theorem exchanges_apply {op : Operation} (happly : m.apply op = .ok m') (hop : op.IsTransfer) :
    m.Exchanges m' := by
  cases op with
  | issue e =>
      rcases map_snd_eq_ok happly with ⟨r, hissue⟩
      exact exchanges_issue hissue
  | respond a data =>
      rcases map_snd_eq_ok happly with ⟨ready, hanswer⟩
      exact exchanges_answer (settlesBlocks_settleData data) hanswer
  | respondFault a =>
      rcases map_snd_eq_ok happly with ⟨ready, hanswer⟩
      exact exchanges_answer settlesBlocks_faultBlock hanswer
  | setValue e vaddr data =>
      rcases map_snd_eq_ok happly with ⟨became, hset⟩
      exact exchanges_setValue hset
  | setValueFromPrevious e =>
      rcases map_snd_eq_ok happly with ⟨became, hset⟩
      exact exchanges_setValueFromPrevious hset
  | _ => exact hop.elim

/-! ## Quiet operations -/

theorem quiet_markAddrReady {r : Except EngineError Unit} (h : m.markAddrReady e = .ok (r, m')) :
    m.Quiet m' := by
  rcases markAddrReady_eq_ok h with rfl | ⟨el, el', addr, hel, hready, _, rfl⟩
  · exact quiet_refl m'
  · exact quiet_putElement hel (Element.place_markAddrReady hready)

theorem quiet_commit {v : StreamValue} (h : m.commit e v = .ok m') : m.Quiet m' := by
  rcases commit_eq_ok h with ⟨el, el', hel, rfl, rfl | hadv⟩
  · exact quiet_putElement hel rfl
  · have hplace := Element.steady_place.advances hadv
    exact quiet_putElement hel hplace

theorem quiet_compute (h : m.compute e = .ok m') : m.Quiet m' := by
  rcases compute_cases h with ⟨v, hcommit⟩ | ⟨v, cycles, hschedule⟩
  · exact quiet_commit hcommit
  · rcases schedule_eq_ok hschedule with ⟨el, hel, rfl⟩
    have hput : m.Quiet (m.putElement e { el with computeScheduled := true }) :=
      quiet_putElement hel rfl
    exact hput.setOthers _ _ _

theorem quiet_tick {now : Nat} {done : List ElementId} (h : m.tick now = .ok (done, m')) :
    m.Quiet m' := by
  refine foldlM_keeps (fun _ m₁ => m.Quiet m₁) ?_ ((quiet_refl m).setOthers _ _ _) (tick_eq_ok h)
  intro p rest m₁ m₂ hquiet hcommit
  exact hquiet.trans (quiet_commit hcommit)

theorem quiet_flush {aliased : Bool} (h : m.flush e aliased = .ok m') : m.Quiet m' := by
  rcases flush_eq_ok h with ⟨el, pool, hel, _, rfl⟩
  have hplace : (el.flush aliased).2.place = el.place := rfl
  exact (quiet_putElement hel hplace).setOthers pool (m.dropPending e).pending m.now

theorem quiet_apply {op : Operation} (happly : m.apply op = .ok m') (hop : op.IsQuiet) : m.Quiet m' := by
  cases op with
  | issue _ | respond _ _ | respondFault _ | setValue _ _ _ | setValueFromPrevious _ =>
      exact (exchanges_apply happly trivial).quiet
  | markAddrReady e =>
      rcases map_snd_eq_ok happly with ⟨r, hmark⟩
      exact quiet_markAddrReady hmark
  | compute e => exact quiet_compute happly
  | tick now =>
      rcases map_snd_eq_ok happly with ⟨done, htick⟩
      exact quiet_tick htick
  | flush e aliased => exact quiet_flush happly
  | _ => exact hop.elim

end Manager
end StreamEngine
