import Mathlib.Tactic.IntervalCases
import StreamEngine.Proofs.Lifecycle.Answering
import StreamEngine.Proofs.Lifecycle.Asking
import StreamEngine.Proofs.Lifecycle.Computing
import StreamEngine.Proofs.Lifecycle.Creating
import StreamEngine.Proofs.Lifecycle.Retiring

/-!
# What loads deliver

As long as every answer brings what memory holds, an element of a load holds memory too, whether its lines
came with accesses of its own, with accesses that it shared, or from the element before it.

- `Manager.Truthful`, `Manager.fails` : what an operation brings in;
- `Coherent.apply` : every operation keeps a manager that agrees with memory;
- `run_loads` : what the elements of loads hold after any run.
-/

namespace StreamEngine
namespace Manager

variable {k : Nat} {M : UInt64 → List UInt8} {failed : List FailedLine} {m m' : Manager}

/-- What an operation writes into elements is what memory holds. -/
def Truthful (M : UInt64 → List UInt8) (m : Manager) : Operation → Prop
  | .respond a data => ∀ access, m.accesses.find? a = some access → data = M access.line
  | .setValue _ _ _ => False
  | _ => True

/-- The line that an operation reports as failed, and the stream of the access. -/
def fails (m : Manager) : Operation → Option FailedLine
  | .respondFault a => (m.accesses.find? a).map fun access => (access.stream, access.line)
  | _ => none

theorem Coherent.mono {failed' : List FailedLine} (h : m.Coherent k M failed)
    (hsub : failed ⊆ failed') : m.Coherent k M failed' :=
  ⟨h.sound.mono hsub, h.resting⟩

theorem Coherent.apply (hk : k < 64) (hM : ∀ line, (M line).length = 2 ^ k)
    (h : m.Coherent k M failed) {op : Operation} (htruth : m.Truthful M op)
    (happly : m.apply op = .ok m') : m'.Coherent k M ((m.fails op).toList ++ failed) := by
  cases op with
  | configure d =>
      rcases map_snd_eq_ok happly with ⟨id, hop⟩
      exact h.configure hop
  | allocate s =>
      rcases map_snd_eq_ok happly with ⟨r, hop⟩
      exact h.allocate hop
  | markAddrReady e =>
      rcases map_snd_eq_ok happly with ⟨r, hop⟩
      exact h.markAddrReady hk hop
  | issue e =>
      rcases map_snd_eq_ok happly with ⟨r, hop⟩
      exact h.issue hk hM hop
  | respond a data =>
      rcases map_snd_eq_ok happly with ⟨ready, hop⟩
      exact Coherent.respond hk hM h htruth hop
  | respondFault a =>
      rcases map_snd_eq_ok happly with ⟨ready, hop⟩
      refine (h.mono (List.subset_append_right _ _)).respondFault ?_ hop
      intro access hfind
      rw [fails, hfind]
      exact List.mem_cons_self ..
  | setValue e vaddr data => exact htruth.elim
  | setValueFromPrevious e =>
      rcases map_snd_eq_ok happly with ⟨became, hop⟩
      exact h.setValueFromPrevious hk hM hop
  | compute e => exact h.compute happly
  | tick now =>
      rcases map_snd_eq_ok happly with ⟨done, hop⟩
      exact h.tick hop
  | setFinalValue s idx w =>
      rcases map_snd_eq_ok happly with ⟨r, hop⟩
      exact h.setFinalValue hop
  | step s =>
      rcases map_snd_eq_ok happly with ⟨r, hop⟩
      exact h.step hop
  | flush e aliased => exact h.flush happly
  | release _ | releaseStepped _ | endStream _ =>
      exact keeps_of_isRelease (fun _ _ _ h => h.releaseFront)
        (fun s _ graph h => ⟨(h.sound.eraseStream s).setOthers graph _ _, h.resting⟩) h happly trivial

theorem coherent_run (hk : k < 64) (hM : ∀ line, (M line).length = 2 ^ k) {o : Options}
    (hline : o.lineSize = 2 ^ k) {ops : List Operation}
    (hrun : Manager.run { options := o } ops = .ok m)
    (htruth : ∀ found op, Applies { options := o } ops found op → found.Truthful M op) :
    ∃ failed, m.Coherent k M failed ∧
      ∀ x ∈ failed, ∃ found op, Applies { options := o } ops found op ∧ found.fails op = some x := by
  let start : Manager := { options := o }
  let reported : FailedLine → Prop := fun x =>
    ∃ found op, start.Applies ops found op ∧ found.fails op = some x
  let kept : Manager → Prop := fun m => ∃ failed, m.Coherent k M failed ∧ ∀ x ∈ failed, reported x
  -- the lines that have failed so far are collected along the run
  have hstep : ∀ m m' op, kept m → m.Truthful M op ∧ start.Applies ops m op →
      m.apply op = .ok m' → kept m' := by
    rintro m m' op ⟨failed, hcoherent, hreported⟩ ⟨htruthful, happlies⟩ happly
    refine ⟨_, hcoherent.apply hk hM htruthful happly, ?_⟩
    intro x hx
    rcases List.mem_append.1 hx with hx | hx
    · exact ⟨m, op, happlies, Option.mem_toList.1 hx⟩
    · exact hreported x hx
  have hnew : kept start := ⟨[], coherent_new hline, fun x hx => by cases hx⟩
  exact run_keeps hstep (fun found op happlies => ⟨htruth found op happlies, happlies⟩) hnew hrun

/-- Whatever the operations and their order, every block of a load that is ready holds its line, a load
that is value ready and not faulted delivers its bytes of memory, and a block of a load is faulted only
after an access of the stream to the line failed. -/
theorem run_loads (hk : k < 64) {o : Options} (hline : o.lineSize = 2 ^ k)
    (hM : ∀ line, (M line).length = o.lineSize) {ops : List Operation}
    (hrun : Manager.run { options := o } ops = .ok m)
    (htruth : ∀ found op, Applies { options := o } ops found op → found.Truthful M op)
    {e : ElementId} {el : Element} {st : LiveStream} (hel : m.element? e = some el)
    (hst : m.stream? el.stream = some st) (hloads : st.decl.role.loads = true) :
    (∀ b ∈ el.blocks, b.state = .ready → el.getValue b.line o.lineSize = .ok (M b.line)) ∧
      (el.valueReady = true → el.isFaulted = false →
        el.getValue el.addr el.size = .ok (memoryBytes M o.lineSize el.addr el.size)) ∧
      ∀ b ∈ el.blocks, b.state = .faulted → ∃ found a access,
        Applies { options := o } ops found (.respondFault a) ∧
        found.accesses.find? a = some access ∧ access.stream = el.stream ∧ access.line = b.line := by
  rcases coherent_run hk (fun line => (hM line).trans hline) hline hrun htruth with
    ⟨failed, hcoherent, hreported⟩
  have hrole : m.role? el.stream = some st.decl.role := by
    rw [role?, hst]
    rfl
  have hsound := hcoherent.sound.element e el hel
  have hloaded := hsound.load _ hrole hloads
  have hsize : el.lineSize = o.lineSize := hsound.size_eq.trans hline.symm
  refine ⟨?_, ?_, ?_⟩
  · intro b hb hready
    rw [← hsize]
    exact (hloaded.ready b hb hready).2
  · intro hready hclean
    rw [← hsize]
    exact hloaded.getValue_eq hsound.laid hk hsound.size_eq hready hclean
  · intro b hb hfaulted
    rcases hreported _ (hloaded.faulted b hb hfaulted) with ⟨found, op, happlies, hfails⟩
    cases op with
    | respondFault a =>
        rcases Option.map_eq_some_iff.1 hfails with ⟨access, hfind, heq⟩
        rcases Prod.mk.inj heq with ⟨hstream, hline'⟩
        exact ⟨found, a, access, happlies, hfind, hstream, hline'⟩
    | _ => cases hfails

/-! ## Words that share lines -/

/-- Every byte of a line is the number of the line. -/
def numbered (line : UInt64) : List UInt8 :=
  List.replicate 64 (line / 64).toUInt8

/-- Pairs of words, each pair one word behind the last one. The first of them lie on two lines. -/
def pairs : Declaration :=
  { staticId := 1, role := .load, elemSize := 16, formal := Formal.ofWords [8, 0x1038] }

/-- The second pair shares an access of the first one, and the third is copied from the second. The
answers come out of order. -/
def pairsRun : List Operation :=
  let s : StreamId := { core := 0, staticId := 1, instanceNo := 1 }
  [.configure pairs, .allocate s, .allocate s, .allocate s,
    .markAddrReady { val := 0 }, .markAddrReady { val := 1 }, .markAddrReady { val := 2 },
    .issue { val := 0 }, .issue { val := 1 }, .respond { val := 1 } (numbered 0x1040),
    .issue { val := 2 }, .respond { val := 0 } (numbered 0x1000)]

theorem truthful_of_run {found : Manager} {ops : List Operation} {a : AccessId} {line : UInt64}
    (hrun : Manager.run { options := {} } ops = .ok found)
    (hline : (Manager.run { options := {} } ops).toOption.bind
      (fun m => (m.accesses.find? a).map Access.line) = some line) :
    found.Truthful numbered (.respond a (numbered line)) := by
  intro access hfind
  rw [hrun, Except.toOption, Option.bind_some, hfind] at hline
  rw [Option.some.inj hline]

theorem run_loads_pairs :
    ∃ m el, Manager.run { options := {} } pairsRun = .ok m ∧ m.element? { val := 2 } = some el ∧
      el.addr = 0x1048 ∧ el.getValue el.addr el.size = .ok (memoryBytes numbered 64 0x1048 16) := by
  have htruth : ∀ found op, Applies { options := {} } pairsRun found op →
      found.Truthful numbered op := by
    intro found op happlies
    rcases happlies.exists_take with ⟨i, hop, hrun⟩
    have hi : i < 12 := (List.getElem?_eq_some_iff.1 hop).1
    -- the answers are the tenth operation and the last one
    by_cases hfirst : i = 9
    · rw [hfirst] at hop hrun
      cases hop
      exact truthful_of_run hrun (by decide +kernel)
    · by_cases hsecond : i = 11
      · rw [hsecond] at hop hrun
        cases hop
        exact truthful_of_run hrun (by decide +kernel)
      · interval_cases i <;> first | omega | (cases hop; exact True.intro)
  have hshape : (Manager.run { options := {} } pairsRun).toOption.bind (fun m =>
      (m.element? { val := 2 }).map fun el =>
        (el.addr, el.size, el.valueReady, el.isFaulted,
          (m.stream? el.stream).map fun st => st.decl.role.loads)) =
      some (0x1048, 16, true, false, some true) := by
    decide +kernel
  cases hrun : Manager.run { options := {} } pairsRun with
  | error f =>
      rw [hrun] at hshape
      cases hshape
  | ok m =>
      rw [hrun] at hshape
      rcases Option.map_eq_some_iff.1 hshape with ⟨el, hel, heq⟩
      rcases Prod.mk.inj heq with ⟨haddr, heq⟩
      rcases Prod.mk.inj heq with ⟨hsize, heq⟩
      rcases Prod.mk.inj heq with ⟨hready, heq⟩
      rcases Prod.mk.inj heq with ⟨hclean, hrole⟩
      rcases Option.map_eq_some_iff.1 hrole with ⟨st, hst, hloads⟩
      have hlength : ∀ line, (numbered line).length = 64 := fun _ => List.length_replicate
      have hholds := run_loads (by decide : 6 < 64) (o := {}) rfl hlength hrun htruth hel hst hloads
      refine ⟨m, el, rfl, hel, haddr, ?_⟩
      rw [hholds.2.1 hready hclean, haddr, hsize]

end Manager
end StreamEngine
