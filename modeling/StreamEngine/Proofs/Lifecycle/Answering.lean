import StreamEngine.Proofs.Lifecycle.Soundness

/-!
# Answers

An answer takes an access out of flight and goes to every element that waits for it, one after another.
In between, the elements that have not been told yet still wait on an access that is gone.

- `delivering` : whom the accesses serve while an answer is delivered;
- `Coherent.respond`, `Coherent.respondFault`.
-/

namespace StreamEngine
namespace Manager

variable {k : Nat} {M : UInt64 → List UInt8} {failed : List FailedLine} {m m' : Manager}
  {p : AccessPool} {a : AccessId} {access : Access} {e : ElementId} {el : Element}

/-- Access `a` is gone, but elements of `ws` still wait for its answer. -/
def delivering (p : AccessPool) (a : AccessId) (access : Access) (ws : List ElementId) : Service :=
  fun a' e s line =>
    a' = a ∧ e ∈ ws ∧ s = access.stream ∧ line = access.line ∨ a' ≠ a ∧ p.Serves a' e s line

/-- Settling a block of the line keeps to memory. -/
def Settles (k : Nat) (M : UInt64 → List UInt8) (failed : List FailedLine) (access : Access)
    (settle : Element → Nat → Except Fault (Bool × Element)) : Prop :=
  ∀ (el : Element) (i : Nat) (b : Block) (became : Bool) (el' : Element), el.lineSize = 2 ^ k →
    el.Laid → el.blocks[i]? = some b → b.line = access.line → el.stream = access.stream →
    settle el i = .ok (became, el') →
      el.Advances el' ∧ (el.Loaded M failed → el'.Loaded M failed)

theorem settles_settleData (hk : k < 64) (hM : ∀ line, (M line).length = 2 ^ k) :
    Settles k M failed access (settleData (M access.line)) := by
  intro el i b became el' hsize hlaid hb hline _ hsettle
  rw [settleData, hb] at hsettle
  simp only at hsettle
  refine ⟨Element.advances_setValue hsettle, ?_⟩
  intro hloaded
  rw [← hline] at hsettle
  refine hloaded.setValue hlaid hk hsize ?_ (List.mem_of_getElem? hb) hsettle
  intro line
  rw [hsize, hM]

theorem settles_faultBlock (hfailed : (access.stream, access.line) ∈ failed) :
    Settles k M failed access Element.faultBlock := by
  intro el i b became el' _ _ hb hline hstream hsettle
  refine ⟨Element.advances_faultBlock hsettle, ?_⟩
  intro hloaded
  refine hloaded.faultBlock hb ?_ hsettle
  rw [hline, hstream]
  exact hfailed

/-! ## Delivering -/

/-- Whom the accesses serve when one element less is left to tell. -/
theorem delivering_cons {ws : List ElementId} {e' : ElementId} (hne : e' ≠ e) {a' : AccessId}
    {s : StreamId} {line : UInt64} (h : delivering p a access (e :: ws) a' e' s line) :
    delivering p a access ws a' e' s line := by
  refine h.imp_left ?_
  rintro ⟨ha, hmem, hs, hl⟩
  exact ⟨ha, (List.mem_cons.1 hmem).resolve_left hne, hs, hl⟩

theorem Resting.detach (h : m.Resting) (hel : m.element? e = some el) (i : Nat) :
    (m.putElement e (detached el i)).Resting := by
  refine h.putElement hel (Element.forall_setBlock (fun b hb => ?_) (h e el hel))
  exact h e el hel b (List.mem_of_getElem? hb)

/-- Telling one element, which stops waiting. -/
theorem Sound.detach {ws : List ElementId} (h : m.Sound k M failed (delivering p a access (e :: ws)))
    (hel : m.element? e = some el) {i : Nat} {b : Block} (hb : el.blocks[i]? = some b)
    (ha : b.access = some a) :
    (m.putElement e (detached el i)).Sound k M failed (delivering p a access ws) ∧
      b.line = access.line ∧ el.stream = access.stream := by
  have hsound := h.element e el hel
  rcases (hsound.waits.served b (List.mem_of_getElem? hb) a ha).resolve_right fun hthis =>
    hthis.1 rfl with ⟨_, _, hstream, hline⟩
  -- the element waits on `a` with this block only
  have hwaits : (detached el i).Waits (delivering p a access ws) e := by
    refine hsound.waits.detach hb ha ?_
    intro a' s line hne hserves
    exact Or.inr (hserves.resolve_left fun hthis => hne hthis.1)
  have hput : (m.putElement e (detached el i)).Sound k M failed (delivering p a access (e :: ws)) := by
    refine h.putElement hel rfl ?_ fun _ _ => id
    refine hsound.setBlock (fun _ => rfl) (fun _ _ => Or.inl rfl) ?_
    exact hsound.waits.detach hb ha fun _ _ _ _ hserves => hserves
  refine ⟨hput.setServes ?_, hline, hstream⟩
  intro e' el' hel' hold
  rcases element?_putElement_cases hel hel' with ⟨rfl, rfl⟩ | ⟨he, _⟩
  · exact hwaits
  · exact hold.mono fun a' s line => delivering_cons he

theorem Sound.deliver {store : Bool} {settle : Element → Nat → Except Fault (Bool × Element)}
    (hsettle : Settles k M failed access settle) {ws ready : List ElementId}
    (h : m.Sound k M failed (delivering p a access ws)) (hrest : m.Resting)
    (hdeliver : m.deliver a store settle ws = .ok (ready, m')) :
    m'.Sound k M failed (delivering p a access []) ∧ m'.Resting ∧ m'.accesses = m.accesses := by
  -- the elements still to be told shrink from the front
  induction ws generalizing m ready with
  | nil =>
      cases hdeliver
      exact ⟨h, hrest, rfl⟩
  | cons e ws ih =>
      rcases deliver_cons_eq_ok hdeliver with
        ⟨el, told, i, b, became, others, hel, hb, ha, hcase, hothers, _⟩
      rcases h.detach hel hb ha with ⟨h₁, hline, hstream⟩
      have hrest₁ := hrest.detach hel i
      rcases hcase with ⟨_, rfl, _⟩ | ⟨_, hsettled⟩
      · have hlast := ih h₁ hrest₁ hothers
        exact hlast
      have hself := element?_putElement_self hel (detached el i)
      have hsound := h₁.element e _ hself
      rcases hsettle _ i _ became told hsound.size_eq hsound.laid (Element.getElem?_setBlock hb) hline hstream
        hsettled with ⟨hadv, hloaded⟩
      have hput := h₁.putElement hself (by rw [hadv.shape])
        (hsound.advances hadv fun r hr hloads => hloaded (hsound.load r hr hloads)) fun _ _ => hadv.ready
      have hrest₂ := hrest₁.advances hself hadv rfl
      rw [putElement_putElement] at hput hrest₂
      have hlast := ih hput hrest₂ hothers
      exact hlast

/-! ## Answering -/

theorem Coherent.answer (h : m.Coherent k M failed)
    {settle : Element → Nat → Except Fault (Bool × Element)}
    (hsettle : ∀ access, m.accesses.find? a = some access → Settles k M failed access settle)
    {ready : List ElementId} (hanswer : m.answer a settle = .ok (ready, m')) :
    m'.Coherent k M failed := by
  rcases answer_eq_ok hanswer with ⟨access, hfind, hdeliver⟩
  have hpool := h.sound.registered.accesses
  let gone : AccessPool := { slab := m.accesses.slab.erase a.val }
  -- whoever waited for the access is among those who are told
  have hstart : ({ m with accesses := gone } : Manager).Sound k M failed
      (delivering gone a access access.receivers.drain.1) := by
    refine (h.sound.setServes ?_).setAccesses (hpool.erase hfind)
    intro e' el' _ hwaits
    refine hwaits.mono ?_
    rintro a' s line hserves
    by_cases ha : a' = a
    · rcases hserves with ⟨found, hfound, hs, hl, hears⟩
      rw [ha, hfind] at hfound
      cases hfound
      exact Or.inl ⟨ha, Receivers.mem_drain hears, hs.symm, hl.symm⟩
    · exact Or.inr ⟨ha, hserves.erase hfind ha⟩
  rcases hstart.deliver (hsettle access hfind) (fun e el hel => h.resting e el hel) hdeliver with
    ⟨hend, hrest, haccesses⟩
  refine ⟨hend.setServes ?_, hrest⟩
  intro e' el' _ hwaits
  refine hwaits.mono ?_
  rintro a' s line (⟨_, hmem, _⟩ | ⟨_, hserves⟩)
  · cases hmem
  · rw [haccesses]
    exact hserves

theorem Coherent.respond (hk : k < 64) (hM : ∀ line, (M line).length = 2 ^ k)
    (h : m.Coherent k M failed) {data : List UInt8}
    (hdata : ∀ access, m.accesses.find? a = some access → data = M access.line)
    {ready : List ElementId} (hrespond : m.respond a data = .ok (ready, m')) :
    m'.Coherent k M failed := by
  refine h.answer ?_ hrespond
  intro access hfind
  rw [hdata access hfind]
  exact settles_settleData hk hM

/-- The line of an access that fails is known to have failed from then on. -/
theorem Coherent.respondFault (h : m.Coherent k M failed)
    (hfailed : ∀ access, m.accesses.find? a = some access →
      (access.stream, access.line) ∈ failed)
    {ready : List ElementId} (hrespond : m.respondFault a = .ok (ready, m')) :
    m'.Coherent k M failed :=
  h.answer (fun access hfind => settles_faultBlock (hfailed access hfind)) hrespond

end Manager
end StreamEngine
