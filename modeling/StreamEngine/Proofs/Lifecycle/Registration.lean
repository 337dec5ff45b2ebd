import StreamEngine.Proofs.Lifecycle.Endings

/-!
# Registration in every state

A block waits on an access exactly if its element is registered there, and this holds whatever the
operations were and in whatever order they came. No operation can then be stopped by a registration that
is missing, made twice or left behind.

- `Manager.Paired` : waiting blocks and registered receivers correspond to each other;
- `run_registered` : they do after every run.
-/

namespace StreamEngine
namespace Manager

variable {k : Nat} {m : Manager}

/-- Blocks that wait and receivers that are registered come in pairs. -/
structure Paired (m : Manager) : Prop where
  /-- What a block waits on is in flight for its line, and knows the element once. -/
  waiting : ∀ e el, m.element? e = some el → ∀ b ∈ el.blocks, ∀ a, b.access = some a →
    ∃ access, m.accesses.find? a = some access ∧ access.line = b.line ∧
      access.receivers.entries.countP (fun x => x.element == e && x.live) = 1
  /-- Whoever is registered is allocated, and waits with one block. -/
  receiving : ∀ a access, m.accesses.find? a = some access →
    ∀ x ∈ access.receivers.entries, x.live = true →
    ∃ el, m.element? x.element = some el ∧ el.blocks.countP (fun b => b.access == some a) = 1
  /-- The free slots are the empty ones, each named once. -/
  slots : m.accesses.slab.Exact
  /-- No element has two entries, and no list has more entries than fit. -/
  entries : ∀ a access, m.accesses.find? a = some access →
    (access.receivers.entries.map Receiver.element).Nodup ∧ access.receivers.entries.length ≤ 64

theorem Connected.paired (h : m.Connected k) : m.Paired where
  waiting := by
    intro e el hel b hb a ha
    have hserves := (h.linked.serves_iff hel).2 ⟨rfl, b, hb, rfl, ha⟩
    rcases hserves with ⟨access, hfind, _, hline, hears⟩
    exact ⟨access, hfind, hline, Receivers.countP_eq_one (h.pool.receivers a access hfind) hears⟩
  receiving := by
    intro a access hfind x hx hlive
    have hears : access.receivers.Hears x.element := by
      refine (Receivers.hears_iff (h.pool.receivers a access hfind)).2 ?_
      rw [← hlive]
      exact hx
    have hwaits := (h.linked.waits_iff a x.element access.stream access.line).2
      ⟨access, hfind, rfl, rfl, hears⟩
    rcases hwaits with ⟨el, hel, _, hwaits⟩
    exact ⟨el, hel, (h.linked.tidy x.element el hel).countP_eq_one hwaits⟩
  slots := h.pool.slab
  entries := fun a access hfind =>
    ⟨(h.pool.receivers a access hfind).nodup, (h.pool.receivers a access hfind).length_le⟩

/-- Whatever the operations and their order, waiting blocks and registered receivers correspond to each
other. So no later operation is stopped by a registration, and an access in flight can be answered. -/
theorem run_registered (hk : k < 64) {o : Options} (hline : o.lineSize = 2 ^ k)
    {ops : List Operation} (hrun : Manager.run { options := o } ops = .ok m) :
    m.Paired ∧
      (∀ e aliased, Avoids Fault.Inconsistent (m.flush e aliased)) ∧
      (∀ e, Avoids Fault.Inconsistent (m.release e)) ∧
      (∀ s, Avoids Fault.Inconsistent (m.releaseStepped s)) ∧
      (∀ s, Avoids Fault.Inconsistent (m.endStream s)) ∧
      (∀ e, Avoids Fault.Inconsistent (m.issue e)) ∧
      ∀ a access, m.accesses.find? a = some access →
        (∀ data, Avoids Fault.Inconsistent (m.respond a data)) ∧
          Avoids Fault.Inconsistent (m.respondFault a) := by
  rcases connected_run hk hline hrun with ⟨howned, hconnected⟩
  refine ⟨hconnected.paired, hconnected.avoids_flush, hconnected.avoids_release howned,
    hconnected.avoids_releaseStepped howned, hconnected.avoids_endStream howned,
    hconnected.avoids_issue howned, ?_⟩
  intro a access hfind
  refine ⟨fun data => ?_, ?_⟩
  · exact hconnected.avoids_answer (settlesBlocks_settleData data) (avoids_settleData data) hfind
  · exact hconnected.avoids_answer settlesBlocks_faultBlock Element.avoids_faultBlock hfind

/-! ## A receiver that comes back -/

/-- Words behind each other on one line. -/
def neighbours : Declaration :=
  { staticId := 1, role := .load, elemSize := 8, formal := Formal.ofWords [8, 0x1000] }

/-- The second word shares the access of the first one, is rewound and shares it again. The first word is
gone by then. -/
def neighboursRun : List Operation :=
  let s : StreamId := { core := 0, staticId := 1, instanceNo := 1 }
  [.configure neighbours, .allocate s, .allocate s, .markAddrReady { val := 0 },
    .markAddrReady { val := 1 }, .issue { val := 0 }, .issue { val := 1 }, .flush { val := 1 } false,
    .markAddrReady { val := 1 }, .issue { val := 1 }, .step s, .release { val := 0 }]

theorem run_registered_neighbours :
    ∃ m access, Manager.run { options := {} } neighboursRun = .ok m ∧
      m.accesses.find? { val := 0 } = some access ∧
      access.receivers.entries =
        [{ element := { val := 0 }, live := false }, { element := { val := 1 }, live := true }] ∧
      (∃ el, m.element? { val := 1 } = some el ∧
        el.blocks.countP (fun b => b.access == some { val := 0 }) = 1) ∧
      Avoids Fault.Inconsistent (m.respondFault { val := 0 }) := by
  have hshape : (Manager.run { options := {} } neighboursRun).toOption.bind (fun m =>
      (m.accesses.find? { val := 0 }).map fun access => access.receivers.entries) =
      some [{ element := { val := 0 }, live := false }, { element := { val := 1 }, live := true }] := by
    decide +kernel
  cases hrun : Manager.run { options := {} } neighboursRun with
  | error f =>
      rw [hrun] at hshape
      cases hshape
  | ok m =>
      rw [hrun] at hshape
      rcases Option.map_eq_some_iff.1 hshape with ⟨access, hfind, hentries⟩
      have hholds := run_registered (by decide : 6 < 64) (o := {}) rfl hrun
      refine ⟨m, access, rfl, hfind, hentries, ?_, ?_⟩
      · refine hholds.1.receiving _ access hfind { element := { val := 1 }, live := true } ?_ rfl
        rw [hentries]
        exact List.mem_cons_of_mem _ (List.mem_singleton_self _)
      · exact (hholds.2.2.2.2.2.2 _ access hfind).2

end Manager
end StreamEngine
