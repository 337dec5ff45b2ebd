import StreamEngine.Proofs.Lifecycle.Soundness

/-!
# New streams and new elements

A new stream has an identity that no element belongs to, and a new element has no blocks yet.

- `Coherent.configure`, `Coherent.allocate`.
-/

namespace StreamEngine
namespace Manager

variable {k : Nat} {M : UInt64 → List UInt8} {failed : List FailedLine} {serves : Service}
  {m m' : Manager} {s : StreamId} {st : LiveStream}

/-! ## Configuring -/

theorem Sound.nextInstance (h : m.Sound k M failed serves) (core : Int) (staticId : StaticId) :
    ({ m with instances := (m.instances.next core staticId).2 } : Manager).Sound
      k M failed serves := by
  have hreg := h.registered
  refine ⟨h.size_eq, ?_, h.element, h.pending⟩
  exact ⟨hreg.elements, hreg.accesses, hreg.counted.next core staticId,
    fun s st hst => List.mem_cons_of_mem _ (hreg.streams s st hst),
    fun e el hel => List.mem_cons_of_mem _ (hreg.owners e el hel), hreg.nodup, hreg.chained⟩

/-- A stream that no element belongs to has no element to be sound about. -/
theorem Sound.addStream (h : m.Sound k M failed serves) (hs : s ∈ m.instances.issued)
    (hnew : ∀ e el, m.element? e = some el → el.stream ≠ s) (st : LiveStream)
    (hchain : st.chain = []) :
    (m.putStream s st).Sound k M failed serves := by
  have hroles : ∀ e el, m.element? e = some el →
      (m.putStream s st).role? el.stream = m.role? el.stream := by
    intro e el hel
    rw [role?, role?, stream?_putStream, if_neg]
    intro hsame
    exact hnew e el hel hsame.symm
  refine ⟨h.size_eq, h.registered.putStream hs ?_ ?_, ?_, ?_⟩
  · rw [hchain]
    exact List.nodup_nil
  · intro e he
    rw [hchain] at he
    cases he
  · intro e el hel
    rw [hroles e el hel]
    exact h.element e el hel
  · intro p hp
    rcases h.pending p hp with ⟨el, hel, hready⟩
    refine ⟨el, hel, ?_⟩
    rintro ⟨r, hr, hloads⟩
    rw [hroles _ el hel] at hr
    exact hready ⟨r, hr, hloads⟩

theorem Coherent.configure (h : m.Coherent k M failed) {d : Declaration} {id : StreamId}
    (hconfigure : m.configure d = .ok (id, m')) : m'.Coherent k M failed := by
  rcases configure_eq_ok hconfigure with ⟨rfl, config, graph, graph', bases, _, _, rfl⟩
  have hreg := h.sound.registered
  -- an instance that has not been issued yet has no elements
  have hnew : ∀ e el, m.element? e = some el →
      el.stream ≠ (m.instances.next d.core d.staticId).1 := by
    intro e el hel hsame
    have hold := hreg.owners e el hel
    rw [hsame] at hold
    exact InstanceCounter.not_mem_next hreg.counted d.core d.staticId hold
  have hadded := (h.sound.nextInstance d.core d.staticId).addStream (List.mem_cons_self ..) hnew
    { config, decl := d, bases } rfl
  exact ⟨hadded.setOthers _ _ _, fun e el hel => h.resting e el hel⟩

/-! ## Allocating -/

theorem mem_selfBase {kernel : Kernel} (hrole : st.decl.role = .loadCompute kernel) (self : BaseRef) :
    self ∈ selfBase st self := by
  rw [selfBase, hrole]
  simp [Role.isLoadCompute]

theorem Coherent.insertElement (h : m.Coherent k M failed) {el : Element}
    (hs : el.stream ∈ m.instances.issued) (hnil : el.blocks = [])
    (hel : el.Sound k M failed m.accesses.Serves (m.role? el.stream)
      { val := (m.elements.insert el).1 }) :
    ({ m with elements := (m.elements.insert el).2 } : Manager).Coherent k M failed := by
  refine ⟨h.sound.insertElement hs hel, ?_⟩
  intro e' el₁ hel₁
  rw [element?_insert h.sound.registered.elements] at hel₁
  by_cases hkey : e' = { val := (m.elements.insert el).1 }
  · rw [if_pos hkey] at hel₁
    cases hel₁
    intro b hb
    rw [hnil] at hb
    cases hb
  · rw [if_neg hkey] at hel₁
    exact h.resting e' el₁ hel₁

/-- Linking changes neither streams nor who belongs to them. -/
theorem Coherent.linkLast (h : m.Coherent k M failed) {chain : List ElementId} {e : ElementId}
    (hlink : m.linkLast chain e = .ok m') :
    m'.Coherent k M failed ∧ m'.streams = m.streams ∧
      ∀ e' el₁, m.element? e' = some el₁ →
        ∃ el₂, m'.element? e' = some el₂ ∧ el₂.stream = el₁.stream := by
  rcases linkLast_cases hlink with rfl | ⟨last, el₀, _, hel₀, rfl⟩
  · exact ⟨h, rfl, fun e' el₁ hel₁ => ⟨el₁, hel₁, rfl⟩⟩
  · refine ⟨⟨?_, h.resting.putElement hel₀ (h.resting last el₀ hel₀)⟩, rfl, ?_⟩
    · exact h.sound.putElement hel₀ rfl
        ((h.sound.element last el₀ hel₀).setOthers (some e) _ _ _ _) fun _ _ => id
    · intro e' el₁ hel₁
      by_cases hsame : e' = last
      · rw [hsame, hel₀] at hel₁
        cases hel₁
        refine ⟨{ el₀ with next := some e }, ?_, rfl⟩
        rw [hsame]
        exact element?_putElement_self hel₀ _
      · exact ⟨el₁, (element?_putElement_of_ne hel₀ _ hsame).trans hel₁, rfl⟩

/-- An element without blocks joins a stream, behind the last element of its chain. -/
theorem Coherent.newElement (h : m.Coherent k M failed) (hst : m.stream? s = some st) {el : Element}
    {e : ElementId} (he : e = { val := (m.elements.insert el).1 })
    (hel : el.Sound k M failed m.accesses.Serves (some st.decl.role) e) (hstream : el.stream = s)
    (hnil : el.blocks = [])
    (hlink : ({ m with elements := (m.elements.insert el).2 } : Manager).linkLast st.chain e =
      .ok m') (nextIdx : Nat) :
    (m'.putStream s { st with chain := st.chain ++ [e], nextIdx }).Coherent k M failed := by
  have hreg := h.sound.registered
  have hchain := hreg.chained s st hst
  -- a key that was free belongs to no chain
  have hnew : m.element? e = none := he ▸ element?_insert_eq_none hreg.elements el
  have hrole : m.role? el.stream = some st.decl.role := by
    rw [role?, hstream, hst]
    rfl
  have hinserted := h.insertElement (hstream ▸ hreg.streams s st hst) hnil (by rwa [hrole, ← he])
  rcases hinserted.linkLast hlink with ⟨hcoherent, hstreams, howners⟩
  have hst' : m'.stream? s = some st := by
    rw [stream?, hstreams]
    exact hst
  refine ⟨hcoherent.sound.putStream hst' rfl ?_ ?_, hcoherent.resting⟩
  · refine List.nodup_append.2 ⟨hreg.nodup s st hst, List.pairwise_singleton _ e, ?_⟩
    intro e' he' e'' he'' hsame
    rcases hchain e' he' with ⟨el₁, hel₁, _⟩
    rw [hsame, List.mem_singleton.1 he'', hnew] at hel₁
    cases hel₁
  · intro e' he'
    rcases List.mem_append.1 he' with he' | he'
    · rcases hchain e' he' with ⟨el₁, hel₁, hs⟩
      rcases howners e' el₁ (element?_insert_of_some hreg.elements el hel₁) with ⟨el₂, hel₂, hs₂⟩
      exact ⟨el₂, hel₂, hs₂.trans hs⟩
    · rw [List.mem_singleton.1 he']
      rcases howners e el (by rw [element?_insert hreg.elements, he, if_pos rfl]) with
        ⟨el₂, hel₂, hs₂⟩
      exact ⟨el₂, hel₂, hs₂.trans hstream⟩

theorem Coherent.allocate (h : m.Coherent k M failed) {r : Except EngineError ElementId}
    (hallocate : m.allocate s = .ok (r, m')) : m'.Coherent k M failed := by
  rcases allocate_cases hallocate with
    ⟨_, _, rfl⟩ | ⟨st, bases, own, e, m₂, graph, hst, _, _, _, hkey, hlink, _, rfl⟩
  · exact h
  have hcoherent := h.newElement hst hkey ?_ rfl rfl hlink (st.nextIdx + 1)
  · exact ⟨hcoherent.sound.setOthers graph m₂.latest m₂.now, hcoherent.resting⟩
  · refine Element.sound_of_nil h.sound.size_eq rfl rfl ?_ ?_
    · intro r hr hloads
      cases hr
      exact Role.isMem_of_loads hloads
    · intro kernel hr
      exact ⟨_, List.mem_append_right _ (mem_selfBase (Option.some.inj hr) _), rfl⟩

end Manager
end StreamEngine
