/-!
# Computations that may fail

- `bind_eq_ok`, `bind_eq_error` : both halves of a computation that succeeds, and the half that does not;
- `foldlM_keeps` : what every step of a fold keeps, the fold keeps;
- `allM_eq_true`, `mapM_eq_ok`, `exists_mapM_ok`, `mapM_eq_map` : what succeeds for all members;
- `findM?_eq_some` : a search that succeeds;
- `Avoids` : failures that do not happen.
-/

namespace StreamEngine

section Outcome

variable {ε α β : Type}

theorem bind_eq_ok {x : Except ε α} {f : α → Except ε β} {b : β} :
    x >>= f = .ok b ↔ ∃ a, x = .ok a ∧ f a = .ok b := by
  cases x with
  | error e =>
      constructor
      · intro h
        cases h
      · rintro ⟨a, h, _⟩
        cases h
  | ok a =>
      constructor
      · intro h
        exact ⟨a, rfl, h⟩
      · rintro ⟨a', h, hf⟩
        cases h
        exact hf

theorem bind_eq_error {x : Except ε α} {f : α → Except ε β} {err : ε} :
    x >>= f = .error err ↔ x = .error err ∨ ∃ a, x = .ok a ∧ f a = .error err := by
  cases x with
  | error e =>
      constructor
      · intro h
        cases h
        exact Or.inl rfl
      · rintro (h | ⟨a, h, _⟩)
        · cases h
          rfl
        · cases h
  | ok a =>
      constructor
      · intro h
        exact Or.inr ⟨a, rfl, h⟩
      · rintro (h | ⟨a', h, hf⟩)
        · cases h
        · cases h
          exact hf

/-- A computation succeeds when its halves do. -/
theorem exists_bind_ok {x : Except ε α} {f : α → Except ε β} {a : α} (hx : x = .ok a)
    (hf : ∃ b, f a = .ok b) : ∃ b, x >>= f = .ok b := by
  rcases hf with ⟨b, hf⟩
  exact ⟨b, bind_eq_ok.2 ⟨a, hx, hf⟩⟩

theorem toOption_eq_some {x : Except ε α} {a : α} (h : x.toOption = some a) : x = .ok a := by
  cases x with
  | error e => cases h
  | ok b =>
      cases h
      rfl

theorem map_snd_eq_ok {x : Except ε (α × β)} {b : β} (h : x.map Prod.snd = .ok b) :
    ∃ a, x = .ok (a, b) := by
  cases x with
  | error e => cases h
  | ok ab =>
      cases h
      exact ⟨ab.1, rfl⟩

/-- What is kept may speak of the members that are left. -/
theorem foldlM_keeps {f : β → α → Except ε β} (I : List α → β → Prop)
    (hstep : ∀ x l b b', I (x :: l) b → f b x = .ok b' → I l b') {l : List α} {b c : β}
    (h : I l b) (hfold : l.foldlM f b = .ok c) : I [] c := by
  induction l generalizing b with
  | nil =>
      cases hfold
      exact h
  | cons x l ih =>
      rw [List.foldlM_cons] at hfold
      rcases bind_eq_ok.1 hfold with ⟨b', hx, hrest⟩
      exact ih (hstep x l b b' h hx) hrest

theorem allM_eq_true {p : α → Except ε Bool} {l : List α} (h : l.allM p = .ok true) :
    ∀ x ∈ l, p x = .ok true := by
  induction l with
  | nil =>
      intro x hx
      cases hx
  | cons y l ih =>
      rcases bind_eq_ok.1 h with ⟨found, hy, h⟩
      cases found with
      | false => cases h
      | true =>
          intro x hx
          rcases List.mem_cons.1 hx with rfl | hx
          · exact hy
          · exact ih h x hx

/-- The results of all members, in order. -/
theorem mapM_eq_ok {f : α → Except ε β} {l : List α} {r : List β} (h : l.mapM f = .ok r) :
    r.length = l.length ∧ ∀ (i : Nat) (x : α), l[i]? = some x → ∃ y, r[i]? = some y ∧ f x = .ok y := by
  induction l generalizing r with
  | nil =>
      cases h
      refine ⟨rfl, ?_⟩
      intro i x hx
      cases hx
  | cons z l ih =>
      rw [List.mapM_cons] at h
      rcases bind_eq_ok.1 h with ⟨w, hw, h⟩
      rcases bind_eq_ok.1 h with ⟨ws, hws, h⟩
      cases h
      rcases ih hws with ⟨hlen, hmembers⟩
      refine ⟨congrArg Nat.succ hlen, ?_⟩
      intro i x hx
      cases i with
      | zero =>
          cases hx
          exact ⟨w, rfl, hw⟩
      | succ i => exact hmembers i x hx

theorem exists_mapM_ok {f : α → Except ε β} {l : List α} (h : ∀ x ∈ l, ∃ y, f x = .ok y) :
    ∃ r, l.mapM f = .ok r := by
  induction l with
  | nil => exact ⟨[], rfl⟩
  | cons x l ih =>
      rcases h x List.mem_cons_self with ⟨y, hy⟩
      rcases ih fun z hz => h z (List.mem_cons_of_mem x hz) with ⟨ys, hys⟩
      rw [List.mapM_cons]
      exact exists_bind_ok hy (exists_bind_ok hys ⟨_, rfl⟩)

/-- Members that all succeed give their results in order. -/
theorem mapM_eq_map {f : α → Except ε β} {g : α → β} {l : List α} (h : ∀ x ∈ l, f x = .ok (g x)) :
    l.mapM f = .ok (l.map g) := by
  induction l with
  | nil => rfl
  | cons x l ih =>
      rw [List.mapM_cons, h x List.mem_cons_self, ih fun z hz => h z (List.mem_cons_of_mem x hz)]
      rfl

/-- A search gives the first member that passes the test. -/
theorem findM?_eq_some {p : α → Except ε Bool} {l : List α} {x : α} (h : l.findM? p = .ok (some x)) :
    ∃ i : Nat, l[i]? = some x ∧ p x = .ok true ∧
      ∀ (j : Nat) (y : α), j < i → l[j]? = some y → p y = .ok false := by
  induction l with
  | nil => cases h
  | cons z l ih =>
      rcases bind_eq_ok.1 h with ⟨found, hz, h⟩
      cases found with
      | true =>
          cases h
          exact ⟨0, rfl, hz, fun j _ hj => absurd hj (Nat.not_lt_zero j)⟩
      | false =>
          rcases ih h with ⟨i, hi, hx, hbefore⟩
          refine ⟨i + 1, hi, hx, ?_⟩
          intro j y hj hy
          cases j with
          | zero =>
              cases hy
              exact hz
          | succ j => exact hbefore j y (Nat.lt_of_succ_lt_succ hj) hy

/-! ## Failures that do not happen -/

/-- If the computation fails, then not in a bad way. -/
def Avoids (bad : ε → Prop) (x : Except ε α) : Prop :=
  ∀ err, x = .error err → ¬ bad err

variable {bad : ε → Prop} {x : Except ε α}

theorem avoids_of_ok (h : ∃ a, x = .ok a) : Avoids bad x := by
  rcases h with ⟨a, rfl⟩
  intro err herr
  cases herr

theorem avoids_ok (a : α) : Avoids bad (.ok a : Except ε α) :=
  avoids_of_ok ⟨a, rfl⟩

theorem avoids_error {err : ε} (h : ¬ bad err) : Avoids bad (.error err : Except ε α) := by
  intro err' herr
  cases herr
  exact h

theorem Avoids.bind {f : α → Except ε β} (hx : Avoids bad x)
    (hf : ∀ a, x = .ok a → Avoids bad (f a)) : Avoids bad (x >>= f) := by
  intro err herr
  rcases bind_eq_error.1 herr with herr | ⟨a, ha, herr⟩
  · exact hx err herr
  · exact hf a ha err herr

theorem avoids_ite {p : Prop} [Decidable p] {y : Except ε α} (hx : Avoids bad x) (hy : Avoids bad y) :
    Avoids bad (if p then x else y) := by
  by_cases hp : p
  · rw [if_pos hp]
    exact hx
  · rw [if_neg hp]
    exact hy

theorem Avoids.foldlM {f : β → α → Except ε β} (hf : ∀ b a, Avoids bad (f b a)) (l : List α) (b : β) :
    Avoids bad (l.foldlM f b) := by
  induction l generalizing b with
  | nil => exact avoids_ok b
  | cons a l ih =>
      rw [List.foldlM_cons]
      exact (hf b a).bind fun b' _ => ih b'

theorem Avoids.mapM {f : α → Except ε β} (hf : ∀ a, Avoids bad (f a)) (l : List α) :
    Avoids bad (l.mapM f) := by
  induction l with
  | nil => exact avoids_ok []
  | cons a l ih =>
      rw [List.mapM_cons]
      exact (hf a).bind fun _ _ => ih.bind fun _ _ => avoids_ok _

end Outcome

end StreamEngine
