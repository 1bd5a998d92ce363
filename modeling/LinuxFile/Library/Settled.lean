import LinuxFile.Library.Respects

/-!
# Answers that are settled beforehand

`Exec.Settled P x` says that `x` stays within the states with `P` and that all its runs from such states, when they
return, return the same value. A run may fail or return as the outside decides, but it has no choice of answers. The
judgement composes along the constructors.
-/

namespace Exec

variable {ε σ α β : Type}

/-- Where `P` holds before, it holds afterwards. -/
def Preserves (P : σ → Prop) (s t : σ) : Prop := P s → P t

instance (P : σ → Prop) : IsPreorder σ (Preserves P) where
  refl _ h := h
  trans _ _ _ hst htu h := htu (hst h)

/-- Every run from a state with `P` ends in one and, if it returns, returns the value fixed in advance; `none` where
no run returns. -/
def Settled (P : σ → Prop) (x : Exec ε σ α) : Prop :=
  ∃ answer : Option α, ∀ s, P s → x.Holds s (fun a t ↦ answer = some a ∧ P t) (fun _ t ↦ P t)

namespace Settled

variable {P : σ → Prop} {x : Exec ε σ α} {f : α → Exec ε σ β}

theorem eq (h : Settled P x) {s t s' t' : σ} {a b : α} (hs : P s) (ht : P t) (ha : x s = .ok a s')
    (hb : x t = .ok b t') : a = b := by
  obtain ⟨answer, hall⟩ := h
  have h₁ := ((hall s hs).of_ok ha).1
  have h₂ := ((hall t ht).of_ok hb).1
  exact Option.some.inj (h₁.symm.trans h₂)

theorem keeps (h : Settled P x) {s : σ} (hs : P s) : x.Holds s (fun _ t ↦ P t) (fun _ t ↦ P t) := by
  obtain ⟨answer, hall⟩ := h
  exact (hall s hs).mono (fun _ _ ht ↦ ht.2) (fun _ _ ht ↦ ht)

theorem respects (h : Settled P x) : Respects (Preserves P) x := fun _ ↦
  holds_of_forall (fun _ _ hx hs ↦ (h.keeps hs).of_ok hx) fun _ _ hx hs ↦ (h.keeps hs).of_err hx

/-- The value that every run returns. -/
theorem of_value (a : α) (h : ∀ s, P s → x.Holds s (fun b t ↦ b = a ∧ P t) (fun _ t ↦ P t)) : Settled P x := by
  refine ⟨some a, fun s hs ↦ (h s hs).mono ?_ (fun _ _ ht ↦ ht)⟩
  rintro b t ⟨rfl, ht⟩
  exact ⟨rfl, ht⟩

theorem pure (value : α) : Settled P (Pure.pure value : Exec ε σ α) := of_value value fun _ hs ↦ ⟨rfl, hs⟩

theorem throw (error : ε) : Settled P (Exec.throw error : Exec ε σ α) := ⟨none, fun _ hs ↦ hs⟩

theorem abort : Settled P (Exec.abort : Exec ε σ α) := ⟨none, fun _ _ ↦ trivial⟩

/-- Reading a component on which the states with `P` agree. -/
theorem read {g : σ → α} (a : α) (h : ∀ s, P s → g s = a) : Settled P (Exec.read g : Exec ε σ α) :=
  of_value a fun s hs ↦ ⟨h s hs, hs⟩

theorem bind (hx : Settled P x) (hf : ∀ a, Settled P (f a)) : Settled P (x >>= f) := by
  obtain ⟨answer, hall⟩ := hx
  cases answer with
  | none =>
    refine ⟨none, fun s hs ↦ (hall s hs).bind (fun a t h ↦ ?_) (fun _ _ h ↦ h)⟩
    exact nomatch h.1
  | some a =>
    obtain ⟨next, hnext⟩ := hf a
    refine ⟨next, fun s hs ↦ (hall s hs).bind (fun b t h ↦ ?_) (fun _ _ h ↦ h)⟩
    rw [← Option.some.inj h.1]
    exact hnext t h.2

/-- A computation that reads the whole state, but only what the states with `P` agree on. -/
theorem bind_get {g : σ → Exec ε σ α} (m : σ) (h : ∀ s, P s → g s = g m) (hm : Settled P (g m)) :
    Settled P (Exec.get >>= g) := by
  obtain ⟨answer, hall⟩ := hm
  refine ⟨answer, fun s hs ↦ ?_⟩
  rw [holds_bind, holds_get, h s hs]
  exact hall s hs

theorem ite {c : Prop} [Decidable c] {y : Exec ε σ α} (hx : Settled P x) (hy : Settled P y) :
    Settled P (if c then x else y) := by
  split_ifs
  · exact hx
  · exact hy

theorem ofOption (error : ε) (value? : Option α) : Settled P (Exec.ofOption error value? : Exec ε σ α) := by
  cases value? with
  | none => exact throw error
  | some value => exact pure value

theorem ofExcept (result : Except ε α) : Settled P (Exec.ofExcept result : Exec ε σ α) := by
  cases result with
  | error e => exact throw e
  | ok value => exact pure value

end Settled

end Exec
