import LinuxFile.Library.Exec
import Mathlib.Order.Defs.Unbundled

/-!
# Computations that stay within a preorder

`Exec.Respects R x` says that `x`, whether it returns or fails, leaves a state that is related by `R`
to the one it was started in. For a preorder `R` the judgement composes along every constructor, so a
frame property of a whole program follows from the frame properties of its primitive updates.
-/

namespace Exec

variable {ε σ τ α β : Type}

/-- Every end of `x` is related to its start. -/
def Respects (R : σ → σ → Prop) (x : Exec ε σ α) : Prop :=
  ∀ s, x.Holds s (fun _ t ↦ R s t) (fun _ t ↦ R s t)

namespace Respects

variable {R S : σ → σ → Prop} {x : Exec ε σ α} {f : α → Exec ε σ β}

theorem of_ok (h : Respects R x) {s t : σ} {value : α} (hx : x s = .ok value t) : R s t :=
  (h s).of_ok hx

theorem of_err (h : Respects R x) {s t : σ} {error : ε} (hx : x s = .err error t) : R s t :=
  (h s).of_err hx

theorem mono (h : Respects R x) (hRS : ∀ s t, R s t → S s t) : Respects S x :=
  fun s ↦ (h s).mono (fun _ t ht ↦ hRS s t ht) (fun _ t ht ↦ hRS s t ht)

theorem modify {g : σ → σ} (h : ∀ s, R s (g s)) : Respects R (Exec.modify g : Exec ε σ Unit) := h

theorem abort : Respects R (Exec.abort : Exec ε σ α) := fun _ ↦ trivial

theorem zoom {view : τ → σ} {update : σ → τ → τ} {y : Exec ε σ α} {R : τ → τ → Prop}
    (h : ∀ t s, R t (update s t)) : Respects R (Exec.zoom view update y) := by
  intro t
  rw [holds_zoom]
  exact holds_of_forall (fun _ s _ ↦ h t s) (fun _ s _ ↦ h t s)

theorem ite {c : Prop} [Decidable c] {y : Exec ε σ α} (hx : Respects R x) (hy : Respects R y) :
    Respects R (if c then x else y) := by
  split_ifs
  · exact hx
  · exact hy

theorem attempt (hx : Respects R x) : Respects R (Exec.attempt x) := by
  intro s
  rw [holds_attempt]
  exact hx s

variable [IsPreorder σ R]

theorem pure (value : α) : Respects R (Pure.pure value : Exec ε σ α) := fun s ↦ refl_of R s

theorem throw (error : ε) : Respects R (Exec.throw error : Exec ε σ α) := fun s ↦ refl_of R s

theorem get : Respects R (Exec.get : Exec ε σ σ) := fun s ↦ refl_of R s

theorem read (g : σ → α) : Respects R (Exec.read g : Exec ε σ α) := fun s ↦ refl_of R s

theorem ofOption (error : ε) (value? : Option α) :
    Respects R (Exec.ofOption error value? : Exec ε σ α) := by
  cases value? with
  | none => exact throw error
  | some value => exact pure value

theorem ofExcept (result : Except ε α) : Respects R (Exec.ofExcept result : Exec ε σ α) := by
  cases result with
  | error e => exact throw e
  | ok value => exact pure value

theorem bind (hx : Respects R x) (hf : ∀ a, Respects R (f a)) : Respects R (x >>= f) := by
  intro s
  refine (hx s).bind (fun a t ht ↦ ?_) (fun _ _ ht ↦ ht)
  exact (hf a t).mono (fun _ _ hu ↦ trans_of R ht hu) (fun _ _ hu ↦ trans_of R ht hu)

/-- Sequencing when the second part needs to know what the first has established. -/
theorem bind_of {P : α → σ → Prop} (hx : Respects R x)
    (hP : ∀ s, x.Holds s (fun a t ↦ P a t) (fun _ _ ↦ True))
    (hf : ∀ a t, P a t → (f a).Holds t (fun _ u ↦ R t u) (fun _ u ↦ R t u)) :
    Respects R (x >>= f) := by
  intro s
  refine ((hx s).and (hP s)).bind (fun a t ht ↦ ?_) (fun _ _ ht ↦ ht.1)
  exact (hf a t ht.2).mono (fun _ _ hu ↦ trans_of R ht.1 hu) (fun _ _ hu ↦ trans_of R ht.1 hu)

/-- Sequencing inside a longer run: so far the run is within `R`, and the rest is judged from there. -/
theorem next {s t : σ} {Q : β → σ → Prop} {E : ε → σ → Prop} (hx : Respects R x) (hst : R s t)
    (hf : ∀ a u, R s u → (f a).Holds u Q E) (hE : ∀ e u, R s u → E e u) :
    (x >>= f).Holds t Q E :=
  (hx t).bind (fun a u hu ↦ hf a u (trans_of R hst hu)) (fun e u hu ↦ hE e u (trans_of R hst hu))

theorem when {c : Prop} [Decidable c] {y : Exec ε σ Unit} (hy : c → Respects R y) :
    Respects R (Exec.when c y) := by
  unfold Exec.when
  split_ifs with h
  · exact hy h
  · exact pure ()

theorem forEach_of {body : β → Exec ε σ Unit} {items : List β} (h : ∀ b ∈ items, Respects R (body b)) :
    Respects R (Exec.forEach body items) := by
  induction items with
  | nil => exact pure ()
  | cons b rest ih =>
    exact bind (h b List.mem_cons_self) fun _ ↦ ih fun c hc ↦ h c (List.mem_cons_of_mem b hc)

theorem forEach {body : β → Exec ε σ Unit} (h : ∀ b, Respects R (body b)) (items : List β) :
    Respects R (Exec.forEach body items) := forEach_of fun b _ ↦ h b

end Respects

end Exec
