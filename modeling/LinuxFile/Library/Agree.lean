import LinuxFile.Library.Exec

/-!
# Two runs side by side

`Exec.Agree x y s t Q` compares a run of `x` from `s` with a run of `y` from `t`: both return, with
values and states related by `Q`, or both fail with the same error, or neither has a result. The rules
follow the constructors; a two-run property of a program is assembled from them as a one-run property
is from the rules of `Exec.Holds`.
-/

/-- What a caller sees of a run: a value or an error, or no result at all. -/
def Outcome.answer {ε σ α : Type} : Outcome ε σ α → Option (Except ε α)
  | .ok value _ => some (.ok value)
  | .err error _ => some (.error error)
  | .panic => none

namespace Exec

variable {ε σ α β γ δ : Type}

def Agree (x : Exec ε σ α) (y : Exec ε σ β) (s t : σ) (Q : α → σ → β → σ → Prop) : Prop :=
  match x s, y t with
  | .ok a s', .ok b t' => Q a s' b t'
  | .err e _, .err e' _ => e = e'
  | .panic, .panic => True
  | _, _ => False

variable {x : Exec ε σ α} {y : Exec ε σ β} {s t : σ} {Q Q' : α → σ → β → σ → Prop}

theorem Agree.mono (h : Agree x y s t Q) (hQ : ∀ a s' b t', Q a s' b t' → Q' a s' b t') :
    Agree x y s t Q' := by
  unfold Agree at h ⊢
  cases hx : x s <;> cases hy : y t <;> simp only [hx, hy] at h ⊢
  · exact hQ _ _ _ _ h
  · exact h

/-- What each run establishes by itself may be used as well. -/
theorem Agree.and_holds (h : Agree x y s t Q) {P : α → σ → Prop} {P' : β → σ → Prop}
    {E E' : ε → σ → Prop} (hx : Holds x s P E) (hy : Holds y t P' E') :
    Agree x y s t (fun a s' b t' ↦ Q a s' b t' ∧ P a s' ∧ P' b t') := by
  unfold Agree at h ⊢
  unfold Holds at hx hy
  cases hxs : x s <;> cases hyt : y t <;> simp only [hxs, hyt] at h hx hy ⊢
  · exact ⟨h, hx, hy⟩
  · exact h

theorem Agree.bind {f : α → Exec ε σ γ} {g : β → Exec ε σ δ} {W : γ → σ → δ → σ → Prop}
    (h : Agree x y s t Q) (hf : ∀ a s' b t', Q a s' b t' → Agree (f a) (g b) s' t' W) :
    Agree (x >>= f) (y >>= g) s t W := by
  unfold Agree at h
  cases hx : x s <;> cases hy : y t <;> simp only [hx, hy] at h
  · have hnext := hf _ _ _ _ h
    unfold Agree at hnext ⊢
    rw [bind_eq_of_ok hx, bind_eq_of_ok hy]
    exact hnext
  · unfold Agree
    rw [bind_apply, bind_apply, hx, hy]
    exact h
  · unfold Agree
    rw [bind_apply, bind_apply, hx, hy]
    trivial

/-- Agreement on what is made of the values is agreement on the values seen through it. -/
theorem Agree.of_map {f : α → γ} {g : β → δ} {W : γ → σ → δ → σ → Prop}
    (h : Agree (x >>= fun a ↦ pure (f a)) (y >>= fun b ↦ pure (g b)) s t W) :
    Agree x y s t (fun a s' b t' ↦ W (f a) s' (g b) t') := by
  unfold Agree at h ⊢
  rw [bind_apply, bind_apply] at h
  cases hx : x s <;> cases hy : y t <;> simp only [hx, hy, pure_apply] at h ⊢
  · exact h
  · exact h

/-- Agreement only depends on the two runs. -/
theorem Agree.congr {x' : Exec ε σ α} {y' : Exec ε σ β} (h : Agree x y s t Q) (hx : x s = x' s)
    (hy : y t = y' t) : Agree x' y' s t Q := by
  unfold Agree at h ⊢
  rwa [← hx, ← hy]

/-- Runs that agree on their values give the same answer. -/
theorem Agree.answer {y : Exec ε σ α} {Q : α → σ → α → σ → Prop} (h : Agree x y s t Q)
    (hQ : ∀ a s' b t', Q a s' b t' → a = b) : (x s).answer = (y t).answer := by
  unfold Agree at h
  cases hx : x s <;> cases hy : y t <;> simp only [hx, hy] at h
  · rw [hQ _ _ _ _ h]
    rfl
  · rw [h]
    rfl
  · rfl

/-! ## States that a computation cannot tell apart -/

/-- From states that `R` relates, `x` ends alike, and the states it leaves are related again. -/
def Overlooks (R : σ → σ → Prop) (x : Exec ε σ α) : Prop :=
  ∀ s t, R s t → Agree x x s t (fun a s' b t' ↦ a = b ∧ R s' t')

namespace Overlooks

variable {R : σ → σ → Prop} {x : Exec ε σ α} {f : α → Exec ε σ β}

theorem pure (value : α) : Overlooks R (Pure.pure value : Exec ε σ α) := fun _ _ h ↦ ⟨rfl, h⟩

theorem throw (error : ε) : Overlooks R (Exec.throw error : Exec ε σ α) := fun _ _ _ ↦ rfl

theorem read {g : σ → α} (hg : ∀ s t, R s t → g s = g t) : Overlooks R (Exec.read g : Exec ε σ α) :=
  fun s t h ↦ ⟨hg s t h, h⟩

theorem modify {g : σ → σ} (hg : ∀ s t, R s t → R (g s) (g t)) : Overlooks R (Exec.modify g : Exec ε σ Unit) :=
  fun s t h ↦ ⟨rfl, hg s t h⟩

theorem bind (hx : Overlooks R x) (hf : ∀ a, Overlooks R (f a)) : Overlooks R (x >>= f) := by
  intro s t h
  apply (hx s t h).bind
  intro a s' b t' hst
  rw [← hst.1]
  exact hf a s' t' hst.2

theorem ite {c : Prop} [Decidable c] {y : Exec ε σ α} (hx : Overlooks R x) (hy : Overlooks R y) :
    Overlooks R (if c then x else y) := by
  split_ifs
  · exact hx
  · exact hy

theorem when {c : Prop} [Decidable c] {y : Exec ε σ Unit} (hy : Overlooks R y) : Overlooks R (Exec.when c y) :=
  ite hy (pure ())

theorem ofExcept (result : Except ε α) : Overlooks R (Exec.ofExcept result : Exec ε σ α) := by
  cases result with
  | error e => exact throw e
  | ok value => exact pure value

theorem forEach {body : β → Exec ε σ Unit} (h : ∀ b, Overlooks R (body b)) (items : List β) :
    Overlooks R (Exec.forEach body items) := by
  induction items with
  | nil => exact pure ()
  | cons b rest ih => exact bind (h b) fun _ ↦ ih

/-- If one of the two runs returns, so does the other, with the same value. -/
theorem of_ok (hx : Overlooks R x) {s t s' : σ} {a : α} (h : R s t) (hs : x s = .ok a s') :
    ∃ t', x t = .ok a t' ∧ R s' t' := by
  have hagree := hx s t h
  unfold Agree at hagree
  rw [hs] at hagree
  cases ht : x t with
  | ok b t' =>
    rw [ht] at hagree
    obtain ⟨rfl, hst⟩ := hagree
    exact ⟨t', rfl, hst⟩
  | err e t' =>
    rw [ht] at hagree
    exact hagree.elim
  | panic =>
    rw [ht] at hagree
    exact hagree.elim

end Overlooks

end Exec
