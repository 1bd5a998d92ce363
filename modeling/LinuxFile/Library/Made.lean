import LinuxFile.Library.Respects

/-!
# Computations put together from given calls

`Exec.Made B x` says that `x` does nothing to the state itself: it reads the state, makes calls from the set `B`
and decides from their answers how to go on. What every call of `B` keeps is then kept by `x`, and if no call of
`B` aborts, neither does `x`. The shape of a program is gone through once, for all such properties.
-/

namespace Exec

variable {ε σ τ α β γ : Type}

/-- The computation has a result in every state. -/
def Returns (x : Exec ε σ α) : Prop := ∀ s, x s ≠ .panic

namespace Returns

variable {x : Exec ε σ α} {f : α → Exec ε σ β}

theorem pure (value : α) : Returns (Pure.pure value : Exec ε σ α) := fun _ h ↦ nomatch h

theorem throw (error : ε) : Returns (Exec.throw error : Exec ε σ α) := fun _ h ↦ nomatch h

theorem read (g : σ → α) : Returns (Exec.read g : Exec ε σ α) := fun _ h ↦ nomatch h

theorem modify (g : σ → σ) : Returns (Exec.modify g : Exec ε σ Unit) := fun _ h ↦ nomatch h

theorem bind (hx : Returns x) (hf : ∀ a, Returns (f a)) : Returns (x >>= f) := by
  intro s
  rw [bind_apply]
  cases hs : x s with
  | ok value t => exact hf value t
  | err error t => exact fun h ↦ nomatch h
  | panic => exact absurd hs (hx s)

theorem ite {c : Prop} [Decidable c] {y : Exec ε σ α} (hx : Returns x) (hy : Returns y) :
    Returns (if c then x else y) := by
  split_ifs
  · exact hx
  · exact hy

theorem when {c : Prop} [Decidable c] {y : Exec ε σ Unit} (hy : Returns y) : Returns (Exec.when c y) :=
  ite hy (pure ())

theorem zoom {view : τ → σ} {update : σ → τ → τ} (hx : Returns x) : Returns (Exec.zoom view update x) := by
  intro t
  unfold Exec.zoom
  cases hs : x (view t) with
  | ok value s => exact fun h ↦ nomatch h
  | err error s => exact fun h ↦ nomatch h
  | panic => exact absurd hs (hx (view t))

theorem attempt (hx : Returns x) : Returns (Exec.attempt x) := by
  intro s
  unfold Exec.attempt
  cases hs : x s with
  | ok value t => exact fun h ↦ nomatch h
  | err error t => exact fun h ↦ nomatch h
  | panic => exact absurd hs (hx s)

theorem ofOption (error : ε) (value? : Option α) : Returns (Exec.ofOption error value? : Exec ε σ α) := by
  cases value? with
  | none => exact throw error
  | some value => exact pure value

theorem ofExcept (result : Except ε α) : Returns (Exec.ofExcept result : Exec ε σ α) := by
  cases result with
  | error e => exact throw e
  | ok value => exact pure value

theorem forEach {body : β → Exec ε σ Unit} (h : ∀ b, Returns (body b)) (items : List β) :
    Returns (Exec.forEach body items) := by
  induction items with
  | nil => exact pure ()
  | cons b rest ih => exact bind (h b) fun _ ↦ ih

end Returns

/-- A computation has a result in a state if its first part has one there, and the rest in whatever that returns. -/
theorem bind_ne_panic {x : Exec ε σ α} {f : α → Exec ε σ β} {s : σ} (hx : x s ≠ .panic)
    (hf : ∀ a t, x s = .ok a t → f a t ≠ .panic) : (x >>= f) s ≠ .panic := by
  rw [bind_apply]
  cases hs : x s with
  | ok value t => exact hf value t hs
  | err error t => exact fun h ↦ nomatch h
  | panic => exact absurd hs hx

/-- The same when all that the rest needs to know is what the first part is known to leave. -/
theorem bind_ne_panic_of_holds {x : Exec ε σ α} {f : α → Exec ε σ β} {s : σ} {Q : α → σ → Prop} {E : ε → σ → Prop}
    (hx : x s ≠ .panic) (hQ : x.Holds s Q E) (hf : ∀ a t, Q a t → f a t ≠ .panic) : (x >>= f) s ≠ .panic :=
  bind_ne_panic hx fun a t ht ↦ hf a t (hQ.of_ok ht)

/-- The computation is put together from the calls in `B`. -/
inductive Made (B : Exec ε σ β → Prop) : {α : Type} → Exec ε σ α → Prop
  | call {x : Exec ε σ β} (h : B x) : Made B x
  | pure {α : Type} (value : α) : Made B (Pure.pure value : Exec ε σ α)
  | throw {α : Type} (error : ε) : Made B (Exec.throw error : Exec ε σ α)
  | read {α : Type} (g : σ → α) : Made B (Exec.read g : Exec ε σ α)
  | bind {α γ : Type} {x : Exec ε σ α} {f : α → Exec ε σ γ} (hx : Made B x) (hf : ∀ a, Made B (f a)) :
      Made B (x >>= f)
  | attempt {α : Type} {x : Exec ε σ α} (hx : Made B x) : Made B (Exec.attempt x)

namespace Made

variable {B : Exec ε σ β → Prop} {x y : Exec ε σ α}

theorem ite {c : Prop} [Decidable c] (hx : Made B x) (hy : Made B y) : Made B (if c then x else y) := by
  split_ifs
  · exact hx
  · exact hy

theorem ofExcept (result : Except ε α) : Made B (Exec.ofExcept result : Exec ε σ α) := by
  cases result with
  | error e => exact throw e
  | ok value => exact pure value

theorem foldE {body : γ → α → Exec ε σ γ} (h : ∀ acc a, Made B (body acc a)) (items : List α) :
    ∀ acc, Made B (Exec.foldE body acc items) := by
  induction items with
  | nil => exact fun acc ↦ pure acc
  | cons a rest ih => exact fun acc ↦ bind (h acc a) ih

/-- What every call keeps is kept. -/
theorem respects {R : σ → σ → Prop} [IsPreorder σ R] (hx : Made B x) (hB : ∀ y, B y → Respects R y) :
    Respects R x := by
  induction hx with
  | call h => exact hB _ h
  | pure value => exact Respects.pure value
  | throw error => exact Respects.throw error
  | read g => exact Respects.read g
  | bind _ _ ihx ihf => exact Respects.bind ihx ihf
  | attempt _ ihx => exact Respects.attempt ihx

/-- If no call aborts, there is a result. -/
theorem returns (hx : Made B x) (hB : ∀ y, B y → Returns y) : Returns x := by
  induction hx with
  | call h => exact hB _ h
  | pure value => exact Returns.pure value
  | throw error => exact Returns.throw error
  | read g => exact Returns.read g
  | bind _ _ ihx ihf => exact Returns.bind ihx ihf
  | attempt _ ihx => exact Returns.attempt ihx

end Made

end Exec
