import Mathlib.Order.Basic

/-!
# Stateful computations that may fail

A computation runs from a state to one of three ends: a value with the state it leaves, an error
with the state it leaves, or a panic. Errors keep the state, because a caller of the modelled
program sees the changes that were made before the error was returned.

`Exec.Holds` is the partial-correctness reading used by every specification: one postcondition on
values, one on errors, and no promise about panics. The rules below are the composition rules of
the constructors; loops are the two list iterations `forEach` and `foldE`.
-/

/-- The three ends of a run. -/
inductive Outcome (ε σ α : Type) where
  | ok (value : α) (state : σ)
  | err (error : ε) (state : σ)
  | panic

/-- The run ended with a value and a state that pass the test. -/
def Outcome.okAnd {ε σ α : Type} (test : α → σ → Bool) : Outcome ε σ α → Bool
  | .ok value state => test value state
  | .err _ _ => false
  | .panic => false

theorem Outcome.exists_of_okAnd {ε σ α : Type} {test : α → σ → Bool} {o : Outcome ε σ α}
    (h : o.okAnd test = true) : ∃ value state, o = .ok value state ∧ test value state = true := by
  cases o with
  | ok value state => exact ⟨value, state, rfl, h⟩
  | err error state => cases h
  | panic => cases h

/-- The outcome is an error whose state passes a test. -/
def Outcome.errAnd {ε σ α : Type} (test : σ → Bool) : Outcome ε σ α → Bool
  | .ok _ _ => false
  | .err _ state => test state
  | .panic => false

theorem Outcome.exists_of_errAnd {ε σ α : Type} {test : σ → Bool} {o : Outcome ε σ α}
    (h : o.errAnd test = true) : ∃ error state, o = .err error state ∧ test state = true := by
  cases o with
  | ok value state => cases h
  | err error state => exact ⟨error, state, rfl, h⟩
  | panic => cases h

/-- If the run ended with a value, then with one that passes the test. -/
def Outcome.okAll {ε σ α : Type} (test : α → Bool) : Outcome ε σ α → Bool
  | .ok value _ => test value
  | .err _ _ => true
  | .panic => true

theorem Outcome.of_okAll {ε σ α : Type} {test : α → Bool} {o : Outcome ε σ α} (h : o.okAll test = true)
    {value : α} {state : σ} (ho : o = .ok value state) : test value = true := by
  rw [ho] at h
  exact h

/-- A computation over the state `σ` with errors in `ε`. -/
def Exec (ε σ α : Type) : Type := σ → Outcome ε σ α

namespace Exec

variable {ε σ τ α β : Type}

protected def pure (value : α) : Exec ε σ α := fun s ↦ .ok value s

protected def bind (x : Exec ε σ α) (f : α → Exec ε σ β) : Exec ε σ β := fun s ↦
  match x s with
  | .ok value t => f value t
  | .err error t => .err error t
  | .panic => .panic

instance : Monad (Exec ε σ) where
  pure := Exec.pure
  bind := Exec.bind

protected def throw (error : ε) : Exec ε σ α := fun s ↦ .err error s

/-- Abort without a result, as an overflowing addition or an out-of-range slice does. -/
protected def abort : Exec ε σ α := fun _ ↦ .panic

protected def get : Exec ε σ σ := fun s ↦ .ok s s

/-- Read one component of the state. -/
protected def read (f : σ → α) : Exec ε σ α := fun s ↦ .ok (f s) s

protected def modify (f : σ → σ) : Exec ε σ Unit := fun s ↦ .ok () (f s)

/-- Return `value?` or the error. -/
def ofOption (error : ε) : Option α → Exec ε σ α
  | some value => Exec.pure value
  | none => Exec.throw error

/-- Return the value of an `Except`, or raise its error. -/
def ofExcept : Except ε α → Exec ε σ α
  | .ok value => Exec.pure value
  | .error error => Exec.throw error

/-- Run `x` only if `c` holds. -/
def when (c : Prop) [Decidable c] (x : Exec ε σ Unit) : Exec ε σ Unit :=
  if c then x else Exec.pure ()

/-- Run a computation on one part of a larger state. -/
def zoom (view : τ → σ) (update : σ → τ → τ) (x : Exec ε σ α) : Exec ε τ α := fun t ↦
  match x (view t) with
  | .ok value s => .ok value (update s t)
  | .err error s => .err error (update s t)
  | .panic => .panic

/-- Turn an error into a value; the state the error left is kept. -/
def attempt (x : Exec ε σ α) : Exec ε σ (Except ε α) := fun s ↦
  match x s with
  | .ok value t => .ok (.ok value) t
  | .err error t => .ok (.error error) t
  | .panic => .panic

/-- Change the error of a computation that fails. -/
def mapError (f : ε → ε) (x : Exec ε σ α) : Exec ε σ α := fun s ↦
  match x s with
  | .ok value t => .ok value t
  | .err error t => .err (f error) t
  | .panic => .panic

def forEach (body : α → Exec ε σ Unit) : List α → Exec ε σ Unit
  | [] => Exec.pure ()
  | a :: rest => do
    body a
    forEach body rest

def foldE (body : β → α → Exec ε σ β) : β → List α → Exec ε σ β
  | acc, [] => Exec.pure acc
  | acc, a :: rest => do
    let next ← body acc a
    foldE body next rest

/-! ## Evaluation rules -/

@[simp] theorem pure_apply (value : α) (s : σ) :
    (pure value : Exec ε σ α) s = .ok value s := rfl

@[simp] theorem exec_pure_apply (value : α) (s : σ) :
    (Exec.pure value : Exec ε σ α) s = .ok value s := rfl

theorem bind_apply (x : Exec ε σ α) (f : α → Exec ε σ β) (s : σ) :
    (x >>= f) s = match x s with
      | .ok value t => f value t
      | .err error t => .err error t
      | .panic => .panic := rfl

@[simp] theorem throw_apply (error : ε) (s : σ) :
    (Exec.throw error : Exec ε σ α) s = .err error s := rfl

@[simp] theorem abort_apply (s : σ) : (Exec.abort : Exec ε σ α) s = .panic := rfl

@[simp] theorem get_apply (s : σ) : (Exec.get : Exec ε σ σ) s = .ok s s := rfl

@[simp] theorem read_apply (f : σ → α) (s : σ) : (Exec.read f : Exec ε σ α) s = .ok (f s) s := rfl

@[simp] theorem modify_apply (f : σ → σ) (s : σ) :
    (Exec.modify f : Exec ε σ Unit) s = .ok () (f s) := rfl

instance : LawfulMonad (Exec ε σ) := by
  refine LawfulMonad.mk' _ (fun x ↦ ?_) (fun _ _ ↦ rfl) (fun x f g ↦ ?_)
  · funext s
    change (x >>= pure) s = x s
    rw [bind_apply]
    cases x s <;> rfl
  · funext s
    simp only [bind_apply]
    cases x s <;> rfl

theorem bind_eq_of_ok {x : Exec ε σ α} {f : α → Exec ε σ β} {s t : σ} {value : α}
    (h : x s = .ok value t) : (x >>= f) s = f value t := by
  rw [bind_apply, h]

theorem bind_ok_iff {x : Exec ε σ α} {f : α → Exec ε σ β} {s t : σ} {value : β} :
    (x >>= f) s = .ok value t ↔ ∃ a u, x s = .ok a u ∧ f a u = .ok value t := by
  rw [bind_apply]
  cases h : x s with
  | ok a u =>
    constructor
    · intro hf
      exact ⟨a, u, rfl, hf⟩
    · rintro ⟨_, _, ha, hf⟩
      cases ha
      exact hf
  | err e u => simp
  | panic => simp

theorem zoom_ok_iff {view : τ → σ} {update : σ → τ → τ} {x : Exec ε σ α} {t t' : τ} {value : α} :
    zoom view update x t = .ok value t' ↔ ∃ s, x (view t) = .ok value s ∧ t' = update s t := by
  unfold zoom
  cases x (view t) with
  | ok a s =>
    constructor
    · intro h
      cases h
      exact ⟨s, rfl, rfl⟩
    · rintro ⟨_, h, rfl⟩
      cases h
      rfl
  | err e s => simp
  | panic => simp

@[simp] theorem mapError_ok_iff {f : ε → ε} {x : Exec ε σ α} {s t : σ} {value : α} :
    x.mapError f s = .ok value t ↔ x s = .ok value t := by
  unfold mapError
  cases x s <;> simp

/-! ## Partial correctness -/

/-- `Q` holds of a returned value, `E` of a returned error. -/
def Holds (x : Exec ε σ α) (s : σ) (Q : α → σ → Prop) (E : ε → σ → Prop) : Prop :=
  match x s with
  | .ok value t => Q value t
  | .err error t => E error t
  | .panic => True

variable {Q Q' : α → σ → Prop} {E E' : ε → σ → Prop} {s t : σ}

theorem Holds.of_ok {x : Exec ε σ α} (h : Holds x s Q E) {value : α} (hx : x s = .ok value t) :
    Q value t := by
  simpa only [Holds, hx] using h

theorem Holds.of_err {x : Exec ε σ α} (h : Holds x s Q E) {error : ε} (hx : x s = .err error t) :
    E error t := by
  simpa only [Holds, hx] using h

theorem holds_of_forall {x : Exec ε σ α} (hok : ∀ value t, x s = .ok value t → Q value t)
    (herr : ∀ error t, x s = .err error t → E error t) : Holds x s Q E := by
  unfold Holds
  split
  · exact hok _ _ ‹_›
  · exact herr _ _ ‹_›
  · trivial

@[simp] theorem holds_pure (value : α) : Holds (pure value : Exec ε σ α) s Q E ↔ Q value s := Iff.rfl

@[simp] theorem holds_exec_pure (value : α) :
    Holds (Exec.pure value : Exec ε σ α) s Q E ↔ Q value s := Iff.rfl

@[simp] theorem holds_throw (error : ε) :
    Holds (Exec.throw error : Exec ε σ α) s Q E ↔ E error s := Iff.rfl

@[simp] theorem holds_abort : Holds (Exec.abort : Exec ε σ α) s Q E ↔ True := Iff.rfl

@[simp] theorem holds_read (f : σ → α) :
    Holds (Exec.read f : Exec ε σ α) s Q E ↔ Q (f s) s := Iff.rfl

@[simp] theorem holds_modify {Q : Unit → σ → Prop} (f : σ → σ) :
    Holds (Exec.modify f : Exec ε σ Unit) s Q E ↔ Q () (f s) := Iff.rfl

theorem holds_get {Q : σ → σ → Prop} : Holds (Exec.get : Exec ε σ σ) s Q E ↔ Q s s := Iff.rfl

theorem holds_bind {x : Exec ε σ α} {f : α → Exec ε σ β} {Q : β → σ → Prop} :
    Holds (x >>= f) s Q E ↔ Holds x s (fun a t ↦ Holds (f a) t Q E) E := by
  unfold Holds
  rw [bind_apply]
  cases x s <;> rfl

/-- A computation whose end is known. -/
theorem holds_iff_of_ok {x : Exec ε σ α} {value : α} (hx : x s = .ok value t) :
    Holds x s Q E ↔ Q value t := by
  unfold Holds
  rw [hx]

/-- A first part whose end is known. -/
theorem holds_bind_of_ok {x : Exec ε σ α} {f : α → Exec ε σ β} {Q : β → σ → Prop} {value : α}
    (hx : x s = .ok value t) : Holds (x >>= f) s Q E ↔ Holds (f value) t Q E := by
  rw [holds_bind, holds_iff_of_ok hx]

theorem Holds.mono {x : Exec ε σ α} (h : Holds x s Q E) (hQ : ∀ a t, Q a t → Q' a t)
    (hE : ∀ e t, E e t → E' e t) : Holds x s Q' E' := by
  unfold Holds at h ⊢
  split
  · exact hQ _ _ (by simpa only [*] using h)
  · exact hE _ _ (by simpa only [*] using h)
  · trivial

/-- Sequencing from a specification of the first part. -/
theorem Holds.bind {x : Exec ε σ α} {f : α → Exec ε σ β} {R : β → σ → Prop}
    (h : Holds x s Q E) (hf : ∀ a t, Q a t → Holds (f a) t R E') (hE : ∀ e t, E e t → E' e t) :
    Holds (x >>= f) s R E' := by
  rw [holds_bind]
  exact h.mono hf hE

theorem Holds.and {x : Exec ε σ α} (h : Holds x s Q E) (h' : Holds x s Q' E') :
    Holds x s (fun a t ↦ Q a t ∧ Q' a t) (fun e t ↦ E e t ∧ E' e t) := by
  unfold Holds at h h' ⊢
  split <;> simp_all

theorem holds_ofOption {error : ε} {value? : Option α} :
    Holds (ofOption error value? : Exec ε σ α) s Q E ↔
      (∀ value, value? = some value → Q value s) ∧ (value? = none → E error s) := by
  cases value? <;> simp [ofOption]

theorem holds_when {c : Prop} [Decidable c] {x : Exec ε σ Unit} {Q : Unit → σ → Prop} :
    Holds (when c x) s Q E ↔ (c → Holds x s Q E) ∧ (¬c → Q () s) := by
  unfold when
  split_ifs with h <;> simp [h]

theorem holds_zoom {view : τ → σ} {update : σ → τ → τ} {x : Exec ε σ α} {t : τ}
    {Q : α → τ → Prop} {E : ε → τ → Prop} :
    Holds (zoom view update x) t Q E ↔
      Holds x (view t) (fun a s ↦ Q a (update s t)) (fun e s ↦ E e (update s t)) := by
  unfold Holds zoom
  cases x (view t) <;> rfl

theorem holds_attempt {x : Exec ε σ α} {Q : Except ε α → σ → Prop} {E : ε → σ → Prop} :
    Holds (attempt x) s Q E ↔
      Holds x s (fun a t ↦ Q (.ok a) t) (fun e t ↦ Q (.error e) t) := by
  unfold Holds attempt
  cases x s <;> rfl

/-- Loop rule: an invariant indexed by the elements still to be visited. -/
theorem holds_forEach {body : α → Exec ε σ Unit} (inv : List α → σ → Prop)
    (step : ∀ a rest s, inv (a :: rest) s → Holds (body a) s (fun _ t ↦ inv rest t) E)
    (items : List α) (h : inv items s) :
    Holds (forEach body items) s (fun _ t ↦ inv [] t) E := by
  induction items generalizing s with
  | nil => exact h
  | cons a rest ih =>
    exact (step a rest s h).bind (fun _ t ht ↦ ih ht) (fun _ _ he ↦ he)

/-- Loop rule for an accumulator. -/
theorem holds_foldE {body : β → α → Exec ε σ β} (inv : List α → β → σ → Prop)
    (step : ∀ a rest acc s, inv (a :: rest) acc s →
      Holds (body acc a) s (fun next t ↦ inv rest next t) E)
    (items : List α) {acc : β} (h : inv items acc s) :
    Holds (foldE body acc items) s (fun next t ↦ inv [] next t) E := by
  induction items generalizing acc s with
  | nil => exact h
  | cons a rest ih =>
    exact (step a rest acc s h).bind (fun _ t ht ↦ ih ht) (fun _ _ he ↦ he)

/-! ## Total correctness -/

/-- `Q` holds of a returned value, `E` of a returned error, and `P` if the run panics. -/
def Meets (x : Exec ε σ α) (s : σ) (Q : α → σ → Prop) (E : ε → σ → Prop) (P : Prop) : Prop :=
  match x s with
  | .ok value t => Q value t
  | .err error t => E error t
  | .panic => P

section Meets

variable {P P' : Prop} {x : Exec ε σ α}

theorem Holds.meets (h : Holds x s Q E) (hpanic : x s = .panic → P) : Meets x s Q E P := by
  unfold Holds at h
  unfold Meets
  cases hx : x s with
  | ok value t => simpa only [hx] using h
  | err e t => simpa only [hx] using h
  | panic => exact hpanic hx

theorem Meets.holds (h : Meets x s Q E P) : Holds x s Q E := by
  unfold Meets at h
  unfold Holds
  cases hx : x s with
  | ok value t => simpa only [hx] using h
  | err e t => simpa only [hx] using h
  | panic => trivial

theorem meets_of_ok {value : α} (hx : x s = .ok value t) (hq : Q value t) : Meets x s Q E P := by
  unfold Meets
  rw [hx]
  exact hq

theorem Meets.exists_ok (h : Meets x s Q (fun _ _ ↦ False) False) : ∃ value t, x s = .ok value t ∧ Q value t := by
  unfold Meets at h
  cases hx : x s with
  | ok value t => exact ⟨value, t, rfl, by simpa only [hx] using h⟩
  | err e t => simp only [hx] at h
  | panic => simp only [hx] at h

theorem Meets.mono (h : Meets x s Q E P) (hQ : ∀ a t, Q a t → Q' a t) (hE : ∀ e t, E e t → E' e t) (hP : P → P') :
    Meets x s Q' E' P' := by
  unfold Meets at h ⊢
  cases hx : x s with
  | ok value t => exact hQ _ _ (by simpa only [hx] using h)
  | err e t => exact hE _ _ (by simpa only [hx] using h)
  | panic => exact hP (by simpa only [hx] using h)

/-- What is known of the ends of a run, next to what is known of its having one. -/
theorem Meets.and (h : Meets x s Q E P) (h' : Holds x s Q' E') :
    Meets x s (fun a t ↦ Q a t ∧ Q' a t) (fun e t ↦ E e t ∧ E' e t) P := by
  unfold Holds at h'
  unfold Meets at h ⊢
  cases hx : x s with
  | ok value t => exact ⟨by simpa only [hx] using h, by simpa only [hx] using h'⟩
  | err e t => exact ⟨by simpa only [hx] using h, by simpa only [hx] using h'⟩
  | panic => simpa only [hx] using h

theorem meets_bind {f : α → Exec ε σ β} {Q : β → σ → Prop} :
    Meets (x >>= f) s Q E P ↔ Meets x s (fun a t ↦ Meets (f a) t Q E P) E P := by
  unfold Meets
  rw [bind_apply]
  cases x s <;> rfl

theorem Meets.bind {f : α → Exec ε σ β} {R : β → σ → Prop} (h : Meets x s Q E P)
    (hf : ∀ a t, Q a t → Meets (f a) t R E' P') (hE : ∀ e t, E e t → E' e t) (hP : P → P') :
    Meets (x >>= f) s R E' P' := by
  rw [meets_bind]
  exact h.mono hf hE hP

@[simp] theorem meets_read (f : σ → α) : Meets (Exec.read f : Exec ε σ α) s Q E P ↔ Q (f s) s := Iff.rfl

@[simp] theorem meets_modify {Q : Unit → σ → Prop} (f : σ → σ) :
    Meets (Exec.modify f : Exec ε σ Unit) s Q E P ↔ Q () (f s) := Iff.rfl

theorem meets_get {Q : σ → σ → Prop} : Meets (Exec.get : Exec ε σ σ) s Q E P ↔ Q s s := Iff.rfl

theorem meets_zoom {view : τ → σ} {update : σ → τ → τ} {t : τ} {Q : α → τ → Prop} {E : ε → τ → Prop} :
    Meets (zoom view update x) t Q E P ↔
      Meets x (view t) (fun a s ↦ Q a (update s t)) (fun e s ↦ E e (update s t)) P := by
  unfold Meets zoom
  cases x (view t) <;> rfl

theorem meets_attempt {Q : Except ε α → σ → Prop} : Meets (attempt x) s Q E P ↔
    Meets x s (fun a t ↦ Q (.ok a) t) (fun e t ↦ Q (.error e) t) P := by
  unfold Meets attempt
  cases x s <;> rfl

end Meets

/-- A computation whose errors do not matter, in front of one that holds from anywhere. -/
theorem holds_bind_of_forall (x : Exec ε σ α) {f : α → Exec ε σ β} {Q : β → σ → Prop}
    (h : ∀ a t, Holds (f a) t Q (fun _ _ ↦ True)) : Holds (x >>= f) s Q (fun _ _ ↦ True) := by
  rw [holds_bind]
  exact holds_of_forall (fun a t _ ↦ h a t) (fun _ _ _ ↦ trivial)

/-- Nothing is done for an item whose body does nothing. -/
theorem forEach_of_pure {body : α → Exec ε σ Unit} : ∀ {items : List α}, (∀ a ∈ items, body a = pure ()) →
    forEach body items = pure ()
  | [], _ => rfl
  | a :: rest, h => by
    rw [forEach, h a List.mem_cons_self, pure_bind]
    exact forEach_of_pure fun b hb ↦ h b (List.mem_cons_of_mem _ hb)

theorem forEach_append (body : α → Exec ε σ Unit) (front back : List α) :
    forEach body (front ++ back) = (do forEach body front; forEach body back) := by
  induction front with
  | nil => rfl
  | cons a front ih =>
    change (do body a; forEach body (front ++ back)) =
      (do (do body a; forEach body front); forEach body back)
    rw [ih, bind_assoc]

end Exec
