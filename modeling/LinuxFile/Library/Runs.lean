import LinuxFile.Library.Exec

/-!
# Runs of calls

A client of a stateful component makes one call after another. A call that fails leaves a state as much as
one that returns, and a panic ends the run. What every call preserves holds in every state of a run.
-/

namespace Exec

variable {ε σ α A : Type}

/-- The computation ends in `t`, with a value or with an error. -/
def Ends (x : Exec ε σ α) (s t : σ) : Prop := (∃ value, x s = .ok value t) ∨ ∃ error, x s = .err error t

theorem Holds.of_ends {x : Exec ε σ α} {s t : σ} {I : σ → Prop}
    (h : x.Holds s (fun _ t ↦ I t) (fun _ t ↦ I t)) (hends : x.Ends s t) : I t := by
  rcases hends with ⟨_, hok⟩ | ⟨_, herr⟩
  · exact h.of_ok hok
  · exact h.of_err herr

/-- What returns ends nowhere else. -/
theorem Ends.eq_of_ok {x : Exec ε σ α} {s t u : σ} {value : α} (hends : x.Ends s t) (hx : x s = .ok value u) :
    t = u := by
  rcases hends with ⟨_, hok⟩ | ⟨_, herr⟩
  · rw [hx] at hok
    cases hok
    rfl
  · rw [hx] at herr
    cases herr

/-- Calls made one after another, each listed with the state it is made in. -/
inductive Runs (exec : A → Exec ε σ α) : σ → List (σ × A) → σ → Prop
  | nil (s : σ) : Runs exec s [] s
  | cons {a : A} {rest : List (σ × A)} {s t u : σ} (h : (exec a).Ends s t) (hrest : Runs exec t rest u) :
      Runs exec s ((s, a) :: rest) u

variable {exec : A → Exec ε σ α} {s t : σ} {calls : List (σ × A)}

/-- What the calls that meet a condition preserve holds in every state of a run of such calls. -/
theorem Runs.invariant {I : σ → Prop} {C : σ × A → Prop} (hrun : Runs exec s calls t) (h : I s)
    (hC : ∀ call ∈ calls, C call)
    (hstep : ∀ s a, I s → C (s, a) → (exec a).Holds s (fun _ t ↦ I t) (fun _ t ↦ I t)) :
    I t ∧ ∀ call ∈ calls, I call.1 := by
  induction hrun with
  | nil s => exact ⟨h, fun call hcall ↦ absurd hcall List.not_mem_nil⟩
  | cons hends hrest ih =>
    have hnext := (hstep _ _ h (hC _ List.mem_cons_self)).of_ends hends
    obtain ⟨hlast, hall⟩ := ih hnext fun call hcall ↦ hC call (List.mem_cons_of_mem _ hcall)
    refine ⟨hlast, fun call hcall ↦ ?_⟩
    rcases List.mem_cons.mp hcall with rfl | hcall
    · exact h
    · exact hall call hcall

/-- A run that leaves the states with `I` leaves them in one of its calls. -/
theorem Runs.exists_leaving {I : σ → Prop} (hrun : Runs exec s calls t) (h : I s) (hnot : ¬I t) :
    ∃ before u a v after, calls = before ++ (u, a) :: after ∧ (∀ call ∈ before, I call.1) ∧ I u ∧
      (exec a).Ends u v ∧ ¬I v ∧ Runs exec v after t := by
  induction hrun with
  | nil s => exact absurd h hnot
  | @cons a rest s t' u hends hrest ih =>
    by_cases hnext : I t'
    · obtain ⟨before, u', b, v, after, hcalls, hbefore, hu, hlast, hv, hafter⟩ := ih hnext hnot
      refine ⟨(s, a) :: before, u', b, v, after, ?_, ?_, hu, hlast, hv, hafter⟩
      · rw [hcalls, List.cons_append]
      · intro call hcall
        rcases List.mem_cons.mp hcall with rfl | hcall
        · exact h
        · exact hbefore call hcall
    · exact ⟨[], s, a, t', rest, rfl, fun call hcall ↦ absurd hcall List.not_mem_nil, h, hends, hnext, hrest⟩

/-- Where a property holds and the calls with a condition are exactly those that keep it, it holds all along a run if
and only if all calls of the run meet the condition. `K` is what every call preserves. -/
theorem Runs.forall_iff {K I : σ → Prop} {O C : σ × A → Prop} (hrun : Runs exec s calls t) (hK : K s) (hI : I s)
    (hO : ∀ call ∈ calls, O call)
    (hstep : ∀ s a t, K s → I s → O (s, a) → (exec a).Ends s t → K t ∧ (I t ↔ C (s, a))) :
    (I t ∧ ∀ call ∈ calls, I call.1) ↔ ∀ call ∈ calls, C call := by
  induction hrun with
  | nil s => exact ⟨fun _ call hcall ↦ absurd hcall List.not_mem_nil,
      fun _ ↦ ⟨hI, fun call hcall ↦ absurd hcall List.not_mem_nil⟩⟩
  | @cons a rest s u t hends hrest ih =>
    obtain ⟨hKu, hkeeps⟩ := hstep s a u hK hI (hO _ List.mem_cons_self) hends
    have hrestO : ∀ call ∈ rest, O call := fun call hcall ↦ hO call (List.mem_cons_of_mem _ hcall)
    constructor
    · rintro ⟨hlast, hall⟩
      have hIu : I u := by
        cases hrest with
        | nil => exact hlast
        | cons => exact hall _ (List.mem_cons_of_mem _ List.mem_cons_self)
      have hrestC := (ih hKu hIu hrestO).mp ⟨hlast, fun call hcall ↦ hall call (List.mem_cons_of_mem _ hcall)⟩
      intro call hcall
      rcases List.mem_cons.mp hcall with rfl | hcall
      · exact hkeeps.mp hIu
      · exact hrestC call hcall
    · intro hC
      have hIu := hkeeps.mpr (hC _ List.mem_cons_self)
      obtain ⟨hlast, hall⟩ := (ih hKu hIu hrestO).mpr fun call hcall ↦ hC call (List.mem_cons_of_mem _ hcall)
      refine ⟨hlast, fun call hcall ↦ ?_⟩
      rcases List.mem_cons.mp hcall with rfl | hcall
      · exact hI
      · exact hall call hcall

/-- Make calls that all return. -/
def play (exec : A → Exec ε σ α) : List A → Exec ε σ (List (σ × A))
  | [] => Exec.pure []
  | a :: rest => do
    let s ← Exec.get
    let _ ← exec a
    let later ← play exec rest
    pure ((s, a) :: later)

theorem runs_of_play : ∀ {acts : List A} {s t : σ} {calls : List (σ × A)},
    play exec acts s = .ok calls t → Runs exec s calls t ∧ calls.map Prod.snd = acts
  | [], s, t, calls, h => by
    cases h
    exact ⟨.nil s, rfl⟩
  | a :: rest, s, t, calls, h => by
    unfold play at h
    rw [Exec.bind_apply, Exec.get_apply] at h
    obtain ⟨value, u, hstep, h⟩ := Exec.bind_ok_iff.mp h
    obtain ⟨later, v, hlater, h⟩ := Exec.bind_ok_iff.mp h
    cases h
    obtain ⟨hruns, hacts⟩ := runs_of_play hlater
    refine ⟨.cons (Or.inl ⟨value, hstep⟩) hruns, ?_⟩
    rw [List.map_cons, hacts]

theorem returns_of_play : ∀ {acts : List A} {s t : σ} {calls : List (σ × A)},
    play exec acts s = .ok calls t → ∀ call ∈ calls, ∃ value u, exec call.2 call.1 = .ok value u
  | [], s, t, calls, h => by
    cases h
    exact fun call hcall ↦ absurd hcall List.not_mem_nil
  | a :: rest, s, t, calls, h => by
    unfold play at h
    rw [Exec.bind_apply, Exec.get_apply] at h
    obtain ⟨value, u, hstep, h⟩ := Exec.bind_ok_iff.mp h
    obtain ⟨later, v, hlater, h⟩ := Exec.bind_ok_iff.mp h
    cases h
    intro call hcall
    rcases List.mem_cons.mp hcall with rfl | hcall
    · exact ⟨value, u, hstep⟩
    · exact returns_of_play hlater call hcall

end Exec
