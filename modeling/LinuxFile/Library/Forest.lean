import Mathlib.Logic.Relation
import Mathlib.Data.Nat.Notation

/-!
# Forests

A relation between parents and children in which nothing has two parents. A node that is moved takes everything
below it along. What a root reaches it still reaches after the move if it reaches the new parent and the moved node
does not.
-/

namespace Forest

open Relation

variable {α : Type*} {R S : α → α → Prop} {root a b c src : α} {n : ℕ}

/-- Nothing has two parents, and the root has none. -/
structure Rooted (R : α → α → Prop) (root : α) : Prop where
  unique : ∀ {a b c}, R a c → R b c → a = b
  top : ∀ a, ¬R a root

/-- `b` is `n` generations below `a`. -/
inductive Generations (R : α → α → Prop) (a : α) : ℕ → α → Prop
  | zero : Generations R a 0 a
  | succ {n : ℕ} {b c : α} (h : Generations R a n b) (hbc : R b c) : Generations R a (n + 1) c

theorem Generations.reaches (h : Generations R a n b) : ReflTransGen R a b := by
  induction h with
  | zero => exact .refl
  | succ _ hbc ih => exact ih.tail hbc

theorem exists_generations (h : ReflTransGen R a b) : ∃ n, Generations R a n b := by
  induction h with
  | refl => exact ⟨0, .zero⟩
  | tail _ hbc ih =>
    obtain ⟨n, hn⟩ := ih
    exact ⟨n + 1, hn.succ hbc⟩

/-- A node below `a` other than `a` has its parent below `a`. -/
theorem Rooted.parent_below (hR : Rooted R root) (h : ReflTransGen R a c) (hne : c ≠ a) (hbc : R b c) :
    ReflTransGen R a b := by
  rcases h.cases_tail with rfl | ⟨p, hp, hpc⟩
  · exact absurd rfl hne
  · rw [hR.unique hbc hpc]
    exact hp

/-- The root is below itself only. -/
theorem Rooted.eq_root (hR : Rooted R root) (h : ReflTransGen R a root) : a = root := by
  rcases h.cases_tail with rfl | ⟨p, -, hp⟩
  · rfl
  · exact absurd hp (hR.top p)

/-- A node that the root reaches is not below any of its children. -/
theorem Rooted.acyclic (hR : Rooted R root) (h : ReflTransGen R root a) (hab : R a b) : ¬ReflTransGen R b a := by
  induction h generalizing b with
  | refl =>
    intro hback
    have hroot := hR.eq_root hback
    subst hroot
    exact hR.top _ hab
  | @tail p a _ hpa ih =>
    intro hback
    by_cases hself : a = b
    · rw [← hself] at hab
      have hloop : p = a := hR.unique hpa hab
      rw [hloop] at ih
      exact ih hab .refl
    · exact ih hpa ((ReflTransGen.single hab).trans (hR.parent_below hback hself hpa))

/-- What is reached around the moved node is reached without it. -/
theorem reaches_around (hkeep : ∀ {p k}, k ≠ src → R p k → S p k) (h : ReflTransGen R root a)
    (hout : ¬ReflTransGen R src a) : ReflTransGen S root a := by
  induction h with
  | refl => exact .refl
  | @tail p a _ hpa ih =>
    have hp : ¬ReflTransGen R src p := fun hsrc ↦ hout (hsrc.tail hpa)
    have hne : a ≠ src := by
      rintro rfl
      exact hout .refl
    exact (ih hp).tail (hkeep hne hpa)

/-- A node was moved below a parent that is reached and not below the node. -/
theorem reaches_moved (hkeep : ∀ {p k}, k ≠ src → R p k → S p k) {parent : α} (hnew : S parent src)
    (hparent : ReflTransGen R root parent) (hout : ¬ReflTransGen R src parent) (h : ReflTransGen R root a) :
    ReflTransGen S root a := by
  have hup := reaches_around hkeep hparent hout
  induction h with
  | refl => exact .refl
  | @tail p a _ hpa ih =>
    by_cases hsrc : a = src
    · rw [hsrc]
      exact hup.tail hnew
    · exact ih.tail (hkeep hsrc hpa)

end Forest
