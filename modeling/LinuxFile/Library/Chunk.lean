import Mathlib.Data.Nat.Notation
import Mathlib.Data.List.Basic

/-!
# Splitting a byte range at unit boundaries

A loop that moves `n` bytes from offset `off` through units of `unit` bytes visits one chunk per
unit: it starts `within` bytes into unit `index`, is `len` bytes long and begins at byte `done` of
the caller's buffer.
-/

structure Chunk where
  done : ℕ
  index : ℕ
  within : ℕ
  len : ℕ
  deriving DecidableEq, Repr

namespace Chunk

/-- The chunks from byte `done` on. -/
def listFrom (unit off n : ℕ) : ℕ → ℕ → List Chunk
  | 0, _ => []
  | fuel + 1, done =>
    if done < n then
      let within := (off + done) % unit
      let len := min (unit - within) (n - done)
      ⟨done, (off + done) / unit, within, len⟩ :: listFrom unit off n fuel (done + len)
    else []

/-- All chunks of `n` bytes at offset `off`. Every chunk has at least one byte, so `n` rounds
suffice. -/
def list (unit off n : ℕ) : List Chunk := listFrom unit off n n 0

/-- The chunks that cover the bytes from `done` on, one after the other. -/
inductive Tiles (unit off n : ℕ) : ℕ → List Chunk → Prop
  | nil : Tiles unit off n n []
  | cons {c : Chunk} {rest : List Chunk} (pos : 0 < c.len) (le : c.done + c.len ≤ n)
      (place : c.index * unit + c.within = off + c.done) (fits : c.within + c.len ≤ unit)
      (whole : c.within + c.len = unit ∨ c.done + c.len = n)
      (tail : Tiles unit off n (c.done + c.len) rest) : Tiles unit off n c.done (c :: rest)

theorem listFrom_tiles {unit off n : ℕ} (hunit : 0 < unit) (fuel : ℕ) :
    ∀ done, done ≤ n → n ≤ done + fuel → Tiles unit off n done (listFrom unit off n fuel done) := by
  induction fuel with
  | zero =>
    intro done hle hfuel
    obtain rfl : done = n := by omega
    exact .nil
  | succ fuel ih =>
    intro done hle hfuel
    unfold listFrom
    by_cases hlt : done < n
    · rw [if_pos hlt]
      have hmod := Nat.mod_lt (off + done) hunit
      have hdiv := Nat.div_add_mod (off + done) unit
      have hpos : 0 < min (unit - (off + done) % unit) (n - done) := by omega
      refine Tiles.cons (c := ⟨done, _, _, _⟩) hpos (by dsimp only; omega) ?_ (by dsimp only; omega)
        (by dsimp only; omega) (ih _ (by dsimp only; omega) (by dsimp only; omega))
      rw [Nat.mul_comm]
      exact hdiv
    · rw [if_neg hlt]
      obtain rfl : done = n := by omega
      exact .nil

theorem list_tiles {unit : ℕ} (hunit : 0 < unit) (off n : ℕ) : Tiles unit off n 0 (list unit off n) :=
  listFrom_tiles hunit n 0 (Nat.zero_le n) (by omega)

/-- Every chunk lies in the range. -/
theorem Tiles.mem {unit off n done : ℕ} {chunks : List Chunk} (h : Tiles unit off n done chunks) {c : Chunk}
    (hc : c ∈ chunks) : 0 < c.len ∧ done ≤ c.done ∧ c.done + c.len ≤ n ∧
      c.index * unit + c.within = off + c.done ∧ c.within + c.len ≤ unit := by
  induction h with
  | nil => cases hc
  | cons pos le place fits whole tail ih =>
    rcases List.mem_cons.mp hc with rfl | hrest
    · exact ⟨pos, Nat.le_refl _, le, place, fits⟩
    · obtain ⟨h1, h2, h3⟩ := ih hrest
      exact ⟨h1, by omega, h3⟩

end Chunk
