import Mathlib.Data.Nat.Digits.Lemmas
import Mathlib.Data.List.GetD
import Mathlib.Tactic.Ring

/-!
# Fixed-size byte buffers and little-endian fields

`Buf n` is a buffer of `n` bytes, read by index; the bytes past the end are zero, so two buffers
are equal when they agree below `n`. Field access is by offset: `put` overwrites a range, `slice`
copies one out, and the `U16`, `U32` and `U64` accessors store a natural number in two, four or
eight little-endian bytes. The rules come in pairs: reading a field just written gives the number
modulo the width, and a write leaves every disjoint field alone.
-/

abbrev Bytes := List UInt8

/-! ## Little-endian numbers -/

/-- The low `width` bytes of `value`, least significant first. -/
def leBytes : ℕ → ℕ → Bytes
  | 0, _ => []
  | width + 1, value => UInt8.ofNat value :: leBytes width (value / 256)

/-- The number a little-endian byte string stands for. -/
def leNat : Bytes → ℕ
  | [] => 0
  | b :: rest => b.toNat + 256 * leNat rest

@[simp] theorem leBytes_length (width value : ℕ) : (leBytes width value).length = width := by
  induction width generalizing value with
  | zero => rfl
  | succ width ih => simp [leBytes, ih]

theorem leNat_leBytes (width value : ℕ) : leNat (leBytes width value) = value % 256 ^ width := by
  induction width generalizing value with
  | zero => simp [leBytes, leNat, Nat.mod_one]
  | succ width ih =>
    rw [leBytes, leNat, ih, pow_succ', Nat.mod_mul]
    simp

theorem leNat_leBytes_two (value : ℕ) : leNat (leBytes 2 value) = value % 2 ^ 16 := by
  rw [leNat_leBytes, show 256 ^ 2 = 2 ^ 16 by norm_num]

theorem leNat_leBytes_four (value : ℕ) : leNat (leBytes 4 value) = value % 2 ^ 32 := by
  rw [leNat_leBytes, show 256 ^ 4 = 2 ^ 32 by norm_num]

theorem leNat_leBytes_eight (value : ℕ) : leNat (leBytes 8 value) = value % 2 ^ 64 := by
  rw [leNat_leBytes, show 256 ^ 8 = 2 ^ 64 by norm_num]

theorem leNat_lt (bytes : Bytes) : leNat bytes < 256 ^ bytes.length := by
  induction bytes with
  | nil => simp [leNat]
  | cons b rest ih =>
    have hb := b.toNat_lt
    rw [leNat, List.length_cons, pow_succ']
    omega

theorem leBytes_leNat (bytes : Bytes) : leBytes bytes.length (leNat bytes) = bytes := by
  induction bytes with
  | nil => rfl
  | cons b rest ih =>
    have hb := b.toNat_lt
    have hdiv : (b.toNat + 256 * leNat rest) / 256 = leNat rest := by omega
    rw [List.length_cons, leBytes, leNat, hdiv, ih]
    congr 1
    apply UInt8.toNat_inj.mp
    simp

/-! ## Buffers -/

/-- A buffer of `n` bytes. -/
structure Buf (n : ℕ) where
  byte : ℕ → UInt8
  zero_of_le : ∀ i, n ≤ i → byte i = 0

namespace Buf

variable {n : ℕ}

theorem ext_of_lt {b c : Buf n} (h : ∀ i, i < n → b.byte i = c.byte i) : b = c := by
  have hbyte : b.byte = c.byte := by
    funext i
    by_cases hi : i < n
    · exact h i hi
    · rw [b.zero_of_le i (by omega), c.zero_of_le i (by omega)]
  cases b
  cases c
  simp_all

/-- The buffer of zeros. -/
def zero (n : ℕ) : Buf n := ⟨fun _ ↦ 0, fun _ _ ↦ rfl⟩

/-- The first `n` values of a byte function. -/
def ofFun (n : ℕ) (f : ℕ → UInt8) : Buf n :=
  ⟨fun i ↦ if i < n then f i else 0, fun i hi ↦ if_neg (by omega)⟩

/-- Overwrite the range that starts at `off` with `data`. -/
def put (b : Buf n) (off : ℕ) (data : Bytes) : Buf n :=
  ⟨fun i ↦ if i < n ∧ off ≤ i ∧ i < off + data.length then data.getD (i - off) 0 else b.byte i,
    fun i hi ↦ by rw [if_neg (by omega), b.zero_of_le i hi]⟩

/-- The `len` bytes from `off` on. -/
def slice (b : Buf n) (off len : ℕ) : Bytes := (List.range' off len).map b.byte

/-- A buffer that starts with `data` and is zero after it. -/
def ofBytes (n : ℕ) (data : Bytes) : Buf n := (zero n).put 0 data

/-- The `m` bytes from `off` on, as a buffer of their own. -/
def sub (b : Buf n) (off m : ℕ) : Buf m := ofFun m (fun i ↦ b.byte (off + i))

@[simp] theorem zero_byte (i : ℕ) : (zero n).byte i = 0 := rfl

theorem ofFun_byte (f : ℕ → UInt8) {i : ℕ} (hi : i < n) : (ofFun n f).byte i = f i := if_pos hi

theorem put_byte (b : Buf n) (off : ℕ) (data : Bytes) (i : ℕ) :
    (b.put off data).byte i =
      if i < n ∧ off ≤ i ∧ i < off + data.length then data.getD (i - off) 0 else b.byte i := rfl

theorem put_byte_of_mem {b : Buf n} {off : ℕ} {data : Bytes} {i : ℕ} (hn : i < n)
    (hlow : off ≤ i) (hhigh : i < off + data.length) :
    (b.put off data).byte i = data.getD (i - off) 0 := if_pos ⟨hn, hlow, hhigh⟩

theorem put_byte_of_notMem {b : Buf n} {off : ℕ} {data : Bytes} {i : ℕ}
    (h : i < off ∨ off + data.length ≤ i) : (b.put off data).byte i = b.byte i :=
  if_neg (by omega)

@[simp] theorem slice_length (b : Buf n) (off len : ℕ) : (b.slice off len).length = len := by
  simp [slice]

theorem slice_getElem? (b : Buf n) {off len i : ℕ} (hi : i < len) :
    (b.slice off len)[i]? = some (b.byte (off + i)) := by
  simp [slice, hi]

theorem slice_getD (b : Buf n) {off len i : ℕ} (hi : i < len) :
    (b.slice off len).getD i 0 = b.byte (off + i) := by
  rw [List.getD_eq_getElem?_getD, slice_getElem? b hi, Option.getD_some]

theorem slice_congr {b c : Buf n} {off len : ℕ}
    (h : ∀ i, off ≤ i → i < off + len → b.byte i = c.byte i) : b.slice off len = c.slice off len := by
  apply List.map_congr_left
  intro i hi
  rw [List.mem_range'_1] at hi
  exact h i hi.1 hi.2

theorem slice_add (b : Buf n) (off k m : ℕ) :
    b.slice off (k + m) = b.slice off k ++ b.slice (off + k) m := by
  unfold slice
  rw [← List.map_append, List.range'_append_1]

theorem slice_put_self (b : Buf n) (off : ℕ) (data : Bytes) (h : off + data.length ≤ n) :
    (b.put off data).slice off data.length = data := by
  apply List.ext_getElem?
  intro i
  by_cases hi : i < data.length
  · rw [slice_getElem? _ hi, put_byte_of_mem (by omega) (by omega) (by omega)]
    simp [List.getD_eq_getElem?_getD, hi]
  · rw [List.getElem?_eq_none (by simp; omega), List.getElem?_eq_none (by omega)]

theorem slice_put_of_disjoint (b : Buf n) {off : ℕ} {data : Bytes} {off' len : ℕ}
    (h : off' + len ≤ off ∨ off + data.length ≤ off') :
    (b.put off data).slice off' len = b.slice off' len :=
  slice_congr fun i hlow hhigh ↦ put_byte_of_notMem (by omega)

/-! ## Numeric fields -/

def putU16 (b : Buf n) (off value : ℕ) : Buf n := b.put off (leBytes 2 value)
def putU32 (b : Buf n) (off value : ℕ) : Buf n := b.put off (leBytes 4 value)
def putU64 (b : Buf n) (off value : ℕ) : Buf n := b.put off (leBytes 8 value)
def putU8 (b : Buf n) (off : ℕ) (value : UInt8) : Buf n := b.put off [value]

def getU16 (b : Buf n) (off : ℕ) : ℕ := leNat (b.slice off 2)
def getU32 (b : Buf n) (off : ℕ) : ℕ := leNat (b.slice off 4)
def getU64 (b : Buf n) (off : ℕ) : ℕ := leNat (b.slice off 8)

theorem getU32_lt (b : Buf n) (off : ℕ) : b.getU32 off < 2 ^ 32 := by
  simpa [getU32] using leNat_lt (b.slice off 4)

/-- A range that was just written is read back. -/
theorem slice_put (b : Buf n) {off len : ℕ} {data : Bytes} (h : data.length = len ∧ off + len ≤ n) :
    (b.put off data).slice off len = data := by
  obtain ⟨rfl, hn⟩ := h
  exact slice_put_self b off data hn

theorem byte_eq_slice (b : Buf n) (off : ℕ) : b.byte off = (b.slice off 1).getD 0 0 := by
  simp [slice]

theorem sub_eq_of_slice {m k : ℕ} {b : Buf n} {c : Buf m} {off off' : ℕ}
    (h : b.slice off k = c.slice off' k) : b.sub off k = c.sub off' k := by
  apply ext_of_lt
  intro i hi
  have hget : (b.slice off k).getD i 0 = (c.slice off' k).getD i 0 := by rw [h]
  rw [slice_getD b hi, slice_getD c hi] at hget
  simpa only [sub, ofFun_byte _ hi] using hget

theorem sub_zero_self (b : Buf n) : b.sub 0 n = b := by
  apply ext_of_lt
  intro i hi
  rw [sub, ofFun_byte _ hi, Nat.zero_add]

theorem sub_eq_of_slice_eq {m : ℕ} {b : Buf n} {c : Buf m} {off : ℕ}
    (h : b.slice off m = c.slice 0 m) : b.sub off m = c := by
  rw [sub_eq_of_slice h, sub_zero_self]

theorem slice_inj {b c : Buf n} (h : b.slice 0 n = c.slice 0 n) : b = c := by
  rw [← sub_zero_self b, ← sub_zero_self c]
  exact sub_eq_of_slice h

end Buf
