import LinuxFile.Library.Buf

/-!
# Remainders of a shift register

A register of `w` bits is shifted to the right, and `p` is added whenever a one falls out. This is the
division behind a cyclic redundancy check, lowest bit first. A shift is linear, and when the highest bit of
`p` is set it can be undone. Bytes that fill no more than the register are therefore told apart by it, and
so are byte strings that differ in no more than that many consecutive bytes.
-/

namespace LinuxFile.Remainder

variable {w : ℕ} (p : BitVec w)

/-! ## One bit -/

def step (x : BitVec w) : BitVec w := if x.getLsbD 0 then (x >>> 1) ^^^ p else x >>> 1

theorem step_xor (x y : BitVec w) : step p (x ^^^ y) = step p x ^^^ step p y := by
  have hboth : (x >>> 1 ^^^ p) ^^^ (y >>> 1 ^^^ p) = x >>> 1 ^^^ y >>> 1 := by
    calc (x >>> 1 ^^^ p) ^^^ (y >>> 1 ^^^ p) = (x >>> 1 ^^^ y >>> 1) ^^^ (p ^^^ p) := by ac_rfl
      _ = x >>> 1 ^^^ y >>> 1 := by rw [BitVec.xor_self, BitVec.xor_zero]
  unfold step
  rw [BitVec.getLsbD_xor, BitVec.ushiftRight_xor_distrib]
  cases hx : x.getLsbD 0 <;> cases hy : y.getLsbD 0 <;>
    simp only [Bool.xor_false, Bool.xor_true, Bool.not_false, Bool.not_true, if_true, Bool.false_eq_true, if_false]
  · ac_rfl
  · ac_rfl
  · exact hboth.symm

/-- The highest bit after a shift is the bit that fell out. -/
theorem msb_step (hp : p.msb = true) (x : BitVec w) : (step p x).msb = x.getLsbD 0 := by
  have hw : 0 < w := by
    rcases Nat.eq_zero_or_pos w with h | h
    · subst h
      simp [BitVec.msb, BitVec.getMsbD] at hp
    · exact h
  have hshift : (x >>> 1).msb = false := by
    rw [BitVec.msb_eq_getLsbD_last, BitVec.getLsbD_ushiftRight]
    exact BitVec.getLsbD_of_ge _ _ (by omega)
  unfold step
  cases hx : x.getLsbD 0 with
  | false => rw [if_neg (by decide), hshift]
  | true => rw [if_pos rfl, BitVec.msb_xor, hshift, hp, Bool.false_xor]

theorem step_injective (hp : p.msb = true) : Function.Injective (step p) := by
  intro x y h
  have hlow : x.getLsbD 0 = y.getLsbD 0 := by rw [← msb_step p hp, h, msb_step p hp]
  have hhigh : x >>> 1 = y >>> 1 := by
    unfold step at h
    rw [hlow] at h
    cases hy : y.getLsbD 0 with
    | false => simpa only [hy, Bool.false_eq_true, if_false] using h
    | true =>
      rw [hy, if_pos rfl, if_pos rfl] at h
      exact (BitVec.xor_left_inj p).mp h
  apply BitVec.eq_of_getLsbD_eq
  intro i _
  cases i with
  | zero => exact hlow
  | succ i =>
    have hbit := congrArg (fun z ↦ z.getLsbD i) hhigh
    simpa only [BitVec.getLsbD_ushiftRight, Nat.add_comm 1 i] using hbit

/-! ## Many bits -/

theorem iterate_xor (n : ℕ) (x y : BitVec w) : (step p)^[n] (x ^^^ y) = (step p)^[n] x ^^^ (step p)^[n] y := by
  induction n generalizing x y with
  | zero => rfl
  | succ n ih => rw [Function.iterate_succ_apply, Function.iterate_succ_apply, Function.iterate_succ_apply, step_xor, ih]

/-- Zeros fall out without a trace. -/
theorem iterate_of_low (n : ℕ) (x : BitVec w) (h : ∀ i < n, x.getLsbD i = false) : (step p)^[n] x = x >>> n := by
  induction n generalizing x with
  | zero => simp
  | succ n ih =>
    have hfirst : step p x = x >>> 1 := by
      unfold step
      rw [h 0 (Nat.succ_pos n), if_neg (by decide)]
    have hrest : ∀ i < n, (x >>> 1).getLsbD i = false := fun i hi ↦ by
      rw [BitVec.getLsbD_ushiftRight]
      exact h (1 + i) (by omega)
    rw [Function.iterate_succ_apply, hfirst, ih _ hrest, ← BitVec.shiftRight_add, Nat.add_comm]

/-- A byte of zeros below the contents is shifted out again. -/
theorem iterate_shiftLeft (x : BitVec w) (h : ∀ i, w ≤ 8 + i → x.getLsbD i = false) :
    (step p)^[8] (x <<< 8) = x := by
  have hlow : ∀ i < 8, (x <<< 8).getLsbD i = false := fun i hi ↦ by
    rw [BitVec.getLsbD_shiftLeft]
    simp [hi]
  rw [iterate_of_low p 8 _ hlow]
  apply BitVec.eq_of_getLsbD_eq
  intro i hi
  rw [BitVec.getLsbD_ushiftRight, BitVec.getLsbD_shiftLeft]
  rcases lt_or_ge (8 + i) w with hin | hout
  · simp [hin]
  · rw [h i hout]
    simp [hout]

/-! ## Bytes -/

theorem leNat_lt_two_pow {bytes : Bytes} {n : ℕ} (h : 8 * bytes.length ≤ n) : leNat bytes < 2 ^ n := by
  calc leNat bytes < 256 ^ bytes.length := leNat_lt bytes
    _ = 2 ^ (8 * bytes.length) := by rw [pow_mul]; norm_num
    _ ≤ 2 ^ n := Nat.pow_le_pow_right (by norm_num) h

/-- Take in one byte. -/
def feed (x : BitVec w) (b : UInt8) : BitVec w := (step p)^[8] (x ^^^ b.toBitVec.setWidth w)

/-- Bytes as the contents of the register, first byte lowest. -/
def word (w : ℕ) (bytes : Bytes) : BitVec w := BitVec.ofNat w (leNat bytes)

theorem word_cons (b : UInt8) (bytes : Bytes) :
    word w (b :: bytes) = b.toBitVec.setWidth w ^^^ (word w bytes <<< 8) := by
  have hb : b.toNat < 2 ^ 8 := b.toNat_lt
  apply BitVec.eq_of_getLsbD_eq
  intro i hi
  have hbit : (leNat (b :: bytes)).testBit i = if i < 8 then b.toNat.testBit i else (leNat bytes).testBit (i - 8) := by
    rw [leNat, Nat.add_comm, show 256 = 2 ^ 8 by norm_num, Nat.testBit_two_pow_mul_add _ hb]
  have hbyte : b.toBitVec.getLsbD i = b.toNat.testBit i := rfl
  unfold word
  rw [BitVec.getLsbD_ofNat, hbit, BitVec.getLsbD_xor, BitVec.getLsbD_setWidth, BitVec.getLsbD_shiftLeft,
    BitVec.getLsbD_ofNat, hbyte]
  by_cases hlow : i < 8
  · simp [hi, hlow]
  · have hout : b.toNat.testBit i = false :=
      Nat.testBit_lt_two_pow (lt_of_lt_of_le hb (Nat.pow_le_pow_right (by norm_num) (by omega)))
    have hi8 : i - 8 < w := by omega
    simp [hi, hlow, hout, hi8]

/-- Bytes that fill no more than the register may as well be added all at once. -/
theorem foldl_feed (bytes : Bytes) (h : 8 * bytes.length ≤ w) (x : BitVec w) :
    bytes.foldl (feed p) x = (step p)^[8 * bytes.length] (x ^^^ word w bytes) := by
  induction bytes generalizing x with
  | nil =>
    have hzero : word w [] = 0#w := rfl
    rw [hzero, BitVec.xor_zero]
    rfl
  | cons b bytes ih =>
    rw [List.length_cons] at h
    have hlater : (step p)^[8] (word w bytes <<< 8) = word w bytes := by
      apply iterate_shiftLeft
      intro i hi
      have hlt : leNat bytes < 2 ^ i := leNat_lt_two_pow (by omega)
      unfold word
      rw [BitVec.getLsbD_ofNat, Nat.testBit_lt_two_pow hlt, Bool.and_false]
    calc (b :: bytes).foldl (feed p) x
        = (step p)^[8 * bytes.length] (feed p x b ^^^ word w bytes) := by
          rw [List.foldl_cons, ih (by omega)]
      _ = (step p)^[8 * bytes.length] ((step p)^[8] (x ^^^ b.toBitVec.setWidth w ^^^ word w bytes <<< 8)) := by
          rw [iterate_xor p 8, hlater]
          rfl
      _ = (step p)^[8 * (b :: bytes).length] (x ^^^ word w (b :: bytes)) := by
          rw [← Function.iterate_add_apply, word_cons, BitVec.xor_assoc, List.length_cons, Nat.mul_succ]

theorem word_injective {bytes bytes' : Bytes} (hlen : bytes.length = bytes'.length) (h : 8 * bytes.length ≤ w)
    (heq : word w bytes = word w bytes') : bytes = bytes' := by
  have hnum : leNat bytes = leNat bytes' := by
    have := congrArg BitVec.toNat heq
    unfold word at this
    rwa [BitVec.toNat_ofNat, BitVec.toNat_ofNat, Nat.mod_eq_of_lt (leNat_lt_two_pow h),
      Nat.mod_eq_of_lt (leNat_lt_two_pow (hlen ▸ h))] at this
  rw [← leBytes_leNat bytes, hnum, hlen, leBytes_leNat]

section Reversible

variable (hp : p.msb = true)

include hp

theorem feed_injective (b : UInt8) : Function.Injective (fun x ↦ feed p x b) := by
  intro x y h
  exact (BitVec.xor_left_inj _).mp ((step_injective p hp).iterate 8 h)

theorem foldl_feed_injective (bytes : Bytes) : Function.Injective (fun x ↦ bytes.foldl (feed p) x) := by
  induction bytes with
  | nil => exact fun x y h ↦ h
  | cons b bytes ih => exact fun x y h ↦ feed_injective p hp b (ih h)

/-- Byte strings that differ in a stretch no longer than the register leave different remainders. -/
theorem burst {before burst burst' after : Bytes} (hlen : burst.length = burst'.length)
    (hshort : 8 * burst.length ≤ w) (hne : burst ≠ burst') (x : BitVec w) :
    (before ++ burst ++ after).foldl (feed p) x ≠ (before ++ burst' ++ after).foldl (feed p) x := by
  intro heq
  rw [List.foldl_append, List.foldl_append, List.foldl_append, List.foldl_append] at heq
  have hmid := foldl_feed_injective p hp after heq
  rw [foldl_feed p burst hshort, foldl_feed p burst' (hlen ▸ hshort), ← hlen] at hmid
  have hword := (BitVec.xor_right_inj _).mp ((step_injective p hp).iterate _ hmid)
  exact hne (word_injective hlen hshort hword)

/-- A message carries its own checksum exactly if the remainder of both is the one that the final mask leaves. -/
theorem residue_iff (message check : Bytes) (hcheck : 8 * check.length ≤ w) (x mask : BitVec w) :
    word w check = message.foldl (feed p) x ^^^ mask ↔
      (message ++ check).foldl (feed p) x = (step p)^[8 * check.length] mask := by
  rw [List.foldl_append, foldl_feed p check hcheck, ((step_injective p hp).iterate _).eq_iff]
  constructor
  · intro h
    rw [h, ← BitVec.xor_assoc, BitVec.xor_self, BitVec.zero_xor]
  · intro h
    rw [← h, ← BitVec.xor_assoc, BitVec.xor_self, BitVec.zero_xor]

end Reversible

/-- Eight shifts are those of the lowest byte, and the rest moved down. -/
theorem iterate_eight (x : BitVec w) : (step p)^[8] x = (step p)^[8] (x &&& 255#w) ^^^ x >>> 8 := by
  have hmask : ∀ i, (255#w).getLsbD i = (decide (i < w) && decide (i < 8)) := fun i ↦ by
    rw [BitVec.getLsbD_ofNat, show 255 = 2 ^ 8 - 1 by norm_num, Nat.testBit_two_pow_sub_one]
  have hsplit : x = (x &&& 255#w) ^^^ x >>> 8 <<< 8 := by
    apply BitVec.eq_of_getLsbD_eq
    intro i hi
    rw [BitVec.getLsbD_xor, BitVec.getLsbD_and, hmask, BitVec.getLsbD_shiftLeft, BitVec.getLsbD_ushiftRight]
    rcases lt_or_ge i 8 with hlow | hhigh
    · simp [hi, hlow]
    · simp [hi, Nat.not_lt.mpr hhigh, Nat.add_sub_cancel' hhigh]
  have hrest : (step p)^[8] (x >>> 8 <<< 8) = x >>> 8 := by
    apply iterate_shiftLeft
    intro i hi
    rw [BitVec.getLsbD_ushiftRight]
    exact BitVec.getLsbD_of_ge x _ hi
  calc (step p)^[8] x = (step p)^[8] ((x &&& 255#w) ^^^ x >>> 8 <<< 8) := by rw [← hsplit]
    _ = (step p)^[8] (x &&& 255#w) ^^^ x >>> 8 := by rw [iterate_xor, hrest]

/-! ## Single bits -/

/-- Take in one bit. -/
def feedBit (x : BitVec w) (bit : Bool) : BitVec w := step p (x ^^^ (BitVec.ofBool bit).setWidth w)

/-- The lowest `n` bits of a number, lowest first. -/
def bitsOf (n v : ℕ) : List Bool := (List.range n).map v.testBit

theorem bitsOf_succ (n v : ℕ) : bitsOf (n + 1) v = v.testBit 0 :: bitsOf n (v / 2) := by
  unfold bitsOf
  rw [List.range_succ_eq_map, List.map_cons, List.map_map]
  congr 1
  apply List.map_congr_left
  intro i _
  rw [Function.comp_apply, Nat.testBit_succ]

/-- The lowest bit, and the others above it. -/
theorem ofNat_eq_bit (v : ℕ) :
    BitVec.ofNat w v = (BitVec.ofBool (v.testBit 0)).setWidth w ^^^ BitVec.ofNat w (v / 2) <<< 1 := by
  apply BitVec.eq_of_getLsbD_eq
  intro i hi
  rw [BitVec.getLsbD_xor, BitVec.getLsbD_setWidth, BitVec.getLsbD_shiftLeft, BitVec.getLsbD_ofNat,
    BitVec.getLsbD_ofNat, BitVec.getLsbD_ofBool]
  cases i with
  | zero => simp [hi]
  | succ i =>
    have hi' : i < w := by omega
    simp [hi, hi', Nat.testBit_succ]

/-- Bits that fill no more than the register may as well be added all at once. -/
theorem foldl_feedBit {n : ℕ} (hn : n ≤ w) {v : ℕ} (hv : v < 2 ^ n) (x : BitVec w) :
    (bitsOf n v).foldl (feedBit p) x = (step p)^[n] (x ^^^ BitVec.ofNat w v) := by
  induction n generalizing v x with
  | zero =>
    have hzero : v = 0 := by omega
    rw [hzero, BitVec.xor_zero]
    rfl
  | succ n ih =>
    have hhalf : v / 2 < 2 ^ n := by
      rw [pow_succ] at hv
      omega
    -- a bit of zero below the others is shifted out again
    have hshift : step p (BitVec.ofNat w (v / 2) <<< 1) = BitVec.ofNat w (v / 2) := by
      have hlow : (BitVec.ofNat w (v / 2) <<< 1).getLsbD 0 = false := by
        rw [BitVec.getLsbD_shiftLeft]
        simp
      unfold step
      rw [hlow, if_neg (by decide)]
      apply BitVec.eq_of_getLsbD_eq
      intro i hi
      rw [BitVec.getLsbD_ushiftRight, BitVec.getLsbD_shiftLeft, BitVec.getLsbD_ofNat, BitVec.getLsbD_ofNat]
      by_cases hin : 1 + i < w
      · simp [hin, hi]
      · have hout : (v / 2).testBit i = false :=
          Nat.testBit_lt_two_pow (hhalf.trans_le (Nat.pow_le_pow_right (by norm_num) (by omega)))
        simp [hin, hout]
    calc (bitsOf (n + 1) v).foldl (feedBit p) x
        = (step p)^[n] (feedBit p x (v.testBit 0) ^^^ BitVec.ofNat w (v / 2)) := by
          rw [bitsOf_succ, List.foldl_cons, ih (by omega) hhalf]
      _ = (step p)^[n] (step p (x ^^^ BitVec.ofNat w v)) := by
          rw [ofNat_eq_bit v, ← BitVec.xor_assoc, step_xor p _ (BitVec.ofNat w (v / 2) <<< 1), hshift]
          rfl
      _ = (step p)^[n + 1] (x ^^^ BitVec.ofNat w v) := by rw [Function.iterate_succ_apply]

/-- A byte is its eight bits one after the other. -/
theorem feed_eq_foldl (hw : 8 ≤ w) (x : BitVec w) (b : UInt8) :
    feed p x b = (bitsOf 8 b.toNat).foldl (feedBit p) x := by
  have hbyte : BitVec.ofNat w b.toNat = b.toBitVec.setWidth w := BitVec.ofNat_toNat w b.toBitVec
  rw [foldl_feedBit p hw b.toNat_lt, hbyte]
  rfl

theorem foldl_feed_eq_bits (hw : 8 ≤ w) (x : BitVec w) (bytes : Bytes) :
    bytes.foldl (feed p) x = (bytes.flatMap (fun b ↦ bitsOf 8 b.toNat)).foldl (feedBit p) x := by
  induction bytes generalizing x with
  | nil => rfl
  | cons b bytes ih => rw [List.foldl_cons, List.flatMap_cons, List.foldl_append, ih, feed_eq_foldl p hw]

end LinuxFile.Remainder
