import LinuxFile.Library.Remainder
import LinuxFile.Spec.Codec

/-!
# Checksums

The table of the checksum is the one of a shift register of 32 bits, and a look-up takes eight bits in at once. A slot
with its checksum is accepted exactly if the register ends on one fixed remainder, and a change within four
consecutive bytes, wherever it lies, leaves another.
-/

namespace LinuxFile

namespace Crc

/-- The polynomial, lowest coefficient in the highest bit. -/
def polynomial : BitVec 32 := 0xEDB88320#32

theorem polynomial_msb : polynomial.msb = true := by decide

theorem tableStep_toBitVec (c : UInt32) : (tableStep c).toBitVec = Remainder.step polynomial c.toBitVec := by
  have hlow : (c &&& 1).toBitVec = BitVec.setWidth 32 (BitVec.ofBool (c.toBitVec.getLsbD 0)) :=
    BitVec.and_one_eq_setWidth_ofBool_getLsbD
  unfold tableStep Remainder.step
  cases hbit : c.toBitVec.getLsbD 0 with
  | false =>
    rw [hbit] at hlow
    have hzero : c &&& 1 = 0 := UInt32.toBitVec_inj.mp hlow
    rw [if_neg (not_not.mpr hzero), if_neg (by decide)]
    rfl
  | true =>
    rw [hbit] at hlow
    have hone : c &&& 1 = 1 := UInt32.toBitVec_inj.mp hlow
    rw [hone, if_pos (by decide), if_pos rfl]
    rfl

theorem tableEntry_toBitVec (i : ℕ) : (tableEntry i).toBitVec = (Remainder.step polynomial)^[8] (BitVec.ofNat 32 i) := by
  have hiterate : ∀ n c, (tableStep^[n] c).toBitVec = (Remainder.step polynomial)^[n] c.toBitVec := by
    intro n
    induction n with
    | zero => exact fun c ↦ rfl
    | succ n ih => exact fun c ↦ by rw [Function.iterate_succ_apply, Function.iterate_succ_apply, ih, tableStep_toBitVec]
  exact hiterate 8 _

/-- A look-up in the table takes in one byte. -/
theorem lookup_toBitVec (c : UInt32) (b : UInt8) :
    (crcTable.getD ((c ^^^ b.toUInt32) &&& 0xff).toNat 0 ^^^ (c >>> 8)).toBitVec =
      Remainder.feed polynomial c.toBitVec b := by
  set x := c ^^^ b.toUInt32 with hx
  have hmix : x.toBitVec = c.toBitVec ^^^ b.toBitVec.setWidth 32 := by
    rw [hx, UInt32.toBitVec_xor]
    rfl
  have hidx : (x &&& 0xff).toNat < 256 := by
    rw [UInt32.toNat_and]
    exact Nat.lt_of_le_of_lt Nat.and_le_right (by decide)
  have hentry : crcTable.getD (x &&& 0xff).toNat 0 = tableEntry (x &&& 0xff).toNat := by
    unfold crcTable
    rw [List.getD_eq_getElem?_getD, List.getElem?_map, List.getElem?_range hidx]
    rfl
  have hindex : BitVec.ofNat 32 (x &&& 0xff).toNat = x.toBitVec &&& 255#32 := BitVec.ofNat_toNat 32 _
  have hbyte : b.toBitVec.setWidth 32 >>> 8 = 0#32 := by
    apply BitVec.eq_of_toNat_eq
    rw [BitVec.toNat_ushiftRight, BitVec.toNat_setWidth, Nat.mod_eq_of_lt (by omega), Nat.shiftRight_eq_div_pow]
    exact Nat.div_eq_of_lt b.toBitVec.isLt
  have hrest : x.toBitVec >>> 8 = c.toBitVec >>> 8 := by
    rw [hmix, BitVec.ushiftRight_xor_distrib, hbyte, BitVec.xor_zero]
  rw [UInt32.toBitVec_xor, hentry, tableEntry_toBitVec, hindex]
  unfold Remainder.feed
  rw [← hmix, Remainder.iterate_eight polynomial x.toBitVec, hrest]
  rfl

theorem crc32Update_toBitVec (c : UInt32) (data : Bytes) :
    (crc32Update c data).toBitVec = data.foldl (Remainder.feed polynomial) c.toBitVec := by
  induction data generalizing c with
  | nil => rfl
  | cons b data ih =>
    unfold crc32Update
    dsimp only
    rw [ih, lookup_toBitVec]
    rfl

/-! ## Bit by bit -/

/-- One bit of the reference: the polynomial is added if the bit is not the one that is shifted out. -/
def referenceStep (crc : UInt32) (bit : Bool) : UInt32 :=
  if crc.toNat.testBit 0 ^^ bit then (crc >>> 1) ^^^ 0xEDB88320 else crc >>> 1

/-- The bits of a message, the least significant bit of each byte first. -/
def messageBits (data : Bytes) : List Bool := data.flatMap (fun b ↦ (List.range 8).map b.toNat.testBit)

/-- The checksum without a table. -/
def referenceCrc32 (data : Bytes) : UInt32 := (messageBits data).foldl referenceStep 0xFFFFFFFF ^^^ 0xFFFFFFFF

/-- The check value of the algorithm, of the digits 1 to 9. -/
example : referenceCrc32 [0x31, 0x32, 0x33, 0x34, 0x35, 0x36, 0x37, 0x38, 0x39] = 0xCBF43926 := by decide +kernel

theorem referenceStep_toBitVec (c : UInt32) (bit : Bool) :
    (referenceStep c bit).toBitVec = Remainder.feedBit polynomial c.toBitVec bit := by
  have hlow : (c.toBitVec ^^^ (BitVec.ofBool bit).setWidth 32).getLsbD 0 = (c.toNat.testBit 0 ^^ bit) := by
    have hfirst : c.toBitVec.getLsbD 0 = c.toNat.testBit 0 := rfl
    rw [BitVec.getLsbD_xor, BitVec.getLsbD_setWidth, BitVec.getLsbD_ofBool, hfirst]
    simp
  have hrest : (c.toBitVec ^^^ (BitVec.ofBool bit).setWidth 32) >>> 1 = c.toBitVec >>> 1 := by
    have hbit : (BitVec.ofBool bit).setWidth 32 >>> 1 = 0#32 := by cases bit <;> decide
    rw [BitVec.ushiftRight_xor_distrib, hbit, BitVec.xor_zero]
  unfold referenceStep Remainder.feedBit Remainder.step
  rw [hlow, hrest]
  split_ifs <;> rfl

theorem foldl_referenceStep (c : UInt32) (bits : List Bool) :
    (bits.foldl referenceStep c).toBitVec = bits.foldl (Remainder.feedBit polynomial) c.toBitVec := by
  induction bits generalizing c with
  | nil => rfl
  | cons bit bits ih => rw [List.foldl_cons, List.foldl_cons, ih, referenceStep_toBitVec]

/-- The table takes eight bits at once. -/
theorem crc32Update_eq_foldl (c : UInt32) (data : Bytes) :
    crc32Update c data = (messageBits data).foldl referenceStep c := by
  apply UInt32.toBitVec_inj.mp
  rw [crc32Update_toBitVec, foldl_referenceStep, Remainder.foldl_feed_eq_bits polynomial (by decide)]
  rfl

/-- The checksum with the table is the one that is computed bit by bit. -/
theorem crc32_eq_reference (data : Bytes) : crc32 data = referenceCrc32 data := by
  unfold crc32 referenceCrc32
  rw [crc32Update_eq_foldl]

/-! ## Residues -/

/-- The remainder of every byte string that ends in its own checksum. -/
def residue : BitVec 32 := (Remainder.step polynomial)^[32] (BitVec.allOnes 32)

theorem crc32_iff (message check : Bytes) (hcheck : check.length = 4) :
    leNat check = (crc32 message).toNat ↔
      (message ++ check).foldl (Remainder.feed polynomial) (BitVec.allOnes 32) = residue := by
  have hword : leNat check = (crc32 message).toNat ↔ Remainder.word 32 check = (crc32 message).toBitVec := by
    unfold Remainder.word
    rw [← BitVec.toNat_inj, BitVec.toNat_ofNat, Nat.mod_eq_of_lt (Remainder.leNat_lt_two_pow (by omega))]
    rfl
  have hcrc : (crc32 message).toBitVec =
      message.foldl (Remainder.feed polynomial) (BitVec.allOnes 32) ^^^ BitVec.allOnes 32 := by
    unfold crc32
    rw [UInt32.toBitVec_xor, crc32Update_toBitVec]
    rfl
  rw [hword, hcrc, Remainder.residue_iff polynomial polynomial_msb message check (by omega), hcheck]
  rfl

/-- A buffer that ends in a checksum of the rest of it. -/
theorem checksum_iff {n : ℕ} (b : Buf n) {len : ℕ} (hlen : len + 4 = n) :
    b.getU32 len = (crc32 (b.slice 0 len)).toNat ↔
      (b.slice 0 n).foldl (Remainder.feed polynomial) (BitVec.allOnes 32) = residue := by
  subst hlen
  have hsplit : b.slice 0 (len + 4) = b.slice 0 len ++ b.slice len 4 := by
    rw [Buf.slice_add, Nat.zero_add]
  rw [hsplit]
  exact crc32_iff _ _ (Buf.slice_length ..)

/-- Two buffers that differ, and only within four consecutive bytes, do not both end in their checksum. -/
theorem checksum_of_burst {n : ℕ} {b c : Buf n} (len : ℕ) (hlen : len + 4 = n)
    (hb : b.getU32 len = (crc32 (b.slice 0 len)).toNat) {off : ℕ} (hne : c ≠ b)
    (hsame : ∀ j, j < off ∨ off + 4 ≤ j → c.byte j = b.byte j) :
    c.getU32 len ≠ (crc32 (c.slice 0 len)).toNat := by
  set o := min off len with ho
  have hsplit : ∀ d : Buf n, d.slice 0 n = d.slice 0 o ++ d.slice o 4 ++ d.slice (o + 4) (len - o) := by
    intro d
    calc d.slice 0 n = d.slice 0 (o + 4 + (len - o)) := congrArg (d.slice 0) (by omega)
      _ = d.slice 0 o ++ d.slice o 4 ++ d.slice (o + 4) (len - o) := by
          rw [Buf.slice_add, Buf.slice_add, Nat.zero_add, Nat.zero_add]
  have hout : ∀ j, j < o ∨ o + 4 ≤ j → c.byte j = b.byte j := by
    intro j hj
    by_cases hin : j < n
    · exact hsame j (by omega)
    · rw [c.zero_of_le j (by omega), b.zero_of_le j (by omega)]
  have hbefore : c.slice 0 o = b.slice 0 o := Buf.slice_congr fun j _ hj ↦ hout j (by omega)
  have hafter : c.slice (o + 4) (len - o) = b.slice (o + 4) (len - o) :=
    Buf.slice_congr fun j hj _ ↦ hout j (by omega)
  have hburst : b.slice o 4 ≠ c.slice o 4 := by
    intro heq
    apply hne
    apply Buf.slice_inj
    rw [hsplit, hsplit, hbefore, hafter, heq]
  rw [checksum_iff b hlen, hsplit] at hb
  rw [ne_eq, checksum_iff c hlen, hsplit, hbefore, hafter, ← hb]
  apply Ne.symm
  apply Remainder.burst polynomial polynomial_msb _ _ hburst
  · rw [Buf.slice_length, Buf.slice_length]
  · rw [Buf.slice_length]

end Crc

theorem Inode.encode_checksum (i : Inode) : i.encode.getU32 252 = (Crc.crc32 (i.encode.slice 0 252)).toNat := by
  have hbody : i.encode.slice 0 252 = i.encodeBody.slice 0 252 := Buf.slice_put_of_disjoint _ (by omega)
  rw [hbody]
  unfold encode Buf.putU32 Buf.getU32
  rw [Buf.slice_put _ ⟨by simp, by decide⟩, leNat_leBytes_four, Nat.mod_eq_of_lt (UInt32.toNat_lt _)]

theorem Superblock.encode_checksum (sb : Superblock) :
    sb.encode.getU32 (superblockSize - 4) = (Crc.crc32 (sb.encode.slice 0 (superblockSize - 4))).toNat := by
  have hbody : sb.encode.slice 0 (superblockSize - 4) = sb.encodeBody.slice 0 (superblockSize - 4) :=
    Buf.slice_put_of_disjoint _ (by omega)
  rw [hbody]
  unfold encode Buf.putU32 Buf.getU32
  rw [Buf.slice_put _ ⟨by simp, by decide⟩, leNat_leBytes_four, Nat.mod_eq_of_lt (UInt32.toNat_lt _)]

/-- A change of an encoded inode or superblock that stays within four consecutive bytes is an error to the decoder. -/
theorem short_corruption_detected :
    (∀ (i : Inode) (buf : Buf inodeSize) (off ino : ℕ), buf ≠ i.encode →
      (∀ j, j < off ∨ off + 4 ≤ j → buf.byte j = i.encode.byte j) → ∃ e, Inode.decode ino buf = .error e) ∧
    ∀ (sb : Superblock) (buf : Buf superblockSize) (off : ℕ), buf ≠ sb.encode →
      (∀ j, j < off ∨ off + 4 ≤ j → buf.byte j = sb.encode.byte j) → ∃ e, Superblock.decode buf = .error e := by
  constructor
  · intro i buf off ino hne hsame
    have hbad := Crc.checksum_of_burst 252 rfl i.encode_checksum hne hsame
    unfold Inode.decode
    exact ⟨_, if_pos hbad⟩
  · intro sb buf off hne hsame
    have hbad := Crc.checksum_of_burst (superblockSize - 4) rfl sb.encode_checksum hne hsame
    unfold Superblock.decode
    exact ⟨_, if_pos hbad⟩

/-- Two bytes of the reserved area and two of the checksum are overwritten. -/
theorem short_corruption_detected_sample :
    ∃ e, Inode.decode 1 (((Inode.new ⟨0, 0⟩ 1 0o40755 0 0).encode).put 250 [1, 2, 3, 4]) = .error e := by
  set i := Inode.new ⟨0, 0⟩ 1 0o40755 0 0 with hi
  have hne : i.encode.put 250 [1, 2, 3, 4] ≠ i.encode := by
    intro heq
    have hbyte := congrArg (fun b ↦ b.byte 250) heq
    rw [hi] at hbyte
    exact absurd hbyte (by decide)
  apply short_corruption_detected.1 i _ 250 1 hne
  intro j hj
  exact Buf.put_byte_of_notMem (by simpa using hj)

end LinuxFile
