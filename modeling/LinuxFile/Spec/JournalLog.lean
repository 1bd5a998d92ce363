import LinuxFile.Journal

/-!
# The journal as a log of transactions

`Transaction.encode` is the byte string `commit` writes for a sequence number and a list of operations. Parsing it
back gives the operations and whatever follows it, and the parser accepts nothing else: a byte string that starts
with an accepted transaction is that transaction's encoding with something behind it.
-/

namespace LinuxFile

namespace Journal

/-- A record, its fields in the range of the numbers they are stored as. -/
def Op.Fits : Op → Prop
  | .inode ino data => ino < 2 ^ 64 ∧ data.length < 2 ^ 32
  | .block b data => b < 2 ^ 64 ∧ data.length < 2 ^ 32

def Op.encode : Op → Bytes
  | .inode ino data => Transaction.record opInode ino data
  | .block b data => Transaction.record opBlock b data

def encodeOps (ops : List Op) : Bytes := ops.flatMap Op.encode

/-- The begin record. -/
def encodeBegin (seq : ℕ) : Bytes := journalMagic ++ leBytes 4 opBegin ++ leBytes 8 seq

/-- The commit record up to its checksum. -/
def encodeEnd (seq : ℕ) : Bytes := leBytes 4 opCommit ++ leBytes 8 seq

def checksum (seen : Bytes) : Bytes := leBytes 4 (Crc.crc32 seen).toNat

/-- Everything the checksum covers. -/
def encodeBody (seq : ℕ) (ops : List Op) : Bytes := encodeBegin seq ++ encodeOps ops ++ encodeEnd seq

/-- The bytes of a committed transaction. -/
def encodeTx (seq : ℕ) (ops : List Op) : Bytes := encodeBody seq ops ++ checksum (encodeBody seq ops)

theorem encodeBegin_length (seq : ℕ) : (encodeBegin seq).length = 16 := by
  simp [encodeBegin, journalMagic]

theorem encodeEnd_length (seq : ℕ) : (encodeEnd seq).length = 12 := by
  simp [encodeEnd]

theorem checksum_length (seen : Bytes) : (checksum seen).length = 4 := leBytes_length _ _

theorem encodeTx_length (seq : ℕ) (ops : List Op) : (encodeTx seq ops).length = (encodeOps ops).length + 32 := by
  unfold encodeTx encodeBody
  rw [List.length_append, List.length_append, List.length_append, encodeBegin_length, encodeEnd_length,
    checksum_length]
  omega

theorem record_length (op key : ℕ) (raw : Bytes) : (Transaction.record op key raw).length = 16 + raw.length := by
  simp [Transaction.record]
  omega

/-! ## Reading one record -/

section Record

variable (op key : ℕ) (raw rest : Bytes)

theorem record_append : Transaction.record op key raw ++ rest =
    leBytes 4 op ++ (leBytes 8 key ++ (leBytes 4 raw.length ++ (raw ++ rest))) := by
  unfold Transaction.record
  rw [List.append_assoc, List.append_assoc, List.append_assoc]

theorem take_leBytes (width value : ℕ) (rest : Bytes) : (leBytes width value ++ rest).take width = leBytes width value :=
  List.take_left' (leBytes_length width value)

theorem drop_leBytes (width value : ℕ) (rest : Bytes) : (leBytes width value ++ rest).drop width = rest :=
  List.drop_left' (leBytes_length width value)

theorem record_op : (Transaction.record op key raw ++ rest).take 4 = leBytes 4 op := by
  rw [record_append, take_leBytes]

theorem record_key : ((Transaction.record op key raw ++ rest).drop 4).take 8 = leBytes 8 key := by
  rw [record_append, drop_leBytes, take_leBytes]

theorem record_rest : (Transaction.record op key raw ++ rest).drop 12 = leBytes 4 raw.length ++ (raw ++ rest) := by
  rw [record_append, show 12 = 4 + 8 by rfl, ← List.drop_drop, drop_leBytes, drop_leBytes]

theorem record_count : ((Transaction.record op key raw ++ rest).drop 12).take 4 = leBytes 4 raw.length := by
  rw [record_rest, take_leBytes]

theorem record_body : (Transaction.record op key raw ++ rest).drop 16 = raw ++ rest := by
  rw [show 16 = 12 + 4 by rfl, ← List.drop_drop, record_rest, drop_leBytes]

end Record

/-- Bytes that read as a number start with its encoding. -/
theorem eq_leBytes_append {width value : ℕ} {bytes : Bytes} (hlen : width ≤ bytes.length)
    (h : leNat (bytes.take width) = value) : bytes = leBytes width value ++ bytes.drop width := by
  have htake : bytes.take width = leBytes width value := by
    have hback := leBytes_leNat (bytes.take width)
    rw [List.length_take, min_eq_left hlen, h] at hback
    exact hback.symm
  rw [← htake, List.take_append_drop]

theorem leNat_take_lt (bytes : Bytes) (width : ℕ) : leNat (bytes.take width) < 256 ^ width :=
  (leNat_lt _).trans_le (Nat.pow_le_pow_right (by norm_num) (List.length_take_le _ _))

theorem encodeOps_cons (op : Op) (ops : List Op) : encodeOps (op :: ops) = op.encode ++ encodeOps ops := rfl

theorem Op.encode_length (op : Op) : 16 ≤ op.encode.length := by
  cases op <;> (unfold Op.encode; rw [record_length]; omega)

theorem length_le_encodeOps (ops : List Op) : 16 * ops.length ≤ (encodeOps ops).length := by
  induction ops with
  | nil => exact Nat.le_refl _
  | cons op ops ih =>
    have := op.encode_length
    rw [encodeOps_cons, List.length_append, List.length_cons]
    omega

/-! ## Parsing the operations of a transaction -/

/-- The record an operation is read from. -/
def Op.parts : Op → ℕ × ℕ × Bytes
  | .inode ino data => (opInode, ino, data)
  | .block b data => (opBlock, b, data)

theorem Op.encode_parts (op : Op) : op.encode = Transaction.record op.parts.1 op.parts.2.1 op.parts.2.2 := by
  cases op <;> rfl

theorem parseOps_step (seq fuel : ℕ) (seen rest : Bytes) (acc : List Op) {op : Op} (hfits : op.Fits) :
    parseOps seq (fuel + 1) seen (op.encode ++ rest) acc =
      parseOps seq fuel (seen ++ op.encode) rest (acc ++ [op]) := by
  have hkey : op.parts.2.1 < 2 ^ 64 := by
    cases op <;> exact hfits.1
  have hcount : op.parts.2.2.length < 2 ^ 32 := by
    cases op <;> exact hfits.2
  have hkind : op.parts.1 = opInode ∨ op.parts.1 = opBlock := by
    cases op
    · exact Or.inl rfl
    · exact Or.inr rfl
  have hop : leNat ((op.encode ++ rest).take 4) = op.parts.1 := by
    rw [op.encode_parts, record_op, leNat_leBytes_four]
    rcases hkind with h | h <;> rw [h] <;> rfl
  have hkeyRead : leNat (((op.encode ++ rest).drop 4).take 8) = op.parts.2.1 := by
    rw [op.encode_parts, record_key, leNat_leBytes_eight, Nat.mod_eq_of_lt hkey]
  have hcountRead : leNat (((op.encode ++ rest).drop 12).take 4) = op.parts.2.2.length := by
    rw [op.encode_parts, record_count, leNat_leBytes_four, Nat.mod_eq_of_lt hcount]
  have hlen : op.encode.length = 16 + op.parts.2.2.length := by rw [op.encode_parts, record_length]
  have htotal : (op.encode ++ rest).length = 16 + op.parts.2.2.length + rest.length := by
    rw [List.length_append, hlen]
  have hbody : ((op.encode ++ rest).drop 16).take op.parts.2.2.length = op.parts.2.2 := by
    rw [op.encode_parts, record_body, List.take_left' rfl]
  have htake : (op.encode ++ rest).take (16 + op.parts.2.2.length) = op.encode := List.take_left' hlen
  have hdrop : (op.encode ++ rest).drop (16 + op.parts.2.2.length) = rest := List.drop_left' hlen
  have hrebuilt : (if op.parts.1 = opInode then Op.inode op.parts.2.1 op.parts.2.2
      else Op.block op.parts.2.1 op.parts.2.2) = op := by
    cases op <;> rfl
  conv_lhs => unfold parseOps
  rw [if_neg (by omega)]
  dsimp only
  rw [hop, if_pos hkind, if_neg (by omega), hkeyRead, hcountRead, if_neg (by omega), hbody, htake, hdrop, hrebuilt]

theorem parseOps_end (seq fuel : ℕ) (hseq : seq < 2 ^ 64) (seen rest : Bytes) (acc : List Op) :
    parseOps seq (fuel + 1) seen (encodeEnd seq ++ (checksum (seen ++ encodeEnd seq) ++ rest)) acc = some (acc, rest) := by
  set sum := checksum (seen ++ encodeEnd seq)
  have hlen : (encodeEnd seq ++ (sum ++ rest)).length = 16 + rest.length := by
    rw [List.length_append, List.length_append, encodeEnd_length, checksum_length]
    omega
  have happend : encodeEnd seq ++ (sum ++ rest) = leBytes 4 opCommit ++ (leBytes 8 seq ++ (sum ++ rest)) := by
    unfold encodeEnd
    rw [List.append_assoc]
  have hop : leNat ((encodeEnd seq ++ (sum ++ rest)).take 4) = opCommit := by
    rw [happend, take_leBytes, leNat_leBytes_four]
    rfl
  have hseqRead : leNat (((encodeEnd seq ++ (sum ++ rest)).drop 4).take 8) = seq := by
    rw [happend, drop_leBytes, take_leBytes, leNat_leBytes_eight, Nat.mod_eq_of_lt hseq]
  have htake : (encodeEnd seq ++ (sum ++ rest)).take 12 = encodeEnd seq := List.take_left' (encodeEnd_length seq)
  have hsum : leNat (((encodeEnd seq ++ (sum ++ rest)).drop 12).take 4) = (Crc.crc32 (seen ++ encodeEnd seq)).toNat := by
    rw [List.drop_left' (encodeEnd_length seq), List.take_left' (checksum_length _)]
    change leNat (leBytes 4 _) = _
    rw [leNat_leBytes_four, Nat.mod_eq_of_lt (Crc.crc32 (seen ++ encodeEnd seq)).toNat_lt]
  have hrest : (encodeEnd seq ++ (sum ++ rest)).drop 16 = rest := by
    rw [← List.append_assoc]
    apply List.drop_left'
    rw [List.length_append, encodeEnd_length, checksum_length]
  unfold parseOps
  rw [if_neg (by omega)]
  dsimp only
  rw [hop, if_neg (by decide), if_pos rfl, if_neg (by omega), hseqRead, if_neg (by simp), htake, hsum, if_neg (by simp),
    hrest]

/-- The parser reads back what was encoded. -/
theorem parseOps_encode {seq : ℕ} (hseq : seq < 2 ^ 64) (rest : Bytes) : ∀ (ops : List Op) (fuel : ℕ) (seen : Bytes)
    (acc : List Op), (∀ op ∈ ops, op.Fits) → ops.length < fuel →
    parseOps seq fuel seen (encodeOps ops ++
      (encodeEnd seq ++ (checksum (seen ++ encodeOps ops ++ encodeEnd seq) ++ rest))) acc = some (acc ++ ops, rest)
  | [], 0, _, _, _, hfuel => absurd hfuel (Nat.lt_irrefl 0)
  | [], fuel + 1, seen, acc, _, _ => by
    have hend := parseOps_end seq fuel hseq seen rest acc
    rw [List.append_nil]
    change parseOps seq (fuel + 1) seen (encodeEnd seq ++ (checksum (seen ++ [] ++ encodeEnd seq) ++ rest)) acc = _
    rw [List.append_nil]
    exact hend
  | op :: ops, 0, _, _, _, hfuel => absurd hfuel (Nat.not_lt_zero _)
  | op :: ops, fuel + 1, seen, acc, hfits, hfuel => by
    have hrest := parseOps_encode hseq rest ops fuel (seen ++ op.encode) (acc ++ [op])
      (fun o ho ↦ hfits o (List.mem_cons_of_mem _ ho)) (by rw [List.length_cons] at hfuel; omega)
    rw [encodeOps_cons, List.append_assoc, parseOps_step _ _ _ _ _ (hfits op List.mem_cons_self),
      ← List.append_assoc seen]
    rw [hrest, List.append_assoc, List.singleton_append]

/-- Bytes in which a record can be read start with that record. -/
theorem eq_record_append {area : Bytes} {op key n : ℕ} (hop : leNat (area.take 4) = op)
    (hkey : leNat ((area.drop 4).take 8) = key) (hcount : leNat ((area.drop 12).take 4) = n)
    (hlen : 16 + n ≤ area.length) :
    area = Transaction.record op key ((area.drop 16).take n) ++ area.drop (16 + n) := by
  have h1 : area = leBytes 4 op ++ area.drop 4 := eq_leBytes_append (by omega) hop
  have h2 : area.drop 4 = leBytes 8 key ++ area.drop 12 := by
    have h := eq_leBytes_append (by rw [List.length_drop]; omega) hkey
    rwa [List.drop_drop] at h
  have h3 : area.drop 12 = leBytes 4 n ++ area.drop 16 := by
    have h := eq_leBytes_append (by rw [List.length_drop]; omega) hcount
    rwa [List.drop_drop] at h
  have h4 : area.drop 16 = (area.drop 16).take n ++ area.drop (16 + n) := by
    rw [← List.drop_drop, List.take_append_drop]
  have hbody : ((area.drop 16).take n).length = n := by
    rw [List.length_take, List.length_drop]
    omega
  calc area = leBytes 4 op ++ (leBytes 8 key ++ (leBytes 4 n ++ ((area.drop 16).take n ++ area.drop (16 + n)))) := by
        rw [← h4, ← h3, ← h2, ← h1]
    _ = Transaction.record op key ((area.drop 16).take n) ++ area.drop (16 + n) := by
        rw [record_append, hbody]

/-- What the parser accepts is an encoding. -/
theorem parseOps_sound {seq : ℕ} : ∀ (fuel : ℕ) (seen area : Bytes) (acc found : List Op) (rest : Bytes),
    parseOps seq fuel seen area acc = some (found, rest) →
    ∃ ops, found = acc ++ ops ∧ (∀ op ∈ ops, op.Fits) ∧ area = encodeOps ops ++
      (encodeEnd seq ++ (checksum (seen ++ encodeOps ops ++ encodeEnd seq) ++ rest))
  | 0, _, _, _, _, _, h => nomatch h
  | fuel + 1, seen, area, acc, found, rest, h => by
    unfold parseOps at h
    dsimp only at h
    generalize hrebuilt : (if leNat (area.take 4) = opInode then
      Op.inode (leNat ((area.drop 4).take 8)) ((area.drop 16).take (leNat ((area.drop 12).take 4)))
      else Op.block (leNat ((area.drop 4).take 8)) ((area.drop 16).take (leNat ((area.drop 12).take 4)))) = op at h
    split_ifs at h with hshort hkind hhead hbody hcommit hend hseq hsum
    · -- one more operation
      obtain ⟨ops, rfl, hfits, harea⟩ := parseOps_sound fuel _ _ _ _ _ h
      set n := leNat ((area.drop 12).take 4) with hn
      set key := leNat ((area.drop 4).take 8) with hkey
      set data := (area.drop 16).take n with hdata
      have hdataLen : data.length = n := by
        rw [hdata, List.length_take, List.length_drop]
        omega
      have hrecord := eq_record_append rfl hkey.symm hn.symm (by omega : 16 + n ≤ area.length)
      rw [← hdata] at hrecord
      have hcount : n < 2 ^ 32 := leNat_take_lt (area.drop 12) 4
      have hkeyLt : key < 2 ^ 64 := leNat_take_lt (area.drop 4) 8
      have hencode : op.encode = Transaction.record (leNat (area.take 4)) key data := by
        rw [← hrebuilt]
        split_ifs with hinode
        · rw [hinode]
          rfl
        · rw [hkind.resolve_left hinode]
          rfl
      have hopFits : op.Fits := by
        rw [← hrebuilt]
        split_ifs <;> exact ⟨hkeyLt, by rw [hdataLen]; exact hcount⟩
      have htake : area.take (16 + n) = op.encode := by
        rw [hencode]
        conv_lhs => rw [hrecord]
        exact List.take_left' (by rw [record_length, hdataLen])
      refine ⟨op :: ops, by rw [List.append_assoc]; rfl, ?_, ?_⟩
      · intro o ho
        rcases List.mem_cons.mp ho with rfl | ho
        · exact hopFits
        · exact hfits o ho
      · rw [encodeOps_cons, List.append_assoc, ← List.append_assoc seen, ← htake, ← harea, List.take_append_drop]
    · -- the commit record
      rw [Option.some.injEq, Prod.mk.injEq] at h
      obtain ⟨rfl, rfl⟩ := h
      rw [not_not] at hseq hsum
      have h1 : area = leBytes 4 opCommit ++ area.drop 4 := eq_leBytes_append (by omega) hcommit
      have h2 : area.drop 4 = leBytes 8 seq ++ area.drop 12 := by
        have h := eq_leBytes_append (by rw [List.length_drop]; omega) hseq
        rwa [List.drop_drop] at h
      have htake : area.take 12 = encodeEnd seq := by
        rw [h1, h2, ← List.append_assoc]
        exact List.take_left' (encodeEnd_length seq)
      have h3 : area.drop 12 = checksum (seen ++ encodeEnd seq) ++ area.drop 16 := by
        rw [htake] at hsum
        have h := eq_leBytes_append (by rw [List.length_drop]; omega) hsum.symm
        rwa [List.drop_drop] at h
      refine ⟨[], (List.append_nil _).symm, List.forall_mem_nil _, ?_⟩
      change area = encodeEnd seq ++ (checksum (seen ++ [] ++ encodeEnd seq) ++ area.drop 16)
      rw [List.append_nil, ← h3, ← htake, List.take_append_drop]

/-! ## The accepted transactions -/

/-- The transactions `parseTxs` accepts, with their sequence numbers. -/
def acceptedTxs (committed : ℕ) : ℕ → Bytes → List (ℕ × List Op)
  | 0, _ => []
  | fuel + 1, rest =>
    if rest.length < 16 then []
    else if rest.take 4 ≠ journalMagic then []
    else if leNat ((rest.drop 4).take 4) ≠ opBegin then []
    else
      let seq := leNat ((rest.drop 8).take 8)
      if seq = 0 ∨ committed < seq then []
      else
        match parseOps seq (rest.length + 1) (rest.take 16) (rest.drop 16) [] with
        | none => []
        | some (ops, rest) => (seq, ops) :: acceptedTxs committed fuel rest

theorem parseTxs_eq (committed : ℕ) : ∀ (fuel : ℕ) (area : Bytes),
    parseTxs committed fuel area = (acceptedTxs committed fuel area).map Prod.snd
  | 0, _ => rfl
  | fuel + 1, area => by
    unfold parseTxs acceptedTxs
    dsimp only
    split_ifs
    · rfl
    · rfl
    · rfl
    · rfl
    · cases parseOps _ _ _ _ _ with
      | none => rfl
      | some found =>
        dsimp only
        rw [parseTxs_eq committed fuel, List.map_cons]

/-- A committed transaction stands at the start of the bytes. -/
def Leads (committed : ℕ) (area : Bytes) (seq : ℕ) (ops : List Op) (rest : Bytes) : Prop :=
  (0 < seq ∧ seq ≤ committed) ∧ (∀ op ∈ ops, op.Fits) ∧ area = encodeTx seq ops ++ rest

theorem encodeTx_append (seq : ℕ) (ops : List Op) (rest : Bytes) : encodeTx seq ops ++ rest =
    encodeBegin seq ++ (encodeOps ops ++
      (encodeEnd seq ++ (checksum (encodeBegin seq ++ encodeOps ops ++ encodeEnd seq) ++ rest))) := by
  unfold encodeTx encodeBody
  simp only [List.append_assoc]

/-- The parser accepts a transaction that stands at the start, and goes on behind it. -/
theorem acceptedTxs_encode {committed seq : ℕ} {ops : List Op} {rest area : Bytes} (hseq : seq < 2 ^ 64)
    (h : Leads committed area seq ops rest) (fuel : ℕ) :
    acceptedTxs committed (fuel + 1) area = (seq, ops) :: acceptedTxs committed fuel rest := by
  obtain ⟨hbounds, hfits, rfl⟩ := h
  have hlen : (encodeTx seq ops ++ rest).length = (encodeOps ops).length + 32 + rest.length := by
    rw [List.length_append, encodeTx_length]
  have hbegin : encodeTx seq ops ++ rest = journalMagic ++ (leBytes 4 opBegin ++ (leBytes 8 seq ++ (encodeOps ops ++
      (encodeEnd seq ++ (checksum (encodeBegin seq ++ encodeOps ops ++ encodeEnd seq) ++ rest))))) := by
    rw [encodeTx_append]
    unfold encodeBegin
    simp only [List.append_assoc]
  have hmagicLen : journalMagic.length = 4 := rfl
  have hmagic : (encodeTx seq ops ++ rest).take 4 = journalMagic := by
    rw [hbegin]
    exact List.take_left' hmagicLen
  have hop : leNat (((encodeTx seq ops ++ rest).drop 4).take 4) = opBegin := by
    rw [hbegin, List.drop_left' hmagicLen, take_leBytes, leNat_leBytes_four]
    rfl
  have hseqRead : leNat (((encodeTx seq ops ++ rest).drop 8).take 8) = seq := by
    have height : (encodeTx seq ops ++ rest).drop 8 = ((encodeTx seq ops ++ rest).drop 4).drop 4 := by
      rw [List.drop_drop]
    rw [height, hbegin, List.drop_left' hmagicLen, drop_leBytes, take_leBytes, leNat_leBytes_eight,
      Nat.mod_eq_of_lt hseq]
  have htake : (encodeTx seq ops ++ rest).take 16 = encodeBegin seq := by
    rw [encodeTx_append]
    exact List.take_left' (encodeBegin_length seq)
  have hdrop : (encodeTx seq ops ++ rest).drop 16 = encodeOps ops ++
      (encodeEnd seq ++ (checksum (encodeBegin seq ++ encodeOps ops ++ encodeEnd seq) ++ rest)) := by
    rw [encodeTx_append]
    exact List.drop_left' (encodeBegin_length seq)
  have hops := length_le_encodeOps ops
  have hparse := parseOps_encode hseq rest ops ((encodeTx seq ops ++ rest).length + 1) (encodeBegin seq) [] hfits
    (by omega)
  conv_lhs => unfold acceptedTxs
  rw [if_neg (by omega), if_neg (by rw [hmagic]; simp), if_neg (by rw [hop]; simp)]
  dsimp only
  rw [hseqRead, if_neg (by omega), htake, hdrop, hparse]
  rfl

/-- What the parser accepts first stands at the start. -/
theorem acceptedTxs_cons {committed fuel seq : ℕ} {ops : List Op} {txs : List (ℕ × List Op)} {area : Bytes}
    (h : acceptedTxs committed fuel area = (seq, ops) :: txs) : ∃ rest fuel', fuel = fuel' + 1 ∧
      Leads committed area seq ops rest ∧ txs = acceptedTxs committed fuel' rest := by
  cases fuel with
  | zero => cases h
  | succ fuel =>
    unfold acceptedTxs at h
    dsimp only at h
    split_ifs at h with hshort hmagic hop hseq
    rw [not_not] at hmagic hop
    cases hparse : parseOps (leNat ((area.drop 8).take 8)) (area.length + 1) (area.take 16) (area.drop 16) [] with
    | none =>
      rw [hparse] at h
      cases h
    | some found =>
      obtain ⟨found, rest⟩ := found
      rw [hparse] at h
      dsimp only at h
      rw [List.cons.injEq, Prod.mk.injEq] at h
      obtain ⟨⟨hseqEq, rfl⟩, htxs⟩ := h
      rw [hseqEq] at hparse hseq
      obtain ⟨ops, hops, hfits, hdrop⟩ := parseOps_sound _ _ _ _ _ _ hparse
      rw [List.nil_append] at hops
      subst hops
      have h1 : area = journalMagic ++ area.drop 4 := by rw [← hmagic, List.take_append_drop]
      have h2 : area.drop 4 = leBytes 4 opBegin ++ area.drop 8 := by
        have h := eq_leBytes_append (by rw [List.length_drop]; omega) hop
        rwa [List.drop_drop] at h
      have h3 : area.drop 8 = leBytes 8 seq ++ area.drop 16 := by
        have h := eq_leBytes_append (by rw [List.length_drop]; omega) hseqEq
        rwa [List.drop_drop] at h
      have htake : area.take 16 = encodeBegin seq := by
        rw [h1, h2, h3, ← List.append_assoc, ← List.append_assoc]
        exact List.take_left' (encodeBegin_length seq)
      refine ⟨rest, fuel, rfl, ⟨by omega, hfits, ?_⟩, htxs.symm⟩
      rw [encodeTx_append, ← htake, ← hdrop, List.take_append_drop]

end Journal

end LinuxFile
