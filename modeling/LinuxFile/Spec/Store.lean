import LinuxFile.Store

/-!
# What the host file operations do

Every operation either fails with an error of the host, which changes nothing but the host's list of
coming answers, or does what its name says. An image in use has a whole number of blocks and a
length the host accepts.
-/

namespace LinuxFile

namespace Image

/-- A whole number of blocks, of a length the host accepts. -/
structure Ok (img : Image) : Prop where
  aligned : img.len % blockSize = 0
  bounded : img.len < maxHostLen

/-- The file is as before, or longer by zeros. -/
structure Grown (img img' : Image) : Prop where
  bytes : img'.bytes = img.bytes
  len_le : img.len ≤ img'.len
  ok : img.Ok → img'.Ok
  host : img'.hostWritable = img.hostWritable

theorem Grown.refl (img : Image) : Grown img img := ⟨rfl, le_rfl, id, rfl⟩

theorem Grown.trans {a b c : Image} (hab : Grown a b) (hbc : Grown b c) : Grown a c :=
  ⟨hbc.bytes.trans hab.bytes, hab.len_le.trans hbc.len_le, hbc.ok ∘ hab.ok, hbc.host.trans hab.host⟩

theorem Grown.block {img img' : Image} (h : Grown img img') (b : ℕ) : img'.block b = img.block b := by
  unfold Image.block
  rw [h.bytes]

theorem Grown.faults (img : Image) (faults : List (Option ErrorKind)) :
    Grown img { img with faults := faults } := ⟨rfl, le_rfl, fun h ↦ ⟨h.aligned, h.bounded⟩, rfl⟩

/-- The postcondition of every failed host operation. -/
def Failed (img : Image) (e : Error) (img' : Image) : Prop := e.IsHost ∧ Grown img img'

theorem hostCall_spec (img : Image) :
    hostCall.Holds img (fun _ img' ↦ ∃ faults, img' = { img with faults := faults }) (Failed img) := by
  unfold Exec.Holds hostCall
  cases hf : img.faults with
  | nil => exact ⟨img.faults, rfl⟩
  | cons answer rest =>
    cases answer with
    | none => exact ⟨rest, rfl⟩
    | some kind => exact ⟨trivial, Grown.faults img rest⟩

theorem block_byte (img : Image) (b : ℕ) {i : ℕ} (hi : i < blockSize) :
    (img.block b).byte i = img.bytes (b * blockSize + i) := Buf.ofFun_byte _ hi

/-- A block past the end of the file reads as zeros. -/
theorem block_eq_zero {img : Image} {b : ℕ} (h : img.len ≤ b * blockSize) :
    img.block b = Buf.zero blockSize := by
  apply Buf.ext_of_lt
  intro i hi
  rw [block_byte img b hi, Buf.zero_byte]
  exact img.zero_of_le _ (by omega)

theorem Ok.mul_le_len {img : Image} (h : img.Ok) {b : ℕ} (hb : ¬ b * blockSize + blockSize ≤ img.len) :
    img.len ≤ b * blockSize := by
  have := h.aligned
  unfold blockSize at *
  omega

theorem setLen_spec (img : Image) (n : ℕ) :
    (setLen n).Holds img
      (fun _ img' ↦ n < maxHostLen ∧ img'.len = n ∧ img'.hostWritable = img.hostWritable ∧
        ∀ i, img'.bytes i = if i < n then img.bytes i else 0)
      (Failed img) := by
  unfold setLen
  rw [Exec.holds_bind, Exec.holds_read]
  split_ifs with h
  · exact ⟨trivial, Grown.refl img⟩
  · refine (hostCall_spec img).bind ?_ (fun _ _ he ↦ he)
    rintro _ _ ⟨faults, rfl⟩
    exact ⟨by omega, rfl, rfl, fun _ ↦ rfl⟩

theorem alignedLen_mod (n : ℕ) : alignedLen n % blockSize = 0 := by
  unfold alignedLen blockSize
  omega

theorem le_alignedLen (n : ℕ) : n ≤ alignedLen n := le_max_right _ _

theorem growTo_spec (img : Image) (n : ℕ) :
    (growTo n).Holds img (fun _ img' ↦ Grown img img' ∧ n ≤ img'.len) (Failed img) := by
  unfold growTo
  rw [Exec.holds_bind, Exec.holds_read]
  split_ifs with h
  · exact ⟨Grown.refl img, h⟩
  · refine (setLen_spec img _).mono ?_ (fun _ _ he ↦ he)
    rintro _ img' ⟨hbound, hlen, hhost, hbytes⟩
    have hle := le_alignedLen n
    refine ⟨⟨?_, by omega, fun _ ↦ ⟨?_, by omega⟩, hhost⟩, by omega⟩
    · funext i
      rw [hbytes i]
      split_ifs with hi
      · rfl
      · exact (img.zero_of_le i (by omega)).symm
    · rw [hlen]
      exact alignedLen_mod n

theorem shrinkTo_spec (img : Image) (n : ℕ) :
    (shrinkTo n).Holds img
      (fun _ img' ↦ img'.len = min img.len n ∧ img'.hostWritable = img.hostWritable ∧
        ∀ i, img'.bytes i = if i < n then img.bytes i else 0)
      (Failed img) := by
  unfold shrinkTo
  rw [Exec.holds_bind, Exec.holds_read]
  split_ifs with h
  · refine ⟨by omega, rfl, fun i ↦ ?_⟩
    split_ifs with hi
    · rfl
    · exact img.zero_of_le i (by omega)
  · refine (setLen_spec img n).mono ?_ (fun _ _ he ↦ he)
    rintro _ img' ⟨-, hlen, hhost, hbytes⟩
    exact ⟨by omega, hhost, hbytes⟩

/-- The file after `data` was written at `off`. -/
structure Wrote (off : ℕ) (data : Bytes) (img img' : Image) : Prop where
  bytes : ∀ i, img'.bytes i = if off ≤ i ∧ i < off + data.length then data.getD (i - off) 0
    else img.bytes i
  len_le : img.len ≤ img'.len
  end_le : off + data.length ≤ img'.len
  ok : img.Ok → img'.Ok
  host : img'.hostWritable = img.hostWritable

theorem writeAllAt_spec (img : Image) (data : Bytes) (off : ℕ) :
    (writeAllAt data off).Holds img (fun _ img' ↦ Wrote off data img img') (Failed img) := by
  unfold writeAllAt
  rw [Exec.holds_bind, Exec.holds_read]
  have grow : (Exec.when (img.len < off + data.length) (growTo (off + data.length))).Holds img
      (fun _ img' ↦ Grown img img' ∧ off + data.length ≤ img'.len) (Failed img) := by
    rw [Exec.holds_when]
    exact ⟨fun _ ↦ growTo_spec img _, fun h ↦ ⟨Grown.refl img, by omega⟩⟩
  refine grow.bind ?_ (fun _ _ he ↦ he)
  rintro _ img₁ ⟨hgrown, hend⟩
  rw [Exec.holds_bind, Exec.holds_read]
  split_ifs with hw
  · exact ⟨trivial, hgrown⟩
  · refine (hostCall_spec img₁).bind ?_ (fun e t he ↦ ⟨he.1, hgrown.trans he.2⟩)
    rintro _ _ ⟨faults, rfl⟩
    refine ⟨fun i ↦ ?_, hgrown.len_le, hend, fun h ↦ ⟨(hgrown.ok h).aligned, (hgrown.ok h).bounded⟩,
      hgrown.host⟩
    change (if i < img₁.len ∧ off ≤ i ∧ i < off + data.length then data.getD (i - off) 0
      else img₁.bytes i) = _
    rw [hgrown.bytes]
    by_cases hi : off ≤ i ∧ i < off + data.length
    · rw [if_pos ⟨by omega, hi⟩, if_pos hi]
    · rw [if_neg (by tauto), if_neg hi]

/-- A write leaves the blocks outside it alone. -/
theorem hostCall_len (img : Image) :
    hostCall.Holds img (fun _ img' ↦ img'.len = img.len) (fun _ img' ↦ img'.len = img.len) := by
  unfold Exec.Holds hostCall
  rcases img.faults with _ | ⟨_ | kind, rest⟩ <;> rfl

/-- A write that ends inside the file leaves the length alone. -/
theorem writeAllAt_within {img : Image} {data : Bytes} {off : ℕ} (h : off + data.length ≤ img.len) :
    (writeAllAt data off).Holds img (fun _ img' ↦ img'.len = img.len) (fun _ img' ↦ img'.len = img.len) := by
  unfold writeAllAt
  rw [Exec.holds_bind, Exec.holds_read]
  have hnone : Exec.when (img.len < off + data.length) (growTo (off + data.length)) = Exec.pure () := if_neg (by omega)
  rw [hnone, Exec.holds_bind, Exec.holds_exec_pure, Exec.holds_bind, Exec.holds_read]
  split_ifs
  · exact rfl
  · exact (hostCall_len img).bind (fun _ _ hlen ↦ hlen) (fun _ _ hlen ↦ hlen)

theorem Wrote.block_of_disjoint {off : ℕ} {data : Bytes} {img img' : Image}
    (h : Wrote off data img img') {b : ℕ}
    (hb : b * blockSize + blockSize ≤ off ∨ off + data.length ≤ b * blockSize) :
    img'.block b = img.block b := by
  apply Buf.ext_of_lt
  intro i hi
  rw [block_byte img' b hi, block_byte img b hi, h.bytes, if_neg (by omega)]

theorem writeBlock_spec (img : Image) (b : ℕ) (data : Block) :
    (writeBlock b data).Holds img
      (fun _ img' ↦ Wrote (b * blockSize) (data.slice 0 blockSize) img img' ∧ img'.block b = data ∧
        ∀ c, c ≠ b → img'.block c = img.block c)
      (Failed img) := by
  refine (writeAllAt_spec img _ _).mono ?_ (fun _ _ he ↦ he)
  intro _ img' h
  refine ⟨h, ?_, fun c hc ↦ h.block_of_disjoint ?_⟩
  · apply Buf.ext_of_lt
    intro i hi
    rw [block_byte img' b hi, h.bytes, if_pos (by rw [Buf.slice_length]; omega)]
    rw [Nat.add_sub_cancel_left, Buf.slice_getD _ hi, Nat.zero_add]
  · rw [Buf.slice_length]
    unfold blockSize
    rcases Nat.lt_or_gt_of_ne hc with h | h <;> omega

theorem readBlock_spec (img : Image) (b : ℕ) (h : b * blockSize + blockSize ≤ img.len) :
    (readBlock b).Holds img (fun data img' ↦ data = img.block b ∧ Grown img img') (Failed img) := by
  unfold readBlock
  rw [Exec.holds_bind, Exec.holds_read, if_neg (by omega)]
  refine (hostCall_spec img).bind ?_ (fun _ _ he ↦ he)
  rintro _ _ ⟨faults, rfl⟩
  exact ⟨rfl, Grown.faults img faults⟩

/-! ## A host that answers -/

/-- A host with no refusals to come answers. -/
theorem hostCall_answers {img : Image} (h : img.faults = []) : hostCall img = .ok () img := by
  unfold hostCall
  rw [h]

theorem writeAllAt_answers {img : Image} {data : Bytes} {off : ℕ} (hfaults : img.faults = [])
    (hwritable : img.hostWritable = true) (h : off + data.length ≤ img.len) :
    writeAllAt data off img = .ok () (img.writeBytes off data) := by
  unfold writeAllAt
  rw [Exec.bind_apply, Exec.read_apply]
  have hnone : Exec.when (img.len < off + data.length) (growTo (off + data.length)) = pure () := if_neg (by omega)
  dsimp only
  rw [hnone, pure_bind, Exec.bind_apply, Exec.read_apply]
  dsimp only
  rw [if_neg (by simp [hwritable]), Exec.bind_eq_of_ok (hostCall_answers hfaults)]
  rfl

theorem readBlock_answers {img : Image} {b : ℕ} (hfaults : img.faults = [])
    (hin : b * blockSize + blockSize ≤ img.len) : readBlock b img = .ok (img.block b) img := by
  unfold readBlock
  rw [Exec.bind_eq_of_ok (Exec.read_apply _ _), if_neg (by omega), Exec.bind_eq_of_ok (hostCall_answers hfaults)]
  rfl

theorem setLen_answers {img : Image} {n : ℕ} (hfaults : img.faults = []) (hwritable : img.hostWritable = true)
    (hlen : n < maxHostLen) :
    ∃ img', setLen n img = .ok () img' ∧ img'.faults = [] ∧ img'.hostWritable = true := by
  have hallowed : ¬(maxHostLen ≤ n ∨ img.hostWritable = false) := by
    rw [not_or, not_le, hwritable]
    exact ⟨hlen, by decide⟩
  refine ⟨img.setLenBytes n, ?_, hfaults, hwritable⟩
  unfold setLen
  rw [Exec.bind_eq_of_ok (Exec.read_apply _ _), if_neg hallowed, Exec.bind_eq_of_ok (hostCall_answers hfaults)]
  rfl

theorem growTo_answers {img : Image} {newLen : ℕ} (hfaults : img.faults = []) (hwritable : img.hostWritable = true)
    (hlen : alignedLen newLen < maxHostLen) :
    ∃ img', growTo newLen img = .ok () img' ∧ img'.faults = [] ∧ img'.hostWritable = true := by
  unfold growTo
  rw [Exec.bind_eq_of_ok (Exec.read_apply _ _)]
  split_ifs
  · exact ⟨img, rfl, hfaults, hwritable⟩
  · exact setLen_answers hfaults hwritable hlen

theorem shrinkTo_answers {img : Image} (newLen : ℕ) (hfaults : img.faults = []) (hwritable : img.hostWritable = true)
    (hlen : img.len ≤ maxHostLen) :
    ∃ img', shrinkTo newLen img = .ok () img' ∧ img'.faults = [] ∧ img'.hostWritable = true := by
  unfold shrinkTo
  rw [Exec.bind_eq_of_ok (Exec.read_apply _ _)]
  split_ifs with hle
  · exact ⟨img, rfl, hfaults, hwritable⟩
  · exact setLen_answers hfaults hwritable (by omega)

end Image

end LinuxFile
