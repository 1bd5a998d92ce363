import LinuxFile.Theorems.OpenFiles

/-!
# File offsets

A seek adds in 128 bits, so the sum itself is exact; what goes wrong happens in the casts before and after
it. Every open file has an offset of its own, duplicates included.
-/

namespace LinuxFile

namespace Context

/-- The offset of a descriptor. -/
def position (c : Context) (fd : ℤ) : Option ℕ := (c.lookupFd fd).map (·.file.pos)

theorem lookupFd_setFd (c : Context) (fd : ℤ) (entry : Fd) (fd' : ℤ) :
    (c.setFd fd entry).lookupFd fd' = if fd' = fd then some entry else c.lookupFd fd' := by
  unfold lookupFd setFd
  dsimp only
  by_cases heq : fd' = fd
  · rw [if_pos heq, List.find?_cons, heq, beq_self_eq_true]
    rfl
  · rw [if_neg heq, List.find?_cons, beq_false_of_ne (Ne.symm heq), List.find?_filter]
    dsimp only
    congr 2
    funext e
    by_cases he : e.1 = fd'
    · rw [he, beq_self_eq_true, bne_iff_ne.mpr heq]
      rfl
    · rw [beq_false_of_ne he, decide_eq_false (by simp)]

/-! ## Seeks -/

/-- What the offset counts from. -/
def seekBase (whence : ℤ) (pos size : ℕ) : ℤ :=
  if whence = seekSet then 0 else if whence = seekCur then pos else size

/-- The seek answers with the exact sum and moves there if the sum is a number `lseek` can answer with; otherwise it
is an error and moves nowhere. -/
structure SeeksTo (c : Context) (fd : ℤ) (off : Int64) (whence exact : ℤ) : Prop where
  moves : 0 ≤ exact → exact < 2 ^ 63 → ∃ r c', lseek fd off whence c = .ok r c' ∧ r.toInt = exact ∧
    ∃ pos : ℕ, c'.position fd = some pos ∧ (pos : ℤ) = exact
  refuses : exact < 0 ∨ 2 ^ 63 ≤ exact → ∃ e c', lseek fd off whence c = .err e c' ∧
    c'.position fd = c.position fd

section Seek

variable {c : Context} {fd : ℤ} {entry : Fd} {inode : Inode} {s : Inner} {off : Int64} {whence : ℤ}

theorem lseek_eq (hfd : c.lookupFd fd = some entry) (hinode : Inner.getInode entry.file.ino c.fs = .ok inode s)
    {target : SeekFrom} (htarget : SeekFrom.ofWhence off whence = some target) :
    lseek fd off whence c =
      if target.sum entry.file.pos inode.size < 0 then
        .err (Error.einval "negative seek").viaIo { c with fs := s }
      else
        let pos := (target.sum entry.file.pos inode.size).toNat % 2 ^ 64
        .ok (UInt64.ofNat pos).toInt64
          ({ c with fs := s }.setFd fd { entry with file := { entry.file with pos := pos } }) := by
  have hget : getFd fd c = .ok entry c := by
    unfold getFd
    rw [Exec.bind_apply, Exec.get_apply]
    dsimp only
    rw [hfd]
    rfl
  have hwhence : (Exec.ofOption (Error.einval "bad whence") (SeekFrom.ofWhence off whence) : Ctx SeekFrom) c =
      .ok target c := by
    rw [htarget]
    rfl
  have hseek : onFs ((entry.file.seek target).mapError Error.viaIo) c =
      if target.sum entry.file.pos inode.size < 0 then .err (Error.einval "negative seek").viaIo { c with fs := s }
      else .ok ((target.sum entry.file.pos inode.size).toNat % 2 ^ 64) { c with fs := s } := by
    unfold onFs Exec.zoom Exec.mapError File.seek
    rw [Exec.bind_eq_of_ok hinode]
    dsimp only
    split_ifs <;> rfl
  unfold lseek
  rw [Exec.bind_eq_of_ok hget, Exec.bind_eq_of_ok hwhence, Exec.bind_apply, hseek]
  split_ifs <;> rfl

/-- What the code does with a whence it knows. -/
theorem ofWhence_sum (off : Int64) (hwhence : whence = seekSet ∨ whence = seekCur ∨ whence = seekEnd) :
    ∃ target, SeekFrom.ofWhence off whence = some target ∧ ∀ pos size : ℕ,
      target.sum pos size =
        if whence = seekSet ∧ off.toInt < 0 then seekBase whence pos size + off.toInt + 2 ^ 64
        else seekBase whence pos size + off.toInt := by
  have hcur : seekCur ≠ seekSet := by decide
  have hend : seekEnd ≠ seekSet ∧ seekEnd ≠ seekCur := by decide
  unfold SeekFrom.ofWhence seekBase
  rcases hwhence with rfl | rfl | rfl
  · refine ⟨.start off.toUInt64, if_pos rfl, fun pos size ↦ ?_⟩
    have hcast : (off.toUInt64.toNat : ℤ) = if off.toInt < 0 then off.toInt + 2 ^ 64 else off.toInt := by
      have hword : off.toInt = if 2 * off.toUInt64.toNat < 2 ^ 64 then (off.toUInt64.toNat : ℤ)
          else (off.toUInt64.toNat : ℤ) - (2 ^ 64 : ℕ) := BitVec.toInt_eq_toNat_cond off.toBitVec
      have hlt := off.toUInt64.toNat_lt
      split_ifs at hword with hsmall
      · rw [if_neg (by omega), hword]
      · rw [if_pos (by omega), hword]
        omega
    calc (SeekFrom.start off.toUInt64).sum pos size = (off.toUInt64.toNat : ℤ) := rfl
      _ = if off.toInt < 0 then off.toInt + 2 ^ 64 else off.toInt := hcast
      _ = _ := by simp only [true_and, if_true, zero_add]
  · refine ⟨.current off, by rw [if_neg hcur, if_pos rfl], fun pos size ↦ ?_⟩
    rw [if_neg (fun h ↦ hcur h.1), if_neg hcur, if_pos rfl]
    rfl
  · refine ⟨.fromEnd off, by rw [if_neg hend.1, if_neg hend.2, if_pos rfl], fun pos size ↦ ?_⟩
    rw [if_neg (fun h ↦ hend.1 h.1), if_neg hend.1, if_neg hend.2]
    rfl

theorem toInt_of_lt {n : ℕ} (h : n < 2 ^ 63) : (UInt64.ofNat n).toInt64.toInt = n := by
  have hword : (UInt64.ofNat n).toInt64.toInt = (BitVec.ofNat 64 n).toInt := rfl
  rw [hword, BitVec.toInt_eq_toNat_cond, BitVec.toNat_ofNat, Nat.mod_eq_of_lt (by omega), if_pos (by omega)]

/-- A seek does what it should exactly if the sum is below `2 ^ 63` and, from the start, the offset is not negative. -/
theorem lseek_exact_iff (hfd : c.lookupFd fd = some entry)
    (hinode : Inner.getInode entry.file.ino c.fs = .ok inode s)
    (hwhence : whence = seekSet ∨ whence = seekCur ∨ whence = seekEnd) :
    SeeksTo c fd off whence (seekBase whence entry.file.pos inode.size + off.toInt) ↔
      seekBase whence entry.file.pos inode.size + off.toInt < 2 ^ 63 ∧ (whence = seekSet → 0 ≤ off.toInt) := by
  obtain ⟨target, htarget, hsum⟩ := ofWhence_sum off hwhence
  have hlseek := lseek_eq hfd hinode htarget
  rw [hsum] at hlseek
  set exact := seekBase whence entry.file.pos inode.size + off.toInt with hexact
  by_cases hcast : whence = seekSet ∧ off.toInt < 0
  · -- the cast has made the offset a large positive one
    have hbase : exact = off.toInt := by
      rw [hexact, seekBase, if_pos hcast.1, zero_add]
    have hrange := off.le_toInt
    rw [if_pos hcast, if_neg (by omega)] at hlseek
    constructor
    · intro h
      obtain ⟨e, c', herr, -⟩ := h.refuses (Or.inl (by omega))
      rw [hlseek] at herr
      cases herr
    · intro h
      have := h.2 hcast.1
      omega
  · rw [if_neg hcast] at hlseek
    by_cases hneg : exact < 0
    · rw [if_pos hneg] at hlseek
      refine ⟨fun _ ↦ ⟨by omega, fun hset ↦ not_lt.mp fun hlt ↦ hcast ⟨hset, hlt⟩⟩, fun _ ↦ ⟨fun h ↦ ?_, fun _ ↦ ?_⟩⟩
      · omega
      · exact ⟨_, _, hlseek, rfl⟩
    · rw [if_neg hneg] at hlseek
      have hmoved : ∀ (c : Context) (entry : Fd), (c.setFd fd entry).position fd = some entry.file.pos := by
        intro c entry
        unfold position
        rw [lookupFd_setFd, if_pos rfl]
        rfl
      constructor
      · intro h
        refine ⟨not_le.mp fun hbig ↦ ?_, fun hset ↦ not_lt.mp fun hlt ↦ hcast ⟨hset, hlt⟩⟩
        obtain ⟨e, c', herr, -⟩ := h.refuses (Or.inr hbig)
        rw [hlseek] at herr
        cases herr
      · intro h
        have hnat : (exact.toNat : ℤ) = exact := Int.toNat_of_nonneg (by omega)
        have hmod : exact.toNat % 2 ^ 64 = exact.toNat := Nat.mod_eq_of_lt (by omega)
        refine ⟨fun _ _ ↦ ⟨_, _, hlseek, ?_, exact.toNat, ?_, hnat⟩, fun hout ↦ by omega⟩
        · rw [hmod, toInt_of_lt (by omega), hnat]
        · rw [hmoved, hmod]

end Seek

/-- The root directory of a new filesystem, opened for reading. -/
def sampleOpen : Outcome Error Context ℤ :=
  match sampleImage with
  | .ok _ s => openat 1 atFdcwd [slash] oRdonly 0 (Context.new s Creds.root)
  | .err e s => .err e (Context.new s Creds.root)
  | .panic => .panic

theorem sampleOpen_root : ∃ c inode s, sampleOpen = .ok 3 c ∧
    c.lookupFd 3 = some ⟨⟨rootIno, oRdonly, 0⟩, oRdonly, some rootIno⟩ ∧
    Inner.getInode rootIno c.fs = .ok inode s := by
  have hopen : sampleOpen.okAnd (fun fd c ↦ fd == 3 &&
      decide (c.lookupFd 3 = some ⟨⟨rootIno, oRdonly, 0⟩, oRdonly, some rootIno⟩) &&
      (Inner.getInode rootIno c.fs).okAnd fun _ _ ↦ true) = true := by
    decide +kernel
  obtain ⟨fd, c, hrun, htest⟩ := Outcome.exists_of_okAnd hopen
  rw [Bool.and_eq_true, Bool.and_eq_true, beq_iff_eq, decide_eq_true_eq] at htest
  obtain ⟨inode, s, hinode, -⟩ := Outcome.exists_of_okAnd htest.2
  rw [htest.1.1] at hrun
  exact ⟨c, inode, s, hrun, htest.1.2, hinode⟩

theorem lseek_exact_sample : ∃ c size, sampleOpen = .ok 3 c ∧
    SeeksTo c 3 5 seekSet (seekBase seekSet 0 size + Int64.toInt 5) := by
  obtain ⟨c, inode, s, hopen, hfd, hinode⟩ := sampleOpen_root
  have hsum : seekBase seekSet 0 inode.size + Int64.toInt 5 < 2 ^ 63 := by
    rw [seekBase, if_pos rfl]
    decide
  exact ⟨c, inode.size, hopen, (lseek_exact_iff hfd hinode (Or.inl rfl)).mpr ⟨hsum, fun _ ↦ by decide⟩⟩

/-- A negative offset from the start is taken for a position beyond `2 ^ 63`. -/
theorem lseek_below_zero : ∃ c size, sampleOpen = .ok 3 c ∧
    ¬SeeksTo c 3 (-1) seekSet (seekBase seekSet 0 size + Int64.toInt (-1)) := by
  obtain ⟨c, inode, s, hopen, hfd, hinode⟩ := sampleOpen_root
  refine ⟨c, inode.size, hopen, fun h ↦ ?_⟩
  have htarget : SeekFrom.ofWhence (-1) seekSet = some (.start (Int64.toUInt64 (-1))) := if_pos rfl
  have hlseek := lseek_eq hfd hinode htarget
  have hsum : seekBase seekSet 0 inode.size + Int64.toInt (-1) < 0 := by
    rw [seekBase, if_pos rfl]
    decide
  obtain ⟨e, c', herr, -⟩ := h.refuses (Or.inl hsum)
  rw [SeekFrom.sum, if_neg (Int.not_lt.mpr (Int.natCast_nonneg _)), herr] at hlseek
  cases hlseek

end Context

end LinuxFile
