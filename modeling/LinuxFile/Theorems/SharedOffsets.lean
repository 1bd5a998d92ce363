import LinuxFile.Theorems.FileOffsets

/-!
# Descriptors that should share an offset

Beside the table of descriptors stands what it should be: a number for each descriptor, the same for two of
them exactly if one was made from the other by `dup` or `dup2`. Descriptors of one number should agree on
their offset. As each has an offset of its own, they do only while a copy is made at offset zero and no
call moves one of several copies.
-/

namespace LinuxFile

/-! ## Tables of offsets -/

/-- Offsets of the open descriptors, and the description each of them belongs to. -/
structure OffsetTable where
  offset : ℤ → Option ℕ
  desc : ℤ → ℕ
  fresh : ℕ

namespace OffsetTable

/-- Descriptors of one description have one offset. -/
def Agrees (t : OffsetTable) : Prop :=
  ∀ a b, t.offset a ≠ none → t.offset b ≠ none → t.desc a = t.desc b → t.offset a = t.offset b

/-- No open descriptor has a number that has not been given out. -/
def Bounded (t : OffsetTable) : Prop := ∀ a, t.offset a ≠ none → t.desc a < t.fresh

/-- No other open descriptor belongs to the description of `a`. -/
def Alone (t : OffsetTable) (a : ℤ) : Prop := ∀ b, t.offset b ≠ none → t.desc b = t.desc a → b = a

/-- A descriptor of a new description. -/
def opened (t : OffsetTable) (n : ℤ) : OffsetTable :=
  ⟨Function.update t.offset n (some 0), Function.update t.desc n t.fresh, t.fresh + 1⟩

/-- A descriptor of the description of `a`. -/
def copied (t : OffsetTable) (a n : ℤ) (pos : ℕ) : OffsetTable :=
  ⟨Function.update t.offset n (some pos), Function.update t.desc n (t.desc a), t.fresh⟩

def closed (t : OffsetTable) (a : ℤ) : OffsetTable := { t with offset := Function.update t.offset a none }

def moved (t : OffsetTable) (a : ℤ) (pos : ℕ) : OffsetTable :=
  { t with offset := Function.update t.offset a (some pos) }

/-- The table is sound. -/
structure Sound (t : OffsetTable) : Prop where
  agrees : t.Agrees
  bounded : t.Bounded

variable {t : OffsetTable}

theorem Sound.opened (h : t.Sound) (n : ℤ) : (t.opened n).Sound where
  agrees := by
    intro a b ha hb hdesc
    unfold OffsetTable.opened at ha hb hdesc ⊢
    dsimp only at ha hb hdesc ⊢
    by_cases han : a = n <;> by_cases hbn : b = n
    · rw [han, hbn]
    · rw [han, Function.update_self, Function.update_of_ne hbn] at hdesc
      rw [Function.update_of_ne hbn] at hb
      exact absurd hdesc (h.bounded b hb).ne'
    · rw [hbn, Function.update_self, Function.update_of_ne han] at hdesc
      rw [Function.update_of_ne han] at ha
      exact absurd hdesc (h.bounded a ha).ne
    · rw [Function.update_of_ne han] at ha hdesc ⊢
      rw [Function.update_of_ne hbn] at hb hdesc ⊢
      exact h.agrees a b ha hb hdesc
  bounded := by
    intro a ha
    unfold OffsetTable.opened at ha ⊢
    dsimp only at ha ⊢
    by_cases han : a = n
    · rw [han, Function.update_self]
      exact Nat.lt_succ_self _
    · rw [Function.update_of_ne han] at ha ⊢
      exact Nat.lt_succ_of_lt (h.bounded a ha)

theorem Sound.copied (h : t.Sound) {a : ℤ} {pos : ℕ} (ha : t.offset a = some pos) (n : ℤ) :
    (t.copied a n pos).Sound where
  agrees := by
    have hopen : t.offset a ≠ none := by
      rw [ha]
      exact Option.some_ne_none pos
    intro b c hb hc hdesc
    unfold OffsetTable.copied at hb hc hdesc ⊢
    dsimp only at hb hc hdesc ⊢
    by_cases hbn : b = n <;> by_cases hcn : c = n
    · rw [hbn, hcn]
    · rw [hbn, Function.update_self, Function.update_of_ne hcn] at hdesc
      rw [Function.update_of_ne hcn] at hc
      rw [hbn, Function.update_self, Function.update_of_ne hcn, ← ha]
      exact h.agrees a c hopen hc hdesc
    · rw [hcn, Function.update_self, Function.update_of_ne hbn] at hdesc
      rw [Function.update_of_ne hbn] at hb
      rw [hcn, Function.update_self, Function.update_of_ne hbn, ← ha]
      exact h.agrees b a hb hopen hdesc
    · rw [Function.update_of_ne hbn] at hb hdesc ⊢
      rw [Function.update_of_ne hcn] at hc hdesc ⊢
      exact h.agrees b c hb hc hdesc
  bounded := by
    have hopen : t.offset a ≠ none := by
      rw [ha]
      exact Option.some_ne_none pos
    intro b hb
    unfold OffsetTable.copied at hb ⊢
    dsimp only at hb ⊢
    by_cases hbn : b = n
    · rw [hbn, Function.update_self]
      exact h.bounded a hopen
    · rw [Function.update_of_ne hbn] at hb ⊢
      exact h.bounded b hb

theorem Sound.closed (h : t.Sound) (a : ℤ) : (t.closed a).Sound := by
  have hopen : ∀ {b : ℤ}, (t.closed a).offset b ≠ none → b ≠ a ∧ t.offset b ≠ none := by
    intro b hb
    unfold OffsetTable.closed at hb
    dsimp only at hb
    by_cases hba : b = a
    · rw [hba, Function.update_self] at hb
      exact absurd rfl hb
    · rw [Function.update_of_ne hba] at hb
      exact ⟨hba, hb⟩
  refine ⟨fun b c hb hc hdesc ↦ ?_, fun b hb ↦ h.bounded b (hopen hb).2⟩
  have hsame := h.agrees b c (hopen hb).2 (hopen hc).2 hdesc
  unfold OffsetTable.closed
  dsimp only
  rw [Function.update_of_ne (hopen hb).1, Function.update_of_ne (hopen hc).1]
  exact hsame

theorem Sound.moved (h : t.Sound) {a : ℤ} (ha : t.offset a ≠ none) (halone : t.Alone a) (pos : ℕ) :
    (t.moved a pos).Sound := by
  have hopen : ∀ {b : ℤ}, (t.moved a pos).offset b ≠ none → t.offset b ≠ none := by
    intro b hb
    unfold OffsetTable.moved at hb
    dsimp only at hb
    by_cases hba : b = a
    · rw [hba]
      exact ha
    · rw [Function.update_of_ne hba] at hb
      exact hb
  refine ⟨fun b c hb hc hdesc ↦ ?_, fun b hb ↦ h.bounded b (hopen hb)⟩
  have hdesc' : t.desc b = t.desc c := hdesc
  by_cases hba : b = a
  · have hca := halone c (hopen hc) (by rw [← hdesc', hba])
    rw [hba, hca]
  · have hca : c ≠ a := fun hca ↦ hba (halone b (hopen hb) (by rw [hdesc', hca]))
    have hsame := h.agrees b c (hopen hb) (hopen hc) hdesc'
    unfold OffsetTable.moved
    dsimp only
    rw [Function.update_of_ne hba, Function.update_of_ne hca]
    exact hsame

end OffsetTable

/-! ## What the calls do to the offsets -/

namespace Context

variable {c : Context} {fd : ℤ}

theorem position_setFd (c : Context) (fd : ℤ) (entry : Fd) :
    (c.setFd fd entry).position = Function.update c.position fd (some entry.file.pos) := by
  funext fd'
  unfold position
  rw [lookupFd_setFd]
  by_cases heq : fd' = fd
  · rw [heq, if_pos rfl, Function.update_self]
    rfl
  · rw [if_neg heq, Function.update_of_ne heq]

theorem position_of_lookup {entry : Fd} (h : c.lookupFd fd = some entry) : c.position fd = some entry.file.pos := by
  unfold position
  rw [h]
  rfl

theorem getFd_holds (c : Context) (fd : ℤ) :
    (getFd fd).Holds c (fun entry t ↦ t = c ∧ c.lookupFd fd = some entry) (fun _ t ↦ t = c) := by
  unfold getFd
  rw [Exec.holds_bind, Exec.holds_get, Exec.holds_ofOption]
  exact ⟨fun entry hentry ↦ ⟨rfl, hentry⟩, fun _ ↦ rfl⟩

/-- A call of the filesystem leaves the descriptors alone. -/
theorem onFs_holds {α : Type} (x : Fs α) (c : Context) :
    (onFs x).Holds c (fun a t ↦ ∃ s, x c.fs = .ok a s ∧ t = { c with fs := s })
      (fun e t ↦ ∃ s, x c.fs = .err e s ∧ t = { c with fs := s }) := by
  unfold onFs
  rw [Exec.holds_zoom]
  exact Exec.holds_of_forall (fun a s h ↦ ⟨s, h, rfl⟩) (fun e s h ↦ ⟨s, h, rfl⟩)

theorem allocFd_position (entry : Fd) (c : Context) :
    (allocFd entry).Holds c
      (fun n t ↦ c.position n = none ∧ t.position = Function.update c.position n (some entry.file.pos))
      (fun _ t ↦ t.position = c.position) := by
  unfold allocFd
  rw [Exec.holds_bind, Exec.holds_get]
  dsimp only
  split_ifs
  · trivial
  · rw [Exec.holds_bind, Exec.holds_modify, Exec.holds_pure]
    refine ⟨?_, position_setFd c _ entry⟩
    unfold position
    rw [lookupFd_freeFd]
    rfl

theorem openat_position (depth : ℕ) (dirfd : ℤ) (path : UnixPath) (flags : UInt32) (mode : UInt16) (c : Context) :
    (openat depth dirfd path flags mode).Holds c
      (fun n t ↦ c.position n = none ∧ t.position = Function.update c.position n (some 0))
      (fun _ t ↦ t.position = c.position) := by
  have hfs : ∀ {α : Type} (x : Fs α) (u : Context), u.position = c.position →
      (onFs x).Holds u (fun _ t ↦ t.position = c.position) (fun _ t ↦ t.position = c.position) := by
    intro α x u hu
    apply (onFs_holds x u).mono
    · rintro _ _ ⟨s, -, rfl⟩
      exact hu
    · rintro _ _ ⟨s, -, rfl⟩
      exact hu
  unfold openat
  rw [Exec.holds_bind, Exec.holds_get]
  apply (hfs _ c rfl).bind _ (fun _ _ h ↦ h)
  intro resolved u hu
  apply (hfs _ u hu).bind _ (fun _ _ h ↦ h)
  intro ino u hu
  apply (hfs _ u hu).bind _ (fun _ _ h ↦ h)
  intro inode u hu
  apply (hfs _ u hu).bind _ (fun _ _ h ↦ h)
  intro _ u hu
  have halloc := allocFd_position ⟨⟨ino, flags, 0⟩, flags, if inode.isDir then some ino else none⟩ u
  rw [hu] at halloc
  exact halloc

theorem close_position (fd : ℤ) (c : Context) :
    (close fd).Holds c (fun _ t ↦ t.position = Function.update c.position fd none)
      (fun _ t ↦ t.position = c.position) := by
  have hremoved : ∀ s, ({ c with fds := c.fds.filter (fun e ↦ e.1 != fd), fs := s } : Context).position =
      Function.update c.position fd none := by
    intro s
    funext fd'
    unfold position lookupFd
    dsimp only
    rw [List.find?_filter]
    by_cases heq : fd' = fd
    · rw [heq, Function.update_self, List.find?_eq_none.mpr]
      · rfl
      · intro e _ he
        simp at he
    · rw [Function.update_of_ne heq]
      congr 3
      funext e
      by_cases he : e.1 = fd'
      · rw [he, beq_self_eq_true, bne_iff_ne.mpr heq]
        rfl
      · rw [beq_false_of_ne he, decide_eq_false (by simp)]
  unfold close
  apply (getFd_holds c fd).bind _ (fun _ t ht ↦ by rw [ht])
  rintro entry t ⟨rfl, hentry⟩
  rw [Exec.holds_bind, Exec.holds_modify, Exec.holds_bind, Exec.holds_attempt]
  apply (onFs_holds _ _).mono
  · rintro _ _ ⟨s, -, rfl⟩
    exact hremoved s
  · rintro _ _ ⟨s, -, rfl⟩
    exact hremoved s

theorem dup_position (fd : ℤ) (c : Context) :
    (dup fd).Holds c
      (fun n t ↦ c.position fd ≠ none ∧ t.position = Function.update c.position n (some 0))
      (fun _ t ↦ t.position = c.position) := by
  unfold dup
  apply (getFd_holds c fd).bind _ (fun _ t ht ↦ by rw [ht])
  rintro src t ⟨rfl, hsrc⟩
  apply (onFs_holds _ t).bind _
  · rintro _ _ ⟨s, -, rfl⟩
    rfl
  · rintro _ u ⟨s, -, rfl⟩
    apply (allocFd_position { src with file := { src.file with pos := 0 } } { t with fs := s }).mono
    · intro n u hu
      rw [position_of_lookup hsrc]
      exact ⟨Option.some_ne_none _, hu.2⟩
    · exact fun _ _ hu ↦ hu

theorem dup2_position (old new : ℤ) (c : Context) :
    (dup2 old new).Holds c
      (fun n t ↦ n = new ∧ c.position old ≠ none ∧
        t.position = if old = new then c.position else Function.update c.position new (some 0))
      (fun _ t ↦ t.position = c.position) := by
  unfold dup2
  rw [Exec.holds_bind, Exec.holds_get]
  by_cases hsame : old = new
  · rw [if_pos hsame]
    split_ifs with hnone
    · rfl
    · rw [Exec.holds_pure]
      refine ⟨rfl, fun hposition ↦ hnone ?_, rfl⟩
      unfold position at hposition
      rw [Option.map_eq_none_iff.mp hposition]
      rfl
  rw [if_neg hsame, if_neg hsame]
  apply (getFd_holds c old).bind _ (fun _ t ht ↦ by rw [ht])
  rintro src t ⟨rfl, hsrc⟩
  have hopen : t.position old ≠ none := by
    rw [position_of_lookup hsrc]
    exact Option.some_ne_none _
  apply (onFs_holds _ t).bind _
  · rintro _ _ ⟨s, -, rfl⟩
    rfl
  rintro _ u ⟨s, -, rfl⟩
  rw [Exec.holds_bind, Exec.holds_when]
  have hlast : ∀ v : Context, (∀ fd, fd ≠ new → v.position fd = t.position fd) →
      Exec.Holds (do
        Exec.modify (fun c ↦ c.setFd new { src with file := { src.file with pos := 0 } })
        pure new) v
        (fun n w ↦ n = new ∧ t.position old ≠ none ∧ w.position = Function.update t.position new (some 0))
        (fun (_ : Error) w ↦ w.position = t.position) := by
    intro v hv
    rw [Exec.holds_bind, Exec.holds_modify, Exec.holds_pure]
    refine ⟨rfl, hopen, ?_⟩
    rw [position_setFd]
    funext fd
    by_cases hnew : fd = new
    · rw [hnew, Function.update_self, Function.update_self]
    · rw [Function.update_of_ne hnew, Function.update_of_ne hnew, hv fd hnew]
  constructor
  · intro _
    apply (close_position new { t with fs := s }).mono
    · intro _ v hv
      apply hlast
      intro fd hfd
      rw [hv, Function.update_of_ne hfd]
      rfl
    · intro _ v hv
      rw [hv]
      rfl
  · exact fun _ ↦ hlast _ fun _ _ ↦ rfl

/-! ## Calls that move nothing -/

/-- A read of the descriptor reads nothing: it is refused, asks for nothing or starts at the end. -/
def ReadStays (c : Context) (fd : ℤ) (count : ℕ) : Prop :=
  ∀ entry, c.lookupFd fd = some entry → entry.file.readable = false ∨ count = 0 ∨
    ∀ inode s, Inner.getInode entry.file.ino c.fs = .ok inode s → inode.size ≤ entry.file.pos

/-- A write to the descriptor is refused, or writes nothing and starts where the offset is. -/
def WriteStays (c : Context) (fd : ℤ) (buf : Bytes) : Prop :=
  ∀ entry, c.lookupFd fd = some entry → entry.file.writable = false ∨ c.fs.writable = false ∨
    if entry.file.flags &&& oAppend ≠ 0 then
      ∀ inode s, Inner.getInode entry.file.ino c.fs = .ok inode s →
        if buf = [] then inode.size = entry.file.pos else maxFileSize < inode.size + buf.length
    else buf = [] ∨ maxFileSize < entry.file.pos + buf.length

/-- A seek of the descriptor is refused or leads to where it is. -/
def SeekStays (c : Context) (fd : ℤ) (off : Int64) (whence : ℤ) : Prop :=
  ∀ entry target inode s, c.lookupFd fd = some entry → SeekFrom.ofWhence off whence = some target →
    Inner.getInode entry.file.ino c.fs = .ok inode s →
      target.sum entry.file.pos inode.size < 0 ∨
        (target.sum entry.file.pos inode.size).toNat % 2 ^ 64 = entry.file.pos

theorem readData_nil {ino offset count : ℕ} {s t : Inner} {data : Bytes}
    (h : Inner.readData ino offset count s = .ok data t)
    (hstays : count = 0 ∨ ∀ inode u, Inner.getInode ino s = .ok inode u → inode.size ≤ offset) : data = [] := by
  unfold Inner.readData at h
  obtain ⟨inode, u, hinode, h⟩ := Exec.bind_ok_iff.mp h
  by_cases hend : inode.size ≤ offset
  · rw [if_pos hend] at h
    cases h
    rfl
  · rcases hstays with rfl | hsize
    · rw [if_neg hend, Nat.min_zero, if_pos rfl] at h
      cases h
      rfl
    · exact absurd (hsize inode u hinode) hend

theorem writeData_zero {ino offset n : ℕ} {buf : Bytes} {s t : Inner} (h : Inner.writeData ino offset buf s = .ok n t) :
    s.writable = true ∧ if buf = [] then n = 0 else offset + buf.length ≤ maxFileSize := by
  unfold Inner.writeData Inner.requireWrite at h
  obtain ⟨_, u, hwrite, h⟩ := Exec.bind_ok_iff.mp h
  rw [Exec.bind_apply, Exec.read_apply] at hwrite
  dsimp only at hwrite
  split_ifs at hwrite with hwritable
  · refine ⟨hwritable, ?_⟩
    by_cases hnil : buf = []
    · rw [if_pos hnil] at h ⊢
      cases h
      rfl
    · rw [if_neg hnil] at h ⊢
      split_ifs at h with hlarge
      · cases h
      · exact not_lt.mp hlarge
  · cases hwrite

/-- The offset of the descriptor and nothing else may have changed; it has not if `stays`. -/
def MovesOnly (c : Context) (fd : ℤ) (stays : Prop) (t : Context) : Prop :=
  c.position fd ≠ none ∧ ∃ pos, t.position = Function.update c.position fd (some pos) ∧
    (stays → c.position fd = some pos)

theorem movesOnly_setFd {entry : Fd} (hentry : c.lookupFd fd = some entry) {stays : Prop} (s : Inner) {pos : ℕ}
    (h : stays → pos = entry.file.pos) :
    c.MovesOnly fd stays
      ({ c with fs := s }.setFd fd { entry with file := { entry.file with pos := pos } }) := by
  have hposition := position_of_lookup hentry
  refine ⟨by rw [hposition]; exact Option.some_ne_none _, pos, position_setFd _ _ _, fun hstays ↦ ?_⟩
  rw [hposition, h hstays]

theorem read_position (fd : ℤ) (count : ℕ) (c : Context) :
    (read fd count).Holds c (fun _ t ↦ c.MovesOnly fd (c.ReadStays fd count) t)
      (fun _ t ↦ t.position = c.position) := by
  unfold read
  apply (getFd_holds c fd).bind _ (fun _ t ht ↦ by rw [ht])
  rintro entry t ⟨rfl, hentry⟩
  split_ifs with hreadable
  · rfl
  apply (onFs_holds _ t).bind _
  · rintro _ _ ⟨s, -, rfl⟩
    rfl
  rintro data _ ⟨s, hdata, rfl⟩
  unfold addU64
  split_ifs
  · trivial
  · rw [Exec.holds_bind, Exec.holds_pure, Exec.holds_bind, Exec.holds_modify, Exec.holds_pure]
    apply movesOnly_setFd hentry
    intro hstays
    have hnil := readData_nil (Exec.mapError_ok_iff.mp hdata) ((hstays entry hentry).resolve_left hreadable)
    rw [hnil]
    rfl

theorem lseek_position (fd : ℤ) (off : Int64) (whence : ℤ) (c : Context) :
    (lseek fd off whence).Holds c (fun _ t ↦ c.MovesOnly fd (c.SeekStays fd off whence) t)
      (fun _ t ↦ t.position = c.position) := by
  unfold lseek
  apply (getFd_holds c fd).bind _ (fun _ t ht ↦ by rw [ht])
  rintro entry t ⟨rfl, hentry⟩
  rw [Exec.holds_bind, Exec.holds_ofOption]
  refine ⟨fun target htarget ↦ ?_, fun _ ↦ rfl⟩
  apply (onFs_holds _ t).bind _
  · rintro _ _ ⟨s, -, rfl⟩
    rfl
  rintro pos _ ⟨s, hseek, rfl⟩
  rw [Exec.holds_bind, Exec.holds_modify, Exec.holds_pure]
  apply movesOnly_setFd hentry
  intro hstays
  have hseek := Exec.mapError_ok_iff.mp hseek
  unfold File.seek at hseek
  obtain ⟨inode, u, hinode, hseek⟩ := Exec.bind_ok_iff.mp hseek
  split_ifs at hseek with hneg
  · cases hseek
  · cases hseek
    exact (hstays entry target inode _ hentry htarget hinode).resolve_left hneg

theorem write_position (fd : ℤ) (buf : Bytes) (c : Context) :
    (write fd buf).Holds c (fun _ t ↦ c.MovesOnly fd (c.WriteStays fd buf) t)
      (fun _ t ↦ t.position = c.position) := by
  unfold write
  apply (getFd_holds c fd).bind _ (fun _ t ht ↦ by rw [ht])
  rintro entry t ⟨rfl, hentry⟩
  have htail : ∀ (start : ℕ) (s : Inner), (t.WriteStays fd buf → s.writable = false ∨
      if buf = [] then start = entry.file.pos else maxFileSize < start + buf.length) →
      Exec.Holds (do
        let n ← onFs ((Inner.writeData entry.file.ino start buf).mapError Error.viaIo)
        let pos ← addU64 start n
        Exec.modify (fun c ↦ c.setFd fd { entry with file := { entry.file with pos := pos } })
        pure n) { t with fs := s }
        (fun _ u ↦ t.MovesOnly fd (t.WriteStays fd buf) u) (fun _ u ↦ u.position = t.position) := by
    intro start s hstart
    apply (onFs_holds _ { t with fs := s }).bind _
    · rintro _ _ ⟨u, -, rfl⟩
      rfl
    rintro n _ ⟨u, hn, rfl⟩
    unfold addU64
    split_ifs
    · trivial
    · rw [Exec.holds_bind, Exec.holds_pure, Exec.holds_bind, Exec.holds_modify, Exec.holds_pure]
      apply movesOnly_setFd hentry
      intro hstays
      obtain ⟨hwritable, hwritten⟩ := writeData_zero (Exec.mapError_ok_iff.mp hn)
      rcases hstart hstays with hro | hstart
      · rw [hro] at hwritable
        cases hwritable
      · split_ifs at hwritten hstart with hnil
        · rw [hwritten, hstart]
          rfl
        · omega
  by_cases hwritable : entry.file.writable = false
  · rw [if_pos hwritable]
    rfl
  rw [if_neg hwritable]
  by_cases happend : entry.file.flags &&& oAppend ≠ 0
  · rw [if_pos happend]
    apply (onFs_holds _ t).bind _
    · rintro _ _ ⟨s, -, rfl⟩
      rfl
    rintro inode _ ⟨s, hinode, rfl⟩
    apply htail
    intro hstays
    have hinode := Exec.mapError_ok_iff.mp hinode
    have hcalm := (Inner.getInode_calm entry.file.ino).of_ok hinode
    rcases (hstays entry hentry).resolve_left hwritable with hro | hrest
    · exact Or.inl (hcalm.writable.trans hro)
    · rw [if_pos happend] at hrest
      exact Or.inr (hrest inode s hinode)
  · rw [if_neg happend]
    apply htail _ t.fs
    intro hstays
    rcases (hstays entry hentry).resolve_left hwritable with hro | hrest
    · exact Or.inl hro
    · rw [if_neg happend] at hrest
      right
      by_cases hnil : buf = []
      · rw [if_pos hnil]
      · rw [if_neg hnil]
        exact hrest.resolve_left hnil

end Context

/-! ## Runs -/

/-- A context, and which of its descriptors should share an offset. -/
structure Described where
  context : Context
  desc : ℤ → ℕ
  fresh : ℕ

/-- The calls that make, use and close descriptors. -/
inductive FdCall where
  | openat (dirfd : ℤ) (path : UnixPath) (flags : UInt32) (mode : UInt16)
  | dup (fd : ℤ)
  | dup2 (old new : ℤ)
  | read (fd : ℤ) (count : ℕ)
  | write (fd : ℤ) (buf : Bytes)
  | lseek (fd : ℤ) (off : Int64) (whence : ℤ)
  | close (fd : ℤ)

namespace Described

def table (d : Described) : OffsetTable := ⟨d.context.position, d.desc, d.fresh⟩

def inContext {α : Type} (x : Ctx α) : Exec Error Described α :=
  Exec.zoom (·.context) (fun c d ↦ { d with context := c }) x

/-- The descriptor belongs to a description of its own. -/
def describe (n : ℤ) (d : Described) : Described :=
  { d with desc := Function.update d.desc n d.fresh, fresh := d.fresh + 1 }

/-- The descriptor `n` is a copy of `a`. -/
def share (a n : ℤ) (d : Described) : Described := { d with desc := Function.update d.desc n (d.desc a) }

/-- Any two open descriptors made from one another have the same offset. -/
def Shared (d : Described) : Prop := d.table.Agrees

end Described

namespace FdCall

/-- A call, and what it means for the descriptions. -/
def exec (depth : ℕ) : FdCall → Exec Error Described Unit
  | openat dirfd path flags mode => do
    let n ← Described.inContext (Context.openat depth dirfd path flags mode)
    Exec.modify (Described.describe n)
  | dup fd => do
    let n ← Described.inContext (Context.dup fd)
    Exec.modify (Described.share fd n)
  | dup2 old new => do
    let n ← Described.inContext (Context.dup2 old new)
    Exec.modify (Described.share old n)
  | read fd count => do
    let _ ← Described.inContext (Context.read fd count)
    pure ()
  | write fd buf => do
    let _ ← Described.inContext (Context.write fd buf)
    pure ()
  | lseek fd off whence => do
    let _ ← Described.inContext (Context.lseek fd off whence)
    pure ()
  | close fd => Described.inContext (Context.close fd)

/-- Copies are made at offset zero, and what is one of several copies does not move. -/
def Harmless (d : Described) : FdCall → Prop
  | openat .. => True
  | dup fd => ∀ pos, d.context.position fd = some pos → pos = 0
  | dup2 old new => old = new ∨ ∀ pos, d.context.position old = some pos → pos = 0
  | read fd count => d.table.Alone fd ∨ d.context.ReadStays fd count
  | write fd buf => d.table.Alone fd ∨ d.context.WriteStays fd buf
  | lseek fd off whence => d.table.Alone fd ∨ d.context.SeekStays fd off whence
  | close _ => True

theorem sound_of_position {d : Described} (h : d.table.Sound) {c : Context}
    (hc : c.position = d.context.position) : ({ d with context := c } : Described).table.Sound := by
  unfold Described.table at h ⊢
  dsimp only
  rw [hc]
  exact h

/-- A call that moves one offset at most. -/
theorem io_sound {α : Type} {x : Ctx α} {d : Described} (h : d.table.Sound) {fd : ℤ} {stays : Prop}
    (hx : x.Holds d.context (fun _ t ↦ d.context.MovesOnly fd stays t) (fun _ t ↦ t.position = d.context.position))
    (hharmless : d.table.Alone fd ∨ stays) :
    Exec.Holds (do
      let _ ← Described.inContext x
      pure ()) d (fun (_ : Unit) t ↦ t.table.Sound) (fun _ t ↦ t.table.Sound) := by
  rw [Exec.holds_bind]
  unfold Described.inContext
  rw [Exec.holds_zoom]
  apply hx.mono
  · rintro _ c ⟨hopen, pos, hposition, hstays⟩
    rw [Exec.holds_pure]
    rcases hharmless with halone | hstay
    · have hmoved := h.moved hopen halone pos
      unfold OffsetTable.moved Described.table at hmoved
      dsimp only at hmoved
      rw [← hposition] at hmoved
      exact hmoved
    · apply sound_of_position h
      rw [hposition, ← hstays hstay, Function.update_eq_self]
  · intro _ c hc
    exact sound_of_position h hc

theorem step_sound (depth : ℕ) {d : Described} (h : d.table.Sound) {call : FdCall} (hharmless : Harmless d call) :
    (exec depth call).Holds d (fun _ t ↦ t.table.Sound) (fun _ t ↦ t.table.Sound) := by
  cases call with
  | openat dirfd path flags mode =>
    unfold exec Described.inContext
    rw [Exec.holds_bind, Exec.holds_zoom]
    apply (Context.openat_position depth dirfd path flags mode d.context).mono
    · rintro n c ⟨-, hposition⟩
      have hopened := h.opened n
      unfold OffsetTable.opened Described.table at hopened
      dsimp only at hopened
      rw [← hposition] at hopened
      exact hopened
    · exact fun _ c hc ↦ sound_of_position h hc
  | dup fd =>
    unfold exec Described.inContext
    rw [Exec.holds_bind, Exec.holds_zoom]
    apply (Context.dup_position fd d.context).mono
    · rintro n c ⟨hopen, hposition⟩
      obtain ⟨pos, hpos⟩ := Option.ne_none_iff_exists'.mp hopen
      have hzero : d.table.offset fd = some 0 := by rw [← hharmless pos hpos]; exact hpos
      have hcopied := h.copied hzero n
      unfold OffsetTable.copied Described.table at hcopied
      dsimp only at hcopied
      rw [← hposition] at hcopied
      exact hcopied
    · exact fun _ c hc ↦ sound_of_position h hc
  | dup2 old new =>
    unfold exec Described.inContext
    rw [Exec.holds_bind, Exec.holds_zoom]
    apply (Context.dup2_position old new d.context).mono
    · rintro n c ⟨rfl, hopen, hposition⟩
      by_cases hsame : old = n
      · rw [if_pos hsame] at hposition
        have hkept := sound_of_position h hposition
        unfold Described.table at hkept ⊢
        rw [Exec.holds_modify, Described.share, hsame]
        dsimp only at hkept ⊢
        rw [Function.update_eq_self]
        exact hkept
      · rw [if_neg hsame] at hposition
        obtain ⟨pos, hpos⟩ := Option.ne_none_iff_exists'.mp hopen
        have hzero : d.table.offset old = some 0 := by
          rw [← hharmless.resolve_left hsame pos hpos]
          exact hpos
        have hcopied := h.copied hzero n
        unfold OffsetTable.copied Described.table at hcopied
        dsimp only at hcopied
        rw [← hposition] at hcopied
        exact hcopied
    · exact fun _ c hc ↦ sound_of_position h hc
  | read fd count => exact io_sound h (Context.read_position fd count d.context) hharmless
  | write fd buf => exact io_sound h (Context.write_position fd buf d.context) hharmless
  | lseek fd off whence => exact io_sound h (Context.lseek_position fd off whence d.context) hharmless
  | close fd =>
    unfold exec Described.inContext
    rw [Exec.holds_zoom]
    apply (Context.close_position fd d.context).mono
    · intro _ c hposition
      have hclosed := h.closed fd
      unfold OffsetTable.closed Described.table at hclosed
      dsimp only at hclosed
      rw [← hposition] at hclosed
      exact hclosed
    · exact fun _ c hc ↦ sound_of_position h hc

/-- In a run of harmless calls, from any context whose descriptors agree so far, they agree in every state. -/
theorem harmless_run_shares {depth : ℕ} {d e : Described} {calls : List (Described × FdCall)}
    (hstart : d.Shared) (hbounded : d.table.Bounded) (hrun : Exec.Runs (exec depth) d calls e)
    (hharmless : ∀ call ∈ calls, Harmless call.1 call.2) :
    e.Shared ∧ ∀ call ∈ calls, call.1.Shared := by
  have hinv := hrun.invariant (I := fun d ↦ d.table.Sound) (C := fun call ↦ Harmless call.1 call.2)
    ⟨hstart, hbounded⟩ hharmless fun d call h hcall ↦ step_sound depth h hcall
  exact ⟨hinv.1.agrees, fun call hcall ↦ (hinv.2 call hcall).agrees⟩

/-! ## Two runs -/

/-- A context of a new filesystem, without descriptors. -/
def samplePlay (calls : List FdCall) : Outcome Error Described (List (Described × FdCall)) :=
  match sampleImage with
  | .ok _ s => Exec.play (exec 1) calls ⟨Context.new s Creds.root, fun _ ↦ 0, 0⟩
  | .err e s => .err e ⟨Context.new s Creds.root, fun _ ↦ 0, 0⟩
  | .panic => .panic

theorem samplePlay_runs {calls : List FdCall} {test : List (Described × FdCall) → Described → Bool}
    (h : (samplePlay calls).okAnd test = true) :
    ∃ d run e, d.Shared ∧ d.table.Bounded ∧ Exec.Runs (exec 1) d run e ∧ run.map Prod.snd = calls ∧ test run e = true := by
  obtain ⟨run, e, hplay, htest⟩ := Outcome.exists_of_okAnd h
  unfold samplePlay at hplay
  cases himage : sampleImage with
  | ok _ s =>
    rw [himage] at hplay
    obtain ⟨hrun, hcalls⟩ := Exec.runs_of_play hplay
    exact ⟨_, run, e, fun a _ ha ↦ absurd rfl ha, fun a ha ↦ absurd rfl ha, hrun, hcalls, htest⟩
  | err e s =>
    rw [himage] at hplay
    cases hplay
  | panic =>
    rw [himage] at hplay
    cases hplay

/-- A copy made at once, and closed before the directory is seen through the other descriptor. -/
theorem harmless_run_sample : ∃ d run e, Exec.Runs (exec 1) d run e ∧
    run.map Prod.snd = [openat Context.atFdcwd [slash] oRdonly 0, dup 3, read 4 0, close 4] ∧ e.Shared := by
  have hplay : (samplePlay [openat Context.atFdcwd [slash] oRdonly 0, dup 3, read 4 0, close 4]).okAnd
      (fun run _ ↦ run.all fun call ↦ match call.2 with
        | dup fd => call.1.context.position fd == some 0
        | _ => true) = true := by
    decide +kernel
  obtain ⟨d, run, e, hstart, hbounded, hrun, hcalls, htest⟩ := samplePlay_runs hplay
  have hharmless : ∀ call ∈ run, Harmless call.1 call.2 := by
    intro call hcall
    have hmem : call.2 ∈ [openat Context.atFdcwd [slash] oRdonly 0, dup 3, read 4 0, close 4] :=
      hcalls ▸ List.mem_map_of_mem hcall
    have htest := List.all_eq_true.mp htest call hcall
    simp only [List.mem_cons, List.not_mem_nil, or_false] at hmem
    rcases hmem with heq | heq | heq | heq <;> rw [heq] at htest ⊢
    · trivial
    · intro pos hpos
      dsimp only at htest
      rw [hpos, beq_iff_eq] at htest
      exact Option.some.inj htest
    · exact Or.inr fun _ _ ↦ Or.inr (Or.inl rfl)
    · trivial
  exact ⟨d, run, e, hrun, hcalls, (harmless_run_shares hstart hbounded hrun hharmless).1⟩

/-- A seek of one descriptor leaves its copy where it was. -/
theorem copy_left_behind : ∃ d run e, d.Shared ∧ d.table.Bounded ∧ Exec.Runs (exec 1) d run e ∧
    run.map Prod.snd = [openat Context.atFdcwd [slash] oRdonly 0, dup 3, lseek 3 5 seekSet] ∧ ¬e.Shared := by
  have hplay : (samplePlay [openat Context.atFdcwd [slash] oRdonly 0, dup 3, lseek 3 5 seekSet]).okAnd
      (fun _ e ↦ e.context.position 3 == some 5 && e.context.position 4 == some 0 && e.desc 3 == e.desc 4) = true := by
    decide +kernel
  obtain ⟨d, run, e, hstart, hbounded, hrun, hcalls, htest⟩ := samplePlay_runs hplay
  rw [Bool.and_eq_true, Bool.and_eq_true, beq_iff_eq, beq_iff_eq, beq_iff_eq] at htest
  refine ⟨d, run, e, hstart, hbounded, hrun, hcalls, fun hshared ↦ ?_⟩
  have hsame : e.context.position 3 = e.context.position 4 := by
    apply hshared 3 4
    · change e.context.position 3 ≠ none
      rw [htest.1.1]
      exact Option.some_ne_none _
    · change e.context.position 4 ≠ none
      rw [htest.1.2]
      exact Option.some_ne_none _
    · exact htest.2
  rw [htest.1.1, htest.1.2] at hsame
  exact absurd hsame (by decide)

end FdCall

end LinuxFile
