import LinuxFile.Spec.ByPath
import LinuxFile.Spec.Files
import LinuxFile.Spec.Within

/-!
# Open files and the namespace

Counting an open file changes no node, and giving up a file that has a name changes none either. A file that is read
to its end gives its bytes; one that was opened empty and written has the bytes of the buffer.
-/

namespace LinuxFile

namespace Inner

variable {α β : Type} {s t u : Inner} {k : ℕ} {n : Node}

/-! ## More calls that leave a tidy state -/

section Rules

variable {x : Fs α} {Q q : α → Inner → Prop} {R : β → Inner → Prop} {E : Inner → Prop}

theorem Leaves.of_stays (hstays : Stays x s Q) (hx : x.Holds s q (fun e _ ↦ e.IsHost)) :
    Leaves x s q (fun _ ↦ False) := by
  refine (Exec.Holds.and hstays hx).mono ?_ ?_
  · rintro a t ⟨⟨ht, -⟩, hq⟩
    exact ⟨ht, hq⟩
  · rintro e t ⟨-, he⟩
    exact Or.inl he

theorem Leaves.getInode {f : Inode → Fs β} (hn : s.node k = some n)
    (hf : ∀ i, s.inodes.find? k = some i → n = i.toNode (s.contents k) → Leaves (f i) s R E) :
    Leaves (Inner.getInode k >>= f) s R E := by
  obtain ⟨i, hi, heq⟩ := mem_of_node hn
  unfold Leaves
  rw [Exec.holds_bind_of_ok (getInode_mem hi)]
  exact hf i hi heq

theorem Leaves.addU64 {a b : ℕ} {f : ℕ → Fs β} (hf : Leaves (f (a + b)) s R E) :
    Leaves (addU64 a b >>= f : Fs β) s R E := by
  unfold Leaves
  rw [Exec.holds_bind]
  exact holds_addU64 fun _ ↦ hf

end Rules

/-- What is written to an empty file is all the file has. -/
theorem fill_leaves (h : s.Tidy) (hn : s.node k = some n) (hfile : n.isDir = false) (hbytes : n.bytes = [])
    {buf : Bytes} (hlen : buf.length ≤ maxFileSize) :
    Leaves (writeData k 0 buf) s
      (fun w t ↦ w = buf.length ∧ t.node = Function.update s.node k (some { n with bytes := buf })) (fun _ ↦ False) := by
  have hnodir : s.NoDir k := by
    intro m hm
    rw [hn] at hm
    cases hm
    exact hfile
  refine Leaves.of_stays (writeData_stays h (h.live_lt hn) hnodir 0 buf) ?_
  by_cases hne : buf = []
  · unfold writeData
    rw [Exec.holds_bind_of_ok (requireWrite_ok h.writable), if_pos hne, hne, ← hbytes]
    refine ⟨(congrArg List.length hbytes).symm, ?_⟩
    change s.node = Function.update s.node k (some n)
    rw [← hn, Function.update_eq_self]
  · obtain ⟨i, hi, -⟩ := mem_of_node hn
    refine ((writeData_writes h.sound h.writable hi hne (by omega)).and
      (writeData_fills h.sound h.writable hn hbytes hne hlen)).mono ?_ fun _ _ he ↦ he.1
    rintro w t ⟨⟨hw, -⟩, hbecomes⟩
    exact ⟨hw, hbecomes.node⟩

/-- Only the counts of open files are different. -/
def Counted (s t : Inner) : Prop := t = { s with openCount := t.openCount, orphans := t.orphans }

theorem Counted.node (h : Counted s t) : t.node = s.node := by
  rw [h]
  rfl

theorem Counted.checkPerm (h : Counted s t) : t.checkPerm = s.checkPerm := by rw [h]

theorem incOpen_counted (k : ℕ) (s : Inner) :
    (incOpen k).Holds s (fun _ t ↦ Counted s t) (fun e _ ↦ e.IsHost) := by
  unfold incOpen
  rw [Exec.holds_bind, Exec.holds_read, Exec.holds_bind]
  apply holds_addU32
  intro _
  rw [Exec.holds_modify]
  rfl

theorem incOpen_leaves (h : s.Tidy) (k : ℕ) : Leaves (incOpen k) s (fun _ t ↦ Counted s t) (fun _ ↦ False) :=
  Leaves.of_stays (incOpen_stays h k) (incOpen_counted k s)

/-- What has a name stays when it is closed. -/
theorem decOpen_counted (hn : s.node k = some n) (hlinks : n.nlink ≠ 0) :
    (decOpen k).Holds s (fun _ t ↦ Counted s t) (fun _ _ ↦ False) := by
  obtain ⟨i, hi, rfl⟩ := mem_of_node hn
  unfold decOpen
  rw [Exec.holds_bind, Exec.holds_get]
  cases hcount : s.openCount.find? k with
  | none => rfl
  | some count =>
    dsimp only
    split_ifs with hlast horphan
    · rfl
    · set v : Inner := { s with openCount := s.openCount.erase k, orphans := s.orphans.erase k }
      have hget : Exec.attempt (Inner.getInode k) v = .ok (.ok i) v := by
        unfold Exec.attempt
        rw [getInode_mem (s := v) hi]
      have hnamed : i.nlink ≠ 0 := hlinks
      rw [Exec.holds_bind, Exec.holds_modify, Exec.holds_bind, Exec.holds_modify, Exec.holds_bind_of_ok hget]
      dsimp only
      rw [if_neg hnamed]
      rfl
    · rfl

theorem decOpen_leaves (h : s.Tidy) (hn : s.node k = some n) (hlinks : n.nlink ≠ 0) :
    (decOpen k).Holds s (fun _ t ↦ Onward s t ∧ Counted s t) (fun _ _ ↦ False) := by
  refine (Exec.Holds.and (decOpen_stays h (h.live_lt hn)) (decOpen_counted hn hlinks)).mono ?_ ?_
  · rintro _ t ⟨⟨ht, -⟩, hsame⟩
    exact ⟨ht, hsame⟩
  · rintro e t ⟨-, hf⟩
    exact hf

/-- The states reached from a tidy one by calls that leave the nodes as they are. -/
def Unmoved (s t : Inner) : Prop := Onward s t ∧ t.node = s.node ∧ t.checkPerm = s.checkPerm

theorem Tidy.unmoved (h : s.Tidy) : Unmoved s s := ⟨h.onward, rfl, rfl⟩

theorem Tidy.reader (h : s.Tidy) : Reader True s.node (Unmoved s) s.checkPerm s.sb.nextInode where
  perm t ht := ht.2.2
  below _ _ _ _ hdir hentry := h.namesBelow.lookup hdir hentry
  size _ _ hn := h.sound.bytes_le hn
  inode t k := by
    rintro ⟨ht, hnode, hperm⟩ hk
    apply Asks.of_holds
    have hfinds := (ht.1.sound.getInode_finds (ht.lt hk)).and (getInode_stays ht.1 (ht.lt hk))
    refine Exec.Holds.mono hfinds ?_ ?_
    · rintro i u ⟨⟨hi, rfl⟩, -⟩
      refine ⟨⟨ht, hnode, hperm⟩, _, ?_, ht.1.sound.shows hi⟩
      rw [← hnode]
      exact node_of_mem hi
    · rintro e u ⟨he | ⟨hi, hu⟩, he' | honward⟩
      · exact Or.inl he
      · exact Or.inl he
      · exact Or.inl he'
      · refine Or.inr ⟨⟨ht.trans honward, hu.node.trans hnode, hu.kept.checkPerm.trans hperm⟩, ?_⟩
        rw [← hnode]
        exact node_eq_none.mpr hi
  data t k n off count := by
    rintro ⟨ht, hnode, hperm⟩ hn
    rw [← hnode] at hn
    have hstays := readData_stays ht.1 (ht.1.live_lt hn) off count
    obtain ⟨i, hi, rfl⟩ := mem_of_node hn
    apply Asks.of_holds
    refine Exec.Holds.mono (hstays.and (readData_contents ht.1.sound hi off count)) ?_ fun _ _ he ↦ Or.inl he.2
    rintro data u ⟨⟨honward, -⟩, hdata, -, hsame⟩
    have hperm' : u.checkPerm = t.checkPerm := by rw [hsame.shell]
    exact ⟨⟨ht.trans honward, hsame.node.trans hnode, hperm'.trans hperm⟩, hdata⟩

end Inner

theorem Error.IsHost.viaIo {e : Error} (he : e.IsHost) : e.viaIo.IsHost := by
  cases e with
  | fs => exact he
  | host => trivial

namespace File

open LinuxFile.Inner (Leaves Onward)

variable {α : Type} {s t : Inner} {n : Node} {f : File}

/-- Giving up a file answers whatever happens. -/
theorem drop_answers (f : File) (s : Inner) : f.drop.Holds s (fun _ _ ↦ True) (fun _ _ ↦ False) := by
  unfold File.drop
  rw [Exec.holds_bind, Exec.holds_attempt]
  exact Exec.holds_of_forall (fun _ _ _ ↦ trivial) fun _ _ _ ↦ trivial

theorem drop_named (h : s.Tidy) (hn : s.node f.ino = some n) (hlinks : n.nlink ≠ 0) :
    f.drop.Holds s (fun _ t ↦ Onward s t ∧ t.node = s.node) (fun _ _ ↦ False) := by
  unfold File.drop
  rw [Exec.holds_bind, Exec.holds_attempt]
  refine (Inner.decOpen_leaves h hn hlinks).mono (fun _ _ ht ↦ ⟨ht.1, ht.2.node⟩) ?_
  intro _ _ hf
  exact hf.elim

theorem during_leaves {x : Fs α} {Q Q' : α → Inner → Prop} (hx : Leaves x s Q (fun _ ↦ False))
    (hnamed : ∀ a t, Onward s t → Q a t → ∃ n, t.node f.ino = some n ∧ n.nlink ≠ 0)
    (hQ : ∀ a t u, Onward t u → Q a t → u.node = t.node → Q' a u) : Leaves (f.during x) s Q' (fun _ ↦ False) := by
  unfold File.during Leaves
  rw [Exec.holds_bind, Exec.holds_attempt]
  refine Exec.Holds.mono hx ?_ ?_
  · rintro a t ⟨ht, hq⟩
    obtain ⟨n, hn, hlinks⟩ := hnamed a t ht hq
    refine Exec.Holds.bind (drop_named ht.1 hn hlinks) ?_ fun _ _ hf ↦ hf.elim
    rintro _ u ⟨hu, hnode⟩
    exact ⟨ht.trans hu, hQ a t u hu hq hnode⟩
  · rintro e t (he | ⟨-, hf⟩)
    · refine Exec.Holds.bind (drop_answers f t) ?_ fun _ _ hf ↦ hf.elim
      intro _ u _
      exact Or.inl he.viaIo
    · exact hf.elim

/-! ## Writing -/

/-- The first write to an empty file. -/
theorem write_fills (h : s.Tidy) (hwrite : f.writable = true) (hflags : f.flags &&& oAppend = 0) (hpos : f.pos = 0)
    (hn : s.node f.ino = some n) (hfile : n.isDir = false) (hbytes : n.bytes = []) {buf : Bytes}
    (hlen : buf.length ≤ maxFileSize) :
    Leaves (f.write buf) s
      (fun w t ↦ w.1 = buf.length ∧ t.node = Function.update s.node f.ino (some { n with bytes := buf }))
      (fun _ ↦ False) := by
  unfold File.write File.requireWrite
  rw [if_pos hwrite, pure_bind, if_neg (not_not_intro hflags), pure_bind, hpos]
  refine (Inner.fill_leaves h hn hfile hbytes hlen).bind ?_
  rintro w t ht ⟨hw, hnode⟩
  apply Leaves.addU64
  exact Leaves.pure ht.1 ⟨hw, hnode⟩

/-- A buffer is written in one piece. -/
theorem writeAll_fills (h : s.Tidy) (hwrite : f.writable = true) (hflags : f.flags &&& oAppend = 0) (hpos : f.pos = 0)
    (hn : s.node f.ino = some n) (hfile : n.isDir = false) (hbytes : n.bytes = []) {buf : Bytes}
    (hlen : buf.length ≤ maxFileSize) :
    Leaves (writeAll (buf.length + 1) f buf) s
      (fun _ t ↦ t.node = Function.update s.node f.ino (some { n with bytes := buf })) (fun _ ↦ False) := by
  unfold writeAll
  by_cases hne : buf = []
  · rw [if_pos hne, hne, ← hbytes]
    refine Leaves.pure h ?_
    change s.node = Function.update s.node f.ino (some n)
    rw [← hn, Function.update_eq_self]
  · rw [if_neg hne]
    refine (write_fills h hwrite hflags hpos hn hfile hbytes hlen).bind ?_
    rintro ⟨w, g⟩ t ht ⟨hw, hnode⟩
    dsimp only at hw ⊢
    have hpositive : 0 < buf.length := List.length_pos_iff.mpr hne
    obtain ⟨rounds, hrounds⟩ := Nat.exists_eq_succ_of_ne_zero hpositive.ne'
    rw [if_neg (by omega), hw, List.drop_length, hrounds]
    unfold writeAll
    rw [if_pos rfl]
    exact Leaves.pure ht.1 hnode

end File

end LinuxFile
