import LinuxFile.FileCalls
import LinuxFile.Spec.Files
import LinuxFile.Spec.Resolve

/-!
# Reading a namespace

A walk asks the filesystem for two things only: the inode under a number, and the bytes of a file. Where a set of states
answers these as some nodes say, and asking does not lead out of the set, the walk finds what it finds on the nodes. The
states that a running filesystem passes through while nothing is changed are such a set.
-/

namespace LinuxFile

/-- The numbers a walk gives are below `limit`. -/
structure Resolved.Under (r : Resolved) (limit : ℕ) : Prop where
  parent : r.parent < limit
  ino : ∀ k, r.ino = some k → k < limit

theorem Resolved.under_some {dir k limit : ℕ} (name : Bytes) (hdir : dir < limit) (hk : k < limit) :
    Resolved.Under ⟨dir, name, some k⟩ limit := by
  refine ⟨hdir, fun j hj ↦ ?_⟩
  cases hj
  exact hk

/-- The inode has the attributes of the node `n` under the number `k`. -/
structure Inode.Shows (i : Inode) (k : ℕ) (n : Node) : Prop where
  ino : i.ino = k
  mode : i.mode = n.mode
  nlink : i.nlink = n.nlink
  uid : i.uid = n.uid
  gid : i.gid = n.gid
  xattr : i.xattr = n.xattr
  size : i.size = n.bytes.length

theorem Inode.Shows.isDir {i : Inode} {k : ℕ} {n : Node} (h : i.Shows k n) : i.isDir = n.isDir := by
  unfold Inode.isDir Inode.fileType Node.isDir
  rw [h.mode]

theorem Inode.Shows.isSymlink {i : Inode} {k : ℕ} {n : Node} (h : i.Shows k n) :
    i.isSymlink = (FileType.fromMode n.mode).isSymlink := by
  unfold Inode.isSymlink Inode.fileType
  rw [h.mode]

namespace Inner

variable {α β : Type} {s t : Inner} {k : ℕ} {n : Node} {H : Prop} {V : Inner → Prop}

/-- The call stays in `V`, and answers as `Q` says or fails as `E` says. Only under `H` may it also fail on the host or
have no end. -/
def Asks (H : Prop) (V : Inner → Prop) (x : Fs α) (s : Inner) (Q : α → Prop) (E : Prop) : Prop :=
  x.Meets s (fun a t ↦ V t ∧ Q a) (fun e t ↦ H ∧ e.IsHost ∨ V t ∧ E) (H ∨ E)

section Rules

variable {x : Fs α} {g : α → Fs β} {Q Q' : α → Prop} {R : β → Prop} {E E' : Prop}

theorem Asks.mono (h : Asks H V x s Q E) (hQ : ∀ a, Q a → Q' a) (hE : E → E') : Asks H V x s Q' E' :=
  Exec.Meets.mono h (fun a _ ht ↦ ⟨ht.1, hQ a ht.2⟩) (fun _ _ he ↦ he.imp_right fun ht ↦ ⟨ht.1, hE ht.2⟩)
    (Or.imp_right hE)

theorem Asks.bind (h : Asks H V x s Q E) (hg : ∀ a t, V t → Q a → Asks H V (g a) t R E) : Asks H V (x >>= g) s R E :=
  Exec.Meets.bind h (fun a t ht ↦ hg a t ht.1 ht.2) (fun _ _ he ↦ he) fun hp ↦ hp

theorem Asks.pure {a : α} (hs : V s) (hq : Q a) : Asks H V (Pure.pure a) s Q E := ⟨hs, hq⟩

theorem Asks.throw {e : Error} (hs : V s) (he : E) : Asks H V (Exec.throw e) s Q E := Or.inr ⟨hs, he⟩

theorem Asks.pure_bind {a : α} (h : Asks H V (g a) s R E) : Asks H V (Pure.pure a >>= g) s R E := by
  rw [LawfulMonad.pure_bind]
  exact h

/-- Where the host may fail, partial correctness is enough. -/
theorem Asks.of_holds (h : x.Holds s (fun a t ↦ V t ∧ Q a) (fun e t ↦ e.IsHost ∨ V t ∧ E)) : Asks True V x s Q E :=
  (h.mono (fun _ _ ht ↦ ht) fun _ _ he ↦ he.imp_left fun hhost ↦ ⟨trivial, hhost⟩).meets fun _ ↦ Or.inl trivial

theorem Asks.holds (h : Asks H V x s Q E) : x.Holds s (fun a t ↦ V t ∧ Q a) (fun e t ↦ e.IsHost ∨ V t ∧ E) :=
  (Exec.Meets.holds h).mono (fun _ _ ht ↦ ht) fun _ _ he ↦ he.imp_left And.right

/-- Where the host does not fail, the call returns. -/
theorem Asks.exists_ok (h : Asks False V x s Q E) (hanswer : ¬E) : ∃ a t, x s = .ok a t ∧ V t ∧ Q a :=
  (Exec.Meets.mono h (fun _ _ ht ↦ ht) (fun _ _ he ↦ he.elim And.left fun ht ↦ hanswer ht.2) fun hp ↦
    hp.elim id hanswer).exists_ok

end Rules

/-- States of `V` in which inodes and files read as the nodes say. -/
structure Reader (H : Prop) (f : Nodes) (V : Inner → Prop) (perm : Bool) (limit : ℕ) : Prop where
  perm : ∀ s, V s → s.checkPerm = perm
  below : ∀ dir entries name v, f.dir dir = some entries → entryNamed entries name = some v → v.1 < limit
  size : ∀ k n, f k = some n → n.bytes.length ≤ maxFileSize
  inode : ∀ s k, V s → k < limit → Asks H V (getInode k) s (fun i ↦ ∃ n, f k = some n ∧ i.Shows k n) (f k = none)
  data : ∀ s k n off count, V s → f k = some n →
    Asks H V (readData k off count) s (fun data ↦ data = PlainFile.read n.bytes off count) False

namespace Reader

variable {f : Nodes} {perm : Bool} {limit : ℕ} (h : Reader H f V perm limit)

include h

/-! ## Parts of a walk -/

theorem getInode {g : Inode → Fs β} {R : β → Prop} {E : Prop} (hs : V s) (hk : k < limit) (hnone : f k = none → E)
    (hsome : ∀ i n t, V t → f k = some n → i.Shows k n → Asks H V (g i) t R E) :
    Asks H V (Inner.getInode k >>= g) s R E := by
  refine ((h.inode s k hs hk).mono (fun _ hi ↦ hi) hnone).bind ?_
  rintro i t ht ⟨n, hn, hshows⟩
  exact hsome i n t ht hn hshows

theorem accessOk {i : Inode} {creds : Creds} {acc : Access} {g : Unit → Fs β} {R : β → Prop} {E : Prop} (hs : V s)
    (hshows : i.Shows k n) (hno : ¬n.allows perm creds acc → E)
    (hyes : n.allows perm creds acc → Asks H V (g ()) s R E) : Asks H V (Inner.accessOk i creds acc >>= g) s R E := by
  have hperm := h.perm s hs
  unfold Inner.accessOk Asks
  rw [Exec.meets_bind, Exec.meets_bind, Exec.meets_read, hperm]
  unfold Node.allows at hno hyes
  rw [← hshows.mode, ← hshows.uid, ← hshows.gid] at hno hyes
  split_ifs with hoff haccess
  · exact hyes fun hon ↦ by rw [hoff] at hon; cases hon
  · exact hyes fun _ ↦ haccess
  · exact Or.inr ⟨hs, hno fun hallows ↦ haccess (hallows (Bool.eq_true_of_not_eq_false hoff))⟩

/-- All the bytes of a file. -/
theorem readAll (hs : V s) (hn : f k = some n) {i : Inode} (hshows : i.Shows k n) :
    Asks H V (readData k 0 i.size) s (fun data ↦ data = n.bytes) False := by
  refine (h.data s k n 0 i.size hs hn).mono (fun data hdata ↦ ?_) fun hf ↦ hf
  rw [hdata, hshows.size]
  exact List.take_length

theorem parseDir (hs : V s) (hk : k < limit) :
    Asks H V (Inner.parseDir k) s (fun entries ↦ f.dir k = some entries) (f.dir k = none) := by
  unfold Inner.parseDir
  refine h.getInode hs hk Nodes.dir_of_none fun i n t ht hn hshows ↦ ?_
  rw [hshows.isDir]
  by_cases hdir : n.isDir = false
  · rw [if_pos hdir]
    exact Asks.throw ht ((Nodes.dir_of_some hn).trans (Node.entries_of_file hdir))
  rw [if_neg hdir]
  have hentries : f.dir k = (decodeDir n.bytes).toOption :=
    (Nodes.dir_of_some hn).trans (Node.entries_of_dir (Bool.eq_true_of_not_eq_false hdir))
  have hlast : ∀ u, V u → Asks H V (Exec.ofExcept (decodeDir (resizeBytes n.bytes i.size))) u
      (fun entries ↦ f.dir k = some entries) (f.dir k = none) := by
    intro u hu
    rw [hentries, hshows.size, resizeBytes_self]
    cases decodeDir n.bytes with
    | ok entries => exact ⟨hu, rfl⟩
    | error e => exact Or.inr ⟨hu, rfl⟩
  dsimp only
  split_ifs with hsize
  · refine Asks.bind ((h.readAll ht hn hshows).mono (fun _ hdata ↦ hdata) False.elim) ?_
    rintro _ u hu rfl
    exact hlast u hu
  · have hempty : n.bytes = [] := by
      apply List.length_eq_zero_iff.mp
      rw [← hshows.size]
      omega
    rw [hempty] at hlast
    exact Asks.pure_bind (hlast t ht)

theorem dirLookup {name : Bytes} {g : Option (ℕ × FileType) → Fs β} {R : β → Prop} {E : Prop} (hs : V s)
    (hk : k < limit) (hnone : f.dir k = none → E)
    (hsome : ∀ entries t, V t → f.dir k = some entries → Asks H V (g (entryNamed entries name)) t R E) :
    Asks H V (Inner.dirLookup k name >>= g) s R E := by
  unfold Inner.dirLookup
  rw [bind_assoc]
  refine Asks.bind ((h.parseDir hs hk).mono (fun _ hdir ↦ hdir) hnone) ?_
  intro entries t ht hdir
  exact Asks.pure_bind (hsome entries t ht hdir)

/-! ## The walk -/

variable {args : WalkArgs} {follow : ℕ → UnixPath → Fs Resolved} {found : ℕ → UnixPath → Option Resolved}

theorem walkFrom (hroot : args.root < limit)
    (hfollow : ∀ dir path t, V t → dir < limit →
      Asks H V (follow dir path) t (fun r ↦ r.Under limit ∧ found dir path = some r) (found dir path = none))
    (comps : List Component) : ∀ (dir : ℕ) (s : Inner), V s → dir < limit →
    Asks H V (Inner.walkFrom args follow 0 dir comps) s
      (fun r ↦ r.Under limit ∧ f.walkFrom perm args found dir comps = some r)
      (f.walkFrom perm args found dir comps = none) := by
  induction comps with
  | nil => exact fun dir s hs hdir ↦ Asks.pure hs ⟨Resolved.under_some [] hdir hdir, rfl⟩
  | cons c rest ih =>
    intro dir s hs hdir
    cases c with
    | rootDir => exact ih args.root s hs hroot
    | curDir => exact ih dir s hs hdir
    | parentDir =>
      unfold Inner.walkFrom
      refine h.getInode hs hdir (fun hnone ↦ Nodes.walkFrom_none hnone _ (Or.inl rfl) rest) fun i n t ht hn hshows ↦ ?_
      rw [Nodes.walkFrom_parentDir hn]
      refine h.accessOk ht hshows (fun hno ↦ if_neg hno) fun hyes ↦ ?_
      rw [if_pos hyes]
      have hnext : ∀ (up : ℕ) (u : Inner), V u → up < limit →
          Asks H V (if rest = [] then pure ⟨up, dotdotName, some up⟩ else Inner.walkFrom args follow 0 up rest : Fs Resolved)
            u
            (fun r ↦ r.Under limit ∧ (if rest = [] then some ⟨up, dotdotName, some up⟩ else
              f.walkFrom perm args found up rest) = some r)
            ((if rest = [] then some ⟨up, dotdotName, some up⟩ else f.walkFrom perm args found up rest) = none) := by
        intro up u hu hup
        split_ifs
        · exact Asks.pure hu ⟨Resolved.under_some _ hup hup, rfl⟩
        · exact ih up u hu hup
      unfold Nodes.parentOf
      by_cases hne : dir ≠ args.root
      · rw [if_pos hne, if_pos hne]
        refine h.dirLookup ht hdir (fun hnone ↦ by rw [hnone]; rfl) fun entries u hu hentries ↦ ?_
        rw [hentries]
        refine Asks.pure_bind (hnext _ u hu ?_)
        cases hup : entryNamed entries dotdotName with
        | none => exact hdir
        | some v => exact h.below dir entries _ v hentries hup
      · rw [if_neg hne, if_neg hne]
        exact Asks.pure_bind (hnext dir t ht hdir)
    | normal name =>
      unfold Inner.walkFrom
      refine h.getInode hs hdir (fun hnone ↦ Nodes.walkFrom_none hnone _ (Or.inr ⟨name, rfl⟩) rest)
        fun i n t ht hn hshows ↦ ?_
      rw [Nodes.walkFrom_normal hn]
      rw [hshows.isDir]
      by_cases hfile : n.isDir = false
      · rw [if_pos hfile]
        have hnone : f.dir dir = none := (Nodes.dir_of_some hn).trans (Node.entries_of_file hfile)
        refine Asks.throw ht ?_
        rw [hnone]
        exact ite_self _
      rw [if_neg hfile]
      refine h.accessOk ht hshows (fun hno ↦ if_neg hno) fun hyes ↦ ?_
      rw [if_pos hyes]
      refine h.dirLookup ht hdir (fun hnone ↦ by rw [hnone]; rfl) fun entries u hu hentries ↦ ?_
      rw [hentries]
      dsimp only [Option.bind_some]
      cases hentry : entryNamed entries name with
      | none =>
        dsimp only
        split_ifs
        · exact Asks.pure hu ⟨⟨hdir, fun _ hnone ↦ by cases hnone⟩, rfl⟩
        · exact Asks.throw hu rfl
      | some entry =>
        obtain ⟨ino, ft⟩ := entry
        have hino : ino < limit := h.below dir entries name (ino, ft) hentries hentry
        dsimp only
        refine h.getInode hu hino (fun hnone ↦ by rw [hnone]; rfl) fun child c v hv hc hchild ↦ ?_
        rw [hc]
        dsimp only [Option.bind_some]
        rw [hchild.isSymlink]
        split_ifs with hfollows hhops hlast
        · exact absurd hhops (by decide)
        · refine Asks.bind ((h.readAll hv hc hchild).mono (fun _ hdata ↦ hdata) False.elim) ?_
          rintro _ w hw rfl
          rw [hchild.size, resizeBytes_self]
          exact hfollow dir _ w hw hdir
        · exact Asks.pure hv ⟨Resolved.under_some name hdir hino, rfl⟩
        · exact ih ino v hv hino

/-- The walk of the filesystem is the walk of the nodes. -/
theorem walk (hroot : args.root < limit) (depth : ℕ) : ∀ (cwd : ℕ) (path : UnixPath) (s : Inner), V s → cwd < limit →
    Asks H V (Inner.walk args depth cwd path) s (fun r ↦ r.Under limit ∧ f.walk perm args depth cwd path = some r)
      (f.walk perm args depth cwd path = none) := by
  induction depth with
  | zero => exact fun _ _ _ _ _ ↦ Or.inr rfl
  | succ depth ih =>
    intro cwd path s hs hcwd
    unfold Inner.walk Nodes.walk
    by_cases hempty : path = []
    · rw [if_pos hempty, if_pos hempty]
      exact Asks.throw hs rfl
    rw [if_neg hempty, if_neg hempty]
    have hdir : (if UnixPath.isAbsolute path then args.root else cwd) < limit := by
      split_ifs
      · exact hroot
      · exact hcwd
    dsimp only
    by_cases hnone : UnixPath.components path = []
    · rw [if_pos hnone, if_pos hnone]
      exact Asks.pure hs ⟨Resolved.under_some [] hroot hdir, rfl⟩
    rw [if_neg hnone, if_neg hnone]
    exact h.walkFrom hroot (fun dir path t ht hdir ↦ ih dir path t ht hdir) _ _ s hs hdir

end Reader

/-! ## Reading an open file -/

namespace Reader

variable {f : Nodes} {perm : Bool} {limit : ℕ} (h : Reader H f V perm limit) {file : File}

include h

theorem fileRead (hs : V s) (hread : file.readable = true) (hn : f file.ino = some n) (hpos : file.pos ≤ maxFileSize)
    (count : ℕ) : Asks H V (file.read count) s
      (fun part ↦ part.1 = PlainFile.read n.bytes file.pos count ∧
        part.2 = { file with pos := file.pos + part.1.length }) False := by
  unfold File.read File.requireRead
  rw [if_pos hread, pure_bind]
  refine (h.data s file.ino n file.pos count hs hn).bind ?_
  intro data t ht hdata
  have hsum : ¬u64Limit ≤ file.pos + data.length := by
    have hle := PlainFile.read_end_le n.bytes count hpos (h.size file.ino n hn)
    rw [← hdata] at hle
    exact not_le.mpr (hle.trans_lt (by decide))
  unfold addU64
  rw [if_neg hsum, pure_bind]
  exact Asks.pure ht ⟨hdata, rfl⟩

/-- Reading to the end gives the bytes behind the position; a round for each of them and one more is enough. -/
theorem readToEnd {sizes : ℕ → ℕ} (hsizes : ∀ m, 0 < sizes m) (rounds : ℕ) : ∀ (m : ℕ) (file : File) (s : Inner), V s →
    file.readable = true → f file.ino = some n → file.pos ≤ maxFileSize → (H ∨ n.bytes.length - file.pos < rounds) →
    Asks H V (File.readToEnd sizes rounds m file) s (fun data ↦ data = n.bytes.drop file.pos) False := by
  induction rounds with
  | zero => exact fun _ _ _ _ _ _ _ hrounds ↦ Or.inl (hrounds.resolve_right (Nat.not_lt_zero _))
  | succ rounds ih =>
    intro m file s hs hread hn hpos hrounds
    unfold File.readToEnd
    refine (h.fileRead hs hread hn hpos (sizes m)).bind ?_
    rintro ⟨data, next⟩ t ht ⟨hdata, hnext⟩
    dsimp only at hdata hnext ⊢
    by_cases hempty : data = []
    · rw [if_pos hempty]
      refine Asks.pure ht ?_
      rw [hempty] at hdata
      have hlen := congrArg List.length hdata
      unfold PlainFile.read at hlen
      rw [List.length_nil, List.length_take] at hlen
      have hpos := hsizes m
      exact (List.length_eq_zero_iff.mp (by omega)).symm
    · rw [if_neg hempty]
      have hnode : f next.ino = some n := by
        rw [hnext]
        exact hn
      have hreadable : next.readable = true := by
        rw [hnext]
        exact hread
      have hend : file.pos + data.length ≤ maxFileSize := by
        rw [hdata]
        exact PlainFile.read_end_le n.bytes (sizes m) hpos (h.size file.ino n hn)
      have hpos' : next.pos = file.pos + data.length := by rw [hnext]
      have hshorter : H ∨ n.bytes.length - next.pos < rounds := by
        refine hrounds.imp_right fun hlt ↦ ?_
        have hsome := List.length_pos_iff.mpr hempty
        have hin := congrArg List.length hdata
        unfold PlainFile.read at hin
        rw [List.length_take, List.length_drop] at hin
        omega
      refine (ih (m + 1) next t ht hreadable hnode (hpos'.trans_le hend) hshorter).bind ?_
      intro rest u hu hrest
      refine Asks.pure hu ?_
      have hprefix : data <+: n.bytes.drop file.pos := by
        rw [hdata]
        exact List.take_prefix _ _
      rw [hrest, hnext, ← List.drop_drop]
      exact List.prefix_iff_eq_append.mp hprefix

end Reader

/-! ## While nothing changes -/

theorem Sound.shows (h : s.Sound) {i : Inode} (hi : s.inodes.find? k = some i) :
    i.Shows k (i.toNode (s.contents k)) :=
  ⟨(h.inv.numbered.keys k i hi).2.2, rfl, rfl, rfl, rfl, rfl, (contents_length hi).symm⟩

/-- No file is larger than the largest. -/
theorem Sound.bytes_le (h : s.Sound) (hn : s.node k = some n) : n.bytes.length ≤ maxFileSize := by
  obtain ⟨i, hi, rfl⟩ := mem_of_node hn
  exact (contents_length hi).trans_le (h.wf hi).size_le

/-- The states reached from a sound one by calls that leave the nodes as they are. -/
theorem Sound.reader (h : s.Sound) (hbelow : s.NamesBelow) :
    Reader True s.node (fun t ↦ Steady s t ∧ t.node = s.node) s.checkPerm s.sb.nextInode where
  perm t ht := ht.1.checkPerm
  below _ _ _ _ hdir hentry := hbelow.lookup hdir hentry
  size _ _ hn := h.bytes_le hn
  inode t k := by
    rintro ⟨ht, hnode⟩ hk
    apply Asks.of_holds
    refine Exec.Holds.mono (ht.sound.getInode_finds (ht.next hk)) ?_ ?_
    · rintro i u ⟨hi, rfl⟩
      refine ⟨⟨ht, hnode⟩, _, ?_, ht.sound.shows hi⟩
      rw [← hnode]
      exact node_of_mem hi
    · rintro e u (he | ⟨hi, hu⟩)
      · exact Or.inl he
      · refine Or.inr ⟨⟨ht.trans hu.kept, hu.node.trans hnode⟩, ?_⟩
        rw [← hnode]
        exact node_eq_none.mpr hi
  data t k n off count := by
    rintro ⟨ht, hnode⟩ hn
    rw [← hnode] at hn
    obtain ⟨i, hi, rfl⟩ := mem_of_node hn
    apply Asks.of_holds
    refine Exec.Holds.mono (readData_contents ht.sound hi off count) ?_ fun _ _ he ↦ Or.inl he
    rintro data u ⟨hdata, hu, hsame⟩
    exact ⟨⟨ht.trans ⟨hu, hsame.shell⟩, hsame.node.trans hnode⟩, hdata⟩

/-- The walk of the mounted filesystem is the walk of its namespace. -/
theorem walk_computes {args : WalkArgs} (depth : ℕ) (cwd : ℕ) (path : UnixPath) (s : Inner) (h : s.Sound)
    (hbelow : s.NamesBelow) (hroot : args.root < s.sb.nextInode) (hcwd : cwd < s.sb.nextInode) :
    Acts (walk args depth cwd path) s
      (fun r g ↦ g = s.node ∧ s.node.walk s.checkPerm args depth cwd path = some r)
      (fun g ↦ g = s.node ∧ s.node.walk s.checkPerm args depth cwd path = none) := by
  refine Exec.Holds.mono ((h.reader hbelow).walk hroot depth cwd path s ⟨h.kept, rfl⟩ hcwd).holds ?_ ?_
  · rintro r t ⟨⟨ht, hnode⟩, -, hr⟩
    exact ⟨ht, hnode, hr⟩
  · rintro e t (he | ⟨⟨ht, hnode⟩, hr⟩)
    · exact Or.inl he
    · exact Or.inr ⟨ht, hnode, hr⟩

end Inner

end LinuxFile
