import LinuxFile.Queries
import LinuxFile.Spec.OpenFile

/-!
# The calls that only look, on the nodes

What each call answers is a function of the nodes. Wherever inodes and files read as the nodes say, and opening a file
does no harm, a run of such calls gives these answers; a running filesystem is one such place.
-/

namespace LinuxFile

/-- A question about the node at the end of a path. -/
def Nodes.ask {α : Type} (f : Nodes) (depth : ℕ) (path : UnixPath) (follow : Bool) (g : ℕ → Node → Option α) : Option α :=
  (f.leads depth path follow).bind fun k ↦ (f k).bind (g k)

theorem Nodes.ask_eq {α : Type} {f : Nodes} {depth : ℕ} {path : UnixPath} {follow : Bool} {k : ℕ} {n : Node}
    (hk : f.leads depth path follow = some k) (hn : f k = some n) (g : ℕ → Node → Option α) :
    f.ask depth path follow g = g k n := by
  unfold ask
  rw [hk, Option.bind_some, hn, Option.bind_some]

theorem Nodes.ask_none {α : Type} {f : Nodes} {depth : ℕ} {path : UnixPath} {follow : Bool}
    (h : ∀ k, f.leads depth path follow = some k → f k = none) (g : ℕ → Node → Option α) :
    f.ask depth path follow g = none := by
  unfold ask
  cases hk : f.leads depth path follow with
  | none => rfl
  | some k => rw [Option.bind_some, h k hk, Option.bind_none]

/-- What a call finds on the nodes, if it finds anything. -/
def Query.answer (depth : ℕ) (f : Nodes) : Query → Option Answer
  | find path follow => (f.leads depth path follow).map .inode
  | stat path follow => f.ask depth path follow fun k n ↦ some (.attributes k n.mode n.nlink n.uid n.gid n.bytes.length)
  | readLink path => f.ask depth path false fun _ n ↦
      if (FileType.fromMode n.mode).isSymlink then some (.bytes n.bytes) else none
  | readDir path => f.ask depth path true fun _ n ↦ n.entries.map .entries
  | getxattr path name => f.ask depth path true fun _ n ↦
      ((n.xattr.find? (fun a ↦ a.1 == name)).map Prod.snd).map .bytes
  | listxattr path => f.ask depth path true fun _ n ↦ some (.names (n.xattr.map Prod.fst))
  | read path _ _ => f.ask depth path true fun _ n ↦ some (.bytes n.bytes)

/-- A call that reads a file has more rounds than the file has bytes. -/
def Query.Enough (depth : ℕ) (f : Nodes) : Query → Prop
  | read path _ rounds => ∀ k n, f.leads depth path true = some k → f k = some n → n.bytes.length < rounds
  | _ => True

/-- A run of calls answers, whatever its calls do. -/
theorem Query.runAll_answers (depth : ℕ) (queries : List Query) : ∀ s,
    (runAll depth queries).Holds s (fun _ _ ↦ True) (fun _ _ ↦ False) := by
  induction queries with
  | nil => exact fun _ ↦ trivial
  | cons q rest ih =>
    intro s
    unfold runAll
    rw [Exec.holds_bind, Exec.holds_attempt]
    have hrest : ∀ (first : Except Error Answer) (t : Inner),
        Exec.Holds (do let others ← runAll depth rest; pure (first :: others)) t (fun _ _ ↦ True) (fun _ _ ↦ False) :=
      fun first t ↦ (ih t).bind (fun _ _ _ ↦ trivial) fun _ _ hf ↦ hf
    exact Exec.holds_of_forall (fun a t _ ↦ hrest (.ok a) t) fun e t _ ↦ hrest (.error e) t

namespace Inner

variable {α β : Type} {s t : Inner} {k : ℕ} {n : Node} {f : Nodes} {H : Prop} {V : Option ℕ → Inner → Prop} {perm : Bool}
  {limit : ℕ}

theorem Asks.map {V : Inner → Prop} {x : Fs α} {g : α → β} {Q : α → Prop} {R : β → Prop} {E : Prop} (h : Asks H V x s Q E)
    (hg : ∀ a, Q a → R (g a)) : Asks H V (g <$> x) s R E := by
  rw [map_eq_pure_bind]
  exact h.bind fun a t ht hq ↦ Asks.pure ht (hg a hq)

theorem Asks.of_map {V : Inner → Prop} {x : Fs α} {g : α → β} {Q : β → Prop} {E : Prop} (h : Asks H V (g <$> x) s Q E) :
    Asks H V x s (fun a ↦ Q (g a)) E := by
  rw [map_eq_pure_bind] at h
  unfold Asks at h
  rw [Exec.meets_bind] at h
  exact h

/-! ## Calls by path -/

/-- States of `V none` in which calls by path find what the nodes say; a file `k` that is opened leads into `V (some k)`
and back when it is closed. -/
structure Visitor (H : Prop) (f : Nodes) (V : Option ℕ → Inner → Prop) (perm : Bool) (limit : ℕ) : Prop where
  reader : ∀ o, Reader H f (V o) perm limit
  root : ∃ n, f rootIno = some n ∧ n.isDir = true
  root_lt : rootIno < limit
  linked : ∀ depth path follow k n, f.leads depth path follow = some k → f k = some n → n.nlink ≠ 0
  opens : ∀ s k, V none s → Asks H (V (some k)) (incOpen k) s (fun _ ↦ True) False
  closes : ∀ s k n, V (some k) s → f k = some n → n.nlink ≠ 0 →
    (decOpen k).Meets s (fun _ t ↦ V none t) (fun _ _ ↦ False) H

namespace Visitor

variable (h : Visitor H f V perm limit) {depth : ℕ} {path : UnixPath} {follow : Bool}

include h

theorem lookUp (hs : V none s) : Asks H (V none) (Facade.lookUp depth path follow) s
    (fun r ↦ r.Under limit ∧ f.found depth path follow = some r) (f.found depth path follow = none) := by
  unfold Facade.lookUp Nodes.found
  rw [Nodes.walk_root (.refl f) h.root true perm depth]
  exact (h.reader none).walk h.root_lt depth rootIno path s hs h.root_lt

theorem find (hs : V none s) : Asks H (V none) (Facade.find depth path follow) s
    (fun k ↦ k < limit ∧ f.leads depth path follow = some k) (f.leads depth path follow = none) := by
  unfold Facade.find
  refine Asks.bind ((h.lookUp hs).mono (fun _ hr ↦ hr) fun hnone ↦ ?_) ?_
  · unfold Nodes.leads
    rw [hnone, Option.bind_none]
  · rintro r t ht ⟨hunder, hfound⟩
    rw [Nodes.leads_of_found hfound]
    cases hino : r.ino with
    | some k => exact Asks.pure ht ⟨hunder.ino k hino, rfl⟩
    | none => exact Asks.throw ht rfl

/-- A call on the inode at the end of a path answers a question about its node. -/
theorem onPath {x : ℕ → Fs α} {g : ℕ → Node → Option α} (hs : V none s)
    (hx : ∀ k t, V none t → k < limit →
      Asks H (V none) (x k) t (fun a ↦ (f k).bind (g k) = some a) ((f k).bind (g k) = none)) :
    Asks H (V none) (Facade.onPath depth path follow x) s (fun a ↦ f.ask depth path follow g = some a)
      (f.ask depth path follow g = none) := by
  unfold Facade.onPath
  refine Asks.bind ((h.find hs).mono (fun _ hk ↦ hk) fun hnone ↦ ?_) ?_
  · unfold Nodes.ask
    rw [hnone, Option.bind_none]
  · rintro k t ht ⟨hlt, hk⟩
    unfold Nodes.ask
    rw [hk, Option.bind_some]
    exact hx k t ht hlt

theorem onInode {x : ℕ → Fs α} {y : ℕ → Inode → Fs β} {w : β → α} {g : ℕ → Node → Option α} (hs : V none s)
    (hx : ∀ k, x k = w <$> (getInode k >>= y k))
    (hy : ∀ k i n t, V none t → f k = some n → i.Shows k n →
      Asks H (V none) (y k i) t (fun b ↦ g k n = some (w b)) (g k n = none)) :
    Asks H (V none) (Facade.onPath depth path follow x) s (fun a ↦ f.ask depth path follow g = some a)
      (f.ask depth path follow g = none) := by
  refine h.onPath hs fun k t ht hk ↦ ?_
  rw [hx, map_bind]
  refine (h.reader none).getInode ht hk (fun hnone ↦ ?_) fun i n u hu hn hshows ↦ ?_
  · rw [hnone, Option.bind_none]
  · rw [hn, Option.bind_some]
    exact (hy k i n u hu hn hshows).map fun _ hb ↦ hb

/-- Using an open file and closing it again. -/
theorem during {file : File} {x : Fs α} {Q : α → Prop} {E : Prop} (hx : Asks H (V (some file.ino)) x s Q E)
    (hn : f file.ino = some n) (hlinks : n.nlink ≠ 0) : Asks H (V none) (file.during x) s Q E := by
  have hdrop : ∀ t, V (some file.ino) t → file.drop.Meets t (fun _ u ↦ V none u) (fun _ _ ↦ False) H := by
    intro t ht
    unfold File.drop
    rw [Exec.meets_bind, Exec.meets_attempt]
    exact (h.closes t file.ino n ht hn hlinks).mono (fun _ _ hu ↦ hu) (fun _ _ hf ↦ hf.elim) fun hp ↦ hp
  unfold File.during Asks
  rw [Exec.meets_bind, Exec.meets_attempt]
  refine Exec.Meets.mono hx ?_ ?_ fun hp ↦ hp
  · rintro a t ⟨ht, hq⟩
    refine Exec.Meets.bind (hdrop t ht) ?_ (fun _ _ hf ↦ hf.elim) Or.inl
    exact fun _ u hu ↦ ⟨hu, hq⟩
  · rintro e t (⟨hlenient, he⟩ | ⟨ht, hfails⟩)
    · refine Exec.Meets.bind ((File.drop_answers file t).meets fun _ ↦ hlenient) ?_ (fun _ _ hf ↦ hf.elim) Or.inl
      exact fun _ _ _ ↦ Or.inl ⟨hlenient, he.viaIo⟩
    · refine Exec.Meets.bind (hdrop t ht) ?_ (fun _ _ hf ↦ hf.elim) Or.inl
      exact fun _ u hu ↦ Or.inr ⟨hu, hfails⟩

/-- A file that was opened for reading. -/
theorem openFile {g : File → Fs β} {R : β → Prop} {E : Prop} (hs : V none s)
    (hmissing : (∀ k, f.leads depth path true = some k → f k = none) → E)
    (hopen : ∀ file n t, V (some file.ino) t → file.readable = true → file.pos = 0 →
      f.leads depth path true = some file.ino → f file.ino = some n → Asks H (V none) (g file) t R E) :
    Asks H (V none) (Facade.openFile depth path >>= g) s R E := by
  have hread : (({ OpenOptions.new with read := true } : OpenOptions).asFlags &&& oAccmode != oWronly) = true := by
    decide
  have hlook : Asks H (V none) (Facade.lookUp depth path true) s
      (fun r ↦ r.Under limit ∧ f.found depth path true = some r) (f.found depth path true = none) := h.lookUp hs
  unfold Facade.openFile Facade.openOpts
  rw [bind_assoc]
  refine Asks.bind (hlook.mono (fun _ hr ↦ hr) fun hnone ↦ hmissing fun k hk ↦ ?_) ?_
  · unfold Nodes.leads at hk
    rw [hnone] at hk
    cases hk
  rintro r t ht ⟨hunder, hfound⟩
  have hleads := Nodes.leads_of_found hfound
  unfold Facade.openTarget
  cases hino : r.ino with
  | none =>
    refine Asks.throw ht (hmissing fun k hk ↦ ?_)
    rw [hleads, hino] at hk
    cases hk
  | some k =>
    rw [hino] at hleads
    dsimp only
    unfold Facade.openExisting
    rw [if_neg (by decide), bind_assoc, bind_assoc, bind_assoc]
    refine (h.reader none).getInode ht (hunder.ino k hino) (fun hnone ↦ hmissing fun j hj ↦ ?_) fun i n u hu hn _ ↦ ?_
    · rw [hleads] at hj
      cases hj
      exact hnone
    · rw [if_neg (fun hdir ↦ absurd hdir.1 (by decide)), if_neg (fun hdir ↦ absurd hdir.2.1 (by decide)),
        if_neg (by decide), pure_bind, pure_bind, bind_assoc]
      refine Exec.Meets.bind (h.opens u k hu) ?_ ?_ ?_
      · rintro _ v ⟨hv, -⟩
        exact Asks.pure_bind (hopen ⟨k, _, 0⟩ n v hv hread rfl hleads hn)
      · rintro e v (he | ⟨-, hf⟩)
        · exact Or.inl he
        · exact hf.elim
      · exact fun hp ↦ Or.inl (hp.resolve_right id)

/-- The bytes of the file, if there are rounds enough for them. -/
theorem read {sizes : ℕ → ℕ} (hsizes : ∀ m, 0 < sizes m) {rounds : ℕ} (hs : V none s)
    (hrounds : H ∨ ∀ k n, f.leads depth path true = some k → f k = some n → n.bytes.length < rounds) :
    Asks H (V none) (Facade.read depth sizes rounds path) s
      (fun data ↦ ∃ k n, f.leads depth path true = some k ∧ f k = some n ∧ data = n.bytes)
      (∀ k, f.leads depth path true = some k → f k = none) := by
  unfold Facade.read
  refine h.openFile hs id fun file n t ht hread hpos hleads hn ↦ ?_
  have henough : H ∨ n.bytes.length - file.pos < rounds :=
    hrounds.imp_right fun hall ↦ (Nat.sub_le _ _).trans_lt (hall file.ino n hleads hn)
  have hall := (h.reader _).readToEnd hsizes rounds 0 file t ht hread hn (hpos.trans_le (Nat.zero_le _)) henough
  refine (h.during hall hn (h.linked depth path true file.ino n hleads hn)).mono (fun data hdata ↦ ?_) False.elim
  rw [hpos, List.drop_zero] at hdata
  exact ⟨file.ino, n, hleads, hn, hdata⟩

omit h in
theorem map_onPath (w : β → α) (x : ℕ → Fs β) :
    w <$> Facade.onPath depth path follow x = Facade.onPath depth path follow fun k ↦ w <$> x k :=
  map_bind w (Facade.find depth path follow) x

theorem stat (hs : V none s) : Asks H (V none) (Stat.answer <$> Facade.onPath depth path follow statIno) s
    (fun a ↦ (Query.stat path follow).answer depth f = some a) ((Query.stat path follow).answer depth f = none) := by
  rw [map_onPath]
  refine h.onInode hs (fun _ ↦ rfl) fun k i n t ht _ hshows ↦ Asks.pure ht ?_
  unfold Stat.answer
  rw [hshows.ino, hshows.mode, hshows.nlink, hshows.uid, hshows.gid, hshows.size]

theorem readLink (hs : V none s) : Asks H (V none) (Answer.bytes <$> Facade.readLink depth path) s
    (fun a ↦ (Query.readLink path).answer depth f = some a) ((Query.readLink path).answer depth f = none) := by
  unfold Facade.readLink
  rw [map_onPath]
  refine h.onInode hs (fun _ ↦ rfl) fun k i n t ht hn hshows ↦ ?_
  rw [hshows.isSymlink]
  by_cases hlink : (FileType.fromMode n.mode).isSymlink = true
  · rw [if_neg (by rw [hlink]; decide), if_pos hlink]
    refine Asks.bind (((h.reader none).readAll ht hn hshows).mono (fun _ hdata ↦ hdata) False.elim) ?_
    rintro _ u hu rfl
    rw [hshows.size, resizeBytes_self]
    exact Asks.pure hu rfl
  · rw [if_pos (Bool.eq_false_iff.mpr hlink), if_neg hlink]
    exact Asks.throw ht rfl

theorem readDir (hs : V none s) : Asks H (V none) (Answer.entries <$> Facade.readDir depth path) s
    (fun a ↦ (Query.readDir path).answer depth f = some a) ((Query.readDir path).answer depth f = none) := by
  unfold Facade.readDir
  rw [map_onPath]
  refine h.onPath hs fun k t ht hk ↦ ?_
  have hentries : (f k).bind (fun n ↦ n.entries.map Answer.entries) = (f.dir k).map Answer.entries := by
    unfold Nodes.dir
    cases f k with
    | none => rfl
    | some n => rfl
  rw [hentries]
  refine (((h.reader none).parseDir ht hk).map fun entries hdir ↦ ?_).mono (fun _ ha ↦ ha) fun hnone ↦ ?_
  · rw [hdir, Option.map_some]
  · rw [hnone, Option.map_none]

theorem getxattr {name : Bytes} (hs : V none s) : Asks H (V none) (Answer.bytes <$> Facade.getxattr depth path name) s
    (fun a ↦ (Query.getxattr path name).answer depth f = some a)
    ((Query.getxattr path name).answer depth f = none) := by
  unfold Facade.getxattr
  rw [map_onPath]
  refine h.onInode hs (fun _ ↦ rfl) fun k i n t ht _ hshows ↦ ?_
  rw [hshows.xattr]
  cases n.xattr.find? (fun a ↦ a.1 == name) with
  | none => exact Asks.throw ht rfl
  | some a => exact Asks.pure ht rfl

theorem listxattr (hs : V none s) : Asks H (V none) (Answer.names <$> Facade.listxattr depth path) s
    (fun a ↦ (Query.listxattr path).answer depth f = some a) ((Query.listxattr path).answer depth f = none) := by
  unfold Facade.listxattr
  rw [map_onPath]
  refine h.onInode hs (fun _ ↦ rfl) fun k i n t ht _ hshows ↦ Asks.pure ht ?_
  rw [hshows.xattr]

/-- Each call answers as the nodes do. -/
theorem query (hs : V none s) (q : Query) (henough : H ∨ q.Enough depth f) :
    Asks H (V none) (q.exec depth) s (fun a ↦ q.answer depth f = some a) (q.answer depth f = none) := by
  cases q with
  | find path follow =>
    refine ((h.find hs).map fun k hk ↦ ?_).mono (fun _ ha ↦ ha) fun hnone ↦ ?_
    · exact congrArg (Option.map Answer.inode) hk.2
    · exact congrArg (Option.map Answer.inode) hnone
  | stat path follow => exact h.stat hs
  | readLink path => exact h.readLink hs
  | readDir path => exact h.readDir hs
  | getxattr path name => exact h.getxattr hs
  | listxattr path => exact h.listxattr hs
  | read path sizes rounds =>
    have hread : Asks H (V none) (Facade.read depth (fun m ↦ sizes m + 1) rounds path) s
        (fun data ↦ ∃ k n, f.leads depth path true = some k ∧ f k = some n ∧ data = n.bytes)
        (∀ k, f.leads depth path true = some k → f k = none) := h.read (fun m ↦ Nat.succ_pos _) hs henough
    refine (hread.map ?_).mono (fun _ ha ↦ ha) fun hmissing ↦ Nodes.ask_none hmissing _
    rintro _ ⟨k, n, hk, hn, rfl⟩
    exact Nodes.ask_eq hk hn _

/-- A run of calls gives the answers that the nodes give. Only under `H` may the host fail on the way; without it a run
of calls that all have an answer comes to its end. -/
theorem runAll (queries : List Query) : ∀ s, V none s → (H ∨ ∀ q ∈ queries, q.Enough depth f) →
    (Query.runAll depth queries).Meets s
      (fun answers _ ↦ (H ∧ ∃ e, Except.error e ∈ answers ∧ e.IsHost) ∨
        answers.map Except.toOption = queries.map (Query.answer depth f)) (fun _ _ ↦ False)
      (H ∨ ∃ q ∈ queries, q.answer depth f = none) := by
  induction queries with
  | nil => exact fun s _ _ ↦ Or.inr rfl
  | cons q rest ih =>
    intro s hs henough
    have hrest : H ∨ ∀ q' ∈ rest, q'.Enough depth f :=
      henough.imp_right fun hall q' hq' ↦ hall q' (List.mem_cons_of_mem q hq')
    have hlater : (H ∨ ∃ q' ∈ rest, q'.answer depth f = none) → H ∨ ∃ q' ∈ q :: rest, q'.answer depth f = none :=
      Or.imp_right fun ⟨q', hq', hnone⟩ ↦ ⟨q', List.mem_cons_of_mem q hq', hnone⟩
    unfold Query.runAll
    rw [Exec.meets_bind, Exec.meets_attempt]
    refine Exec.Meets.mono (h.query hs q (henough.imp_right fun hall ↦ hall q List.mem_cons_self)) ?_ ?_ ?_
    · rintro a t ⟨ht, ha⟩
      refine Exec.Meets.bind (ih t ht hrest) ?_ (fun _ _ hf ↦ hf.elim) hlater
      rintro others u (⟨hlenient, e, he, hhost⟩ | hall)
      · exact Or.inl ⟨hlenient, e, List.mem_cons_of_mem _ he, hhost⟩
      · right
        rw [List.map_cons, List.map_cons, hall, ha]
        rfl
    · rintro e t (⟨hlenient, hhost⟩ | ⟨ht, hnone⟩)
      · have hothers := (Query.runAll_answers depth rest t).meets fun _ ↦ hlenient
        refine Exec.Meets.bind hothers ?_ (fun _ _ hf ↦ hf.elim) Or.inl
        exact fun _ _ _ ↦ Or.inl ⟨hlenient, e, List.mem_cons_self, hhost⟩
      · refine Exec.Meets.bind (ih t ht hrest) ?_ (fun _ _ hf ↦ hf.elim) hlater
        rintro others u (⟨hlenient, e', he, hhost⟩ | hall)
        · exact Or.inl ⟨hlenient, e', List.mem_cons_of_mem _ he, hhost⟩
        · right
          rw [List.map_cons, List.map_cons, hall, hnone]
          rfl
    · exact Or.imp_right fun hnone ↦ ⟨q, List.mem_cons_self, hnone⟩

end Visitor

/-! ## A running filesystem -/

/-- What is at the end of a path has links. -/
theorem Rooted.nlink_ne_zero (h : s.Rooted) {depth : ℕ} {path : UnixPath} {follow : Bool} (hk : s.node.leads depth path follow = some k)
    (hn : s.node k = some n) : n.nlink ≠ 0 := by
  rw [← Nodes.tree_nlink hn]
  by_cases hdir : FileType.fromMode n.mode = .directory
  · have hkind : s.node.tree.kind k = some .directory := by rw [Nodes.tree_kind hn, hdir]
    have hlinks := h.tree.directories k hkind
    unfold Inner.tree at hlinks
    omega
  · obtain ⟨r, hr, hino⟩ := Option.bind_eq_some_iff.mp hk
    have hkept : s.node.Kept rootIno r := Nodes.walk_within h.tree.toShape depth (Tree.within_root _ _) hr
    exact (hkept.2 k hino).nlink_pos h.tree (Nodes.tree_kind hn) hdir

theorem Rooted.visitor (h : s.Rooted) : Visitor True s.node (fun _ ↦ Unmoved s) s.checkPerm s.sb.nextInode where
  reader _ := h.tidy.reader
  root := h.root_dir
  root_lt := h.root_lt
  linked _ _ _ _ _ hk hn := h.nlink_ne_zero hk hn
  opens t k := by
    rintro ⟨ht, hnode, hperm⟩
    apply Asks.of_holds
    refine Exec.Holds.mono (incOpen_leaves ht.1 k) ?_ ?_
    · rintro _ u ⟨hu, hsame⟩
      exact ⟨⟨ht.trans hu, hsame.node.trans hnode, hsame.checkPerm.trans hperm⟩, trivial⟩
    · rintro e u (he | ⟨-, hf⟩)
      · exact Or.inl he
      · exact hf.elim
  closes t k n := by
    rintro ⟨ht, hnode, hperm⟩ hn hlinks
    rw [← hnode] at hn
    refine ((decOpen_leaves ht.1 hn hlinks).mono ?_ fun _ _ hf ↦ hf).meets fun _ ↦ trivial
    rintro _ u ⟨hu, hsame⟩
    exact ⟨ht.trans hu, hsame.node.trans hnode, hsame.checkPerm.trans hperm⟩

theorem Asks.leaves {x : Fs α} {Q : α → Prop} {E : Prop} (h : Asks H (Unmoved s) x s Q E) :
    Leaves x s (fun a t ↦ t.node = s.node ∧ Q a) (fun t ↦ t.node = s.node ∧ E) := by
  refine Exec.Holds.mono h.holds ?_ ?_
  · rintro a t ⟨⟨ht, hnode, -⟩, hq⟩
    exact ⟨ht, hnode, hq⟩
  · rintro e t (he | ⟨⟨ht, hnode, -⟩, hq⟩)
    · exact Or.inl he
    · exact Or.inr ⟨ht, hnode, hq⟩

end Inner

end LinuxFile
