import LinuxFile.Spec.Attached
import LinuxFile.Theorems.Sample

/-!
# The namespace over whole runs

Names, kinds and link counts of a mounted filesystem make a tree. Every orderly call makes one step of that tree or
leaves it alone, so that the counts of links stay exact, and directories that are attached to the root stay attached
until a call removes them.
-/

namespace LinuxFile

namespace Inner

variable {s t : Inner} {calls : List (Inner × Operation)} {k : ℕ}

/-! ## A run that can be evaluated -/

/-- `Fits` as a test; no flush passes it. -/
def fits (s : Inner) : Operation → Bool
  | .createChild parent .. | .linkInto _ parent .. => ((s.node.dir parent).all fun es ↦ decide (es.length + 1 < 2 ^ 32))
  | .rename _ _ newParent .. => ((s.node.dir newParent).all fun es ↦ decide (es.length + 1 < 2 ^ 32))
  | .dropInode ino => decide (s.tree.nlink ino = 0)
  | .flushAll _ | .sync _ => false
  | _ => true

theorem roomy_of_test {parent : ℕ} (h : ((s.node.dir parent).all fun es ↦ decide (es.length + 1 < 2 ^ 32)) = true) :
    s.node.Roomy parent := by
  intro entries hdir
  rw [hdir, Option.all_some] at h
  exact of_decide_eq_true h

theorem fits_of_test {op : Operation} (h : s.fits op = true) : op.Fits s := by
  cases op with
  | createChild parent name mode uid gid rdev creds => exact roomy_of_test h
  | linkInto target parent name creds => exact roomy_of_test h
  | rename oldParent oldName newParent newName creds => exact roomy_of_test h
  | dropInode ino =>
    have hlinks : s.tree.nlink ino = 0 := of_decide_eq_true h
    exact hlinks
  | flushAll order => cases h
  | sync order => cases h
  | _ => trivial

theorem Orderly.of_test {call : Inner × Operation} (h : (call.2.regular call.1 && call.1.fits call.2) = true)
    (hreturns : ∃ value t, call.2.exec call.1 = .ok value t) : Orderly call := by
  rw [Bool.and_eq_true] at h
  exact ⟨.of_test h.1, .of_returns hreturns, fits_of_test h.2⟩

/-- Orderly calls in the sample filesystem. -/
theorem sampleCalls_orderly {ops : List Operation} {test : List (Inner × Operation) → Inner → Bool}
    (h : (sampleCalls ops).okAnd (fun calls s ↦
      (calls.all fun call ↦ call.2.regular call.1 && call.1.fits call.2) && test calls s) = true) :
    ∃ first calls s, first.Charted ∧ Exec.Runs Operation.exec first calls s ∧ calls.map Prod.snd = ops ∧
      (∀ call ∈ calls, Orderly call) ∧ test calls s = true := by
  obtain ⟨first, calls, s, himage, hrun, hops, hreturns, htest⟩ := sampleCalls_runs h
  rw [Bool.and_eq_true] at htest
  refine ⟨first, calls, s, .created himage, hrun, hops, fun call hcall ↦ ?_, htest.2⟩
  exact .of_test (List.all_eq_true.mp htest.1 call hcall) (hreturns call hcall)

/-- Directories `a`, `b` and `a/c`, a file `a/f` with a second name `b/g`; then `a/c` is moved to `b/d`, and the
first name of the file goes. -/
def moveAbout : List Operation :=
  [.createChild rootIno [0x61] (sIfdir ||| 0o755) 0 0 0 Creds.root,
    .createChild rootIno [0x62] (sIfdir ||| 0o755) 0 0 0 Creds.root,
    .createChild 2 [0x63] (sIfdir ||| 0o755) 0 0 0 Creds.root,
    .createChild 2 [0x66] (sIfreg ||| 0o644) 0 0 0 Creds.root, .linkInto 5 3 [0x67] Creds.root,
    .rename 2 [0x63] 3 [0x64] Creds.root, .unlinkName 2 [0x66] false Creds.root]

/-! ## One call -/

/-- A call that returns does to the tree what the call stands for; one that fails leaves it as it was. -/
theorem call_refines_tree (h : s.Charted) {op : Operation} (hop : Orderly (s, op)) :
    op.exec.Holds s (fun _ t ↦ Tree.Does op s.tree t.tree) (fun _ t ↦ t.tree = s.tree) := by
  have hs := h.rooted
  have htree := Operation.exec_tree hs.tidy hs.tree hop.regular hop.fits
  refine Exec.holds_of_forall (fun value t ht ↦ ?_) (fun e t ht ↦ ?_)
  · exact htree.of_ok ht
  · exact (htree.of_err ht).resolve_left (hop.unhurt e t ht)

/-- The call of `moveAbout` that moves the directory. -/
def moveCall : Operation := .rename 2 [0x63] 3 [0x64] Creds.root

theorem call_refines_tree_sample : ∃ s : Inner, (∃ value t, moveCall.exec s = .ok value t) ∧
    moveCall.exec.Holds s (fun _ t ↦ Tree.Does moveCall s.tree t.tree) (fun _ t ↦ t.tree = s.tree) := by
  have hplay : (sampleCalls (moveAbout.take 5)).okAnd (fun calls s ↦
      (calls.all fun call ↦ call.2.regular call.1 && call.1.fits call.2) && (moveCall.regular s && s.fits moveCall &&
        (moveCall.exec s).okAnd fun _ _ ↦ true)) = true := by
    decide +kernel
  obtain ⟨first, calls, s, hfirst, hrun, -, hcalls, htest⟩ := sampleCalls_orderly hplay
  rw [Bool.and_eq_true] at htest
  obtain ⟨value, t, hreturns, -⟩ := Outcome.exists_of_okAnd htest.2
  have hop : Orderly (s, moveCall) := .of_test htest.1 ⟨value, t, hreturns⟩
  exact ⟨s, ⟨value, t, hreturns⟩, call_refines_tree (hfirst.runs hrun hcalls) hop⟩

/-! ## Whole runs -/

/-- What the calls of a run have to meet for a directory to stay attached. -/
structure Spares (k : ℕ) (call : Inner × Operation) : Prop where
  orderly : Orderly call
  near : call.2.Near call.1.tree
  kept : ¬call.2.Removes call.1.tree k

theorem attached_called (h : s.Rooted) {op : Operation} (hop : Spares k (s, op)) (hk : s.tree.Attached k) :
    op.exec.Holds s (fun _ t ↦ t.Rooted ∧ t.tree.Attached k) (fun _ t ↦ t.Rooted ∧ t.tree.Attached k) := by
  have hrooted := h.called hop.orderly
  have htree := Operation.exec_tree h.tidy h.tree hop.orderly.regular hop.orderly.fits
  refine Exec.holds_of_forall (fun value t ht ↦ ⟨hrooted.of_ok ht, ?_⟩) (fun e t ht ↦ ⟨hrooted.of_err ht, ?_⟩)
  · refine (htree.of_ok ht).attached h.tree hop.near ?_ hk hop.kept
    intro ino heq
    have hfits := hop.orderly.fits
    rw [show op = .dropInode ino from heq] at hfits
    exact hfits
  · have hsame : t.tree = s.tree := (htree.of_err ht).resolve_left (hop.orderly.unhurt e t ht)
    rw [hsame]
    exact hk

/-- No rename detaches a directory: what is attached to the root stays so while no call removes it, `..` leads from it
back to the root, and nothing below it leads back to it. -/
theorem attached_stays (h : s.Charted) (hrun : Exec.Runs Operation.exec s calls t)
    (hcalls : ∀ call ∈ calls, Spares k call) (hk : s.tree.Attached k) :
    t.tree.Attached k ∧ t.tree.kind k = some .directory ∧ (∃ n, t.tree.up^[n] k = rootIno) ∧
      ∀ c, t.tree.Child k c → ¬Relation.ReflTransGen t.tree.Child c k := by
  have hall := hrun.invariant (I := fun s ↦ s.Rooted ∧ s.tree.Attached k) ⟨h.rooted, hk⟩ hcalls
    fun _ _ hs hop ↦ attached_called hs.1 hop hs.2
  obtain ⟨ht, hattached⟩ := hall.1
  obtain ⟨n, hn⟩ := Forest.exists_generations hattached
  exact ⟨hattached, ht.tree.kind_of_attached hattached, ⟨n, ht.tree.climb hn⟩,
    fun c hchild ↦ ht.tree.forest.acyclic hattached hchild⟩

/-- The call moves nothing, or moves to `b` in the root directory. -/
def near (s : Inner) : Operation → Bool
  | .rename _ _ newParent _ _ => decide (s.tree.look rootIno [0x62] = some (newParent, .directory))
  | _ => true

theorem near_of_test {op : Operation} (h : s.near op = true) : op.Near s.tree := by
  cases op with
  | rename oldParent oldName newParent newName creds =>
    intro c _
    exact ⟨1, by decide, .succ .zero ⟨[0x62], by decide, of_decide_eq_true h⟩⟩
  | _ => trivial

/-- The call leaves the directory 4 where it can be found. -/
def spares (s : Inner) : Operation → Bool
  | .unlinkName parent name _ _ => decide (s.tree.look parent name ≠ some (4, .directory))
  | .rename _ _ newParent newName _ => decide (s.tree.look newParent newName ≠ some (4, .directory))
  | _ => true

theorem spares_of_test {op : Operation} (h : s.spares op = true) : ¬op.Removes s.tree 4 := by
  intro hremoves
  cases op with
  | unlinkName parent name rmdir creds => exact of_decide_eq_true h hremoves
  | rename oldParent oldName newParent newName creds => exact of_decide_eq_true h hremoves.1
  | _ => exact hremoves

theorem attached_stays_sample : ∃ s calls t, s.Charted ∧ Exec.Runs Operation.exec s calls t ∧
    calls.map Prod.snd = [moveCall, .unlinkName 2 [0x66] false Creds.root] ∧
    t.tree.look 3 [0x64] = some (4, .directory) ∧ t.tree.Attached 4 ∧ t.tree.kind 4 = some .directory ∧
    (∃ n, t.tree.up^[n] 4 = rootIno) ∧ ∀ c, t.tree.Child 4 c → ¬Relation.ReflTransGen t.tree.Child c 4 := by
  have hplay : (sampleCalls (moveAbout.take 5)).okAnd (fun calls s ↦
      (calls.all fun call ↦ call.2.regular call.1 && call.1.fits call.2) &&
        (decide (s.tree.look rootIno [0x61] = some (2, .directory) ∧ s.tree.look 2 [0x63] = some (4, .directory)) &&
          (Exec.play Operation.exec [moveCall, .unlinkName 2 [0x66] false Creds.root] s).okAnd fun later t ↦
            (later.all fun call ↦ (call.2.regular call.1 && call.1.fits call.2) &&
              (call.1.near call.2 && call.1.spares call.2)) &&
            decide (t.tree.look 3 [0x64] = some (4, .directory)))) = true := by
    decide +kernel
  obtain ⟨first, calls, s, hfirst, hrun, -, hcalls, htest⟩ := sampleCalls_orderly hplay
  rw [Bool.and_eq_true, decide_eq_true_eq] at htest
  obtain ⟨⟨htop, hsub⟩, hlater⟩ := htest
  obtain ⟨later, t, hplay', htest⟩ := Outcome.exists_of_okAnd hlater
  rw [Bool.and_eq_true, decide_eq_true_eq] at htest
  obtain ⟨hruns, hops⟩ := Exec.runs_of_play hplay'
  have hattached : s.tree.Attached 4 :=
    (Relation.ReflTransGen.single ⟨[0x61], by decide, htop⟩).tail ⟨[0x63], by decide, hsub⟩
  have hspares : ∀ call ∈ later, Spares 4 call := by
    intro call hcall
    have hall := List.all_eq_true.mp htest.1 call hcall
    rw [Bool.and_eq_true, Bool.and_eq_true (call.1.near call.2)] at hall
    exact ⟨.of_test hall.1 (Exec.returns_of_play hplay' call hcall), near_of_test hall.2.1, spares_of_test hall.2.2⟩
  have hcharted := hfirst.runs hrun hcalls
  exact ⟨s, later, t, hcharted, hruns, hops, htest.2, attached_stays hcharted hruns hspares hattached⟩

end Inner

end LinuxFile
