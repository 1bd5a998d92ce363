import LinuxFile.Spec.Pruned
import LinuxFile.Theorems.FilesByPath

/-!
# Removing by path

Any number of calls of `unlink` and `rmdir` only ever take away what they are asked to: no path leads anywhere it did
not lead before, and a file that still has a path is the file it was.
-/

namespace LinuxFile

namespace Inner

variable {s t : Inner} {depth : ℕ} {calls : List (Inner × PathRemoval)}

/-! ## Runs of removals -/

/-- What a call of the run has done, seen from the end of the run. -/
structure Taken (depth : ℕ) (t : Inner) (call : Inner × PathRemoval) : Prop where
  removed : ∀ u, call.2.exec depth call.1 = .ok () u → Removes call.1.node depth call.2 u ∧ u.node.Pruned t.node
  refused : ∀ e u, call.2.exec depth call.1 = .err e u → u.node = call.1.node

theorem removals_prune (hrun : Exec.Runs (PathRemoval.exec depth) s calls t) (h : s.Rooted)
    (hunhurt : ∀ call ∈ calls, ∀ e u, call.2.exec depth call.1 = .err e u → ¬e.IsHost) :
    t.Rooted ∧ s.node.Pruned t.node ∧ ∀ call ∈ calls, Taken depth t call := by
  induction hrun with
  | nil s => exact ⟨h, .refl s.node, fun call hcall ↦ absurd hcall List.not_mem_nil⟩
  | @cons call rest s t u hends hrest ih =>
    have hcall := removal_leaves h depth call
    have hremoves : ∀ v, call.exec depth s = .ok () v → Removes s.node depth call v :=
      fun v hok ↦ (Exec.Holds.of_ok hcall hok).2
    have hrefused : ∀ e v, call.exec depth s = .err e v → Onward s v ∧ v.node = s.node := by
      intro e v herr
      exact (Exec.Holds.of_err hcall herr).resolve_left (hunhurt (s, call) List.mem_cons_self e v herr)
    have hnext : t.Rooted ∧ s.node.Pruned t.node := by
      rcases hends with ⟨value, hok⟩ | ⟨e, herr⟩
      · exact ⟨(hremoves t hok).rooted, (hremoves t hok).pruned⟩
      · obtain ⟨hon, hnode⟩ := hrefused e t herr
        refine ⟨h.kept hon hnode, ?_⟩
        rw [hnode]
        exact .refl s.node
    obtain ⟨hlast, hpruned, hall⟩ := ih hnext.1 fun later hlater ↦ hunhurt later (List.mem_cons_of_mem _ hlater)
    refine ⟨hlast, hnext.2.trans hpruned, fun other hother ↦ ?_⟩
    rcases List.mem_cons.mp hother with rfl | hother
    · refine ⟨fun v hok ↦ ⟨hremoves v hok, ?_⟩, fun e v herr ↦ (hrefused e v herr).2⟩
      have hsame : v = t := by
        rcases hends with ⟨value, hok'⟩ | ⟨e, herr⟩
        · rw [show call.exec depth s = _ from hok] at hok'
          cases hok'
          rfl
        · rw [show call.exec depth s = _ from hok] at herr
          cases herr
      rw [hsame]
      exact hpruned
    · exact hall other hother

/-- The run has taken away the names it was asked to and left everything else; what has a path is read as before. -/
structure Pared (depth : ℕ) (s : Inner) (calls : List (Inner × PathRemoval)) (t : Inner) : Prop where
  paths : t.node.KeepsPaths s.node
  files : ∀ more path k, t.node.leads more path true = some k → ∃ n n', s.node k = some n ∧ t.node k = some n' ∧
    n.Spared n' ∧ (n.isDir = false → ∀ sizes rounds, (∀ m, 0 < sizes m) → n.bytes.length < rounds →
      Replies (Facade.read more sizes rounds path) t (· = n.bytes))
  removed : ∀ call ∈ calls, (∃ u, call.2.exec depth call.1 = .ok () u) →
    (∃ k n, call.1.node.leads depth call.2.path false = some k ∧ call.1.node k = some n ∧ n.isDir = call.2.dir ∧
      (call.2.dir = true → ∀ name, Proper name → call.1.node.lookup k name = none)) ∧
    ∀ more, t.node.leads more call.2.path false = none ∧
      (Facade.find more call.2.path false).Holds t (fun _ _ ↦ False) (fun _ _ ↦ True)
  refused : ∀ call ∈ calls, ∀ e u, call.2.exec depth call.1 = .err e u → u.node = call.1.node

/-- A run of `unlink` and `rmdir`, in any order: `unlink` takes only what is no directory, `rmdir` only what is an
empty one, the paths of the calls that return lead nowhere from then on, and a call that fails has changed nothing.
A file with other names keeps its bytes under them. -/
theorem removals_only_remove (h : s.Charted) (hrun : Exec.Runs (PathRemoval.exec depth) s calls t)
    (hunhurt : ∀ call ∈ calls, ∀ e u, call.2.exec depth call.1 = .err e u → ¬e.IsHost) : Pared depth s calls t := by
  obtain ⟨ht, hpruned, hall⟩ := removals_prune hrun h.rooted hunhurt
  have hshape := h.rooted.tree.toShape
  refine ⟨hpruned.keepsPaths hshape, fun more path k hk ↦ ?_, fun call hcall hreturns ↦ ?_, fun call hcall ↦
    (hall call hcall).refused⟩
  · obtain ⟨n', hn'⟩ := ht.live hk
    obtain ⟨n, hn, hspared⟩ := hpruned.node k n' hn'
    refine ⟨n, n', hn, hn', hspared, fun hfile sizes rounds hsizes hrounds ↦ ?_⟩
    rw [← hspared.bytes hfile] at hrounds ⊢
    exact read_replies ht hsizes hk hn' hrounds
  · obtain ⟨u, hu⟩ := hreturns
    obtain ⟨hremoves, hlater⟩ := (hall call hcall).removed u hu
    have hgone : ∀ more, t.node.leads more call.2.path false = none := by
      intro more
      cases hleads : t.node.leads more call.2.path false with
      | none => rfl
      | some k =>
        have hback := (hlater.keepsPaths hremoves.rooted.tree.toShape).leads hleads
        rw [hremoves.gone more] at hback
        cases hback
    refine ⟨hremoves.target, fun more ↦ ⟨hgone more,
      Exec.Holds.mono (find_leaves ht more call.2.path false) ?_ fun _ _ _ ↦ trivial⟩⟩
    intro k v hfound
    have hsome := hfound.2.2
    rw [hgone more] at hsome
    cases hsome

/-- The file `b/g` loses its other name `a/f`, and the directory `b/d` goes. -/
def takeAway : List PathRemoval := [⟨[slash, 0x61, slash, 0x66], false⟩, ⟨[slash, 0x62, slash, 0x64], true⟩]

theorem removals_only_remove_sample : ∃ (s t u : Inner) (calls : List (Inner × PathRemoval)) (n : Node), s.Charted ∧
    Exec.Runs (PathRemoval.exec 1) s calls t ∧ calls.map Prod.snd = takeAway ∧ Pared 1 s calls t ∧
    t.node.leads 1 oldPath true = some 5 ∧ s.node 5 = some n ∧ n.bytes.length = 3 ∧
    Facade.read 1 (fun _ ↦ 1) 4 oldPath t = .ok n.bytes u := by
  have hplay : (sampleCalls (moveAbout.take 6 ++ [.writeData 5 0 [1, 2, 3]])).okAnd (fun calls s ↦
      (calls.all fun call ↦ call.2.regular call.1 && call.1.fits call.2) &&
        (s.spacious && (Exec.play (PathRemoval.exec 1) takeAway s).okAnd fun _ t ↦
          decide (t.node.leads 1 oldPath true = some 5) &&
            (t.ready && (s.node 5).any fun n ↦ n.isDir == false && n.bytes.length == 3))) = true := by
    decide +kernel
  obtain ⟨s, hs, -, htest⟩ := sampleCalls_spacious hplay
  obtain ⟨calls, t, hplayed, htest⟩ := Outcome.exists_of_okAnd htest
  rw [Bool.and_eq_true, Bool.and_eq_true, decide_eq_true_eq, Option.any_eq_true] at htest
  obtain ⟨hleads, hready, n, hn, hfile⟩ := htest
  rw [Bool.and_eq_true, beq_iff_eq, beq_iff_eq] at hfile
  obtain ⟨hruns, hcalls⟩ := Exec.runs_of_play hplayed
  have hreturns := Exec.returns_of_play hplayed
  have hpared : Pared 1 s calls t := by
    refine removals_only_remove hs hruns ?_
    intro call hcall e u herr
    obtain ⟨value, v, hok⟩ := hreturns call hcall
    rw [hok] at herr
    cases herr
  obtain ⟨n₁, -, hn₁, -, -, hreads⟩ := hpared.files 1 oldPath 5 hleads
  rw [hn] at hn₁
  cases hn₁
  have hreply := hreads hfile.1 (fun _ ↦ 1) 4 (fun _ ↦ Nat.zero_lt_one) (by rw [hfile.2]; decide)
  obtain ⟨_, u, hread, rfl⟩ := hreply.returns (.of_test hready)
  exact ⟨s, t, u, calls, n, hs, hruns, hcalls, hpared, hleads, hn, hfile.2, hread⟩

end Inner

end LinuxFile
