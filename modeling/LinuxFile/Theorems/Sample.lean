import LinuxFile.Operations

/-!
# A small filesystem for concrete runs

The options are the smallest `create` accepts, and no host call fails. The codec puts one byte before
its input, so nothing it is given gets shorter.
-/

namespace LinuxFile

def literalLz4 : Lz4 where
  compress data := 0 :: data
  decompress data _ := .ok data.tail
  decompress_compress _ := rfl
  compress_ne_nil _ _ := List.cons_ne_nil _ _

def sampleEnv : Env := ⟨literalLz4, ⟨0, 0⟩⟩

def sampleOptions : CreateOptions where
  journalBlocks := 8
  initialBlocks := 0
  cacheBlocks := 8
  sync := .none
  compression := .off
  recordBlocks := 8

/-- `Inner::create` with the sample options. -/
def sampleImage : FsOutcome Unit :=
  Inner.create sampleOptions sampleEnv (Buf.zero 16) [] FlushOrder.inOrder

/-- Continue with the state a run has reached. -/
def sampleRun {α : Type} (x : Fs α) : FsOutcome α :=
  match sampleImage with
  | .ok _ s => x s
  | .err e s => .err e s
  | .panic => .panic

/-- Make calls in the sample filesystem. -/
def sampleCalls (ops : List Operation) : FsOutcome (List (Inner × Operation)) :=
  sampleRun (Exec.play Operation.exec ops)

theorem sampleCalls_runs {ops : List Operation} {test : List (Inner × Operation) → Inner → Bool}
    (h : (sampleCalls ops).okAnd test = true) : ∃ first calls s, sampleImage = .ok () first ∧
      Exec.Runs Operation.exec first calls s ∧ calls.map Prod.snd = ops ∧
      (∀ call ∈ calls, ∃ value t, call.2.exec call.1 = .ok value t) ∧ test calls s = true := by
  obtain ⟨calls, s, hplay, htest⟩ := Outcome.exists_of_okAnd h
  unfold sampleCalls sampleRun at hplay
  cases himage : sampleImage with
  | ok _ first =>
    rw [himage] at hplay
    obtain ⟨hrun, hops⟩ := Exec.runs_of_play hplay
    exact ⟨first, calls, s, rfl, hrun, hops, Exec.returns_of_play hplay, htest⟩
  | err e first =>
    rw [himage] at hplay
    cases hplay
  | panic =>
    rw [himage] at hplay
    cases hplay

end LinuxFile
