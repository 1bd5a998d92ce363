import LinuxFile.Library.Runs
import LinuxFile.Theorems.JournalReplay

/-!
# The order of replay

A client of the journal may have several transactions begun and commit them in any order. Replay applies what it finds
from the start of the area on: the transactions written since the head last went back there, in the order of their
commits, and then whatever old transactions stand directly behind the newest. It keeps to the order of the sequence
numbers as long as every commit does, and as long as nothing older stands where a transaction ends.
-/

namespace LinuxFile.Journal

/-- A client of the journal: the transactions it has begun, and the number of the one it has committed last. -/
structure Client where
  disk : JournalImage
  opened : List Transaction
  last : ℕ

/-- What a client does. Transactions are named by their place among those that are begun. -/
inductive Call where
  | beginTx
  | write (k : ℕ) (ops : List Op)
  | commit (k : ℕ) (sync : Bool)
  | drop (k : ℕ)

namespace Client

def onDisk {α : Type} (x : Exec Error JournalImage α) : Exec Error Client α :=
  Exec.zoom (·.disk) (fun d c ↦ { c with disk := d }) x

end Client

def Call.run : Call → Exec Error Client Unit
  | .beginTx => do
    let tx ← Client.onDisk Journal.beginTx
    Exec.modify (fun c ↦ { c with opened := c.opened ++ [tx] })
  | .write k ops => Exec.modify (fun c ↦ { c with opened := c.opened.modify k fun tx ↦ ops.foldl Transaction.write tx })
  | .commit k sync => do
    let c ← Exec.get
    match c.opened[k]? with
    | none => pure ()
    | some tx => do
      Exec.modify (fun c ↦ { c with opened := c.opened.eraseIdx k })
      Client.onDisk (Journal.commit tx sync)
      Exec.modify (fun c ↦ { c with last := tx.seq })
  | .drop k => Exec.modify (fun c ↦ { c with opened := c.opened.eraseIdx k })

/-- Where the commit of a transaction puts it. -/
def Client.place (c : Client) (tx : Transaction) : ℕ := c.disk.journal.nextHead (tx.sealed.length + 8)

/-- The records have keys of 64 bits, and the transaction ends below offset 2^32, which an area of at most that many
bytes ensures: the head is a 32-bit number. -/
def Call.Ordinary : Client × Call → Prop
  | (_, .write _ ops) => ∀ op ∈ ops, op.Keyed
  | (c, .commit k _) => ∀ tx, c.opened[k]? = some tx → c.place tx + tx.sealed.length < 2 ^ 32
  | (_, .beginTx) | (_, .drop _) => True

/-- The call returned. -/
def Call.Returned (call : Client × Call) : Prop := ∃ c, call.2.run call.1 = .ok () c

/-- The condition on a commit, in the state before it: the transaction goes to the start of the area or was begun after
the one committed last, and what stands in the area where it will end has increasing numbers from its own on. -/
def Call.Follows : Client × Call → Prop
  | (c, .commit k _) => ∀ tx, c.opened[k]? = some tx → (c.place tx = 0 ∨ c.last < tx.seq) ∧
      Climbs c.disk.journal.seq tx.seq ((areaOf c.disk.image c.disk.sb).drop (c.place tx + tx.sealed.length))
  | (_, .beginTx) | (_, .write _ _) | (_, .drop _) => True

/-- Replay writes back the transactions it accepts one after another, and their numbers increase. -/
def InOrder (d : JournalImage) : Prop :=
  replay d.sb d.image =
      restore d.sb (wholeBlocks ((accepted d.image d.sb).map Prod.snd)) (accepted d.image d.sb).length d.image ∧
    ((accepted d.image d.sb).map Prod.fst).Pairwise (· < ·)

theorem inOrder_iff (d : JournalImage) : InOrder d ↔ ((accepted d.image d.sb).map Prod.fst).Pairwise (· < ·) :=
  and_iff_right (replay_eq d.image d.sb)

/-- A transaction that is begun: its number has been given out, and it holds a begin record and its records. -/
def Begun (d : JournalImage) (tx : Transaction) : Prop :=
  0 < tx.seq ∧ tx.seq ≤ d.journal.seq ∧ ∃ ops, (∀ op ∈ ops, op.Keyed) ∧ tx = ⟨tx.seq, encodeBegin tx.seq ++ encodeOps ops⟩

/-- What every call keeps: a log stands in front of the head, and it ends with the transaction committed last. -/
structure Kept (log : List (ℕ × List Op)) (c : Client) : Prop where
  holding : Holding log c.disk
  newest : log ≠ [] → ∃ front ops, log = front ++ [(c.last, ops)]
  begun : ∀ tx ∈ c.opened, Begun c.disk tx

variable {log : List (ℕ × List Op)} {ops : List Op} {seq k : ℕ} {d d' : JournalImage} {c c' : Client} {tx : Transaction}

/-- Replay takes the log and then what stands behind the head. -/
theorem Holding.inOrder_iff (h : Holding log d) : ∃ fuel, ((areaOf d.image d.sb).drop d.journal.head).length < fuel ∧
    (InOrder d ↔ ((log ++ acceptedTxs d.sb.journalCommitted fuel ((areaOf d.image d.sb).drop d.journal.head)).map
      Prod.fst).Pairwise (· < ·)) := by
  obtain ⟨fuel, hfuel, haccepted⟩ := h.accepted (fun tx hmem ↦ (h.acceptable tx hmem).1.1.2) h.counter.2
  refine ⟨fuel, hfuel, ?_⟩
  rw [Journal.inOrder_iff, ← haccepted]
  rfl

theorem Kept.ordered (h : Kept log c) (horder : InOrder c.disk) : (log.map Prod.fst).Pairwise (· < ·) := by
  obtain ⟨fuel, -, hiff⟩ := h.holding.inOrder_iff
  have hall := hiff.mp horder
  rw [List.map_append] at hall
  exact (List.pairwise_append.mp hall).1

/-- One commit keeps the order exactly when it meets the condition. -/
theorem Kept.took_iff (h : Kept log c) (horder : InOrder c.disk) (hkeyed : ∀ op ∈ ops, op.Keyed) (hpos : 0 < seq)
    (hle : seq ≤ c.disk.journal.seq) (htx : TookTx seq ops c.disk d')
    (hend : nextPlace c.disk ops + txLength ops < 2 ^ 32) :
    InOrder d' ↔ (nextPlace c.disk ops = 0 ∨ c.last < seq) ∧
      Climbs c.disk.journal.seq seq
        ((areaOf c.disk.image c.disk.sb).drop (nextPlace c.disk ops + txLength ops)) := by
  obtain ⟨hnext, hhead, hbehind⟩ := h.holding.took hkeyed hpos hle htx hend
  obtain ⟨fuel, hfuel, hiff⟩ := hnext.inOrder_iff
  have hordered := h.ordered horder
  rw [hbehind, hhead] at hfuel hiff
  rw [htx.committed] at hiff
  rw [hiff, climbs_iff h.holding.counter.1 hfuel]
  set behind := acceptedTxs c.disk.journal.seq fuel
    ((areaOf c.disk.image c.disk.sb).drop (nextPlace c.disk ops + txLength ops))
  unfold extended
  rw [List.append_assoc, List.map_append, List.pairwise_append, List.singleton_append, List.map_cons]
  constructor
  · rintro ⟨-, hclimbs, hbelow⟩
    refine ⟨?_, hclimbs⟩
    rcases nextPlace_eq c.disk ops with hplace | hplace
    · rw [if_pos hplace] at hbelow
      by_cases hempty : log = []
      · left
        rw [hplace, h.holding.head, hempty]
        rfl
      · obtain ⟨front, ops', rfl⟩ := h.newest hempty
        exact .inr (hbelow c.last (by simp) seq List.mem_cons_self)
    · exact .inl hplace
  · rintro ⟨hplace, hclimbs⟩
    -- every number of the log in front is smaller than that of the transaction
    have hfront : ∀ n ∈ (if nextPlace c.disk ops = c.disk.journal.head then log else []).map Prod.fst, n < seq := by
      intro n hn
      split_ifs at hn with hsame
      · have hempty : log ≠ [] := by
          rintro rfl
          cases hn
        obtain ⟨front, ops', rfl⟩ := h.newest hempty
        have hlast : c.last < seq := by
          refine hplace.resolve_left fun hzero ↦ ?_
          have hhead := h.holding.head
          rw [← hsame, hzero, encodeLog_append, encodeLog_singleton, List.length_append, encodeTx_length] at hhead
          omega
        rw [List.map_append, List.pairwise_append] at hordered
        rw [List.map_append, List.mem_append] at hn
        rcases hn with hn | hn
        · exact (hordered.2.2 n hn c.last (by simp)).trans hlast
        · rw [List.map_singleton, List.mem_singleton] at hn
          rwa [hn]
      · cases hn
    refine ⟨?_, hclimbs, fun n hn m hm ↦ ?_⟩
    · split_ifs
      · exact hordered
      · exact List.Pairwise.nil
    · rcases List.mem_cons.mp hm with rfl | hm
      · exact hfront n hn
      · exact (hfront n hn).trans ((List.pairwise_cons.mp hclimbs).1 m hm)

theorem Kept.took (h : Kept log c) (hkeyed : ∀ op ∈ ops, op.Keyed) (hpos : 0 < seq) (hle : seq ≤ c.disk.journal.seq)
    (htx : TookTx seq ops c.disk d') (hend : nextPlace c.disk ops + txLength ops < 2 ^ 32) :
    Kept (extended log c.disk seq ops) ⟨d', c.opened.eraseIdx k, seq⟩ where
  holding := (h.holding.took hkeyed hpos hle htx hend).1
  newest _ := ⟨_, ops, rfl⟩
  begun tx hmem := by
    obtain ⟨hseq, hgiven, hops⟩ := h.begun tx (List.mem_of_mem_eraseIdx hmem)
    refine ⟨hseq, ?_, hops⟩
    rw [htx.journal]
    exact hgiven

theorem Begun.written (h : Begun d tx) (hkeyed : ∀ op ∈ ops, op.Keyed) : Begun d (ops.foldl Transaction.write tx) := by
  obtain ⟨hseq, hgiven, ops', hkeyed', htx⟩ := h
  rw [Transaction.foldl_write]
  refine ⟨hseq, hgiven, ops' ++ ops, fun op hop ↦ ?_, ?_⟩
  · rcases List.mem_append.mp hop with hop | hop
    · exact hkeyed' op hop
    · exact hkeyed op hop
  · have hbuf : tx.buf = encodeBegin tx.seq ++ encodeOps ops' := congrArg Transaction.buf htx
    have happend : encodeOps (ops' ++ ops) = encodeOps ops' ++ encodeOps ops := List.flatMap_append
    dsimp only
    rw [hbuf, happend, List.append_assoc]

/-- One call that returns: the log is kept, and the order exactly when the call meets the condition. -/
theorem Call.run_kept (call : Call) (h : ∃ log, Kept log c) (horder : InOrder c.disk)
    (hordinary : Call.Ordinary (c, call)) (hrun : call.run c = .ok () c') :
    (∃ log, Kept log c') ∧ (InOrder c'.disk ↔ Call.Follows (c, call)) := by
  obtain ⟨log, h⟩ := h
  cases call with
  | beginTx =>
    obtain ⟨tx, u, hzoom, hrest⟩ := Exec.bind_ok_iff.mp hrun
    obtain ⟨d', hbegin, rfl⟩ := Exec.zoom_ok_iff.mp hzoom
    cases hrest
    obtain ⟨hcounter, rfl, rfl⟩ := beginTx_ok hbegin
    refine ⟨⟨log, h.holding.begun hcounter, h.newest, fun tx hmem ↦ ?_⟩, iff_of_true horder trivial⟩
    rcases List.mem_append.mp hmem with hmem | hmem
    · obtain ⟨hseq, hgiven, hops⟩ := h.begun tx hmem
      exact ⟨hseq, hgiven.trans (Nat.le_succ _), hops⟩
    · rw [List.mem_singleton.mp hmem]
      exact ⟨Nat.succ_pos _, le_rfl, [], List.forall_mem_nil _, by rw [encodeOps, List.flatMap_nil, List.append_nil]⟩
  | write k ops =>
    cases hrun
    refine ⟨⟨log, h.holding, h.newest, fun tx hmem ↦ ?_⟩, iff_of_true horder trivial⟩
    obtain ⟨j, hj⟩ := List.mem_iff_getElem?.mp hmem
    rw [List.getElem?_modify] at hj
    obtain ⟨tx', hget, htx⟩ := Option.map_eq_some_iff.mp hj
    have hbegun := h.begun tx' (List.mem_iff_getElem?.mpr ⟨j, hget⟩)
    rw [← htx]
    split_ifs
    · exact hbegun.written hordinary
    · exact hbegun
  | commit k sync =>
    have hexec : Call.run (.commit k sync) c = match c.opened[k]? with
        | none => .ok () c
        | some tx => (do
            Client.onDisk (Journal.commit tx sync)
            Exec.modify (fun c ↦ { c with last := tx.seq }) : Exec Error Client Unit)
              { c with opened := c.opened.eraseIdx k } := by
      simp only [Call.run, Exec.bind_apply, Exec.get_apply]
      cases c.opened[k]? <;> rfl
    rw [hexec] at hrun
    cases htx : c.opened[k]? with
    | none =>
      rw [htx] at hrun
      cases hrun
      refine ⟨⟨log, h⟩, iff_of_true horder fun tx hsome ↦ ?_⟩
      rw [htx] at hsome
      cases hsome
    | some tx =>
      rw [htx] at hrun
      obtain ⟨_, u, hzoom, hrest⟩ := Exec.bind_ok_iff.mp hrun
      obtain ⟨d', hcommit, rfl⟩ := Exec.zoom_ok_iff.mp hzoom
      cases hrest
      obtain ⟨hpos, hle, ops, hkeyed, hbuf⟩ := h.begun tx (List.mem_of_getElem? htx)
      have hend := hordinary tx htx
      have hplace : c.place tx = nextPlace c.disk ops ∧ tx.sealed.length = txLength ops := by
        unfold Client.place nextPlace
        rw [hbuf, sealed_eq, encodeTx_length]
        exact ⟨rfl, rfl⟩
      rw [hplace.1, hplace.2] at hend
      rw [hbuf] at hcommit
      have htook := commit_ok hcommit
      refine ⟨⟨_, h.took hkeyed hpos hle htook hend⟩, (h.took_iff horder hkeyed hpos hle htook hend).trans ?_⟩
      constructor
      · intro hfollows tx' htx'
        cases htx.symm.trans htx'
        rw [hplace.1, hplace.2]
        exact hfollows
      · intro hfollows
        have hthis := hfollows tx htx
        rwa [hplace.1, hplace.2] at hthis
  | drop k =>
    cases hrun
    exact ⟨⟨log, h.holding, h.newest, fun tx hmem ↦ h.begun tx (List.mem_of_mem_eraseIdx hmem)⟩,
      iff_of_true horder trivial⟩

/-- A client that has begun nothing yet. -/
def Client.new (d : JournalImage) : Client := ⟨d, [], 0⟩

theorem Fresh.kept (h : Fresh d) : Kept [] (Client.new d) :=
  ⟨h.holding, fun hne ↦ absurd rfl hne, List.forall_mem_nil _⟩

theorem Fresh.inOrder (h : Fresh d) : InOrder d := by
  have hnone : accepted d.image d.sb = [] := by
    unfold accepted
    rw [h.zeroed]
    exact acceptedTxs_nil (not_stands_zeros _ _) _
  rw [inOrder_iff, hnone]
  exact List.Pairwise.nil

/-- A client begins, writes, commits and drops transactions in any order over an empty area. Replay is in order after
every one of its calls if and only if each of its commits meets the condition. -/
theorem replay_in_order_iff {calls : List (Client × Call)} (hfresh : Fresh d)
    (hruns : Exec.Runs Call.run (Client.new d) calls c)
    (hcalls : ∀ call ∈ calls, Call.Ordinary call ∧ Call.Returned call) :
    (InOrder c.disk ∧ ∀ call ∈ calls, InOrder call.1.disk) ↔ ∀ call ∈ calls, Call.Follows call := by
  refine hruns.forall_iff (K := fun c ↦ ∃ log, Kept log c) (I := fun c ↦ InOrder c.disk) ⟨[], hfresh.kept⟩
    hfresh.inOrder hcalls ?_
  rintro u call v hkept horder ⟨hordinary, w, hreturned⟩ hends
  have hrun : call.run u = .ok () v := by
    rcases hends with ⟨value, hok⟩ | ⟨error, herr⟩
    · exact hok
    · rw [hreturned] at herr
      cases herr
  exact call.run_kept hkept horder hordinary hrun

/-! ## Calls that a host answers -/

theorem beginTx_step (opened : List Transaction) (last : ℕ) (hcounter : d.journal.seq + 1 < maxSeq) :
    Call.run .beginTx ⟨d, opened, last⟩ =
      .ok () ⟨afterBegin d, opened ++ [⟨d.journal.seq + 1, encodeBegin (d.journal.seq + 1)⟩], last⟩ := by
  have hbegin : Client.onDisk Journal.beginTx ⟨d, opened, last⟩ =
      .ok ⟨d.journal.seq + 1, encodeBegin (d.journal.seq + 1)⟩ ⟨afterBegin d, opened, last⟩ :=
    Exec.zoom_ok_iff.mpr ⟨_, beginTx_answers hcounter, rfl⟩
  exact Exec.bind_eq_of_ok hbegin

theorem write_step (c : Client) (k : ℕ) (ops : List Op) : Call.run (.write k ops) c = .ok () { c with
    opened := c.opened.modify k fun tx ↦ { tx with buf := tx.buf ++ encodeOps ops } } := by
  simp only [Call.run, Transaction.foldl_write]
  rfl

theorem commit_step (c : Client) (k seq : ℕ) (ops : List Op) (hserved : Served c.disk) (sync : Bool)
    (htx : c.opened[k]? = some ⟨seq, encodeBegin seq ++ encodeOps ops⟩)
    (hroom : txLength ops + 8 ≤ c.disk.journal.areaBytes) :
    Call.run (.commit k sync) c = .ok () ⟨afterCommit c.disk seq ops, c.opened.eraseIdx k, seq⟩ := by
  have hcommit : Client.onDisk (Journal.commit ⟨seq, encodeBegin seq ++ encodeOps ops⟩ sync)
      { c with opened := c.opened.eraseIdx k } = .ok () ⟨afterCommit c.disk seq ops, c.opened.eraseIdx k, c.last⟩ :=
    Exec.zoom_ok_iff.mpr ⟨_, (commit_answers hserved sync seq hroom).1, rfl⟩
  simp only [Call.run, Exec.bind_apply, Exec.get_apply, htx, Exec.modify_apply, hcommit]

/-- A client without other transactions begins one, writes it and commits it. -/
def oneByOne (d : JournalImage) (last : ℕ) (ops : List Op) : List (Client × Call) :=
  let seq := d.journal.seq + 1
  [(⟨d, [], last⟩, .beginTx), (⟨afterBegin d, [⟨seq, encodeBegin seq⟩], last⟩, .write 0 ops),
    (⟨afterBegin d, [⟨seq, encodeBegin seq ++ encodeOps ops⟩], last⟩, .commit 0 true)]

theorem sealed_length (seq : ℕ) (ops : List Op) :
    (⟨seq, encodeBegin seq ++ encodeOps ops⟩ : Transaction).sealed.length = txLength ops := by
  rw [sealed_eq, encodeTx_length, txLength]

theorem Served.begun (h : Served d) : Served (afterBegin d) := ⟨h.faults, h.writable, h.inside⟩

theorem oneByOne_runs (hserved : Served d) (last : ℕ) (hkeyed : ∀ op ∈ ops, op.Keyed)
    (hcounter : d.journal.seq + 1 < maxSeq) (hroom : txLength ops + 8 ≤ d.journal.areaBytes)
    (hend : nextPlace d ops + txLength ops < 2 ^ 32) {more : List (Client × Call)}
    (hmore : Exec.Runs Call.run ⟨afterCommit (afterBegin d) (d.journal.seq + 1) ops, [], d.journal.seq + 1⟩ more c)
    (hcalls : ∀ call ∈ more, Call.Ordinary call ∧ Call.Returned call) :
    Exec.Runs Call.run ⟨d, [], last⟩ (oneByOne d last ops ++ more) c ∧
      ∀ call ∈ oneByOne d last ops ++ more, Call.Ordinary call ∧ Call.Returned call := by
  have hbegin := beginTx_step [] last hcounter
  have hwrite : Call.run (.write 0 ops) ⟨afterBegin d, [⟨d.journal.seq + 1, encodeBegin (d.journal.seq + 1)⟩], last⟩ =
      .ok () ⟨afterBegin d, [⟨d.journal.seq + 1, encodeBegin (d.journal.seq + 1) ++ encodeOps ops⟩], last⟩ :=
    write_step _ 0 ops
  have hcommit := commit_step
    ⟨afterBegin d, [⟨d.journal.seq + 1, encodeBegin (d.journal.seq + 1) ++ encodeOps ops⟩], last⟩
    0 (d.journal.seq + 1) ops hserved.begun true rfl hroom
  refine ⟨.cons (.inl ⟨(), hbegin⟩) (.cons (.inl ⟨(), hwrite⟩) (.cons (.inl ⟨(), hcommit⟩) hmore)), ?_⟩
  intro call hcall
  rcases List.mem_append.mp hcall with hcall | hcall
  · simp only [oneByOne, List.mem_cons, List.not_mem_nil, or_false] at hcall
    rcases hcall with rfl | rfl | rfl
    · exact ⟨trivial, _, hbegin⟩
    · exact ⟨hkeyed, _, hwrite⟩
    · refine ⟨?_, _, hcommit⟩
      intro tx htx
      cases htx
      unfold Client.place
      rw [sealed_length]
      exact hend
  · exact hcalls call hcall

/-! ## Two transactions at once -/

/-- A client has two transactions begun, of which it writes and commits the first and then commits the second. -/
def twoAtOnce (d : JournalImage) (ops : List Op) : List (Client × Call) :=
  let first := d.journal.seq + 1
  let opened := afterBegin (afterBegin d)
  [(Client.new d, .beginTx), (⟨afterBegin d, [⟨first, encodeBegin first⟩], 0⟩, .beginTx),
    (⟨opened, [⟨first, encodeBegin first⟩, ⟨first + 1, encodeBegin (first + 1)⟩], 0⟩, .write 0 ops),
    (⟨opened, [⟨first, encodeBegin first ++ encodeOps ops⟩, ⟨first + 1, encodeBegin (first + 1)⟩], 0⟩, .commit 0 false),
    (⟨afterCommit opened first ops, [⟨first + 1, encodeBegin (first + 1)⟩], first⟩, .commit 0 true)]

theorem twoAtOnce_runs (hfresh : Fresh d) (hserved : Served d) (hcounter : d.journal.seq + 2 < maxSeq)
    (hkeyed : ∀ op ∈ ops, op.Keyed) (hroom : txLength ops + 40 ≤ d.journal.areaBytes)
    (hshort : d.journal.areaBytes < 2 ^ 32) : (∃ c, Exec.Runs Call.run (Client.new d) (twoAtOnce d ops) c) ∧
      ∀ call ∈ twoAtOnce d ops, (Call.Ordinary call ∧ Call.Returned call) ∧ Call.Follows call := by
  set first := d.journal.seq + 1 with hfirst
  set opened := afterBegin (afterBegin d) with hopened
  have hlast : (⟨first + 1, encodeBegin (first + 1)⟩ : Transaction) =
      ⟨first + 1, encodeBegin (first + 1) ++ encodeOps []⟩ := by
    rw [encodeOps, List.flatMap_nil, List.append_nil]
  have hempty : txLength [] = 32 := rfl
  have hserved' : Served opened := hserved.begun.begun
  have harea : opened.journal.areaBytes = d.journal.areaBytes := rfl
  have hhead : opened.journal.head = 0 := hfresh.head
  have hbegin₁ := beginTx_step (d := d) [] 0 (by omega)
  have hbegin₂ := beginTx_step (d := afterBegin d) [⟨first, encodeBegin first⟩] 0 (by
    change d.journal.seq + 1 + 1 < maxSeq
    omega)
  have hwrite := write_step ⟨opened, [⟨first, encodeBegin first⟩, ⟨first + 1, encodeBegin (first + 1)⟩], 0⟩ 0 ops
  have hcommit₁ := commit_step
    ⟨opened, [⟨first, encodeBegin first ++ encodeOps ops⟩, ⟨first + 1, encodeBegin (first + 1)⟩], 0⟩
    0 first ops hserved' false rfl (by change _ ≤ d.journal.areaBytes; omega)
  obtain ⟨hcommitted, hserved₁⟩ := commit_answers hserved' false first (by omega : txLength ops + 8 ≤ _)
  have hcommit₂ := commit_step ⟨afterCommit opened first ops, [⟨first + 1, encodeBegin (first + 1)⟩], first⟩
    0 (first + 1) [] hserved₁ true (congrArg some hlast) (by change _ ≤ d.journal.areaBytes; omega)
  -- the first transaction goes to the start of the area, the second one behind it
  have hplace₁ : nextPlace opened ops = 0 := by
    unfold nextPlace nextHead
    rw [hhead, ite_self]
  have hholding := (hfresh.holding.begun (by omega)).begun (d := afterBegin d) (by
    change d.journal.seq + 1 + 1 < maxSeq
    omega)
  obtain ⟨-, hhead₁, hbehind⟩ := hholding.took hkeyed (Nat.succ_pos _) (Nat.le_succ _) (commit_ok hcommitted)
    (by change nextPlace opened ops + _ < _; omega)
  change _ = nextPlace opened ops + _ at hhead₁
  rw [hplace₁, Nat.zero_add] at hhead₁
  have hplace₂ : nextPlace (afterCommit opened first ops) [] = txLength ops := by
    unfold nextPlace nextHead
    rw [hhead₁, if_neg]
    change ¬d.journal.areaBytes < _
    omega
  have hzeros : ∀ committed n k, Climbs committed n ((areaOf d.image d.sb).drop k) := by
    intro committed n k
    rw [hfresh.zeroed, List.drop_replicate]
    exact climbs_zeros _ _ _
  refine ⟨⟨_, .cons (.inl ⟨(), hbegin₁⟩) (.cons (.inl ⟨(), hbegin₂⟩) (.cons (.inl ⟨(), hwrite⟩)
    (.cons (.inl ⟨(), hcommit₁⟩) (.cons (.inl ⟨(), hcommit₂⟩) (.nil _)))))⟩, ?_⟩
  intro call hcall
  simp only [twoAtOnce, List.mem_cons, List.not_mem_nil, or_false] at hcall
  rcases hcall with rfl | rfl | rfl | rfl | rfl
  · exact ⟨⟨trivial, _, hbegin₁⟩, trivial⟩
  · exact ⟨⟨trivial, _, hbegin₂⟩, trivial⟩
  · exact ⟨⟨hkeyed, _, hwrite⟩, trivial⟩
  · have hplace : (opened.journal.nextHead
        ((⟨first, encodeBegin first ++ encodeOps ops⟩ : Transaction).sealed.length + 8)) = 0 := by
      rw [sealed_length]
      exact hplace₁
    refine ⟨⟨fun tx htx ↦ ?_, _, hcommit₁⟩, fun tx htx ↦ ?_⟩ <;> cases htx <;> unfold Client.place
    · rw [hplace, sealed_length]
      omega
    · rw [hplace]
      exact ⟨.inl rfl, hzeros _ _ _⟩
  · have hplace : (afterCommit opened first ops).journal.nextHead
        ((⟨first + 1, encodeBegin (first + 1)⟩ : Transaction).sealed.length + 8) = txLength ops := by
      rw [hlast, sealed_length]
      exact hplace₂
    refine ⟨⟨fun tx htx ↦ ?_, _, hcommit₂⟩, fun tx htx ↦ ?_⟩ <;> cases htx <;> unfold Client.place
    · rw [hplace, hlast, sealed_length]
      omega
    · rw [hplace]
      refine ⟨.inr (Nat.lt_succ_self first), ?_⟩
      rw [← List.drop_drop]
      have hdrop := hbehind
      rw [hhead₁] at hdrop
      change Climbs _ _ (((areaOf (afterCommit opened first ops).image (afterCommit opened first ops).sb).drop _).drop _)
      rw [hdrop]
      change Climbs _ _ (((areaOf d.image d.sb).drop _).drop _)
      rw [List.drop_drop]
      exact hzeros _ _ _

/-- The second transaction is begun before the first one is committed, and both are replayed in order. -/
theorem replay_in_order_sample : ∃ c, Exec.Runs Call.run (Client.new sampleJournal)
    (twoAtOnce sampleJournal inodeAndBlock) c ∧ InOrder c.disk ∧
    ∀ call ∈ twoAtOnce sampleJournal inodeAndBlock, InOrder call.1.disk := by
  have harea : sampleJournal.journal.areaBytes = 32768 := rfl
  have hroom : txLength inodeAndBlock + 40 ≤ sampleJournal.journal.areaBytes := by
    rw [inodeAndBlock_length, harea]
    omega
  obtain ⟨⟨c, hruns⟩, hcalls⟩ := twoAtOnce_runs sampleJournal_fresh sampleJournal_served (by decide)
    (fun op hop ↦ (inodeAndBlock_typed op hop).keyed) hroom (by rw [harea]; decide)
  exact ⟨c, hruns, (replay_in_order_iff sampleJournal_fresh hruns fun call hcall ↦ (hcalls call hcall).1).mpr
    fun call hcall ↦ (hcalls call hcall).2⟩

/-! ## An old transaction behind the newest -/

/-- The records of 55 inodes, which take a little less than half of the area. -/
def manyInodes : List Op := List.replicate 55 (Op.inode 2 (List.replicate inodeSize 0))

theorem manyInodes_length : txLength manyInodes = 14992 := by
  have hlen : (encodeOps manyInodes).length = 14960 := length_replicate_record _ _ _
  rw [txLength, hlen]

theorem manyInodes_keyed : ∀ op ∈ manyInodes, op.Keyed := by
  intro op hop
  rw [List.eq_of_mem_replicate hop]
  exact (by decide : 2 < 2 ^ 64)

/-- The sample journal after so many commits of the 55 inodes. -/
def sampleCommits : ℕ → JournalImage
  | 0 => sampleJournal
  | n + 1 => afterCommit (afterBegin (sampleCommits n)) (n + 1) manyInodes

theorem sampleCommits_journal : ∀ n, (sampleCommits n).journal.areaBytes = 32768 ∧ (sampleCommits n).journal.seq = n
  | 0 => ⟨rfl, rfl⟩
  | n + 1 => ⟨(sampleCommits_journal n).1, congrArg (· + 1) (sampleCommits_journal n).2⟩

theorem sampleCommits_served : ∀ n, Served (sampleCommits n)
  | 0 => sampleJournal_served
  | n + 1 => by
    have hroom : txLength manyInodes + 8 ≤ (afterBegin (sampleCommits n)).journal.areaBytes := by
      change _ ≤ (sampleCommits n).journal.areaBytes
      rw [manyInodes_length, (sampleCommits_journal n).1]
      omega
    exact (commit_answers (sampleCommits_served n).begun true (n + 1) hroom).2

/-- Where the commit after `n` others goes. -/
def samplePlace (n : ℕ) : ℕ := nextPlace (afterBegin (sampleCommits n)) manyInodes

theorem samplePlace_eq (n : ℕ) : samplePlace n =
    if 32768 < (sampleCommits n).journal.head + 15000 then 0 else (sampleCommits n).journal.head := by
  unfold samplePlace nextPlace nextHead
  rw [manyInodes_length]
  change (if (sampleCommits n).journal.areaBytes < _ then _ else _) = _
  rw [(sampleCommits_journal n).1]
  rfl

theorem samplePlace_le (n : ℕ) : samplePlace n + 15000 ≤ 32768 := by
  rw [samplePlace_eq]
  split_ifs <;> omega

theorem sampleCommits_ok (n : ℕ) (hn : n < 3) : ((sampleCommits n).journal.seq + 1 < maxSeq) ∧
    txLength manyInodes + 8 ≤ (sampleCommits n).journal.areaBytes ∧
    nextPlace (sampleCommits n) manyInodes + txLength manyInodes < 2 ^ 32 := by
  obtain ⟨harea, hseq⟩ := sampleCommits_journal n
  have hmax : 4 < maxSeq := by decide
  have hplace := samplePlace_le n
  have hsame : samplePlace n = nextPlace (sampleCommits n) manyInodes := rfl
  rw [harea, hseq, manyInodes_length]
  omega

/-- The calls of the sample run. -/
def sampleCalls : List (Client × Call) :=
  oneByOne (sampleCommits 0) 0 manyInodes ++ (oneByOne (sampleCommits 1) 1 manyInodes ++
    (oneByOne (sampleCommits 2) 2 manyInodes ++ []))

theorem sampleCalls_runs : Exec.Runs Call.run (Client.new sampleJournal) sampleCalls ⟨sampleCommits 3, [], 3⟩ ∧
    ∀ call ∈ sampleCalls, Call.Ordinary call ∧ Call.Returned call := by
  have hstep : ∀ {n : ℕ} {more : List (Client × Call)}, n < 3 →
      (Exec.Runs Call.run ⟨sampleCommits (n + 1), [], n + 1⟩ more ⟨sampleCommits 3, [], 3⟩ ∧
        ∀ call ∈ more, Call.Ordinary call ∧ Call.Returned call) →
      Exec.Runs Call.run ⟨sampleCommits n, [], n⟩ (oneByOne (sampleCommits n) n manyInodes ++ more)
          ⟨sampleCommits 3, [], 3⟩ ∧
        ∀ call ∈ oneByOne (sampleCommits n) n manyInodes ++ more, Call.Ordinary call ∧ Call.Returned call := by
    intro n more hn hmore
    obtain ⟨hcounter, hroom, hend⟩ := sampleCommits_ok n hn
    have hseq := (sampleCommits_journal n).2
    refine oneByOne_runs (sampleCommits_served n) n manyInodes_keyed hcounter hroom hend ?_ hmore.2
    rw [hseq]
    exact hmore.1
  exact hstep (by omega) (hstep (by omega) (hstep (by omega) ⟨.nil _, List.forall_mem_nil _⟩))

/-- One more commit. -/
theorem sampleCommits_holding {n : ℕ} {log : List (ℕ × List Op)} (hn : n < 3) (h : Holding log (sampleCommits n)) :
    Holding ((if samplePlace n = (sampleCommits n).journal.head then log else []) ++ [(n + 1, manyInodes)])
      (sampleCommits (n + 1)) ∧ (sampleCommits (n + 1)).journal.head = samplePlace n + 14992 ∧
      (areaOf (sampleCommits (n + 1)).image (sampleCommits (n + 1)).sb).drop (sampleCommits (n + 1)).journal.head =
        (areaOf (sampleCommits n).image (sampleCommits n).sb).drop (sampleCommits (n + 1)).journal.head := by
  obtain ⟨hcounter, hroom, hend⟩ := sampleCommits_ok n hn
  have hseq : (afterBegin (sampleCommits n)).journal.seq = n + 1 := congrArg (· + 1) (sampleCommits_journal n).2
  have htook := commit_ok (commit_answers (sampleCommits_served n).begun true (n + 1) hroom).1
  have htaken := (h.begun hcounter).took manyInodes_keyed (Nat.succ_pos n) hseq.ge htook hend
  rw [manyInodes_length] at htaken
  exact htaken

theorem sampleCommits_heads : (sampleCommits 1).journal.head = 14992 ∧ (sampleCommits 2).journal.head = 29984 ∧
    samplePlace 2 = 0 := by
  have hzero : (sampleCommits 0).journal.head = 0 := rfl
  obtain ⟨hfirst, hone, -⟩ := sampleCommits_holding (n := 0) (by omega) sampleJournal_fresh.holding
  rw [samplePlace_eq, hzero, if_neg (by omega), Nat.zero_add] at hone
  obtain ⟨-, htwo, -⟩ := sampleCommits_holding (by omega) hfirst
  rw [samplePlace_eq, hone, if_neg (by omega)] at htwo
  refine ⟨hone, htwo, ?_⟩
  rw [samplePlace_eq, htwo, if_pos (by omega)]

/-- After the third commit, which went back to the start, the second transaction stands behind the head. -/
theorem sampleCommits_leads : Holding [(3, manyInodes)] (sampleCommits 3) ∧ ∃ rest,
    Leads (sampleCommits 3).sb.journalCommitted
      ((areaOf (sampleCommits 3).image (sampleCommits 3).sb).drop (sampleCommits 3).journal.head) 2 manyInodes rest := by
  obtain ⟨hone, htwo, hplace⟩ := sampleCommits_heads
  have hzero : (sampleCommits 0).journal.head = 0 := rfl
  have hfirst := (sampleCommits_holding (n := 0) (by omega) sampleJournal_fresh.holding).1
  rw [ite_self, List.nil_append] at hfirst
  have hplaceOne : samplePlace 1 = (sampleCommits 1).journal.head := by
    rw [samplePlace_eq, hone, if_neg (by omega)]
  have hsecond := (sampleCommits_holding (n := 1) (by omega) hfirst).1
  rw [if_pos hplaceOne] at hsecond
  obtain ⟨hthird, hhead, hbehind⟩ := sampleCommits_holding (by omega) hsecond
  rw [hplace, htwo, if_neg (by omega), List.nil_append] at hthird
  rw [hplace, Nat.zero_add] at hhead
  refine ⟨hthird, (areaOf (sampleCommits 2).image (sampleCommits 2).sb).drop 29984, ⟨by omega, ?_⟩, ?_, ?_⟩
  · change 2 ≤ (sampleCommits 3).journal.seq
    rw [(sampleCommits_journal 3).2]
    omega
  · apply fits_of_encodeOps manyInodes_keyed
    have hlen := manyInodes_length
    unfold txLength at hlen
    omega
  · rw [hbehind, hhead]
    have hfront := hsecond.front
    rw [htwo] at hfront
    have hsplit : areaOf (sampleCommits 2).image (sampleCommits 2).sb = encodeTx 1 manyInodes ++ (encodeTx 2 manyInodes ++
        (areaOf (sampleCommits 2).image (sampleCommits 2).sb).drop 29984) := by
      have htake : (areaOf (sampleCommits 2).image (sampleCommits 2).sb).take 29984 =
          encodeTx 1 manyInodes ++ (encodeTx 2 manyInodes ++ []) := hfront
      rw [List.append_nil] at htake
      rw [← List.append_assoc, ← htake, List.take_append_drop]
    conv_lhs => rw [hsplit]
    exact List.drop_left' ((encodeTx_length 1 manyInodes).trans manyInodes_length)

/-- After three commits replay applies the third transaction and then the second. -/
theorem older_after_newer : ∃ calls c, Fresh sampleJournal ∧ Exec.Runs Call.run (Client.new sampleJournal) calls c ∧
    (∀ call ∈ calls, Call.Ordinary call ∧ Call.Returned call) ∧ ¬InOrder c.disk := by
  obtain ⟨hruns, hcalls⟩ := sampleCalls_runs
  refine ⟨sampleCalls, _, sampleJournal_fresh, hruns, hcalls, fun horder ↦ ?_⟩
  obtain ⟨hlog, rest, hleads⟩ := sampleCommits_leads
  obtain ⟨fuel, hfuel, hiff⟩ := hlog.inOrder_iff
  obtain ⟨more, rfl⟩ := Nat.exists_eq_add_of_le' (by omega : 1 ≤ fuel)
  have hordered := hiff.mp horder
  rw [acceptedTxs_encode (by decide) hleads, List.map_append, List.pairwise_append] at hordered
  exact absurd (hordered.2.2 3 (by simp) 2 (by simp)) (by decide)

end LinuxFile.Journal
