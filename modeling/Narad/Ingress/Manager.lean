import Narad.Ingress.Checkpoint
import Narad.Wal.Durability

/-!
# The ingress manager across restarts

The manager appends to the write-ahead log, the dispatcher commits records that the open log's replay
delivered, and stores as checkpoint a seq below which everything is dispatched. Compaction goes up to the
synced checkpoint and no further.

After a crash `OpenManager` starts from the checkpoint in the file, or from the oldest segment's base if
that is higher. Every value the file can hold, and the compaction bound, is a seq below which everything
is dispatched, so no accepted record is passed over. The log's own recovery needs every failed roll to
remove its file: a leftover one makes a later start fail.
-/

namespace Narad.Ingress

open Narad.Lib Narad.Wal List Option

structure Manager where
  log : Log
  file : CheckpointFile
  writer : CheckpointWriter
  storedCheckpoint : ℕ
  /-- The seqs whose records were committed to their partitions. -/
  dispatched : List ℕ
  deriving DecidableEq

inductive OpenError where
  | wal (e : FrameError)
  | checkpointAhead (checkpoint nextSeq : ℕ)
  | store
  deriving DecidableEq

/-- `OpenManager` over an opened log. -/
def startManager (log : Log) (file : CheckpointFile) (dispatched : List ℕ) : Except OpenError Manager :=
  let checkpoint := loadCheckpoint file
  if log.nextSeq < checkpoint then .error (.checkpointAhead checkpoint log.nextSeq)
  else
    let checkpoint := if checkpoint < log.firstSeq then log.firstSeq else checkpoint
    if checkpoint = 0 then .ok ⟨log, file, newCheckpointWriter, checkpoint, dispatched⟩
    else
      match newCheckpointWriter.store file checkpoint .calm with
      | some (writer, file, true) =>
        let (writer, file) := writer.settle file
        .ok ⟨log, file, writer, checkpoint, dispatched⟩
      | _ => .error .store

variable (o : Options)

def openManager (disk : List Segment) (h : History) (file : CheckpointFile)
    (dispatched : List ℕ) : Except OpenError Manager :=
  match Wal.open o disk h with
  | .error e => .error (.wal e)
  | .ok log => startManager log file dispatched

inductive Crash where
  | process
  | power (writes : ℕ) (named : Bool) (keep : ℕ → ℕ)

inductive Event where
  | wal (a : Action)
  | dispatch (q : ℕ)
  | store (n : ℕ) (io : StoreIO)
  | flush
  | flushed (ok : Bool)
  | compact (seq : ℕ)
  | close (ok : Bool)
  | crash (c : Crash)

namespace Manager

/-- The bytes that a process crash leaves in the page cache. -/
def allBytes (disk : List Segment) : ℕ :=
  (disk.map fun g => g.file.length).sum

variable (m : Manager)

def restart : Crash → Except OpenError Manager
  | .process =>
    openManager m.log.opts (Wal.crash m.log.disk (fun _ => allBytes m.log.disk)) m.log.toHistory m.file m.dispatched
  | .power writes named keep =>
    openManager m.log.opts (Wal.crash m.log.disk keep) m.log.toHistory (m.file.powerLoss writes named) m.dispatched

/-- `StoreProduceCheckpoint`. -/
def storeCheckpoint (n : ℕ) (io : StoreIO) : Option Manager :=
  (m.writer.store m.file n io).map fun (writer, file, ok) =>
    { m with writer, file, storedCheckpoint := if ok then n else m.storedCheckpoint }

def step : Event → Option Manager
  | .wal a =>
    match a with
    | .compactBefore _ => none
    | a => (m.log.step a).map fun log => { m with log }
  | .dispatch q => if q ∈ m.log.read then some { m with dispatched := q :: m.dispatched } else none
  | .store n io =>
    -- the dispatcher stores the end of a run of dispatched records
    if (List.range n).all fun q => q ∈ m.dispatched then m.storeCheckpoint n io else none
  | .flush => (m.writer.flush m.file).map fun writer => { m with writer }
  | .flushed ok => (m.writer.flushed m.file ok).map fun (writer, file) => { m with writer, file }
  | .compact seq =>
    (m.log.step (.compactBefore (min seq m.writer.synced))).map fun log => { m with log }
  | .close ok => (m.writer.close m.file ok).map fun (writer, file) => { m with writer, file }
  | .crash c => (m.restart c).toOption

/-- The condition on the steps of the log, as for the log alone. -/
def clean : Event → Bool
  | .wal a => m.log.clean a
  | _ => true

/-- Everything below `v` is dispatched. -/
def Reached (v : ℕ) : Prop :=
  ∀ q < v, q ∈ m.dispatched

/-- The manager starts from a checkpoint that passes over no record and that the log can replay from. -/
structure StartsRight (m : Manager) : Prop where
  undispatched : ∀ q, q ∉ m.dispatched → m.storedCheckpoint ≤ q
  oldest : m.log.firstSeq ≤ m.storedCheckpoint
  next : m.storedCheckpoint ≤ m.log.nextSeq

structure Ok (m : Manager) : Prop where
  log : m.log.Ok
  read : ∀ q ∈ m.dispatched, q ∈ m.log.read
  values : AllValues m.Reached m.writer m.file
  compacted : m.Reached m.log.compacted

variable {m m' : Manager}

theorem Reached.of_le {v u : ℕ} (h : m.Reached v) (hle : u ≤ v) : m.Reached u :=
  fun q hq => h q (lt_of_lt_of_le hq hle)

variable {dispatched : List ℕ}

/-- A seq below which everything is dispatched is one the log recovers. -/
theorem reached_le {log : Log} {v : ℕ} (hv : ∀ q < v, q ∈ dispatched)
    (hread : ∀ q ∈ dispatched, q ∈ log.read) (hlt : ∀ q ∈ log.read, q < log.nextSeq) : v ≤ log.nextSeq := by
  cases v with
  | zero => exact Nat.zero_le _
  | succ v => exact hlt v (hread v (hv v (Nat.lt_succ_self v)))

/-- Over a log that recovered, `OpenManager` succeeds. -/
theorem startManager_ok {log : Log} {file : CheckpointFile} (hlog : log.Ok)
    (hread : ∀ q ∈ dispatched, q ∈ log.read) (hvalues : ∀ v ∈ file.values, ∀ q < v, q ∈ dispatched)
    (hcompacted : ∀ q < log.compacted, q ∈ dispatched) :
    ∃ m, startManager log file dispatched = .ok m ∧ m.Ok ∧ m.StartsRight := by
  have hlt : ∀ q ∈ log.read, q < log.nextSeq := fun q hq => hlog.read_lt hq
  have hzero : ∀ q < 0, q ∈ dispatched := fun q hq => absurd hq (Nat.not_lt_zero q)
  have hloaded : ∀ q < loadCheckpoint file, q ∈ dispatched := loadCheckpoint_of hvalues hzero
  have hfirst : ∀ q < log.firstSeq, q ∈ dispatched := fun q hq =>
    hcompacted q (lt_of_lt_of_le hq hlog.firstSeq_le)
  set checkpoint := if loadCheckpoint file < log.firstSeq then log.firstSeq else loadCheckpoint file
    with hcheckpoint
  have hreached : ∀ q < checkpoint, q ∈ dispatched := by
    rw [hcheckpoint]
    split
    · exact hfirst
    · exact hloaded
  have hright : ∀ file writer, StartsRight ⟨log, file, writer, checkpoint, dispatched⟩ := by
    intro file' writer
    refine ⟨fun q hq => ?_, ?_, reached_le hreached hread hlt⟩
    · by_contra hnot
      exact hq (hreached q (Nat.lt_of_not_le hnot))
    · change log.firstSeq ≤ checkpoint
      rw [hcheckpoint]
      split
      · exact le_rfl
      next hle => exact Nat.le_of_not_lt hle
  have hnew : AllValues (fun v => ∀ q < v, q ∈ dispatched) newCheckpointWriter file :=
    ⟨hvalues, hzero, hzero, fun p hp => absurd hp (by simp [newCheckpointWriter])⟩
  have hahead : ¬log.nextSeq < loadCheckpoint file := Nat.not_lt_of_le (reached_le hloaded hread hlt)
  rw [startManager]
  dsimp only
  rw [if_neg hahead, ← hcheckpoint]
  split
  · exact ⟨_, rfl, ⟨hlog, hread, hnew, hcompacted⟩, hright _ _⟩
  obtain ⟨writer, file', hstore⟩ := store_new file checkpoint
  rw [hstore]
  exact ⟨_, rfl, ⟨hlog, hread, (hnew.store hreached hstore).settle, hcompacted⟩, hright _ _⟩

/-- The manager starts again after any crash. -/
theorem Ok.restart (h : m.Ok) (c : Crash) : ∃ m', m.restart c = .ok m' ∧ m'.Ok ∧ m'.StartsRight := by
  have hopen : ∀ keep file, (∀ v ∈ file.values, v ∈ m.file.values) →
      ∃ m', openManager m.log.opts (Wal.crash m.log.disk keep) m.log.toHistory file m.dispatched =
        .ok m' ∧ m'.Ok ∧ m'.StartsRight := by
    intro keep file hfile
    obtain ⟨log, hlog, hok, -⟩ := h.log.reopen keep
    obtain ⟨hread, hcompacted⟩ := open_history hlog
    rw [openManager, show Wal.open m.log.opts (Wal.crash m.log.disk keep) m.log.toHistory = .ok log from hlog]
    refine startManager_ok hok (fun q hq => ?_) (fun v hv => h.values.values v (hfile v hv)) ?_
    · rw [hread]
      exact h.read q hq
    · rw [hcompacted]
      exact h.compacted
  cases c with
  | process => exact hopen _ _ fun v hv => hv
  | power writes named keep => exact hopen _ _ fun v hv => mem_of_mem_take hv

theorem Ok.step {e : Event} (h : m.Ok) (hclean : m.clean e = true) (hstep : m.step e = some m') : m'.Ok := by
  cases e with
  | wal a =>
    have hnot : ∀ seq, a ≠ .compactBefore seq := by
      rintro seq rfl
      exact absurd hstep (by simp [Manager.step])
    have hstep : ((m.log.step a).map fun log => { m with log }) = some m' := by
      cases a <;> first | exact hstep | exact absurd rfl (hnot _)
    obtain ⟨log, hlog, rfl⟩ := map_eq_some_iff.mp hstep
    have hfollows := Log.step_follows hnot hlog
    refine ⟨h.log.step hclean hlog, fun q hq => hfollows.read q (h.read q hq), h.values, ?_⟩
    change m.Reached log.compacted
    rw [hfollows.compacted]
    exact h.compacted
  | dispatch q =>
    simp only [Manager.step] at hstep
    split at hstep <;> cases hstep
    next hq =>
      have hmono : ∀ v, m.Reached v → Reached { m with dispatched := q :: m.dispatched } v :=
        fun v hv q' hq' => .tail _ (hv q' hq')
      refine ⟨h.log, fun q' hq' => ?_, h.values.mono hmono, hmono _ h.compacted⟩
      rcases mem_cons.mp hq' with rfl | hq'
      · exact hq
      · exact h.read q' hq'
  | store n io =>
    simp only [Manager.step] at hstep
    split at hstep
    next hall =>
      have hn : m.Reached n := fun q hq =>
        of_decide_eq_true (all_eq_true.mp hall q (mem_range.mpr hq))
      obtain ⟨⟨writer, file, ok⟩, hstore, rfl⟩ := map_eq_some_iff.mp hstep
      exact ⟨h.log, h.read, h.values.store hn hstore, h.compacted⟩
    · cases hstep
  | flush =>
    obtain ⟨writer, hflush, rfl⟩ := map_eq_some_iff.mp hstep
    exact ⟨h.log, h.read, h.values.flush hflush, h.compacted⟩
  | flushed ok =>
    obtain ⟨⟨writer, file⟩, hflushed, rfl⟩ := map_eq_some_iff.mp hstep
    exact ⟨h.log, h.read, h.values.flushed hflushed, h.compacted⟩
  | compact seq =>
    obtain ⟨log, hlog, rfl⟩ := map_eq_some_iff.mp hstep
    set bound := min seq m.writer.synced with hbound
    have hreached : m.Reached bound := h.values.synced.of_le (min_le_right _ _)
    have hclean : m.log.clean (.compactBefore bound) = true :=
      decide_eq_true (reached_le hreached h.read fun q hq => h.log.read_lt hq)
    obtain ⟨hread, hcompacted⟩ : log.read = m.log.read ∧ log.compacted = max m.log.compacted bound := by
      simp only [Log.step] at hlog
      split at hlog
      · unfold Log.compactStart Log.syncLocked at hlog
        dsimp only at hlog
        split_ifs at hlog <;> cases hlog <;> exact ⟨rfl, rfl⟩
      · cases hlog
    refine ⟨h.log.step hclean hlog, fun q hq => ?_, h.values, ?_⟩
    · change q ∈ log.read
      rw [hread]
      exact h.read q hq
    · change m.Reached log.compacted
      rw [hcompacted]
      exact max_of h.compacted hreached
  | close ok =>
    obtain ⟨⟨writer, file⟩, hclose, rfl⟩ := map_eq_some_iff.mp hstep
    exact ⟨h.log, h.read, h.values.close hclose, h.compacted⟩
  | crash c =>
    obtain ⟨m₁, hrestart, hok, -⟩ := h.restart c
    rw [Manager.step, hrestart] at hstep
    obtain rfl : m₁ = m' := some.inj hstep
    exact hok

end Manager

/-- The manager on an empty directory. -/
def createManager : Except OpenError Manager :=
  openManager o [] ⟨[], [], [], [], 0⟩ ⟨false, [], 0⟩ []

theorem createManager_ok (hsmall : (normalizeOptions o).maxRecord < 2 ^ 32) : ∃ m, createManager o = .ok m ∧ m.Ok := by
  obtain ⟨log, hlog, hok⟩ := create_ok o hsmall
  have hcompacted : log.compacted = 0 := (open_history hlog).2
  rw [createManager, openManager, show Wal.open o [] ⟨[], [], [], [], 0⟩ = .ok log from hlog]
  have hstart : ∃ m, startManager log ⟨false, [], 0⟩ [] = .ok m ∧ m.Ok ∧ m.StartsRight :=
    Manager.startManager_ok hok (by simp) (by simp) (by simp [hcompacted])
  obtain ⟨m, hm, hmok, -⟩ := hstart
  exact ⟨m, hm, hmok⟩

/-- After any run whose failed rolls removed their files, with any number of crashes in it, and any
further crash, `OpenManager` succeeds and starts from a checkpoint that is at or below every seq not
dispatched, at or above the oldest segment's base, and at or below the next seq. -/
theorem restart_skips_no_record (o : Options) (hsmall : (normalizeOptions o).maxRecord < 2 ^ 32)
    (first m : Manager) (hfirst : createManager o = .ok first) (events : List Event)
    (hclean : cleanRun Manager.step Manager.clean first events = true)
    (hrun : runWith Manager.step first events = some m) (c : Crash) : ∃ m', m.restart c = .ok m' ∧ m'.StartsRight := by
  obtain ⟨first', hcreate, hok⟩ := createManager_ok o hsmall
  obtain rfl : first' = first := Except.ok.inj (hcreate.symm.trans hfirst)
  obtain ⟨m', hrestart, -, hright⟩ :=
    (run_induction (fun _ _ _ h hclean hstep => h.step hclean hstep) hok hclean hrun).restart c
  exact ⟨m', hrestart, hright⟩

def smallManager : Manager :=
  ⟨smallLog, ⟨false, [], 0⟩, newCheckpointWriter, 0, []⟩

theorem createManager_smallOptions : createManager smallOptions = .ok smallManager := by
  rfl

/-- The log's part of a run. -/
def logOnly : List Wal.Event → List Event :=
  List.filterMap fun
    | .act a => some (.wal a)
    | .restart _ => none

/-- Two records in two segments, the first dispatched, its checkpoint stored and the log compacted; a
second store is still unsynced when the power fails. -/
def compactThenPowerLoss : List Event :=
  logOnly (appendOf 60 1 ++ flushAll ++ appendOf 20 2 ++ rollOver ++ flushAll) ++
    [Event.wal (.read 0 0), .wal (.read 0 1), .dispatch 0, .store 1 .calm, .compact 1, .wal .snapshot, .wal .list,
      .wal (.remove true), .wal .settle, .dispatch 1, .store 2 .calm, .flush]

theorem compactThenPowerLoss_starts_right : ∃ m, runWith Manager.step smallManager compactThenPowerLoss = some m ∧
      m.file.values = [1, 2] ∧ m.file.covered = 1 ∧ m.log.firstSeq = 1 ∧
      ∃ m', m.restart (.power 0 false (fun _ => 0)) = .ok m' ∧ m'.StartsRight := by
  have hrun := (some_get (x := runWith Manager.step smallManager compactThenPowerLoss) (by decide +kernel)).symm
  refine ⟨_, hrun, by decide +kernel, by decide +kernel, by decide +kernel, ?_⟩
  exact restart_skips_no_record smallOptions (by decide) smallManager _ createManager_smallOptions
    compactThenPowerLoss (by decide +kernel) hrun _

/-- A failed roll leaves the empty segment 1 while record 1 goes to segment 0. After a restart segment 1
is active and empty, and segment 0 is compacted away once both records are dispatched. -/
def leftoverThenCompact : List Event :=
  logOnly leftoverFile ++
    [Event.wal (.read 0 0), .wal (.read 0 1), .dispatch 0, .dispatch 1, .store 2 .calm, .crash .process,
      .compact 2, .wal .snapshot, .wal .list, .wal (.remove true), .wal .settle]

/-- The next start fails: the log comes back with next seq 1, below the checkpoint 2. -/
theorem leftoverThenCompact_fails_to_start : ∃ m, runWith Manager.step smallManager leftoverThenCompact = some m ∧
      m.restart .process = .error (.checkpointAhead 2 1) := by
  have hrun := (some_get (x := runWith Manager.step smallManager leftoverThenCompact) (by decide +kernel)).symm
  exact ⟨_, hrun, by decide +kernel⟩

end Narad.Ingress
