import Narad.Metastore.Footprint

/-!
# Restarts

The database outlives the process, and Raft replays its log into the state machine on every start. Each
entry's index is written with the entry's effects, beside the transaction id that wrote it; the index
says what the file holds as long as that id is still the file's own. A start decides from the index, the
latest snapshot and the bounds of the log whether the snapshot is restored, the file is kept or it is set
aside.

The copy a snapshot streams, the files a crash leaves beside the database, the retries of a failed write
and the metrics are left out, and so is Raft's fallback to an older snapshot.
-/

namespace Narad.Metastore

open Lib OrderedStore

variable {S : OrderedStore}

variable {c : Command}

/-- The newest type of entry this release applies. -/
def maxEntryType : ℕ := 37

/-- A database file: the metadata, what the file records about itself, and the id of the transaction
that wrote it last. The recorded id is one the file has had. -/
structure Database (S : OrderedStore) where
  tables : Tables S := {}
  applied : ℕ := 0
  metaTxid : ℕ := 0
  maxEntryType : ℕ := 0
  txid : ℕ := 1
  /-- Some bucket has not been created yet. -/
  missing : Bool := true
  metaTxid_le : metaTxid ≤ txid := by decide

structure FsmMeta where
  applied : ℕ
  maxEntryType : ℕ
  trusted : Bool
  hasData : Bool

def FsmMeta.trustedApplied (m : FsmMeta) : ℕ :=
  if m.trusted then m.applied else 0

/-- Some bucket holds a key. -/
def Tables.hasData (db : Tables S) : Bool :=
  !(db.topics.isEmpty && db.schemas.isEmpty && db.assignments.isEmpty && db.members.isEmpty && db.users.isEmpty &&
    db.removedMembers.isEmpty && db.remotes.isEmpty && db.remoteKeys.salt.isNone && db.remoteKeys.versions.isEmpty)

namespace Database

variable (d : Database S)

def trusted : Bool :=
  0 < d.applied && d.metaTxid == d.txid

def readFSMMeta : FsmMeta where
  applied := d.applied
  maxEntryType := d.maxEntryType
  trusted := d.trusted
  hasData := 0 < d.applied || d.tables.hasData

/-- Commits the tables with the record of the entry they come from. -/
def putFSMMeta (tables : Tables S) (index entryType : ℕ) : Database S where
  tables := tables
  applied := index
  metaTxid := d.txid + 1
  maxEntryType := max d.maxEntryType entryType
  txid := d.txid + 1
  missing := d.missing
  metaTxid_le := le_rfl

/-- The missing buckets are created, and a trusted index stays trusted. -/
def createBuckets : Database S where
  tables := d.tables
  applied := d.applied
  metaTxid := if d.trusted then d.txid + 1 else d.metaTxid
  maxEntryType := d.maxEntryType
  txid := d.txid + 1
  missing := false
  metaTxid_le := by
    have := d.metaTxid_le
    split <;> omega

end Database

/-- Why a node does not start, with the values its message names. -/
inductive StartError where
  | newerDatabase (entryType : ℕ)
  | noRaftState
  | raftStateOlder (applied lastLog snapIndex : ℕ)
  | setAside

def openBolt (d : Database S) : Except StartError (Database S × FsmMeta) :=
  if maxEntryType < d.maxEntryType then .error (.newerDatabase d.maxEntryType)
  else .ok (if d.missing then d.createBuckets else d, d.readFSMMeta)

structure FsmState (S : OrderedStore) where
  db : Database S
  fileMeta : FsmMeta
  applied : ℕ
  lastSeen : ℕ := 0
  stopped : Bool := false

def newFSM (d : Database S) : Except StartError (FsmState S) :=
  (openBolt d).map fun (db, fileMeta) => { db, fileMeta, applied := fileMeta.trustedApplied }

namespace FsmState

variable (f : FsmState S)

/-- The index of an entry that wrote nothing; when that write fails, only the file lacks it. -/
def recordConsumed (index entryType : ℕ) (recorded : Bool) : FsmState S :=
  if recorded then { f with db := f.db.putFSMMeta f.db.tables index entryType } else f

def apply (env : Env) (f : FsmState S) (l : LogEntry) (entryType : ℕ) (recorded : Bool) : FsmState S :=
  if f.stopped then f
  else if l.index ≤ f.applied then { f with lastSeen := l.index }
  else
    match l.entry.transaction env f.db.tables with
    | none => { f with lastSeen := l.index, stopped := true }
    | some (.error _) =>
      { f.recordConsumed l.index entryType recorded with applied := l.index, lastSeen := l.index }
    | some (.ok (tables, _)) =>
      if l.stored then
        { f with db := f.db.putFSMMeta tables l.index entryType, applied := l.index, lastSeen := l.index }
      else { f with lastSeen := l.index, stopped := true }

/-- The copy of the database that Raft keeps under the index it has reached. -/
def snapshot : Option (Database S) :=
  if f.stopped then none
  else if f.lastSeen < f.applied then none
  else some f.db

def restore (image : Database S) : Except StartError (FsmState S) :=
  (openBolt image).map fun (db, fileMeta) =>
    { f with db, applied := fileMeta.trustedApplied, lastSeen := fileMeta.trustedApplied }

/-- The file is moved away and an empty one takes its place, unless that fails. -/
def setAsideDatabase (moved : Bool) : Except StartError (FsmState S) :=
  if moved then
    (openBolt {}).map fun (db, fileMeta) => { f with db, fileMeta, applied := 0, lastSeen := 0 }
  else .error .setAside

/-- How the database meets the Raft state beside it, and whether Raft restores its latest snapshot. -/
def prepareFSMForStart (hasState joinOnly : Bool) (first last snapIndex : ℕ) (moved : Bool) :
    Except StartError (Bool × FsmState S) :=
  if !hasState then
    if !f.fileMeta.hasData then .ok (true, f)
    else if joinOnly then (true, ·) <$> f.setAsideDatabase moved
    else .error .noRaftState
  else
    let older := max last snapIndex < f.fileMeta.trustedApplied
    if older ∧ joinOnly = false then .error (.raftStateOlder f.fileMeta.trustedApplied last snapIndex)
    else
      let applied := if older then 0 else f.fileMeta.trustedApplied
      let f := if older then { f with applied := 0 } else f
      if 0 < applied ∧ snapIndex ≤ applied then .ok (false, { f with lastSeen := snapIndex })
      else if 0 < applied then .ok (true, f)
      else if 0 < snapIndex then .ok (true, f)
      else if first ≤ 1 ∨ f.fileMeta.hasData = false then
        if f.fileMeta.hasData then (true, ·) <$> f.setAsideDatabase moved else .ok (true, f)
      else .ok (true, f)

end FsmState

/-- A command of the log, and the type its envelope names. -/
structure Command where
  entry : Entry
  entryType : ℕ

/-- The committed entries by index; Raft's own ones are not handed to the state machine. -/
def RaftLog := ℕ → Option Command

/-- The commands among the entries `1..n`. -/
def RaftLog.upTo (log : RaftLog) : ℕ → List LogEntry
  | 0 => []
  | n + 1 => log.upTo n ++ (log (n + 1)).toList.map fun c => ⟨n + 1, c.entry, true⟩

/-- The state after the entries `1..n`, each applied once and in order. -/
def RaftLog.after (log : RaftLog) (env : Env) (n : ℕ) : FSM env.store :=
  run env (log.upTo n)

/-- Which writes of a replay reach the disk. -/
structure Writes where
  stored : ℕ → Bool
  recorded : ℕ → Bool

namespace FsmState

/-- Raft hands over the entry at an index. -/
def hand (env : Env) (log : RaftLog) (w : Writes) (f : FsmState S) (i : ℕ) : FsmState S :=
  match log i with
  | none => f
  | some c => f.apply env ⟨i, c.entry, w.stored i⟩ c.entryType (w.recorded i)

/-- Raft hands over the `n` entries above the snapshot. -/
def replay (env : Env) (log : RaftLog) (w : Writes) (f : FsmState S) (snapIndex : ℕ) : ℕ → FsmState S
  | 0 => f
  | n + 1 => (replay env log w f snapIndex n).hand env log w (snapIndex + n + 1)

/-- Raft restores its latest snapshot if it is told to and has one. -/
def restoreLatest (f : FsmState S) (restore : Bool) : Option (ℕ × Database S) → Except StartError (FsmState S)
  | none => .ok f
  | some (_, image) => if restore then f.restore image else .ok f

end FsmState

def snapIndex (latest : Option (ℕ × Database S)) : ℕ :=
  latest.elim 0 Prod.fst

/-- A start of a node: the file is opened and prepared, then Raft restores and replays. -/
def restart (env : Env) (log : RaftLog) (w : Writes) (file : Database S) (latest : Option (ℕ × Database S))
    (hasState joinOnly : Bool) (first last : ℕ) (moved : Bool) : Except StartError (FsmState S) := do
  let f ← newFSM file
  let prepared ← f.prepareFSMForStart hasState joinOnly first last (snapIndex latest) moved
  let f ← prepared.2.restoreLatest prepared.1 latest
  pure (f.replay env log w (snapIndex latest) (last - snapIndex latest))

section

variable (env : Env) (log : RaftLog)

theorem RaftLog.after_succ_none {n : ℕ} (h : log (n + 1) = none) : log.after env (n + 1) = log.after env n := by
  simp [RaftLog.after, RaftLog.upTo, h]

theorem RaftLog.after_succ_some {n : ℕ} (h : log (n + 1) = some c) :
    log.after env (n + 1) = ((log.after env n).apply env ⟨n + 1, c.entry, true⟩).1 := by
  rw [RaftLog.after, RaftLog.upTo, h]
  exact run_concat env _ _

theorem FSM.apply_applied_le (s : FSM S) (l : LogEntry) (h : s.applied ≤ l.index) :
    (s.apply env l).1.applied ≤ l.index := by
  unfold FSM.apply
  repeat' split
  all_goals simp [FSM.halt, FSM.consume, h]

theorem RaftLog.after_applied_le (n : ℕ) : (log.after env n).applied ≤ n := by
  induction n with
  | zero => exact le_rfl
  | succ n ih =>
    cases h : log (n + 1) with
    | none =>
      rw [log.after_succ_none env h]
      omega
    | some c =>
      rw [log.after_succ_some env h]
      exact FSM.apply_applied_le env _ _ (by change _ ≤ n + 1; omega)

theorem RaftLog.after_live {k n : ℕ} (hle : k ≤ n) (h : (log.after env n).stopped = false) :
    (log.after env k).stopped = false := by
  induction n, hle using Nat.le_induction with
  | base => exact h
  | succ n _ ih =>
    cases hn : (log.after env n).stopped with
    | false => exact ih hn
    | true =>
      cases hc : log (n + 1) with
      | none => exact absurd hn (by simp [← log.after_succ_none env hc, h])
      | some c =>
        rw [log.after_succ_some env hc, FSM.apply, if_pos hn, hn] at h
        cases h

/-- What the next command does to the state, as long as the state machine has not stopped. -/
theorem RaftLog.after_command {n : ℕ} (hc : log (n + 1) = some c)
    (hlive : (log.after env n).stopped = false) : log.after env (n + 1) =
      match c.entry.transaction env (log.after env n).db with
      | none => { log.after env n with stopped := true }
      | some (.error _) => { log.after env n with applied := n + 1 }
      | some (.ok (tables, _)) => { log.after env n with db := tables, applied := n + 1 } := by
  have hle := log.after_applied_le env n
  rw [log.after_succ_some env hc, FSM.apply, if_neg (by simp [hlive]), if_neg (by change ¬n + 1 ≤ _; omega)]
  rcases c.entry.transaction env (log.after env n).db with _ | _ | ⟨tables, refused⟩ <;> rfl

end

/-- The file holds the effects of the entries `1..n`. A trusted index is at most `n`, and the entries it
leaves out have written nothing. -/
structure Holds (env : Env) (log : RaftLog) (d : Database env.store) (n : ℕ) : Prop where
  live : (log.after env n).stopped = false
  tables : d.tables = (log.after env n).db
  index : d.trusted = true → d.applied ≤ n ∧ d.tables = (log.after env d.applied).db

section

variable {env : Env} {log : RaftLog} {d : Database env.store} {n : ℕ}

theorem Holds.trustedApplied_le (h : d.trusted = true → Holds env log d n) : d.readFSMMeta.trustedApplied ≤ n := by
  unfold FsmMeta.trustedApplied
  split
  next htrusted => exact ((h htrusted).index htrusted).1
  · exact Nat.zero_le _

/-- What a trusted file holds is named by its index. -/
theorem Holds.trusted (h : Holds env log d n) (ht : d.trusted = true) : Holds env log d d.applied where
  live := log.after_live env (h.index ht).1 h.live
  tables := (h.index ht).2
  index := fun _ => ⟨le_rfl, (h.index ht).2⟩

theorem Database.trusted_createBuckets : d.createBuckets.trusted = d.trusted := by
  have hle := d.metaTxid_le
  by_cases hpos : 0 < d.applied
  · by_cases heq : d.metaTxid = d.txid
    · simp [Database.createBuckets, Database.trusted, hpos, heq]
    · have hne : d.metaTxid ≠ d.txid + 1 := by omega
      simp [Database.createBuckets, Database.trusted, hpos, heq, hne]
  · simp [Database.createBuckets, Database.trusted, hpos]

/-- Opening a file reads its record and changes nothing it holds. -/
theorem openBolt_ok {d' : Database env.store} {m : FsmMeta} (h : openBolt d = .ok (d', m)) :
    m = d.readFSMMeta ∧ d'.tables = d.tables ∧ d'.applied = d.applied ∧ d'.trusted = d.trusted := by
  unfold openBolt at h
  split at h
  · cases h
  cases h
  split
  · exact ⟨rfl, rfl, rfl, Database.trusted_createBuckets⟩
  · exact ⟨rfl, rfl, rfl, rfl⟩

theorem Holds.opened (h : Holds env log d n) {d' : Database env.store} {m : FsmMeta} (hopen : openBolt d = .ok (d', m)) :
    Holds env log d' n := by
  obtain ⟨-, htables, happlied, htrusted⟩ := openBolt_ok hopen
  refine ⟨h.live, htables.trans h.tables, fun ht => ?_⟩
  rw [happlied, htables]
  exact h.index (htrusted ▸ ht)

/-- A file without data holds no entry. -/
theorem Holds.empty (htables : d.tables = {}) (htrusted : d.trusted = false) : Holds env log d 0 :=
  ⟨rfl, htables, fun ht => by rw [htrusted] at ht; cases ht⟩

theorem Holds.skip (h : Holds env log d n) (hc : log (n + 1) = none) : Holds env log d (n + 1) := by
  refine ⟨?_, ?_, fun ht => ⟨Nat.le_succ_of_le (h.index ht).1, (h.index ht).2⟩⟩
  · rw [log.after_succ_none env hc]
    exact h.live
  · rw [log.after_succ_none env hc]
    exact h.tables

/-- The effects of an entry are committed with its index. -/
theorem Holds.put {tables : Tables env.store} (hlive : (log.after env n).stopped = false)
    (htables : tables = (log.after env n).db) (entryType : ℕ) : Holds env log (d.putFSMMeta tables n entryType) n :=
  ⟨hlive, htables, fun _ => ⟨le_rfl, htables⟩⟩

/-- A refused entry changes nothing, so the file holds it without a record. -/
theorem Holds.refused (h : Holds env log d n) (hlive : (log.after env (n + 1)).stopped = false)
    (hsame : (log.after env (n + 1)).db = (log.after env n).db) : Holds env log d (n + 1) :=
  ⟨hlive, h.tables.trans hsame.symm, fun ht => ⟨Nat.le_succ_of_le (h.index ht).1, (h.index ht).2⟩⟩

/-- A state machine that Raft has handed the entries up to `n`: its file holds those, and those it held
before. One that stopped holds the entries up to some earlier one. -/
structure Running (env : Env) (log : RaftLog) (f : FsmState env.store) (n : ℕ) : Prop where
  held : ∃ k ≤ max n f.applied, Holds env log f.db k ∧ (f.stopped = false → k = max n f.applied)
  seen : f.lastSeen ≤ n

variable {f : FsmState env.store} {w : Writes}

section

variable (h : Running env log f n)
include h

theorem Running.holds (hlive : f.stopped = false) : Holds env log f.db (max n f.applied) := by
  obtain ⟨k, -, hk, heq⟩ := h.held
  exact heq hlive ▸ hk

/-- An image a snapshot keeps holds what its label says. -/
theorem Running.snapshot {image : Database env.store} (himage : f.snapshot = some image) : Holds env log image n := by
  unfold FsmState.snapshot at himage
  split at himage
  · cases himage
  split at himage
  · cases himage
  rename_i hlive hseen
  cases himage
  have hn : max n f.applied = n := by
    have := h.seen
    omega
  have hholds := h.holds (by simpa using hlive)
  rwa [hn] at hholds

theorem Running.apply (hc : log (n + 1) = some c) (stored recorded : Bool) :
    Running env log (f.apply env ⟨n + 1, c.entry, stored⟩ c.entryType recorded) (n + 1) := by
  obtain ⟨k, hle, hk, heq⟩ := h.held
  have hseen := h.seen
  unfold FsmState.apply
  split
  next hstopped =>
    exact ⟨⟨k, by omega, hk, fun hlive => by rw [hstopped] at hlive; cases hlive⟩, by omega⟩
  rename_i hlive
  simp only [Bool.not_eq_true] at hlive
  obtain rfl := heq hlive
  split
  next hskip =>
    have hmax : max (n + 1) f.applied = max n f.applied := by
      have : n + 1 ≤ f.applied := hskip
      omega
    exact ⟨⟨_, by rw [hmax], hk, fun _ => hmax.symm⟩, le_rfl⟩
  rename_i hnew
  have hmax : max n f.applied = n := by
    have : ¬n + 1 ≤ f.applied := hnew
    omega
  rw [hmax] at hk
  have hnext := log.after_command env hc hk.live
  rw [hk.tables]
  split
  · exact ⟨⟨n, by omega, hk, nofun⟩, le_rfl⟩
  next e htx =>
    simp only [htx] at hnext
    have hlive' : (log.after env (n + 1)).stopped = false := by rw [hnext]; exact hk.live
    have hsame : (log.after env (n + 1)).db = (log.after env n).db := by rw [hnext]
    refine ⟨⟨n + 1, by simp, ?_, fun _ => by simp⟩, le_rfl⟩
    unfold FsmState.recordConsumed
    split
    · exact .put hlive' (hk.tables.trans hsame.symm) _
    · exact hk.refused hlive' hsame
  next tables refused htx =>
    simp only [htx] at hnext
    split
    · refine ⟨⟨n + 1, by simp, .put ?_ ?_ _, fun _ => by simp⟩, le_rfl⟩
      · rw [hnext]
        exact hk.live
      · rw [hnext]
    · exact ⟨⟨n, by omega, hk, nofun⟩, le_rfl⟩

theorem Running.hand : Running env log (f.hand env log w (n + 1)) (n + 1) := by
  unfold FsmState.hand
  split
  next hc =>
    obtain ⟨k, hle, hk, heq⟩ := h.held
    refine ⟨?_, Nat.le_succ_of_le h.seen⟩
    by_cases hahead : n < f.applied
    · have hmax : max (n + 1) f.applied = max n f.applied := by omega
      rw [hmax]
      exact ⟨k, hle, hk, heq⟩
    cases hs : f.stopped with
    | true => exact ⟨k, by omega, hk, nofun⟩
    | false =>
      obtain rfl := heq hs
      have hmax : max n f.applied = n := by omega
      rw [hmax] at hk
      exact ⟨n + 1, by omega, hk.skip hc, fun _ => by omega⟩
  next c hc => exact h.apply hc _ _

theorem Running.replay (m : ℕ) : Running env log (f.replay env log w n m) (n + m) := by
  induction m with
  | zero => exact h
  | succ m ih => exact ih.hand

end

theorem FsmState.apply_applied_le (env : Env) (f : FsmState env.store) (l : LogEntry) (entryType : ℕ) (recorded : Bool) :
    (f.apply env l entryType recorded).applied ≤ max f.applied l.index := by
  unfold FsmState.apply FsmState.recordConsumed
  repeat' split
  all_goals simp

theorem FsmState.replay_applied_le (env : Env) (log : RaftLog) (w : Writes) (f : FsmState env.store) (n m : ℕ) :
    (f.replay env log w n m).applied ≤ max f.applied (n + m) := by
  induction m with
  | zero => exact le_max_left ..
  | succ m ih =>
    rw [FsmState.replay, FsmState.hand]
    split
    · omega
    next c hc =>
      have := FsmState.apply_applied_le env (f.replay env log w n m)
        ⟨n + m + 1, c.entry, w.stored (n + m + 1)⟩ c.entryType (w.recorded (n + m + 1))
      simp only at this
      omega

section

variable (h : Running env log f n) (hf : f.stopped = false) (hstored : ∀ i, w.stored i = true)
include h hf hstored

/-- With a disk that takes its writes, the state machine stops only where the log stops every one. -/
theorem Running.hand_live
    (hlive : (log.after env (n + 1)).stopped = false) : (f.hand env log w (n + 1)).stopped = false := by
  unfold FsmState.hand
  split
  · exact hf
  rename_i c hc
  have hk := h.holds hf
  unfold FsmState.apply
  rw [if_neg (by simp [hf])]
  split
  · exact hf
  rename_i hnew
  have hmax : max n f.applied = n := by
    have : ¬n + 1 ≤ f.applied := hnew
    omega
  rw [hmax] at hk
  have hnext := log.after_command env hc hk.live
  rw [hk.tables]
  split
  next htx =>
    simp only [htx] at hnext
    rw [hnext] at hlive
    cases hlive
  · unfold FsmState.recordConsumed
    split <;> exact hf
  · rw [if_pos (hstored _)]
    exact hf

theorem Running.replay_live
    {m : ℕ} (hlive : (log.after env (n + m)).stopped = false) : (f.replay env log w n m).stopped = false := by
  induction m with
  | zero => exact hf
  | succ m ih =>
    have hbefore : (log.after env (n + m)).stopped = false := log.after_live env (by omega) hlive
    exact (h.replay m).hand_live (ih hbefore) hstored hlive

end

end

theorem Tables.eq_empty {db : Tables S} (h : db.hasData = false) : db = {} := by
  obtain ⟨topics, schemas, assignments, members, removed, users, remotes, salt, versions⟩ := db
  simp only [Tables.hasData, Bool.not_eq_false', Bool.and_eq_true, Option.isNone_iff_eq_none] at h
  obtain ⟨⟨⟨⟨⟨⟨⟨⟨h1, h2⟩, h3⟩, h4⟩, h5⟩, h6⟩, h7⟩, h8⟩, h9⟩ := h
  rw [Bucket.eq_empty_of_isEmpty h1, Bucket.eq_empty_of_isEmpty h2, Bucket.eq_empty_of_isEmpty h3,
    Bucket.eq_empty_of_isEmpty h4, Bucket.eq_empty_of_isEmpty h5, Bucket.eq_empty_of_isEmpty h6,
    Bucket.eq_empty_of_isEmpty h7, Dict.eq_empty_of_isEmpty h9, h8]

section

variable {env : Env} {log : RaftLog} {w : Writes} {file : Database env.store} {latest : Option (ℕ × Database env.store)}
  {first last a : ℕ} {moved : Bool} {f g : FsmState env.store}

/-- What a start may meet: a file that holds the entries `1..a` unless something else wrote it, a latest
snapshot that holds what its label says, and a log that reaches from the snapshot to past the file. -/
structure Restartable (env : Env) (log : RaftLog) (file : Database env.store) (latest : Option (ℕ × Database env.store))
    (first last a : ℕ) : Prop where
  held : file.trusted = true → Holds env log file a
  image : ∀ s image, latest = some (s, image) → 0 < s ∧ Holds env log image s
  starts : first ≤ snapIndex latest + 1
  covers : a ≤ max last (snapIndex latest)

/-- A state machine that is ready for the entries above the snapshot. -/
structure Ready (env : Env) (log : RaftLog) (latest : Option (ℕ × Database env.store)) (last : ℕ) (f : FsmState env.store) : Prop where
  running : Running env log f (snapIndex latest)
  live : f.stopped = false
  applied : f.applied ≤ max last (snapIndex latest)

theorem Ready.mk_of_holds (hholds : Holds env log f.db (max (snapIndex latest) f.applied))
    (hlive : f.stopped = false) (hseen : f.lastSeen ≤ snapIndex latest)
    (happlied : f.applied ≤ max last (snapIndex latest)) : Ready env log latest last f :=
  ⟨⟨⟨_, le_rfl, hholds, fun _ => rfl⟩, hseen⟩, hlive, happlied⟩

theorem Ready.restored (h : Restartable env log file latest first last a) (hpos : 0 < snapIndex latest)
    (hlive : f.stopped = false) (hrestore : f.restoreLatest true latest = .ok g) : Ready env log latest last g := by
  cases latest with
  | none => cases hpos
  | some sn =>
    obtain ⟨s, image⟩ := sn
    obtain ⟨-, himage⟩ := h.image s image rfl
    rw [FsmState.restoreLatest, if_pos rfl, FsmState.restore] at hrestore
    cases hopen : openBolt image with
    | error e =>
      rw [hopen] at hrestore
      cases hrestore
    | ok dm =>
      obtain ⟨d, m⟩ := dm
      rw [hopen] at hrestore
      cases hrestore
      obtain ⟨rfl, -⟩ := openBolt_ok hopen
      have hle : image.readFSMMeta.trustedApplied ≤ s := Holds.trustedApplied_le fun _ => himage
      refine .mk_of_holds ?_ hlive hle (le_trans hle (le_max_right ..))
      change Holds env log d (max s image.readFSMMeta.trustedApplied)
      rw [max_eq_left hle]
      exact himage.opened hopen

theorem Ready.fresh (hnone : latest = none) (htables : f.db.tables = {}) (htrusted : f.db.trusted = false)
    (happlied : f.applied = 0) (hseen : f.lastSeen = 0) (hlive : f.stopped = false) : Ready env log latest last f := by
  subst hnone
  refine .mk_of_holds ?_ hlive (hseen ▸ Nat.zero_le _) (happlied ▸ Nat.zero_le _)
  rw [happlied]
  exact .empty htables htrusted

theorem FsmState.restoreLatest_kept (h : f.restoreLatest false latest = .ok g) : f = g := by
  cases latest <;> exact Except.ok.inj h

/-- Opening, preparing and restoring leave the state machine ready. -/
theorem Ready.prepared (h : Restartable env log file latest first last a) {restore : Bool} {f₀ f₁ : FsmState env.store}
    (hopen : newFSM file = .ok f₀)
    (hprepare : f₀.prepareFSMForStart true false first last (snapIndex latest) moved = .ok (restore, f₁))
    (hrestore : f₁.restoreLatest restore latest = .ok g) : Ready env log latest last g := by
  unfold newFSM at hopen
  cases hdb : openBolt file with
  | error e =>
    rw [hdb] at hopen
    cases hopen
  | ok dm =>
  obtain ⟨d, m⟩ := dm
  rw [hdb] at hopen
  cases hopen
  obtain ⟨rfl, htables, happlied, htrusted⟩ := openBolt_ok hdb
  have hle : file.readFSMMeta.trustedApplied ≤ a := Holds.trustedApplied_le h.held
  have hlast := h.covers
  have hnotolder : ¬max last (snapIndex latest) < file.readFSMMeta.trustedApplied := by omega
  simp only [FsmState.prepareFSMForStart, Bool.not_true, Bool.false_eq_true, if_false, hnotolder, false_and] at hprepare
  split at hprepare
  next hkeep =>
    cases hprepare
    have hkept := FsmState.restoreLatest_kept hrestore
    subst hkept
    have ht : file.trusted = true := by
      by_contra hno
      simp [FsmMeta.trustedApplied, Database.readFSMMeta, hno] at hkeep
    have hindex : file.readFSMMeta.trustedApplied = file.applied := by
      simp [FsmMeta.trustedApplied, Database.readFSMMeta, ht]
    refine .mk_of_holds ?_ rfl le_rfl (le_trans hle h.covers)
    change Holds env log d (max (snapIndex latest) file.readFSMMeta.trustedApplied)
    rw [max_eq_right hkeep.2, hindex]
    exact ((h.held ht).trusted ht).opened hdb
  split at hprepare
  next hskip hpos =>
    cases hprepare
    exact .restored h (by omega) rfl hrestore
  split at hprepare
  next hpos =>
    cases hprepare
    exact .restored h hpos rfl hrestore
  rename_i hzero hsnap
  have hnone : latest = none := by
      cases latest with
      | none => rfl
      | some sn => exact absurd (h.image sn.1 sn.2 rfl).1 hsnap
  have huntrusted : file.trusted = false := by
    by_contra ht
    simp only [Bool.not_eq_false] at ht
    simp only [FsmMeta.trustedApplied, Database.readFSMMeta, ht, if_true] at hzero
    simp [Database.trusted, hzero] at ht
  split at hprepare
  · split at hprepare
    · cases hset : FsmState.setAsideDatabase ⟨d, file.readFSMMeta, file.readFSMMeta.trustedApplied, 0, false⟩ moved with
      | error e =>
        rw [hset] at hprepare
        cases hprepare
      | ok f =>
        rw [hset] at hprepare
        cases hprepare
        rw [hnone] at hrestore
        cases hrestore
        unfold FsmState.setAsideDatabase at hset
        split at hset <;> cases hset
        exact .fresh hnone rfl rfl rfl rfl rfl
    next hdata =>
      cases hprepare
      rw [hnone] at hrestore
      cases hrestore
      simp only [Database.readFSMMeta, Bool.or_eq_true, decide_eq_true_eq, not_or, Bool.not_eq_true] at hdata
      refine .fresh hnone (htables.trans (Tables.eq_empty hdata.2)) (htrusted.trans huntrusted) ?_ rfl rfl
      exact Nat.eq_zero_of_not_pos hzero
  next hfirst =>
    have := h.starts
    omega

theorem openBolt_of_known {d : Database env.store} (h : d.maxEntryType ≤ maxEntryType) :
    openBolt d = .ok (if d.missing then d.createBuckets else d, d.readFSMMeta) :=
  if_neg (not_lt.mpr h)

theorem FsmState.restoreLatest_ok (f : FsmState env.store) (restore : Bool)
    (hknown : ∀ s image, latest = some (s, image) → image.maxEntryType ≤ maxEntryType) :
    ∃ g, f.restoreLatest restore latest = .ok g := by
  cases latest with
  | none => exact ⟨f, rfl⟩
  | some sn =>
    cases restore with
    | false => exact ⟨f, rfl⟩
    | true =>
      rw [FsmState.restoreLatest, if_pos rfl, FsmState.restore, openBolt_of_known (hknown sn.1 sn.2 rfl)]
      exact ⟨_, rfl⟩

/-- Nothing but a file that cannot be moved keeps a prepared node from starting. -/
theorem FsmState.prepareFSMForStart_ok (f : FsmState env.store) (first : ℕ) {last s : ℕ}
    (hcovers : f.fileMeta.trustedApplied ≤ max last s) :
    ∃ restore g, f.prepareFSMForStart true false first last s true = .ok (restore, g) := by
  have hnotolder : ¬max last s < f.fileMeta.trustedApplied := by omega
  simp only [FsmState.prepareFSMForStart, Bool.not_true, Bool.false_eq_true, if_false, hnotolder, false_and]
  repeat' split
  all_goals exact ⟨_, _, rfl⟩

/-- A restart applies every committed entry exactly once. What it ends with is the state after the entries
`1..last`, or after those the snapshot covers where the log ends before it. A state machine that stops on
the way holds the entries up to some earlier one. With a disk that takes its writes, and files and
entries that this release knows, the node starts and does not stop. -/
theorem restart_applies_once (env : Env) (log : RaftLog) (w : Writes) (file : Database env.store)
    (latest : Option (ℕ × Database env.store)) (first last a : ℕ) (moved : Bool)
    (h : Restartable env log file latest first last a) :
    (∀ f, restart env log w file latest true false first last moved = .ok f →
      ∃ k ≤ max last (snapIndex latest), f.db.tables = (log.after env k).db ∧
        (f.stopped = false → k = max last (snapIndex latest))) ∧ (moved = true → file.maxEntryType ≤ maxEntryType →
      (∀ s image, latest = some (s, image) → image.maxEntryType ≤ maxEntryType) → (∀ i, w.stored i = true) →
      (log.after env (max last (snapIndex latest))).stopped = false →
      ∃ f, restart env log w file latest true false first last moved = .ok f ∧ f.stopped = false) := by
  have hend : snapIndex latest + (last - snapIndex latest) = max last (snapIndex latest) := by omega
  refine ⟨fun f hf => ?_, fun hmoved hfile hknown hstored hlive => ?_⟩
  · simp only [restart, bind_eq_ok] at hf
    obtain ⟨f₀, hopen, ⟨restore, f₁⟩, hprepare, g, hrestore, hf⟩ := hf
    cases hf
    have hready := Ready.prepared h hopen hprepare hrestore
    obtain ⟨k, hk, hholds, heq⟩ := (hready.running.replay (w := w) (last - snapIndex latest)).held
    have happlied := g.replay_applied_le env log w (snapIndex latest) (last - snapIndex latest)
    have hg := hready.applied
    rw [hend] at hk heq happlied
    exact ⟨k, by omega, hholds.tables, fun hl => by have := heq hl; omega⟩
  · subst hmoved
    let f₀ : FsmState env.store := ⟨if file.missing then file.createBuckets else file, file.readFSMMeta,
      file.readFSMMeta.trustedApplied, 0, false⟩
    have hopen : newFSM file = .ok f₀ := by
      rw [newFSM, openBolt_of_known hfile]
      rfl
    obtain ⟨restore, f₁, hprepare⟩ := f₀.prepareFSMForStart_ok first
      (le_trans (Holds.trustedApplied_le h.held) h.covers)
    obtain ⟨g, hrestore⟩ := f₁.restoreLatest_ok restore hknown
    have hready := Ready.prepared h hopen hprepare hrestore
    refine ⟨g.replay env log w (snapIndex latest) (last - snapIndex latest), ?_, ?_⟩
    · simp only [restart, bind_eq_ok]
      exact ⟨f₀, hopen, (restore, f₁), hprepare, g, hrestore, rfl⟩
    · refine hready.running.replay_live hready.live hstored ?_
      rw [hend]
      exact hlive

end

/-- A topic is created, and then refused under the same name. -/
def ordersLog : RaftLog
  | 2 | 4 => some ⟨.createTopic { name := "orders", id := "o1", partitions := 4, retentionMs := 172800000 }, 1⟩
  | _ => none

/-- The first life of the node, on a disk that drops the records of refused entries. -/
def ordersAfter (n : ℕ) : FsmState .tree :=
  FsmState.replay plainEnv ordersLog ⟨fun _ => true, fun _ => false⟩
    ⟨({} : Database .tree).createBuckets, ({} : Database .tree).readFSMMeta, 0, 0, false⟩ 0 n

theorem ordersAfter_running (n : ℕ) : Running plainEnv ordersLog (ordersAfter n) n := by
  have hready : Ready plainEnv ordersLog none 0
      ⟨({} : Database .tree).createBuckets, ({} : Database .tree).readFSMMeta, 0, 0, false⟩ :=
    .fresh rfl rfl rfl rfl rfl rfl
  have hrun := hready.running.replay (w := ⟨fun _ => true, fun _ => false⟩) n
  rwa [show snapIndex none + n = n from zero_add n] at hrun

theorem ordersAfter_restarts :
    ∃ f, restart plainEnv ordersLog ⟨fun _ => true, fun _ => true⟩ (ordersAfter 4).db (some (3, (ordersAfter 3).db))
        true false 3 5 true = .ok f ∧ f.db.tables = (ordersLog.after plainEnv 5).db := by
  have hheld : Holds plainEnv ordersLog (ordersAfter 4).db 4 := (ordersAfter_running 4).holds (by decide +kernel)
  have himage : Holds plainEnv ordersLog (ordersAfter 3).db 3 := (ordersAfter_running 3).holds (by decide +kernel)
  have h : Restartable plainEnv ordersLog (ordersAfter 4).db (some (3, (ordersAfter 3).db)) 3 5 4 := by
    refine ⟨fun _ => hheld, fun s image heq => ?_, by decide, by decide⟩
    cases heq
    exact ⟨by decide, himage⟩
  obtain ⟨hstate, hstarts⟩ := restart_applies_once plainEnv ordersLog ⟨fun _ => true, fun _ => true⟩ (ordersAfter 4).db
    (some (3, (ordersAfter 3).db)) 3 5 4 true h
  obtain ⟨f, hf, hlive⟩ := hstarts rfl (by decide +kernel) (fun s image heq => by cases heq; decide +kernel)
    (fun _ => rfl) (by decide +kernel)
  obtain ⟨k, -, htables, hk⟩ := hstate f hf
  rw [hk hlive] at htables
  exact ⟨f, hf, htables⟩

end Narad.Metastore
