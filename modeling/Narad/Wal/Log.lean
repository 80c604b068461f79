import Narad.Wal.Directory
import Narad.Lib.Machine

/-!
# The write-ahead log

The log between its locks. `holder` is what the goroutine that has the append lock is doing, `flight`
is the background flush with the buffer it detached, and `compaction` is a `CompactBefore` call; an
action is one step of one of them. The file lock is held by a flush or an inline sync that writes or
syncs and by a roll once it has created its file.

The directory is the list of the segment files, each with the number of its bytes that are on stable
storage. Every effect on a file may fail where the code expects it to, and a failed write may leave
any part of its bytes. Buffers are values: their reuse is not modelled. Segment preparation is off.

A log also carries its history, which no step reads. Opening a directory passes it on.
-/

namespace Narad.Wal

open Lib

structure Options where
  segmentBytes : ℕ
  maxRecord : ℕ
  compactRotateBytes : ℕ
  deriving DecidableEq

variable (o : Options)

def normalizeOptions : Options where
  segmentBytes := if o.segmentBytes = 0 then 64 * 2 ^ 20 else o.segmentBytes
  maxRecord := if o.maxRecord = 0 then 16 * 2 ^ 20 else o.maxRecord
  compactRotateBytes := if o.compactRotateBytes = 0 then 2 ^ 20 else o.compactRotateBytes

/-- A record to append: its declared size and what its fill function appends, if it does at all. -/
structure Fill where
  size : ℕ
  filled : Option Bytes
  deriving DecidableEq

/-- What the fill function appends, if it keeps to the declared size. -/
def Fill.payload? (f : Fill) : Option Bytes :=
  f.filled.filter fun payload => payload.length = f.size

/-- The append state that a failed batch goes back to. -/
structure Mark where
  buffered : ℕ
  segmentSize : ℕ
  nextSeq : ℕ
  pending : Option ℕ
  deriving DecidableEq

/-- An append under way: the records left to stage and those staged. -/
structure Call where
  many : Bool
  rest : List Fill
  taken : List Record
  mark : Mark
  deriving DecidableEq

/-- What follows an inline sync and a roll. -/
inductive After where
  | append (c : Call)
  | compact (seq : ℕ)
  deriving DecidableEq

inductive Holder where
  | free
  | staging (c : Call)
  | writing (rest : Bytes) (k : After)
  | syncing (k : After)
  | rolling (k : After)
  | created (k : After)
  | named (k : After)
  deriving DecidableEq

inductive FlightStage where
  | writing (rest : Bytes)
  | syncing
  | ended (ok : Bool)
  deriving DecidableEq

/-- A flush with its detached batch, and where in which segment its bytes end. -/
structure Flight where
  batch : Option ℕ
  base : ℕ
  stop : ℕ
  stage : FlightStage
  deriving DecidableEq

inductive Compaction where
  | idle
  | rotating
  | rotated (seq : ℕ)
  | listing (seq active floor : ℕ)
  | removing (doomed : List ℕ) (floor newFloor : ℕ)
  deriving DecidableEq

/-- What happened so far: the payloads staged by seq, the records whose append returned no error, the
seqs that replay of the open log delivered, the bases of the segments seen, and the highest bound given
to `CompactBefore`. -/
structure History where
  staged : List Bytes
  acked : List Record
  read : List ℕ
  bases : List ℕ
  compacted : ℕ
  deriving DecidableEq

structure Log extends History where
  opts : Options
  disk : List Segment
  fileOpen : Bool
  segmentBase : ℕ
  segmentSize : ℕ
  nextSeq : ℕ
  writeBuffer : Bytes
  pending : Option ℕ
  nextBatch : ℕ
  closed : Bool
  syncErr : Bool
  writeFailed : Bool
  compactFloor : ℕ
  durableSize : ℕ
  holder : Holder
  flight : Option Flight
  compaction : Compaction
  waiting : List (ℕ × List Record)
  deriving DecidableEq

inductive Action where
  /-- The start of `Append`, `AppendWith` or `AppendManyWith`. -/
  | append (many : Bool) (records : List Fill)
  /-- The next record is staged, or the call leaves the lock to wait. -/
  | stage
  | write (n : ℕ) (ok : Bool)
  | sync (ok : Bool)
  | create (ok : Bool)
  /-- The directory is synced; on failure the new file is removed, or not. -/
  | syncDir (ok removed : Bool)
  | closeOld (ok removed : Bool)
  /-- A flush detaches the buffer. -/
  | flush
  | flushWrite (n : ℕ) (ok : Bool)
  | flushSync (ok : Bool)
  | flushed
  /-- Replay of the open log from `start` delivers record `q`. -/
  | read (start q : ℕ)
  | compactBefore (seq : ℕ)
  | snapshot
  | list
  | remove (ok : Bool)
  | settle
  | stop
  | closeFile

namespace Log

variable (s : Log)

def mark : Mark :=
  ⟨s.writeBuffer.length, s.segmentSize, s.nextSeq, s.pending⟩

def withdraw (m : Mark) : Log :=
  { s with
    writeBuffer := s.writeBuffer.take m.buffered
    segmentSize := m.segmentSize
    nextSeq := m.nextSeq
    pending := m.pending
    staged := s.staged.take m.nextSeq }

/-- Everything waiting on the batch returns; on success it is acknowledged. -/
def completeBatch (batch : Option ℕ) (ok : Bool) : Log :=
  match batch with
  | none => s
  | some b =>
    let done := s.waiting.filter fun w => w.1 = b
    { s with
      waiting := s.waiting.filter fun w => w.1 ≠ b
      acked := if ok then s.acked ++ done.flatMap Prod.snd else s.acked }

/-- The call, or the compaction, ends with an error. -/
def giveUp : After → Log
  | .append c => if c.many then { s.withdraw c.mark with holder := .free } else { s with holder := .free }
  | .compact _ => { s with holder := .free, compaction := .idle }

/-- Go on after the sync and the roll. -/
def goOn : After → Log
  | .append c => { s with holder := .staging { c with mark := s.mark } }
  | .compact seq => { s with holder := .free, compaction := .rotated seq }

/-- What an inline sync leaves behind for a failure past it. -/
def markAfter : After → After
  | .append c => .append { c with mark := s.mark }
  | .compact seq => .compact seq

def flightHoldsFile : Bool :=
  match s.flight with
  | some ⟨_, _, _, .writing _⟩ | some ⟨_, _, _, .syncing⟩ => true
  | _ => false

variable (k : After)

/-- The inline sync in front of a roll; nothing to write is success. -/
def syncLocked : Option Log :=
  if s.writeBuffer = [] then some { s with holder := .rolling (s.markAfter k) }
  else if s.flightHoldsFile then none
  else
    some { s with holder := .writing s.writeBuffer k, writeBuffer := [] }

/-- The inline write or sync failed, or an earlier one had. -/
def latch : Log :=
  let batch := s.pending
  let s := { s with syncErr := true, pending := none }
  let s := s.completeBatch batch false
  s.giveUp (s.markAfter k)

def appendable : Bool :=
  !s.closed && !s.syncErr && s.fileOpen

/-- The frame does not fit the active segment. -/
def overflows (size : ℕ) : Bool :=
  0 < s.segmentSize && s.opts.segmentBytes < s.segmentSize + (frameHeaderSize + size)

/-- There is a pending batch; a new one if there was none. -/
def openBatch : Log :=
  match s.pending with
  | some _ => s
  | none => { s with pending := some s.nextBatch, nextBatch := s.nextBatch + 1 }

/-- The next record goes into the buffer. -/
def stageRecord (payload : Bytes) : Log :=
  { s with
    writeBuffer := s.writeBuffer ++ frameOf s.nextSeq payload
    segmentSize := s.segmentSize + (frameHeaderSize + payload.length)
    nextSeq := s.nextSeq + 1
    staged := s.staged ++ [payload] }

def stage (c : Call) : Option Log :=
  match c.rest with
  | [] =>
    -- the last record staged left its batch pending
    s.pending.map fun batch => { s with holder := .free, waiting := (batch, c.taken) :: s.waiting }
  | f :: rest =>
    if s.overflows f.size then s.syncLocked (.append c)
    else
      let s := s.openBatch
      match f.payload? with
      | some payload =>
        let taken := c.taken ++ [⟨s.nextSeq, payload⟩]
        some { s.stageRecord payload with holder := .staging { c with rest, taken } }
      | none => some (s.giveUp (.append c))

/-- The roll takes over the new file. -/
def swap : Log :=
  { s with segmentBase := s.nextSeq, segmentSize := 0, durableSize := 0, compactFloor := 0 }

/-- The segments that a compaction up to `seq` deletes: not the active one, not the last one, and only
those whose successor's base shows that they lie below. -/
def doomed (seq active : ℕ) : List ℕ → List ℕ
  | base :: next :: rest =>
    if base ≠ active ∧ next ≤ seq then base :: doomed seq active (next :: rest)
    else doomed seq active (next :: rest)
  | _ => []

/-- The base behind the oldest sealed segment kept. -/
def nextFloor (active : ℕ) : List ℕ → ℕ
  | base :: rest =>
    if base = active then nextFloor active rest
    else rest.head?.getD (2 ^ 64 - 1)
  | [] => 2 ^ 64 - 1

/-- The next bytes of an inline sync are written. -/
def inlineWrite (rest : Bytes) (k : After) (n : ℕ) (ok : Bool) : Option Log :=
  if s.writeFailed then some (s.latch k)
  else
    let disk := updateSegment s.disk s.segmentBase (.append (rest.take n))
    if !ok then some (Log.latch { s with disk, writeFailed := true } k)
    else if rest.drop n = [] then some { s with disk, holder := .syncing k }
    else if n = 0 then none
    else some { s with disk, holder := .writing (rest.drop n) k }

def inlineSync (ok : Bool) : Log :=
  if !ok then Log.latch { s with writeFailed := true } k
  else
    let batch := s.pending
    let s := { s with
      disk := updateSegment s.disk s.segmentBase .sync
      durableSize := s.segmentSize
      pending := none }
    let s := s.completeBatch batch true
    { s with holder := .rolling (s.markAfter k) }

/-- The roll creates the next segment; an existing file of its name fails the exclusive create. -/
def rollCreate (ok : Bool) : Option Log :=
  if s.flightHoldsFile then none
  else if s.writeFailed then some (Log.giveUp { s with syncErr := true } k)
  else if !ok || s.disk.any fun g => g.base = s.nextSeq then some (s.giveUp k)
  else
    some { s with
      disk := s.disk ++ [⟨s.nextSeq, [], 0⟩]
      bases := s.nextSeq :: s.bases
      holder := .created k }

/-- The roll fails with its new file in place, which it tries to remove. -/
def rollBack (removed : Bool) : Log :=
  if removed then Log.giveUp { s with disk := removeSegment s.disk s.nextSeq } k else s.giveUp k

def rollSyncDir (ok removed : Bool) : Log :=
  if ok then { s with holder := .named k }
  else s.rollBack k removed

def rollClose (ok removed : Bool) : Log :=
  if ok then s.swap.goOn k else s.rollBack k removed

/-- A flush detaches the buffer and the batch. The sync loop has returned before the file is closed. -/
def flushDetach : Option Log :=
  if s.writeBuffer = [] ∨ s.fileOpen = false then none
  else
    let flight := ⟨s.pending, s.segmentBase, s.segmentSize, .writing s.writeBuffer⟩
    some { s with flight := some flight, writeBuffer := [], pending := none }

def flushWrite (f : Flight) (rest : Bytes) (n : ℕ) (ok : Bool) : Option Log :=
  if s.writeFailed then some { s with flight := some { f with stage := .ended false } }
  else
    let disk := updateSegment s.disk f.base (.append (rest.take n))
    if !ok then some { s with disk, flight := some { f with stage := .ended false }, writeFailed := true }
    else if rest.drop n = [] then some { s with disk, flight := some { f with stage := .syncing } }
    else if n = 0 then none
    else some { s with disk, flight := some { f with stage := .writing (rest.drop n) } }

def flushSync (f : Flight) (ok : Bool) : Log :=
  if ok then
    { s with
      disk := updateSegment s.disk f.base .sync, flight := some { f with stage := .ended true } }
  else { s with flight := some { f with stage := .ended false }, writeFailed := true }

/-- The flush takes the append lock again; a failed one also fails what was staged meanwhile. -/
def flushed (f : Flight) (ok : Bool) : Log :=
  if ok then
    let durableSize := if s.segmentBase = f.base ∧ s.durableSize < f.stop then f.stop else s.durableSize
    Log.completeBatch { s with flight := none, durableSize } f.batch true
  else
    let pending := s.pending
    let s := { s with flight := none, syncErr := true, writeBuffer := [], pending := none }
    (s.completeBatch pending false).completeBatch f.batch false

/-- `rotateFullyCompacted`: a large enough active segment below the bound is rolled first. -/
def compactStart (seq : ℕ) : Option Log :=
  let s := { s with compacted := max s.compacted seq }
  if s.closed || s.syncErr || !s.fileOpen then some { s with compaction := .rotated seq }
  else if seq < s.nextSeq ∨ s.segmentSize < s.opts.compactRotateBytes then
    some { s with compaction := .rotated seq }
  else Log.syncLocked { s with compaction := .rotating } (.compact seq)

def compactSnapshot (seq : ℕ) : Log :=
  if seq < s.compactFloor then { s with compaction := .idle }
  else { s with compaction := .listing seq s.segmentBase s.compactFloor }

def compactList (seq active floor : ℕ) : Log :=
  let bases := (listSegments s.disk).map Segment.base
  let gone := doomed seq active bases
  let kept := bases.filter fun b => b ∉ gone
  { s with compaction := .removing gone floor (nextFloor active kept) }

/-- The segments as `ReplayFromCursor` of the open log reads them: the active one up to its synced size,
and none past it. -/
def openInfos : List SegmentInfo :=
  (listSegments s.disk).map fun g =>
    ⟨g.base, if g.base < s.segmentBase then g.file
      else if g.base = s.segmentBase then g.file.take s.durableSize else []⟩

def replayOpen (start : ℕ) : Replayed :=
  replay start s.opts.maxRecord s.openInfos

def step : Action → Option Log
  | .append many records =>
    match s.holder with
    | .free =>
      if records = [] ∨ (many = false ∧ records.length ≠ 1) then none
      else if records.any fun f => f.size == 0 || s.opts.maxRecord < f.size then none
      else if s.appendable then some { s with holder := .staging ⟨many, records, [], s.mark⟩ }
      else none
    | _ => none
  | .stage =>
    match s.holder with
    | .staging c => s.stage c
    | _ => none
  | .write n ok =>
    match s.holder with
    | .writing rest k => s.inlineWrite rest k n ok
    | _ => none
  | .sync ok =>
    match s.holder with
    | .syncing k => some (s.inlineSync k ok)
    | _ => none
  | .create ok =>
    match s.holder with
    | .rolling k => s.rollCreate k ok
    | _ => none
  | .syncDir ok removed =>
    match s.holder with
    | .created k => some (s.rollSyncDir k ok removed)
    | _ => none
  | .closeOld ok removed =>
    match s.holder with
    | .named k => some (s.rollClose k ok removed)
    | _ => none
  | .flush =>
    match s.holder, s.flight with
    | .free, none => s.flushDetach
    | _, _ => none
  | .flushWrite n ok =>
    match s.flight with
    | some f =>
      match f.stage with
      | .writing rest => s.flushWrite f rest n ok
      | _ => none
    | none => none
  | .flushSync ok =>
    match s.flight with
    | some f =>
      match f.stage with
      | .syncing => some (s.flushSync f ok)
      | _ => none
    | none => none
  | .flushed =>
    match s.holder, s.flight with
    | .free, some f =>
      match f.stage with
      | .ended ok => some (s.flushed f ok)
      | _ => none
    | _, _ => none
  | .read start q =>
    if (s.replayOpen start).1.any fun r => r.seq = q then some { s with read := q :: s.read } else none
  | .compactBefore seq =>
    match s.holder, s.compaction with
    | .free, .idle => s.compactStart seq
    | _, _ => none
  | .snapshot =>
    match s.holder, s.compaction with
    | .free, .rotated seq => some (s.compactSnapshot seq)
    | _, _ => none
  | .list =>
    match s.compaction with
    | .listing seq active floor => some (s.compactList seq active floor)
    | _ => none
  | .remove ok =>
    match s.compaction with
    | .removing (base :: rest) floor newFloor =>
      if ok then
        some { s with
          disk := removeSegment s.disk base, compaction := .removing rest floor newFloor }
      else some { s with compaction := .idle }
    | _ => none
  | .settle =>
    match s.holder, s.compaction with
    | .free, .removing [] floor newFloor =>
      let compactFloor := if s.compactFloor = floor then newFloor else s.compactFloor
      some { s with compaction := .idle, compactFloor }
    | _, _ => none
  | .stop =>
    match s.holder with
    | .free => some { s with closed := true }
    | _ => none
  | .closeFile =>
    match s.holder, s.flight with
    | .free, none =>
      if s.closed && s.writeBuffer.isEmpty then some { s with fileOpen := false } else none
    | _, _ => none

/-- The base of the oldest segment on disk. -/
def firstSeq : ℕ :=
  ((listSegments s.disk).head?.map Segment.base).getD s.nextSeq

end Log

/-- The log over a scanned directory, its last segment truncated to the end of valid data and synced. -/
def opened (opts : Options) (disk : List Segment) (h : History) (base nextSeq lastValidEnd : ℕ) : Log where
  staged := h.staged.take nextSeq
  acked := h.acked
  read := h.read
  bases := disk.map Segment.base ++ h.bases
  compacted := h.compacted
  opts := opts
  disk := updateSegment disk base fun g =>
    { g with file := resize g.file lastValidEnd, synced := lastValidEnd }
  fileOpen := true
  segmentBase := base
  segmentSize := lastValidEnd
  nextSeq := nextSeq
  writeBuffer := []
  pending := none
  nextBatch := 0
  closed := false
  syncErr := false
  writeFailed := false
  compactFloor := 0
  durableSize := lastValidEnd
  holder := .free
  flight := none
  compaction := .idle
  waiting := []

/-- `Open` on a directory with this history. -/
def «open» (disk : List Segment) (h : History) : Except FrameError Log :=
  let opts := normalizeOptions o
  let disk := if disk = [] then [⟨0, [], 0⟩] else disk
  match scanForOpen opts.maxRecord 0 (segmentInfos disk) with
  | .error e => .error e
  | .ok (nextSeq, lastValidEnd) =>
    let base := ((listSegments disk).getLast?.map Segment.base).getD 0
    -- the last segment's base is a floor for the next seq
    .ok (opened opts disk h base (max nextSeq base) lastValidEnd)

/-- A log on an empty directory. -/
def create : Except FrameError Log :=
  «open» o [] ⟨[], [], [], [], 0⟩

inductive Event where
  | act (a : Action)
  | restart (keep : ℕ → ℕ)

/-- What the directory holds after a crash, opened again. -/
def Log.reopen (s : Log) (keep : ℕ → ℕ) : Except FrameError Log :=
  «open» s.opts (crash s.disk keep) s.toHistory

def Log.event (s : Log) : Event → Option Log
  | .act a => s.step a
  | .restart keep => (s.reopen keep).toOption

end Narad.Wal
