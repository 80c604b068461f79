import Narad.Storage.Log

/-!
# The flusher, the appenders and the readers

One goroutine, the flusher, writes the log: a pass drains the buffer, writes frames, syncs, and for
a commit verifies and advances the high watermark; a failed commit discards the uncommitted tail.
Appenders and readers run next to it. A step of the machine is one critical section or one system
call of one of them, so a run is an interleaving of their steps.

A lookup's walk under the read lock is one step: the caches it touches have their own locks, but
hold only positions of frames and immutable records. Timers and thresholds only decide when a pass
runs and whether it drains, which is left to the labels.
-/

namespace Narad.Storage

open Lib

structure CommitRequest where
  first : ℕ
  last : ℕ
  hwm : Option ℕ
  verify : Bool
  rotate : Bool
  deriving DecidableEq

def syncRequest : CommitRequest :=
  ⟨0, 0, none, false, false⟩

def rotateRequest : CommitRequest :=
  ⟨0, 0, none, false, true⟩

variable (o : Options)

/-- The request that `CommitDurable` submits. -/
def commitRequest (first last : ℕ) : CommitRequest :=
  ⟨first, last, some (last + 1), !o.disableCommitVerify, false⟩

/-- What a pass of the flusher was started for. -/
structure Pass where
  forceSync : Bool
  commit : Option CommitRequest
  cache : Bool
  deriving DecidableEq

def Pass.isCommit (p : Pass) : Bool :=
  p.commit.any fun c => c.hwm.isSome

/-- The shutdown drain: the only pass without a request that forces a sync. -/
def Pass.isStop (p : Pass) : Bool :=
  p.commit.isNone && p.forceSync

/-- The records of a drained batch that are not written yet, and the offset of the first. -/
structure Batch where
  records : List Bytes
  baseOffset : ℕ
  deriving DecidableEq

/-- What is left once the first `n` records are written. -/
def Batch.rest (b : Batch) (n : ℕ) : Batch :=
  ⟨b.records.drop n, b.baseOffset + n⟩

/-- What a roll is for: the next frame, a rotation, or a full segment after a commit. -/
inductive RollFor where
  | frame (bytes : Bytes) (n : ℕ) (batch : Batch)
  | rotate
  | pending
  deriving DecidableEq

/-- Where the pass goes on after a sync. -/
inductive AfterSync where
  | batch (batch : Batch)
  | roll (why : RollFor)
  deriving DecidableEq

/-- Where a pass stands. -/
inductive Phase where
  | begin (forceDrain : Bool)
  | frame (batch : Batch)
  | sync (force : Bool) (after : AfterSync)
  | durable (after : AfterSync)
  | clear (after : AfterSync)
  | create (why : RollFor)
  | write (bytes : Bytes) (n : ℕ) (batch : Batch)
  | publish (bytes : Bytes) (n : ℕ) (batch : Batch)
  | nav (entry : IndexEntry) (n : ℕ) (batch : Batch)
  | cache (entry : IndexEntry) (n : ℕ) (batch : Batch)
  | verify (offset : ℕ) (lookup : Lookup)
  | advance
  | rotate
  | rollPending
  | discard (truncateDisk : Bool)
  | reply (ok : Bool)
  | persist
  | shut
  | stopped
  deriving DecidableEq

/-- How writing a frame ends: a failed write leaves some of its bytes, unless they are cut off. -/
inductive WriteOutcome where
  | ok
  | fails (written : ℕ) (truncated : Bool)

/-- The clock, the timers and the outcomes of the system calls of one flusher step. -/
structure Env where
  now : ℕ
  rollAge : ℕ
  aged : Bool
  syncDue : Bool
  write : WriteOutcome
  syncFails : Bool
  createFails : Bool
  truncate : TruncateOutcome
  readFails : Bool
  hwm : HwmOutcome

/-- No timer is due and every call succeeds. -/
def Env.calm : Env :=
  ⟨0, 0, false, false, .ok, false, false, .ok, false, .ok⟩

/-- How many leading records fit into one frame, at least one. -/
def frameSplitLen (records : List Bytes) : ℕ :=
  let rec go (size i : ℕ) : List Bytes → ℕ
    | [] => i
    | r :: rest =>
      if o.maxFrameInnerBytes < size + (4 + r.length) ∧ 0 < i then i
      else go (size + (4 + r.length)) (i + 1) rest
  go 0 0 records

/-- The active segment has held records for longer than the roll age. -/
def segmentAgedOutLocked (active : Segment) (e : Env) : Bool :=
  match active.firstWriteAt with
  | some firstWriteAt =>
    decide (0 < e.rollAge ∧ active.sizeBytes ≠ 0 ∧ e.rollAge ≤ e.now - firstWriteAt)
  | none => false

variable (l : Log)

def shouldSync (e : Env) : Bool :=
  o.syncPerWrite || decide (0 < o.syncBytes ∧ o.syncBytes ≤ l.unsyncedBytes) || e.syncDue

def maxCachedWriteFrameBytes : ℕ :=
  maxDecodeCacheBytes / 8

/-- A failed pass: a commit discards the uncommitted tail before it reports. -/
def failed (p : Pass) : Phase :=
  if p.isCommit then .discard (!l.poisoned) else .reply false

/-- The failure of a sync or a roll; that of a pending roll is only logged. -/
def RollFor.failed (p : Pass) : RollFor → Phase
  | .pending => .reply true
  | _ => Storage.failed l p

def AfterSync.failed (p : Pass) : AfterSync → Phase
  | .batch _ => Storage.failed l p
  | .roll why => why.failed l p

def AfterSync.resume : AfterSync → Phase
  | .batch b => .frame b
  | .roll why => .create why

/-- A roll is done. -/
def RollFor.rolled : RollFor → Phase
  | .frame bytes n batch => .write bytes n batch
  | _ => .reply true

/-- The batch is written: the request's own work follows, or the roll of the shutdown drain. -/
def finishRequest (p : Pass) : Phase :=
  match p.commit with
  | none => if p.forceSync then .rollPending else .reply true
  | some c => if c.verify ∧ c.first ≤ c.last then .verify c.first .probe else .advance

/-- The high watermark is where the request wanted it. -/
def advanced (p : Pass) : Phase :=
  if p.commit.any CommitRequest.rotate then .rotate
  else if p.isCommit then .rollPending
  else .reply true

def writeActive (s : Store) (outcome : WriteOutcome) (bytes : Bytes) : Store :=
  let file := s.active.file
  let pos := s.active.sizeBytes
  { s with
    active := { s.active with
      synced := min s.active.synced pos
      file := match outcome with
        | .ok => writeAt file pos bytes
        | .fails written truncated =>
          let torn := writeAt file pos (bytes.take written)
          if truncated then resize torn pos else torn } }

/-- Account for a written frame under the write lock. -/
def publishFrame (e : Env) (bytes : Bytes) (n : ℕ) (b : Batch) : IndexEntry × Log :=
  let active := l.store.active
  let entry : IndexEntry := ⟨active.baseOffset, b.baseOffset, n, active.sizeBytes, bytes.length⟩
  let active : Segment :=
    { active with
      firstWriteAt := some (active.firstWriteAt.getD e.now)
      sizeBytes := active.sizeBytes + bytes.length
      nextOffset := b.baseOffset + n }
  (entry, { l with
    store := appendIndexLocked o { l.store with active := active } entry
    flushing := markFlushingWritten l.flushing active.nextOffset
    rollPending := l.rollPending || decide (o.segmentBytes ≤ active.sizeBytes)
    unsyncedBytes := l.unsyncedBytes + bytes.length })

/-- Seal the active segment and install a fresh one after it. -/
def rollStore (s : Store) : Store :=
  { s with sealed := s.sealed ++ [s.active], active := createSegment s.active.nextOffset }

/-- One lookup section of the read-back or, once a frame is found, its checksum. -/
def verifyStep (p : Pass) (e : Env) (offset : ℕ) (lookup : Lookup) : Log × Phase :=
  match lookupStep o l.store offset lookup with
  | (.continue_ next, s) => ({ l with store := s }, .verify offset next)
  | (.missing, s) => ({ l with store := s }, failed l p)
  | (.found entry _, s) =>
    let l := { l with store := s }
    match findSegmentLocked s entry.segmentBaseOffset with
    | none => (l, failed l p)
    | some seg =>
      if e.readFails then (l, failed l p)
      else
        match verifyFrameAtBuffered seg.file entry.framePos with
        | .error _ => (l, failed l p)
        | .ok (h, _) =>
          if h.recordCount ≤ 0 then (l, failed l p)
          else
            let offset := entry.baseOffset + h.recordCount.toNat
            if p.commit.any fun c => decide (offset ≤ c.last) then (l, .verify offset .probe)
            else (l, .advance)

/-- Start of a pass: refuse on a poisoned log, then drain if something asks for it. -/
def beginPass (p : Pass) (e : Env) (forceDrain : Bool) : Log × Pass × Phase :=
  if l.poisoned then (l, p, failed l p)
  else if !forceDrain && !hasPendingFlushing l && !(!l.buffer.records.isEmpty && e.aged) then
    (l, p, .sync p.forceSync (.batch ⟨[], l.buffer.baseOffset⟩))
  else
    let ((records, base), l) := drainBufferForFlush l
    if records.isEmpty then (l, p, .sync p.forceSync (.batch ⟨[], base⟩))
    else
      let cache := !o.disableCommitVerify && l.readSeen
      ({ l with readSeen := if cache then false else l.readSeen }, { p with cache := cache },
        .frame ⟨records, base⟩)

variable (z : Zstd)

/-- Top of the frame loop: encode the next frame and choose the segment it goes to. -/
def frameStep (o : Options) (l : Log) (p : Pass) (e : Env) (b : Batch) : Phase :=
  if b.records.isEmpty then finishRequest p
  else
    let n := frameSplitLen o b.records
    match encodeFrame z o.codec (b.records.take n) b.baseOffset with
    | .error _ => failed l p
    | .ok bytes =>
      if l.rollPending || segmentAgedOutLocked l.store.active e then
        .sync true (.roll (.frame bytes n b))
      else .write bytes n b

/-- One step of the flusher's pass. -/
def flusherStep (o : Options) (l : Log) (p : Pass) (e : Env) : Phase → Log × Pass × Phase
  | .begin forceDrain => beginPass o l p e forceDrain
  | .frame batch => (l, p, frameStep z o l p e batch)
  | .sync force after =>
    if l.unsyncedBytes = 0 ∨ (!force && !shouldSync o l e) then (l, p, after.resume)
    else if e.syncFails then
      let l := { l with poisoned := true }
      (l, p, after.failed l p)
    else
      ({ l with
        store := { l.store with active := l.store.active.sync }
        unsyncedBytes := 0 }, p, .durable after)
  | .durable after => ({ l with durableTail := l.store.active.nextOffset }, p, .clear after)
  | .clear after =>
    ({ l with flushing := clearFlushingThrough l.flushing l.store.active.nextOffset }, p, after.resume)
  | .create why =>
    -- The create is exclusive: it fails as well when the file of that base exists.
    if e.createFails || (findSegmentLocked l.store l.store.active.nextOffset).isSome then
      (l, p, why.failed l p)
    else ({ l with store := rollStore l.store, rollPending := false }, p, why.rolled)
  | .write bytes n batch =>
    ({ l with store := writeActive l.store e.write bytes }, p, match e.write with
      | .ok => .publish bytes n batch
      | .fails _ _ => failed l p)
  | .publish bytes n batch =>
    let (entry, l) := publishFrame o l e bytes n batch
    (l, p, .nav entry n batch)
  | .nav entry n batch =>
    let l := { l with store := { l.store with navCache := navPut l.store.navCache entry } }
    (l, p, if p.cache then .cache entry n batch
      else .sync (p.forceSync || l.rollPending) (.batch (batch.rest n)))
  | .cache entry n batch =>
    let records := batch.records.take n
    let size := (records.map List.length).sum
    let l := if maxCachedWriteFrameBytes < size then l
      else
        { l with store := { l.store with
          frameCache := framePutSized l.store.frameCache entry.key records size } }
    (l, p, .sync (p.forceSync || l.rollPending) (.batch (batch.rest n)))
  | .verify offset lookup =>
    let (l, phase) := verifyStep o l p e offset lookup
    (l, p, phase)
  | .advance =>
    match p.commit.bind CommitRequest.hwm with
    | none => (l, p, advanced p)
    | some hwm =>
      let (ok, l) := advanceHighWatermark l hwm e.hwm
      (l, p, if ok then advanced p else failed l p)
  | .rotate =>
    if 0 < l.store.active.sizeBytes ∧ l.store.active.nextOffset ≤ l.highWatermark then
      (l, p, .sync true (.roll .rotate))
    else (l, p, .reply true)
  | .rollPending => (l, p, if l.rollPending then .sync true (.roll .pending) else .reply true)
  | .discard truncateDisk => (discardUncommittedTail l truncateDisk e.truncate, p, .reply false)
  | .reply ok => (l, p, if p.isStop then .persist else .reply ok)
  | .persist => ((persistClosedHighWatermark l e.hwm).2, p, .shut)
  | .shut =>
    (if e.syncFails then l
      else { l with store := { l.store with active := l.store.active.sync } }, p, .stopped)
  | .stopped => (l, p, .stopped)

/-- The pass is over and the flusher waits for the next one. -/
def Pass.idle (p : Pass) : Phase → Bool
  | .reply _ => !p.isStop
  | _ => false

/-- Where a read of a committed offset stands: resolving the frame, probing the cache, decoding,
or inserting what it decoded. -/
inductive ReaderPhase where
  | lookup (lookup : Lookup)
  | probe (entry : IndexEntry) (idx : ℕ)
  | decode (entry : IndexEntry) (idx : ℕ)
  | insert (key : FrameKey) (records : List Bytes) (size : ℕ)

structure Reader where
  offset : ℕ
  phase : ReaderPhase

/-- One section of a read; the reader is gone once it has its answer. -/
def readerStep (o : Options) (s : Store) (r : Reader) : Option Reader × Store :=
  match r.phase with
  | .lookup lookup =>
    match lookupStep o s r.offset lookup with
    | (.continue_ next, s) => (some { r with phase := .lookup next }, s)
    | (.missing, s) => (none, s)
    | (.found entry idx, s) => (some { r with phase := .probe entry idx }, s)
  | .probe entry idx =>
    let (hit, cache) := frameGet s.frameCache entry.key
    (if hit.isSome then none else some { r with phase := .decode entry idx }, { s with frameCache := cache })
  | .decode entry idx =>
    match findSegmentLocked s entry.segmentBaseOffset with
    | none => (none, s)
    | some seg =>
      match readFrameAt z seg.file entry.framePos with
      | .error _ => (none, s)
      | .ok (h, records, _) =>
        if records.length ≤ idx then (none, s)
        else (some { r with phase := .insert entry.key records h.uncompressed.toNat }, s)
  | .insert key records size =>
    (none, { s with frameCache := framePutSized s.frameCache key records size })

structure Machine where
  log : Log
  flusher : Option (Pass × Phase)
  readers : List Reader

/-- What happens next: an append, the start of a pass (a timer or threshold, a request, the shutdown
drain), a step of the pass, or the start or a section of a read of a committed offset. -/
inductive Label where
  | append (records : List Bytes)
  | tick (forceDrain : Bool)
  | request (c : CommitRequest)
  | close
  | stop
  | flush (e : Env)
  | read (offset : ℕ)
  | reader (i : ℕ)

/-- One step, if the label is possible. Offsets stay below 2^63. -/
def step (o : Options) (m : Machine) : Label → Option Machine
  | .append records =>
    if m.log.buffer.nextOffset + records.length < 2 ^ 63 then
      some { m with log := (appendBatch m.log records).2 }
    else none
  | .tick forceDrain =>
    if m.flusher.isNone then
      some { m with flusher := some (⟨false, none, false⟩, .begin forceDrain) }
    else none
  | .request c =>
    if m.flusher.isNone then some { m with flusher := some (⟨true, some c, false⟩, .begin true) }
    else none
  | .close => some { m with log := { m.log with closed := true } }
  | .stop =>
    if m.flusher.isNone ∧ m.log.closed = true then
      some { m with flusher := some (⟨true, none, false⟩, .begin true) }
    else none
  | .flush e =>
    match m.flusher with
    | none => none
    | some (p, phase) =>
      let (l, p', phase') := flusherStep z o m.log p e phase
      some { m with log := l, flusher := if p.idle phase then none else some (p', phase') }
  | .read offset =>
    if offset < m.log.highWatermark ∧ m.log.closed = false then
      some { m with
        log := { m.log with readSeen := true }
        readers := ⟨offset, .lookup .probe⟩ :: m.readers }
    else none
  | .reader i =>
    match m.readers[i]? with
    | none => none
    | some r =>
      let (r, s) := readerStep z o m.log.store r
      some { m with
        log := { m.log with store := s }
        readers := m.readers.take i ++ r.toList ++ m.readers.drop (i + 1) }

end Narad.Storage
