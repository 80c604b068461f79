import Narad.Storage.Recovery

/-!
# The log: write buffer, flushing snapshot and high watermark

A log is its store and what the flusher and the appenders keep in memory: the write buffer, the
snapshot of drained records, the two boundaries and the poison latch. The functions here are the
ones that run under one lock or make one system call; how the flusher strings them together is in
`Narad.Storage.Flusher`.

System calls may fail; how each one ends is an argument. Notifications, metrics and descriptors
are left out. `persistedHWM` is `none` where the code stores -1.
-/

namespace Narad.Storage

open Lib

structure Buffer where
  records : List Bytes
  baseOffset : ℕ
  nextOffset : ℕ

/-- The flushing snapshot: records from `base` on, those below `written` in the segment file. -/
structure Flushing where
  base : ℕ
  written : ℕ
  records : List Bytes

/-- What the high watermark file holds. -/
inductive HwmContent where
  | missing
  | empty
  | boundary (hwm : ℕ)
  deriving DecidableEq

/-- The high watermark file as reads see it, and what a power loss may leave of it: the content
last synced or one written since, or no file while its name is not durable. -/
structure HwmFile where
  content : HwmContent
  named : Bool
  synced : HwmContent
  since : List HwmContent

structure Log where
  store : Store
  buffer : Buffer
  flushing : Option Flushing
  poisoned : Bool
  highWatermark : ℕ
  durableTail : ℕ
  persistedHWM : Option ℕ
  hwmReleased : Bool
  hwmDirSynced : Bool
  hwmFile : HwmFile
  unsyncedBytes : ℕ
  rollPending : Bool
  readSeen : Bool
  closed : Bool

/-- The files of a partition directory. -/
structure Disk where
  files : List SegmentFile
  hwmFile : HwmFile

def Disk.empty : Disk :=
  ⟨[], ⟨.missing, false, .missing, []⟩⟩

inductive AppendError where
  | logClosed
  | logPoisoned

def Buffer.pushBatch (b : Buffer) (records : List Bytes) : Buffer :=
  { b with records := b.records ++ records, nextOffset := b.nextOffset + records.length }

variable (l : Log)

/-- Push records into the buffer; the first and last offsets given to them, or (0, -1) for none. -/
def appendBatch (records : List Bytes) : Except AppendError (ℤ × ℤ) × Log :=
  if l.closed then (.error .logClosed, l)
  else if l.poisoned then (.error .logPoisoned, l)
  else if records.isEmpty then (.ok (0, -1), l)
  else
    (.ok (l.buffer.nextOffset, l.buffer.nextOffset + records.length - 1),
      { l with buffer := l.buffer.pushBatch records })

def Buffer.readBuffered (b : Buffer) (offset : ℕ) : Option Bytes :=
  if offset < b.baseOffset ∨ b.nextOffset ≤ offset then none
  else b.records[offset - b.baseOffset]?

/-- The part of the snapshot that has not reached the segment file. -/
def unwrittenFlushingLocked (f : Flushing) : List Bytes × ℕ :=
  if f.records.length ≤ f.written - f.base then ([], f.base + f.records.length)
  else (f.records.drop (f.written - f.base), f.written)

/-- Move buffered records into the snapshot; the records that need writing and their offset. -/
def drainBufferForFlush : (List Bytes × ℕ) × Log :=
  if l.buffer.records.isEmpty then
    match l.flushing with
    | some f => (unwrittenFlushingLocked f, l)
    | none => (([], l.buffer.nextOffset), l)
  else
    let f : Flushing := match l.flushing with
      | some f => { f with records := f.records ++ l.buffer.records }
      | none => ⟨l.buffer.baseOffset, l.buffer.baseOffset, l.buffer.records⟩
    (unwrittenFlushingLocked f,
      { l with
        buffer := ⟨[], l.buffer.nextOffset, l.buffer.nextOffset⟩
        flushing := some f })

def hasPendingFlushing : Bool :=
  match l.flushing with
  | some f => decide (f.written < f.base + f.records.length)
  | none => false

variable (flushing : Option Flushing)

def readFlushingShared (offset : ℕ) : Option Bytes :=
  match flushing with
  | some f => if offset < f.base then none else f.records[offset - f.base]?
  | none => none

def markFlushingWritten (end_ : ℕ) : Option Flushing :=
  flushing.map fun f => { f with written := max f.written end_ }

/-- Drop the snapshot's records below `end_`. -/
def clearFlushingThrough (end_ : ℕ) : Option Flushing :=
  match flushing with
  | none => none
  | some f =>
    if end_ ≤ f.base then some f
    else if f.records.length ≤ end_ - f.base then none
    else some ⟨end_, max f.written end_, f.records.drop (end_ - f.base)⟩

/-- The record at `offset`: from the buffer or the snapshot, else from the segments. Below the
durable tail the two are not probed. -/
def readShared (z : Zstd) (o : Options) (l : Log) (offset : ℕ) : Except ReadError Bytes × Log :=
  if l.closed then (.error .logClosed, l)
  else
    let l := { l with readSeen := true }
    let held := if l.durableTail ≤ offset then
        (l.buffer.readBuffered offset).or (readFlushingShared l.flushing offset) else none
    match held with
    | some record => (.ok record, l)
    | none =>
      let (r, store) := readSegmentShared z o l.store offset
      (r, { l with store := store })

def boundaryLoop (seg : Segment) (offset : ℕ) : ℕ → ℕ → ℕ × ℕ
  | 0, _ => (seg.nextOffset, seg.sizeBytes)
  | fuel + 1, pos =>
    if seg.sizeBytes ≤ pos then (seg.nextOffset, seg.sizeBytes)
    else
      match frameHeaderAt seg.file pos with
      | .ok (h, end_) =>
        -- A torn frame at the tail is itself uncommitted.
        if seg.sizeBytes < end_ then (seg.nextOffset, pos)
        else if (offset : ℤ) ≤ h.baseOffset then (h.baseOffset.toNat, pos)
        else boundaryLoop seg offset fuel end_
      | .error .unexpectedEOF => (seg.nextOffset, pos)
      | .error _ => (seg.nextOffset, seg.sizeBytes)

/-- The offset and position of the first frame at or above `offset`, or the segment's end. -/
def frameBoundaryAtOrAboveLocked (s : Store) (seg : Segment) (offset : ℕ) : ℕ × ℕ :=
  if offset ≤ seg.baseOffset then (seg.baseOffset, 0)
  else if seg.nextOffset ≤ offset then (seg.nextOffset, seg.sizeBytes)
  else
    let anchor := (s.segmentIndexes.lookup seg.baseOffset).bind fun idx =>
      indexAnchorForOffset idx.entries offset
    boundaryLoop seg offset (seg.sizeBytes + 1) ((anchor.map IndexEntry.framePos).getD 0)

/-- How cutting and syncing a segment file ends: done, failed before the cut, or failed after it. -/
inductive TruncateOutcome where
  | ok
  | unchanged
  | unsynced
  deriving DecidableEq

/-- The segment cut at a frame boundary. -/
def Segment.cut (seg : Segment) (boundary pos : ℕ) : Segment :=
  { seg.truncate pos with
    nextOffset := boundary
    firstWriteAt := if boundary = seg.baseOffset then none else seg.firstWriteAt }

/-- The active segment cut at a frame boundary, with what the log remembered of the rest. -/
def cutActive (s : Store) (boundary pos : ℕ) : Store :=
  let base := s.active.baseOffset
  let s := truncateIndexLocked { s with active := s.active.cut boundary pos } base pos
  { s with
    frameCache := frameInvalidateSegment s.frameCache base
    navCache := navInvalidateSegment s.navCache base }

/-- The file is cut, but the cut is not synced and the log keeps counting the bytes. -/
def cutFileOnly (s : Store) (pos : ℕ) : Store :=
  { s with
    active := { s.active with
      file := resize s.active.file pos
      synced := min s.active.synced pos } }

/-- Truncate the frames above the high watermark; the offset of the cut if the file was cut. -/
def truncateTail (outcome : TruncateOutcome) : Option ℕ × Store :=
  if l.highWatermark < l.store.active.nextOffset then
    let (boundary, pos) := frameBoundaryAtOrAboveLocked l.store l.store.active l.highWatermark
    if pos < l.store.active.sizeBytes then
      match outcome with
      | .ok => (some boundary, cutActive l.store boundary pos)
      | .unchanged => (none, l.store)
      | .unsynced => (none, cutFileOnly l.store pos)
    else (none, l.store)
  else (none, l.store)

/-- Drop every record above the high watermark from memory and, with `truncateDisk`, from the
active segment. -/
def discardUncommittedTail (truncateDisk : Bool) (outcome : TruncateOutcome) : Log :=
  let (truncated, store) := if truncateDisk then truncateTail l outcome else (none, l.store)
  let cut := truncated.getD l.store.active.nextOffset
  let clean := truncated.isSome || (truncateDisk && decide (l.unsyncedBytes = 0))
  { l with
    store := store
    durableTail := if clean then cut else min l.durableTail cut
    unsyncedBytes := if clean then 0 else l.unsyncedBytes
    flushing := none
    buffer := ⟨[], cut, cut⟩ }

variable (f : HwmFile)

/-- Write new content without syncing it. -/
def HwmFile.write (c : HwmContent) : HwmFile :=
  { f with content := c, since := c :: f.since }

def HwmFile.sync : HwmFile :=
  { f with synced := f.content, since := [] }

/-- Opening with the create flag makes an empty file where there was none. -/
def HwmFile.create : HwmFile :=
  if f.content = .missing then f.write .empty else f

/-- The call at which an update of the high watermark file fails, if it does. -/
inductive HwmOutcome where
  | ok
  | openFails
  | writeFails
  | syncFails
  | dirSyncFails

/-- Empty the high watermark file before the first advance. -/
def releaseHighWatermarkFile (outcome : HwmOutcome) : Bool × Log :=
  match outcome with
  | .openFails => (false, l)
  | .writeFails => (false, { l with persistedHWM := none, hwmFile := l.hwmFile.create })
  | .syncFails => (false, { l with persistedHWM := none, hwmFile := l.hwmFile.create.write .empty })
  | _ =>
    (true, { l with
      persistedHWM := none
      hwmFile := (l.hwmFile.create.write .empty).sync
      hwmReleased := true })

/-- Move the visible tail forward; whether it succeeded. -/
def advanceHighWatermark (newHWM : ℕ) (outcome : HwmOutcome) : Bool × Log :=
  if newHWM ≤ l.highWatermark then (true, l)
  else
    let (ok, l) := if l.hwmReleased then (true, l) else releaseHighWatermarkFile l outcome
    if ok then (true, { l with highWatermark := newHWM }) else (false, l)

/-- Write the exact boundary for the closed log; whether it succeeded. -/
def persistClosedHighWatermark (outcome : HwmOutcome) : Bool × Log :=
  if l.persistedHWM = some l.highWatermark then (true, l)
  else
    let content := HwmContent.boundary l.highWatermark
    match outcome with
    | .openFails => (false, l)
    | .writeFails => (false, { l with hwmFile := l.hwmFile.create })
    | .syncFails => (false, { l with hwmFile := l.hwmFile.create.write content })
    | .dirSyncFails =>
      let file := (l.hwmFile.create.write content).sync
      if l.hwmDirSynced then (true, { l with hwmFile := file, persistedHWM := some l.highWatermark })
      else (false, { l with hwmFile := file })
    | .ok =>
      let file := (l.hwmFile.create.write content).sync
      (true, { l with
        hwmFile := if l.hwmDirSynced then file else { file with named := true }
        hwmDirSynced := true
        persistedHWM := some l.highWatermark })

def Segment.sync (seg : Segment) : Segment :=
  { seg with synced := seg.file.length }

/-- Open the log of a directory: recover the segments, then the boundary from the high watermark
file, or from the tail, synced first, when the file holds none. -/
def newLog (o : Options) (d : Disk) : Log :=
  let (store, nextOffset) := recover o d.files
  let fresh : Log :=
    { store := store
      buffer := ⟨[], nextOffset, nextOffset⟩
      flushing := none
      poisoned := false
      highWatermark := nextOffset
      durableTail := nextOffset
      persistedHWM := if nextOffset = 0 then some 0 else none
      hwmReleased := false
      hwmDirSynced := d.hwmFile.content ≠ .missing
      hwmFile := d.hwmFile
      unsyncedBytes := 0
      rollPending := o.segmentBytes ≤ store.active.sizeBytes
      readSeen := false
      closed := false }
  match d.hwmFile.content with
  | .boundary persisted =>
    { fresh with highWatermark := min persisted nextOffset, persistedHWM := some persisted }
  | _ =>
    if 0 < nextOffset then { fresh with store := { store with active := store.active.sync } }
    else fresh

/-- The files a log leaves to the next process. -/
def Log.disk : Disk :=
  { files := l.store.segments.map fun seg =>
      ⟨seg.baseOffset, seg.file, seg.synced, seg.firstWriteAt.getD 0⟩
    hwmFile := l.hwmFile }

end Narad.Storage
