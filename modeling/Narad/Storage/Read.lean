import Narad.Storage.Index

/-!
# Resolving an offset and reading its record

The read path below the write buffer: find the segment, start from the closest cached frame or
sparse anchor, walk frame headers forward, rebuild a pruned index if needed, then serve the frame
from the decoded-frame cache or decode it from the file.

The lookup takes the log's lock more than once, so it is cut into the sections between lock
operations (`Lookup`). A reader that nothing interrupts runs them in a row (`lockIndexEntry`).
Device errors while reading are not modelled here: every failure is one of the bytes.
-/

namespace Narad.Storage

open Lib

/-- The ways a read fails. -/
inductive ReadError where
  | offsetNotFound
  | logClosed
  | frame (e : FrameError)
  deriving DecidableEq

/-- The index entry of the frame with header `h` at `pos`. -/
def entryAt (seg : Segment) (h : FrameHeader) (pos end_ : ℕ) : IndexEntry :=
  { segmentBaseOffset := seg.baseOffset
    baseOffset := h.baseOffset.toNat
    recordCount := h.recordCount.toNat
    framePos := pos
    frameLen := end_ - pos }

/-- Walk frame headers from `pos` to the frame that covers `offset`. -/
def scanFrom (seg : Segment) (offset : ℕ) : ℕ → ℕ → Option (IndexEntry × ℕ)
  | 0, _ => none
  | fuel + 1, pos =>
    if seg.sizeBytes ≤ pos then none
    else
      match frameHeaderAt seg.file pos with
      | .ok (h, end_) =>
        if seg.sizeBytes < end_ then
          let next := nextValidFramePos seg.file (pos + 1) seg.sizeBytes
          if next < seg.sizeBytes then scanFrom seg offset fuel next else none
        else if (entryAt seg h pos end_).Covers offset then
          some (entryAt seg h pos end_, offset - h.baseOffset.toNat)
        else if offset < h.baseOffset.toNat then none
        else scanFrom seg offset fuel end_
      | .error .unexpectedEOF => none
      | .error _ => scanFrom seg offset fuel (nextMagicInSegment seg.file (pos + 1) seg.sizeBytes)

def scanSegmentFromIndexAnchorLocked (seg : Segment) (anchor : IndexEntry) (offset : ℕ) : Option (IndexEntry × ℕ) :=
  scanFrom seg offset (seg.sizeBytes + 1) (anchor.framePos + anchor.frameLen)

/-- Resolve `offset` from an anchor below it and remember the frame found. -/
def resolveFromAnchorLocked (s : Store) (seg : Segment) (anchor : IndexEntry) (offset : ℕ) :
    Option (IndexEntry × ℕ) × Store :=
  if anchor.Covers offset then
    (some (anchor, offset - anchor.baseOffset), { s with navCache := navPut s.navCache anchor })
  else
    match scanSegmentFromIndexAnchorLocked seg anchor offset with
    | some r => (some r, { s with navCache := navPut s.navCache r.1 })
    | none => (none, s)

/-- The anchor to start from: the sparse one or a cached one, whichever is closer. -/
def chooseAnchor (entries : List IndexEntry) (cached : Option IndexEntry) (offset : ℕ) : Option IndexEntry :=
  match indexAnchorForOffset entries offset with
  | none => cached
  | some anchor =>
    match cached with
    | some c => if anchor.baseOffset < c.baseOffset then some c else some anchor
    | none => some anchor

/-- The frame that covers `offset`, from the cache or by a walk from the nearest anchor. -/
def findIndexLocked (s : Store) (offset : ℕ) : Option (IndexEntry × ℕ) × Store :=
  match findSegmentForOffsetLocked s offset with
  | none => (none, s)
  | some seg =>
    let best := bestAnchor s.navCache seg.baseOffset offset
    let s := { s with navCache := best.2 }
    match best.1 with
    | some c =>
      if offset < c.baseOffset + c.recordCount then (some (c, offset - c.baseOffset), s)
      else
        match chooseAnchor (((s.segmentIndexes.lookup seg.baseOffset).map
            SegmentIndex.entries).getD []) (some c) offset with
        | some anchor => resolveFromAnchorLocked s seg anchor offset
        | none => (none, s)
    | none =>
      match chooseAnchor (((s.segmentIndexes.lookup seg.baseOffset).map
          SegmentIndex.entries).getD []) none offset with
      | some anchor => resolveFromAnchorLocked s seg anchor offset
      | none => (none, s)

/-- Walk a segment's headers and keep sparse anchors. -/
def scanIndexLoop (o : Options) (seg : Segment) : ℕ → ℕ → List IndexEntry → List IndexEntry
  | 0, _, entries => entries
  | fuel + 1, pos, entries =>
    if seg.sizeBytes ≤ pos then entries
    else
      match frameHeaderAt seg.file pos with
      | .ok (h, end_) =>
        if seg.sizeBytes < end_ then entries
        else scanIndexLoop o seg fuel end_ (appendSparseIndexEntry o entries (entryAt seg h pos end_))
      | .error .unexpectedEOF => entries
      | .error _ =>
        scanIndexLoop o seg fuel (nextMagicInSegment seg.file (pos + 1) seg.sizeBytes) entries

variable (o : Options)

def scanSegmentIndex (seg : Segment) : List IndexEntry :=
  scanIndexLoop o seg (seg.sizeBytes + 1) 0 []

/-- The sections of `lockIndexEntry` between lock operations: the probe under the read lock, the
unlocked scan of a sealed segment, and the installation under the write lock. -/
inductive Lookup where
  | probe
  | rescan (base : ℕ)
  | install (base : ℕ) (scanned : Option (List IndexEntry))
  deriving DecidableEq

/-- What one section of a lookup ends with. -/
inductive LookupResult where
  | found (entry : IndexEntry) (idx : ℕ)
  | missing
  | continue_ (next : Lookup)

def probeIndex (s : Store) (offset : ℕ) : LookupResult × Store :=
  match findIndexLocked s offset with
  | (some (entry, idx), s) => (.found entry idx, s)
  | (none, s) =>
    match findSegmentForOffsetLocked s offset with
    | none => (.missing, s)
    | some seg =>
      if seg.baseOffset ≠ s.active.baseOffset ∧ s.segmentIndexes.lookup seg.baseOffset = none then
        (.continue_ (.rescan seg.baseOffset), s)
      else (.continue_ (.install seg.baseOffset none), s)

/-- Install a rebuilt index unless there is one already. -/
def installIndex (s : Store) (seg : Segment) (scanned : Option (List IndexEntry)) : Store :=
  if s.segmentIndexes.lookup seg.baseOffset = none then
    setSegmentIndexLocked o s seg.baseOffset (scanned.getD (scanSegmentIndex o seg))
  else s

def lookupStep (s : Store) (offset : ℕ) : Lookup → LookupResult × Store
  | .probe => probeIndex s offset
  | .rescan base =>
    match findSegmentLocked s base with
    | some seg => (.continue_ (.install base (some (scanSegmentIndex o seg))), s)
    | none => (.missing, s)
  | .install base scanned =>
    match findSegmentLocked s base with
    | none => (.missing, s)
    | some seg =>
      match findIndexLocked (installIndex o s seg scanned) offset with
      | (some (entry, idx), s) => (.found entry idx, s)
      | (none, s) => (.missing, s)

def lookupLoop (o : Options) (offset : ℕ) : ℕ → Store → Lookup → Option (IndexEntry × ℕ) × Store
  | 0, s, _ => (none, s)
  | fuel + 1, s, l =>
    match lookupStep o s offset l with
    | (.found entry idx, s) => (some (entry, idx), s)
    | (.missing, s) => (none, s)
    | (.continue_ next, s) => lookupLoop o offset fuel s next

/-- A lookup whose sections run without interruption: at most three of them. -/
def lockIndexEntry (s : Store) (offset : ℕ) : Option (IndexEntry × ℕ) × Store :=
  lookupLoop o offset 3 s .probe

/-- The record number `idx` of a frame's records. -/
def pickRecord (records : List Bytes) (idx : ℕ) : Except ReadError Bytes :=
  match records[idx]? with
  | some r => .ok r
  | none => .error (.frame .corruptRecord)

/-- Serve a resolved frame: from the decoded-frame cache, else from the file, cached on the way. -/
def fetchRecord (z : Zstd) (s : Store) (entry : IndexEntry) (idx : ℕ) : Except ReadError Bytes × Store :=
  match findSegmentLocked s entry.segmentBaseOffset with
  | none => (.error (.frame .corruptRecord), s)
  | some seg =>
    let hit := frameGet s.frameCache entry.key
    match hit.1 with
    | some recs => (pickRecord recs idx, { s with frameCache := hit.2 })
    | none =>
      match readFrameAt z seg.file entry.framePos with
      | .error e => (.error (.frame e), { s with frameCache := hit.2 })
      | .ok (h, records, _) =>
        match pickRecord records idx with
        | .error e => (.error e, { s with frameCache := hit.2 })
        | .ok r =>
          (.ok r, { s with
            frameCache := framePutSized hit.2 entry.key records h.uncompressed.toNat })

def readSegmentShared (z : Zstd) (o : Options) (s : Store) (offset : ℕ) : Except ReadError Bytes × Store :=
  match lockIndexEntry o s offset with
  | (none, s) => (.error .offsetNotFound, s)
  | (some (entry, idx), s) => fetchRecord z s entry idx

end Narad.Storage
