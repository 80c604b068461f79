import Narad.Storage.Scan
import Narad.Lib.Search
import Narad.Lib.Recency
import Mathlib.Data.List.AList
import Mathlib.Data.List.DropRight

/-!
# Segments, the sparse index and the two caches

The files of a log and what it remembers about them: the segment list, one sparse index of frame
anchors per recently used segment, the cache of resolved frame positions and the cache of decoded
frames. The last segment is the active one and always exists, so it is a field of its own.

A segment's `file` is its content as reads see it; `synced` is the length of the part of it that a
power loss keeps, which no code reads. Descriptors and their lazy opening are left out, and so are
the write times that only retention reads.
-/

namespace Narad.Storage

open Lib

/-- The log's settings that the modelled code reads, with the frame splitting limit, which is a
variable of the package. -/
structure Options where
  codec : Codec
  segmentBytes : ℕ
  syncPerWrite : Bool
  syncBytes : ℕ
  disableCommitVerify : Bool
  maxFrameInnerBytes : ℕ

/-- The store's own settings. -/
def defaultOptions : Options :=
  { codec := .zstd
    segmentBytes := 64 * 2 ^ 20
    syncPerWrite := false
    syncBytes := 8 * 2 ^ 20
    disableCommitVerify := false
    maxFrameInnerBytes := maxFrameBytes / 2 }

/-- One segment file. -/
structure Segment where
  baseOffset : ℕ
  nextOffset : ℕ
  sizeBytes : ℕ
  file : Bytes
  synced : ℕ
  firstWriteAt : Option ℕ

/-- Where one frame lies and which offsets it covers. -/
structure IndexEntry where
  segmentBaseOffset : ℕ
  baseOffset : ℕ
  recordCount : ℕ
  framePos : ℕ
  frameLen : ℕ
  deriving DecidableEq

/-- The sparse anchors of a segment. -/
structure SegmentIndex where
  entries : List IndexEntry
  lastUsed : ℕ

/-- Where a frame lies. -/
structure FrameKey where
  segmentBase : ℕ
  framePos : ℕ
  deriving DecidableEq

/-- A frame and its decoded records. -/
structure CachedFrame where
  key : FrameKey
  recs : List Bytes
  bytes : ℕ

/-- The state behind the log's read-write lock. -/
structure Store where
  sealed : List Segment
  active : Segment
  segmentIndexes : AList fun _ : ℕ => SegmentIndex
  indexClock : ℕ
  navCache : List IndexEntry
  frameCache : List CachedFrame

variable (s : Store)

/-- All segments in order. -/
def Store.segments : List Segment :=
  s.sealed ++ [s.active]

def IndexEntry.key (e : IndexEntry) : FrameKey :=
  ⟨e.segmentBaseOffset, e.framePos⟩

/-- The entry's frame holds the record at `offset`. -/
def IndexEntry.Covers (e : IndexEntry) (offset : ℕ) : Prop :=
  e.baseOffset ≤ offset ∧ offset < e.baseOffset + e.recordCount

instance (e : IndexEntry) (offset : ℕ) : Decidable (e.Covers offset) :=
  inferInstanceAs (Decidable (_ ∧ _))

def maxHotSegmentIndexes : ℕ := 2
def segmentIndexStrideBytes : ℕ := 32 * 1024
def targetMaxSegmentIndexEntries : ℕ := 2048
def maxNavCacheEntries : ℕ := 256
def maxDecodeCacheFrames : ℕ := 64
def maxDecodeCacheBytes : ℕ := 8 * 1024 * 1024

/-- The segment with this base. -/
def findSegmentLocked (baseOffset : ℕ) : Option Segment :=
  s.segments.find? fun seg => seg.baseOffset = baseOffset

/-- The segment that holds an offset. -/
def findSegmentForOffsetLocked (offset : ℕ) : Option Segment :=
  match s.segments[search s.segments fun seg => decide (offset < seg.nextOffset)]? with
  | some seg => if offset < seg.baseOffset then none else some seg
  | none => none

variable (o : Options)

/-- How far apart anchors lie. -/
def indexStrideBytes : ℕ :=
  if o.segmentBytes = 0 then segmentIndexStrideBytes
  else
    let segmentStride := o.segmentBytes / targetMaxSegmentIndexEntries +
      if o.segmentBytes % targetMaxSegmentIndexEntries ≠ 0 then 1 else 0
    max segmentIndexStrideBytes segmentStride

/-- The frame is a stride past the last anchor. -/
def shouldKeepIndexAnchor (entries : List IndexEntry) (e : IndexEntry) : Bool :=
  match entries.getLast? with
  | none => true
  | some last => last.framePos + indexStrideBytes o ≤ e.framePos

/-- Adds an anchor where one is due. -/
def appendSparseIndexEntry (entries : List IndexEntry) (e : IndexEntry) : List IndexEntry :=
  if shouldKeepIndexAnchor o entries e then entries ++ [e] else entries

/-- The anchors of a list of frames. -/
def sparseIndexEntries (entries : List IndexEntry) : List IndexEntry :=
  entries.foldl (appendSparseIndexEntry o) []

/-- Marks an index as used. -/
def touchSegmentIndexLocked (base : ℕ) : Store :=
  match s.segmentIndexes.lookup base with
  | none => s
  | some idx =>
    { s with
      indexClock := s.indexClock + 1
      segmentIndexes := s.segmentIndexes.insert base { idx with lastUsed := s.indexClock + 1 } }

/-- The colder of the victim so far and one more index, unless that index is kept. -/
def colderVictim (preserve active : ℕ) (victim : Option (ℕ × ℕ))
    (entry : Sigma fun _ : ℕ => SegmentIndex) : Option (ℕ × ℕ) :=
  if entry.1 = preserve ∨ entry.1 = active then victim
  else
    match victim with
    | none => some (entry.1, entry.2.lastUsed)
    | some v => if entry.2.lastUsed < v.2 then some (entry.1, entry.2.lastUsed) else some v

/-- The least recently used index other than the preserved segment's and the active one's. -/
def oldestPrunableSegmentIndexLocked (preserve : ℕ) : Option ℕ :=
  (s.segmentIndexes.entries.foldl (colderVictim preserve s.active.baseOffset) none).map Prod.fst

/-- Each round drops one index. -/
def pruneLoop (preserve : ℕ) : ℕ → Store → Store
  | 0, s => s
  | fuel + 1, s =>
    if maxHotSegmentIndexes < s.segmentIndexes.entries.length then
      match oldestPrunableSegmentIndexLocked s preserve with
      | none => s
      | some victim =>
        pruneLoop preserve fuel { s with segmentIndexes := s.segmentIndexes.erase victim }
    else s

/-- Drop the coldest indexes of sealed segments down to the hot set. -/
def pruneSegmentIndexesLocked (preserve : ℕ) : Store :=
  pruneLoop preserve s.segmentIndexes.entries.length s

/-- Store an index and count its use. -/
def putSegmentIndex (base : ℕ) (entries : List IndexEntry) (lastUsed : ℕ) : Store :=
  pruneSegmentIndexesLocked (touchSegmentIndexLocked
    { s with segmentIndexes := s.segmentIndexes.insert base ⟨entries, lastUsed⟩ } base) base

/-- Indexes one more frame. -/
def appendIndexLocked (s : Store) (e : IndexEntry) : Store :=
  let idx := (s.segmentIndexes.lookup e.segmentBaseOffset).getD ⟨[], 0⟩
  putSegmentIndex s e.segmentBaseOffset (appendSparseIndexEntry o idx.entries e) idx.lastUsed

/-- Replaces the index of a segment. -/
def setSegmentIndexLocked (s : Store) (base : ℕ) (entries : List IndexEntry) : Store :=
  let sparse := sparseIndexEntries o entries
  if sparse.isEmpty then { s with segmentIndexes := s.segmentIndexes.erase base }
  else putSegmentIndex s base sparse 0

/-- Drop a segment's anchors at or past file position `pos`. -/
def truncateIndexLocked (base pos : ℕ) : Store :=
  match s.segmentIndexes.lookup base with
  | none => s
  | some idx =>
    { s with
      segmentIndexes := s.segmentIndexes.insert base
        { idx with entries := idx.entries.rdropWhile fun e => decide (pos ≤ e.framePos) } }

/-- The last anchor at or below `offset`. -/
def indexAnchorForOffset (entries : List IndexEntry) (offset : ℕ) : Option IndexEntry :=
  let i := search entries fun e => decide (offset < e.baseOffset)
  if i = 0 then none else entries[i - 1]?

/-- The scan over the cached frames. -/
def bestAnchorLoop (base offset : ℕ) : List IndexEntry → Option IndexEntry → Option IndexEntry
  | [], best => best
  | e :: rest, best =>
    if e.segmentBaseOffset ≠ base ∨ offset < e.baseOffset then bestAnchorLoop base offset rest best
    else if offset < e.baseOffset + e.recordCount then some e
    else
      bestAnchorLoop base offset rest <|
        match best with
        | none => some e
        | some b => if b.baseOffset < e.baseOffset then some e else some b

variable (cache : List IndexEntry)

/-- The closest cached frame at or below `offset`, and the cache with it marked as used. -/
def bestAnchor (base offset : ℕ) : Option IndexEntry × List IndexEntry :=
  match cache.head? with
  | some e =>
    if e.segmentBaseOffset = base ∧ e.Covers offset then (some e, cache)
    else
      match bestAnchorLoop base offset cache none with
      | some best => (some best, moveToFront (fun x => x.key = best.key) cache)
      | none => (none, cache)
  | none => (none, cache)

/-- Caches where a frame lies. -/
def navPut (e : IndexEntry) : List IndexEntry :=
  if cache.any fun x => x.key = e.key then e :: cache.eraseP fun x => x.key = e.key
  else pushFront (fun l => decide (maxNavCacheEntries < l.length)) e cache

/-- Forgets the frames of a segment. -/
def navInvalidateSegment (base : ℕ) : List IndexEntry :=
  cache.filter fun e => e.segmentBaseOffset ≠ base

variable (cache : List CachedFrame)

/-- The records of a cached frame. -/
def frameGet (key : FrameKey) : Option (List Bytes) × List CachedFrame :=
  ((cache.find? fun f => f.key = key).map CachedFrame.recs, moveToFront (fun f => f.key = key) cache)

/-- Caches the records of a frame. -/
def framePutSized (key : FrameKey) (recs : List Bytes) (bytes : ℕ) : List CachedFrame :=
  if cache.any fun f => f.key = key then moveToFront (fun f => f.key = key) cache
  else
    pushFront (fun l => decide (maxDecodeCacheFrames < l.length) ||
      decide (maxDecodeCacheBytes < (l.map CachedFrame.bytes).sum)) ⟨key, recs, bytes⟩ cache

/-- Forgets a segment's records. -/
def frameInvalidateSegment (base : ℕ) : List CachedFrame :=
  cache.filter fun f => f.key.segmentBase ≠ base

end Narad.Storage
