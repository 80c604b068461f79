import Narad.Storage.Serve

/-!
# Recovering the segments of a partition directory

Opening a log reads only the active segment: it is walked frame by frame, checksums included, and
indexed. A tear that runs to the end of the file is truncated away; damage with a valid frame after
it is stepped over. Sealed segments take their bounds from the file names.

The walk over intact frames is shown to be a fold over the pieces they form, whatever follows them.
-/

namespace Narad.Storage

open Lib List

/-- A segment file in a partition directory. -/
structure SegmentFile where
  baseOffset : ℕ
  bytes : Bytes
  synced : ℕ
  modTime : ℕ
  deriving DecidableEq

def openSegment (f : SegmentFile) : Segment :=
  { baseOffset := f.baseOffset
    nextOffset := f.baseOffset
    sizeBytes := f.bytes.length
    file := f.bytes
    synced := f.synced
    firstWriteAt := if f.bytes.length = 0 then none else some f.modTime }

/-- An empty segment. -/
def createSegment (baseOffset : ℕ) : Segment :=
  { baseOffset := baseOffset
    nextOffset := baseOffset
    sizeBytes := 0
    file := []
    synced := 0
    firstWriteAt := none }

/-- Cut the file at `pos` and sync it. -/
def Segment.truncate (seg : Segment) (pos : ℕ) : Segment :=
  { seg with file := resize seg.file pos, sizeBytes := pos, synced := pos }

/-- A store over segments, with nothing indexed or cached. -/
def Store.ofSegments (sealed : List Segment) (active : Segment) : Store :=
  { sealed := sealed
    active := active
    segmentIndexes := ∅
    indexClock := 0
    navCache := []
    frameCache := [] }

/-- What the walk of the active segment has established so far. -/
structure Walked where
  segment : Segment
  nextOffset : ℕ
  entries : List IndexEntry

def walkLoop (o : Options) (size : ℕ) : ℕ → ℕ → Walked → Walked
  | 0, _, w => w
  | fuel + 1, pos, w =>
    if size ≤ pos then w
    else
      match verifyFrameAtBuffered w.segment.file pos with
      | .ok (h, end_) =>
        let frameNext := h.baseOffset.toNat + h.recordCount.toNat
        walkLoop o size fuel end_
          { segment := { w.segment with nextOffset := frameNext }
            nextOffset := max w.nextOffset frameNext
            entries := appendSparseIndexEntry o w.entries (entryAt w.segment h pos end_) }
      | .error _ =>
        let next := nextValidFramePos w.segment.file (pos + 1) size
        if next < size then walkLoop o size fuel next w
        -- A tear that runs to the end of the file: truncate at its start.
        else { w with segment := w.segment.truncate pos }

variable (o : Options)

/-- Walk the active segment to its tail, index it, and report the log's next offset. -/
def walkActiveSegment (s : Store) (nextOffset : ℕ) : Store × ℕ :=
  let w := walkLoop o s.active.sizeBytes (s.active.sizeBytes + 1) 0 ⟨s.active, nextOffset, []⟩
  (setSegmentIndexLocked o { s with active := w.segment } w.segment.baseOffset w.entries,
    max w.nextOffset w.segment.nextOffset)

/-- Sealed segments end where their successors begin. -/
def sealedSegments : List SegmentFile → List Segment
  | f :: g :: rest => { openSegment f with nextOffset := g.baseOffset } :: sealedSegments (g :: rest)
  | _ => []

/-- Rebuild the segment list from the files of the directory, listed by base offset. -/
def recover (files : List SegmentFile) : Store × ℕ :=
  match files.getLast? with
  | none => (Store.ofSegments [] (createSegment 0), 0)
  | some last => walkActiveSegment o (Store.ofSegments (sealedSegments files) (openSegment last)) 0

/-- What the walk does at a frame that checks out. -/
def Walked.step (w : Walked) (p : Piece) : Walked :=
  { segment := { w.segment with nextOffset := p.next }
    nextOffset := max w.nextOffset p.next
    entries := appendSparseIndexEntry o w.entries (p.entry w.segment.baseOffset) }

variable {ps : List Piece} {pos off size next : ℕ} {z : Zstd}

theorem Laid.intact_verify {file : Bytes} {p : Piece} (h : Laid z file pos off (p :: ps) size next)
    (hl : p.lost = false) : ∃ hd, verifyFrameAtBuffered file pos = .ok (hd, p.stop) ∧ hd.baseOffset = p.base ∧
      hd.recordCount.toNat = p.records.length := by
  obtain ⟨hd, payload, hparts⟩ := (h.frames p (.head _)).parts
  refine ⟨hd, ?_, hparts.base_eq, by simp [hparts.count]⟩
  rw [← h.chain.1]
  exact hparts.verify_eq (h.intact p (.head _) hl)

/-- The walk over intact pieces folds over them and goes on at their end. -/
theorem Laid.walkLoop_eq {o : Options} {w : Walked} {pos off stop next size : ℕ}
    (h : Laid z w.segment.file pos off ps stop next) (hstop : stop ≤ size)
    (hall : ∀ p ∈ ps, p.lost = false) (fuel : ℕ) (hfuel : size < pos + fuel) : ∃ fuel', size < stop + fuel' ∧
      walkLoop o size fuel pos w = walkLoop o size fuel' stop (ps.foldl (Walked.step o) w) := by
  induction ps generalizing pos off w fuel with
  | nil =>
    have hpos := h.chain.1
    subst hpos
    exact ⟨fuel, hfuel, rfl⟩
  | cons p ps ih =>
    have hl := hall p (.head _)
    have hpos := h.chain.1
    have hlt := h.pos_lt_stop (.head _)
    have hle := (h.chain.bounds (p := p) (.head _)).2.1
    obtain ⟨hd, hverify, hbase, hcount⟩ := h.intact_verify hl
    cases fuel with
    | zero => omega
    | succ fuel =>
      have hstep : walkLoop o size (fuel + 1) pos w = walkLoop o size fuel p.stop (w.step o p) := by
        have hentry : entryAt w.segment hd pos p.stop = p.entry w.segment.baseOffset :=
          entryAt_eq hbase hcount hpos
        rw [walkLoop, if_neg (by omega), hverify]
        simp only [hbase, hcount, hentry, Walked.step, Piece.next, Int.toNat_natCast]
      obtain ⟨fuel', hfuel', heq⟩ := ih (w := w.step o p) h.tail (fun q hq => hall q (.tail _ hq)) fuel (by omega)
      exact ⟨fuel', hfuel', hstep.trans heq⟩

theorem foldl_step_segment (w : Walked) (ps : List Piece) : (ps.foldl (Walked.step o) w).segment =
      { w.segment with nextOffset := (ps.getLast?.map Piece.next).getD w.segment.nextOffset } := by
  induction ps generalizing w with
  | nil => rfl
  | cons p ps ih =>
    rw [foldl_cons, ih]
    cases hlast : ps.getLast? with
    | none =>
      rw [getLast?_eq_none_iff.mp hlast]
      rfl
    | some q => simp [getLast?_cons, hlast, Walked.step]

theorem foldl_step_entries (w : Walked) (ps : List Piece) : (ps.foldl (Walked.step o) w).entries =
      (ps.map (Piece.entry w.segment.baseOffset)).foldl (appendSparseIndexEntry o) w.entries := by
  induction ps generalizing w with
  | nil => rfl
  | cons p ps ih =>
    rw [foldl_cons, ih]
    rfl

/-- In a chain the largest end offset is the last one. -/
theorem Chain.foldl_step_nextOffset
    (h : Chain pos off ps size next) (o : Options) (w : Walked) (hw : w.nextOffset ≤ off) :
    (ps.foldl (Walked.step o) w).nextOffset = (ps.getLast?.map Piece.next).getD w.nextOffset := by
  induction ps generalizing pos off w with
  | nil => rfl
  | cons p ps ih =>
    have hle : p.base ≤ p.next := Nat.le_add_right _ _
    have hoff := h.2.1
    have hstep : (w.step o p).nextOffset = p.next := by
      simp only [Walked.step]
      omega
    rw [foldl_cons, ih h.2.2 (w.step o p) hstep.le, hstep]
    cases hlast : ps.getLast? with
    | none =>
      rw [getLast?_eq_none_iff.mp hlast]
      rfl
    | some q => simp [getLast?_cons, hlast]

/-- The walk never cuts the file below the position it has reached. -/
theorem walkLoop_sizeBytes_ge (size fuel pos : ℕ) (w : Walked)
    (hsize : w.segment.sizeBytes = size) : min pos size ≤ (walkLoop o size fuel pos w).segment.sizeBytes := by
  induction fuel generalizing pos w with
  | zero =>
    rw [walkLoop]
    omega
  | succ fuel ih =>
    rw [walkLoop]
    split
    · omega
    split
    next hd end_ hverify =>
      have hend : pos ≤ end_ := by
        rw [verifyFrameAtBuffered_eq] at hverify
        cases hraw : readFrameRaw w.segment.file pos with rw [hraw] at hverify
        | error e => exact absurd hverify (by simp [Except.map])
        | ok r =>
          have := congrArg Prod.snd (Except.ok.inj hverify)
          dsimp only at this
          omega
      refine le_trans ?_ (ih end_ _ hsize)
      omega
    · dsimp only
      split
      · have hfirst := nextValidFramePos_isFirst w.segment.file (pos + 1) size (by omega)
        refine le_trans ?_ (ih _ w hsize)
        rcases hfirst.found with hr | ⟨hr, -, -⟩ <;> omega
      · simp only [Segment.truncate]
        omega

/-- Laid-out segments with nothing indexed or cached make a good store. -/
theorem storeOk_ofSegments {sealed : List Segment} {active : Segment}
    {lay : ℕ → List Piece} (hlinked : (sealed ++ [active]).IsChain fun a b => a.nextOffset = b.baseOffset)
    (hnonempty : ∀ seg ∈ sealed, seg.baseOffset < seg.nextOffset) (hlaid : ∀ seg ∈ sealed ++ [active],
      Laid z seg.file 0 seg.baseOffset (lay seg.baseOffset) seg.sizeBytes seg.nextOffset) :
    StoreOk z (Store.ofSegments sealed active) lay :=
  ⟨hlinked, hnonempty, hlaid, fun _ _ _ hidx => absurd hidx (by simp [Store.ofSegments]),
    fun _ _ hidx => absurd hidx (by simp [Store.ofSegments]), by simp [Store.ofSegments],
    by simp [Store.ofSegments]⟩

/-- The index a walk over intact pieces collects is a good one. -/
theorem indexOk_walk (base : ℕ)
    (h : Chain pos off ps size next) (hall : ∀ p ∈ ps, p.lost = false) : IndexOk base ps (sparseIndexEntries o
      ((ps.map (Piece.entry base)).foldl (appendSparseIndexEntry o) [])) := by
  have hfilter : ps.filter (fun p => !p.lost) = ps := by
    rw [filter_eq_self]
    intro p hp
    simp [hall p hp]
  refine IndexOk.of_head h ?_ ?_
  · rw [hfilter]
    exact (foldl_sparse_sublist o _ []).trans (foldl_sparse_sublist o _ [])
  · rw [hfilter, sparseIndexEntries, foldl_sparse_head, nil_append, foldl_sparse_head, nil_append]

end Narad.Storage
