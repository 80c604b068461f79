import Narad.Storage.Opening

/-!
# What a partition move copies

A segment file can hold more than the committed records. A copy lists and reads each segment up to the
first frame at or above the high watermark, found by the open log through its index or by a walk of the
frame headers when no log is open. The destination cuts its staged copy back to the same boundary.

Read errors of the directory are left out: a listing or a cut that meets one reports it and stops.
-/

namespace Narad.Storage

open Lib List Option Piece

variable {hwm : ℕ}

structure SegmentInfo where
  baseOffset : ℕ
  sizeBytes : ℕ
  isSealed : Bool
  modTime : ℕ

/-- The files in the order of their base offsets; the last one is active. -/
def listPartitionSegments : List SegmentFile → List SegmentInfo
  | [] => []
  | [f] => [⟨f.baseOffset, f.bytes.length, false, f.modTime⟩]
  | f :: rest => ⟨f.baseOffset, f.bytes.length, true, f.modTime⟩ :: listPartitionSegments rest

/-- Where committed bytes end in a segment of this log; `none` for a closed log or an unknown segment. -/
def Log.committedBoundary (l : Log) (base hwm : ℕ) : Option ℕ :=
  if l.closed then none
  else (findSegmentLocked l.store base).map fun seg =>
    (frameBoundaryAtOrAboveLocked l.store seg (min hwm l.highWatermark)).2

inductive WalkStop where
  | reached
  | torn
  | damaged
  deriving DecidableEq

def walkFramesLoop (file : Bytes) (offset : ℕ) : ℕ → ℕ → ℕ × WalkStop
  | 0, pos => (pos, .reached)
  | fuel + 1, pos =>
    if file.length ≤ pos then (pos, .reached)
    else
      match frameHeaderAt file pos with
      | .error .unexpectedEOF => (pos, .torn)
      | .error _ => (pos, .damaged)
      | .ok (h, end_) =>
        if (offset : ℤ) ≤ h.baseOffset then (pos, .reached)
        else if file.length < end_ then (pos, .torn)
        else walkFramesLoop file offset fuel end_

/-- The first frame at or above the offset, by the frame headers from the start of the file. -/
def walkFramesBelow (file : Bytes) (base offset : ℕ) : ℕ × WalkStop :=
  if offset ≤ base then (0, .reached) else walkFramesLoop file offset (file.length + 1) 0

/-- The committed bytes of a segment without its log; the whole file when the walk meets damage. -/
def committedSegmentBytes (f : SegmentFile) (hwm : ℕ) : ℕ :=
  match walkFramesBelow f.bytes f.baseOffset hwm with
  | (_, .damaged) => f.bytes.length
  | (pos, _) => pos

def listCommittedSegments (files : List SegmentFile) (hwm : ℕ) (boundary : ℕ → Option ℕ) : List SegmentInfo :=
  let segs := (listPartitionSegments files).rdropWhile fun s => hwm < s.baseOffset
  match segs.getLast? with
  | none => segs
  | some last =>
    let pos := (boundary last.baseOffset).or
      ((files.find? fun f => f.baseOffset == last.baseOffset).map fun f => committedSegmentBytes f hwm)
    segs.dropLast ++ [{ last with isSealed := false, sizeBytes := pos.elim last.sizeBytes (min last.sizeBytes) }]

def SegmentFile.truncate (f : SegmentFile) (size : ℕ) : SegmentFile :=
  { f with bytes := resize f.bytes size, synced := min f.synced size }

/-- The staged files cut back to the records below the high watermark, and whether that changed them. -/
def cutStagedCopy (files : List SegmentFile) (hwm : ℕ) : List SegmentFile × Bool :=
  let kept := files.rdropWhile fun f => hwm < f.baseOffset
  let removed := decide (kept.length < files.length)
  match kept.getLast? with
  | none => (kept, removed)
  | some last =>
    match walkFramesBelow last.bytes last.baseOffset hwm with
    | (pos, .reached) =>
      if last.bytes.length ≤ pos then (kept, removed) else (kept.dropLast ++ [last.truncate pos], true)
    | _ => (kept, removed)

/-- The bytes of the frames whose base offset is below `offset`. -/
def bytesBelow (offset : ℕ) (ps : List Piece) : Bytes :=
  (ps.filter fun p => decide (p.base < offset)).flatMap Piece.bytes

/-- Files in the order of their offsets, each a run of whole frames below its successor. -/
structure Arranged (z : Zstd) (files : List SegmentFile) (lay : ℕ → List Piece) : Prop where
  linked : files.Pairwise fun f g => f.baseOffset < g.baseOffset ∧ ∀ p ∈ lay f.baseOffset, p.next ≤ g.baseOffset
  laid : ∀ f ∈ files, ∃ next, Laid z f.bytes 0 f.baseOffset (lay f.baseOffset) f.bytes.length next
  intact : ∀ f ∈ files, ∀ p ∈ lay f.baseOffset, p.lost = false

section

variable {z : Zstd} {file : Bytes} {pos off size next offset : ℕ} {ps : List Piece}

theorem filter_below_nil (h : ∀ p ∈ ps, offset ≤ p.base) : (ps.filter fun p => decide (p.base < offset)) = [] := by
  rw [filter_eq_nil_iff]
  intro p hp
  simpa using h p hp

theorem bytesBelow_nil (h : ∀ p ∈ ps, offset ≤ p.base) : bytesBelow offset ps = [] := by
  rw [bytesBelow, filter_below_nil h, flatMap_nil]

theorem bytesBelow_all (h : ∀ p ∈ ps, p.base < offset) : bytesBelow offset ps = ps.flatMap Piece.bytes := by
  have hfilter : (ps.filter fun p => decide (p.base < offset)) = ps := by
    rw [filter_eq_self]
    intro p hp
    simpa using h p hp
  rw [bytesBelow, hfilter]

theorem bytesBelow_cons {p : Piece} (h : p.base < offset) :
    bytesBelow offset (p :: ps) = p.bytes ++ bytesBelow offset ps := by
  rw [bytesBelow, filter_cons_of_pos (by simpa using h), flatMap_cons]
  rfl

/-- Pieces above the first one that reaches the offset reach it too. -/
theorem Chain.le_base_of_head {p : Piece} (h : Chain pos off (p :: ps) size next) (hle : offset ≤ p.base) :
    ∀ q ∈ p :: ps, offset ≤ q.base := by
  intro q hq
  rcases mem_cons.mp hq with rfl | hq
  · exact hle
  have hbounds := h.2.2.bounds hq
  have hnext : p.base ≤ p.next := Nat.le_add_right ..
  omega

theorem Chain.size_eq (h : Chain pos off ps size next) : size = pos + (ps.flatMap Piece.bytes).length := by
  induction ps generalizing pos off with
  | nil => exact h.1.symm
  | cons p ps ih => rw [ih h.2.2, flatMap_cons, length_append, stop, h.1, add_assoc]

/-- Whole frames in a row are what the file holds there. -/
theorem Laid.drop_eq (h : Laid z file pos off ps file.length next) (hall : ∀ p ∈ ps, p.lost = false) :
    file.drop pos = ps.flatMap Piece.bytes := by
  induction ps generalizing pos off with
  | nil =>
    rw [h.chain.1, drop_length]
    rfl
  | cons p ps ih =>
    obtain ⟨rest, hrest⟩ := h.intact p (.head _) (hall p (.head _))
    have htail := ih h.tail fun q hq => hall q (.tail _ hq)
    have hpos := h.chain.1
    rw [hpos] at hrest
    have hdrop : file.drop p.stop = rest := by
      have : p.stop = pos + p.bytes.length := by rw [stop, hpos]
      rw [this, ← drop_drop, ← hrest, drop_left]
    rw [flatMap_cons, ← htail, hdrop, hrest]

theorem Laid.bytes_eq (h : Laid z file 0 off ps file.length next) (hall : ∀ p ∈ ps, p.lost = false) :
    file = ps.flatMap Piece.bytes := by
  rw [← h.drop_eq hall, drop_zero]

/-- The frames below an offset come first. -/
theorem Chain.bytesBelow_leads (h : Chain pos off ps size next) (offset : ℕ) :
    bytesBelow offset ps <+: ps.flatMap Piece.bytes := by
  induction ps generalizing pos off with
  | nil => exact prefix_rfl
  | cons p ps ih =>
    by_cases hlt : p.base < offset
    · rw [bytesBelow_cons hlt, flatMap_cons]
      exact (prefix_append_right_inj _).mpr (ih h.2.2)
    · rw [bytesBelow_nil (h.le_base_of_head (by omega))]
      exact nil_prefix

theorem Laid.take_bytesBelow (h : Laid z file 0 off ps file.length next) (hall : ∀ p ∈ ps, p.lost = false)
    (offset : ℕ) : file.take (bytesBelow offset ps).length = bytesBelow offset ps := by
  obtain ⟨rest, hrest⟩ := h.chain.bytesBelow_leads offset
  conv_lhs => rw [h.bytes_eq hall, ← hrest]
  exact take_left

/-- The walk of the headers stops after the frames below the offset. -/
theorem Laid.walkFramesLoop_eq (h : Laid z file pos off ps file.length next) (hall : ∀ p ∈ ps, p.lost = false)
    (fuel : ℕ) (hfuel : file.length < pos + fuel) :
    walkFramesLoop file offset fuel pos = (pos + (bytesBelow offset ps).length, .reached) := by
  induction ps generalizing pos off fuel with
  | nil =>
    cases fuel with
    | zero => rfl
    | succ fuel =>
      rw [walkFramesLoop, if_pos h.chain.1.ge]
      rfl
  | cons p ps ih =>
    have hstop := h.pos_lt_stop (.head _)
    have hbounds := h.chain.bounds (p := p) (.head _)
    have hpos := h.chain.1
    cases fuel with
    | zero => omega
    | succ fuel =>
      obtain ⟨hd, hhead, hbase, -⟩ := h.intact_head (hall p (.head _))
      rw [walkFramesLoop, if_neg (by omega)]
      simp only [hhead, hbase]
      by_cases hlt : p.base < offset
      · rw [if_neg (by omega), if_neg (by omega), ih h.tail (fun q hq => hall q (.tail _ hq)) fuel
          (by omega), bytesBelow_cons hlt, length_append]
        have : p.stop = pos + p.bytes.length := by rw [stop, hpos]
        rw [this, add_assoc]
      · rw [if_pos (by omega), bytesBelow_nil (h.chain.le_base_of_head (by omega))]
        rfl

theorem Laid.walkFramesBelow_eq (h : Laid z file 0 off ps file.length next) (hall : ∀ p ∈ ps, p.lost = false) :
    walkFramesBelow file off offset = ((bytesBelow offset ps).length, .reached) := by
  unfold walkFramesBelow
  split
  next hle =>
    have habove : ∀ p ∈ ps, offset ≤ p.base := fun p hp => by
      have := h.chain.bounds hp
      omega
    rw [bytesBelow_nil habove]
    rfl
  · rw [h.walkFramesLoop_eq hall _ (by omega), zero_add]

end

/-- Dropping from the end goes back to the last element that does not satisfy the condition. -/
theorem rdropWhile_append {α : Type*} {p : α → Bool} {a b : List α} (h : ∀ x ∈ b, p x = true) :
    (a ++ b).rdropWhile p = a.rdropWhile p := by
  rw [rdropWhile, rdropWhile, reverse_append, dropWhile_append_of_pos]
  intro x hx
  exact h x (mem_reverse.mp hx)

theorem rdropWhile_concat_stop {α : Type*} {p : α → Bool} {a b : List α} {x : α} (hx : p x = false)
    (h : ∀ y ∈ b, p y = true) : (a ++ x :: b).rdropWhile p = a ++ [x] := by
  rw [append_cons, rdropWhile_append h, rdropWhile_concat_neg _ _ _ (by simp [hx])]

section

variable {z : Zstd} {files : List SegmentFile} {lay : ℕ → List Piece}

variable (f : SegmentFile)

/-- The file with the frames at or above the boundary cut off. -/
def SegmentFile.below (hwm : ℕ) (lay : ℕ → List Piece) : SegmentFile :=
  if f.bytes.length ≤ (bytesBelow hwm (lay f.baseOffset)).length then f
  else f.truncate (bytesBelow hwm (lay f.baseOffset)).length

/-- What is copied of a directory: the files that start at most at the boundary, with the frames below it. -/
def committedFiles (files : List SegmentFile) (hwm : ℕ) (lay : ℕ → List Piece) : List SegmentFile :=
  (files.filter fun f => decide (f.baseOffset ≤ hwm)).map fun f => f.below hwm lay

namespace Arranged

section

variable (h : Arranged z files lay)
include h

variable {f : SegmentFile}

section

variable (hf : f ∈ files)
include hf

theorem bytes_eq : f.bytes = (lay f.baseOffset).flatMap Piece.bytes := by
  obtain ⟨next, hlaid⟩ := h.laid f hf
  exact hlaid.bytes_eq (h.intact f hf)

theorem take_bytesBelow (hwm : ℕ) :
    f.bytes.take (bytesBelow hwm (lay f.baseOffset)).length = bytesBelow hwm (lay f.baseOffset) := by
  obtain ⟨next, hlaid⟩ := h.laid f hf
  exact hlaid.take_bytesBelow (h.intact f hf) hwm

theorem walkFramesBelow_eq (hwm : ℕ) :
    walkFramesBelow f.bytes f.baseOffset hwm = ((bytesBelow hwm (lay f.baseOffset)).length, .reached) := by
  obtain ⟨next, hlaid⟩ := h.laid f hf
  exact hlaid.walkFramesBelow_eq (h.intact f hf)

theorem bytesBelow_le (hwm : ℕ) : (bytesBelow hwm (lay f.baseOffset)).length ≤ f.bytes.length := by
  have htake := congrArg length (h.take_bytesBelow hf hwm)
  rw [length_take] at htake
  omega

theorem resize_bytesBelow (hwm : ℕ) :
    resize f.bytes (bytesBelow hwm (lay f.baseOffset)).length = bytesBelow hwm (lay f.baseOffset) := by
  rw [resize, h.take_bytesBelow hf, Nat.sub_eq_zero_of_le (h.bytesBelow_le hf hwm), replicate_zero, append_nil]

theorem below_bytes (hwm : ℕ) : (f.below hwm lay).bytes = bytesBelow hwm (lay f.baseOffset) := by
  unfold SegmentFile.below
  split
  next hle => rw [← h.take_bytesBelow hf hwm, take_of_length_le hle]
  · exact h.resize_bytesBelow hf hwm

end

/-- The files up to the boundary come before those past it. -/
theorem split (hwm : ℕ) : ∃ past, files = (files.filter fun f => decide (f.baseOffset ≤ hwm)) ++ past ∧
      ∀ f ∈ past, hwm < f.baseOffset := by
  have hlinked := h.linked
  clear h
  induction files with
  | nil => exact ⟨[], rfl, by simp⟩
  | cons f rest ih =>
    rw [pairwise_cons] at hlinked
    obtain ⟨past, hrest, hpast⟩ := ih hlinked.2
    by_cases hf : f.baseOffset ≤ hwm
    · refine ⟨past, ?_, hpast⟩
      rw [filter_cons_of_pos (by simpa using hf), cons_append, ← hrest]
    have hall : ∀ g ∈ f :: rest, hwm < g.baseOffset := by
      intro g hg
      rcases mem_cons.mp hg with rfl | hg
      · omega
      · have := (hlinked.1 g hg).1
        omega
    refine ⟨f :: rest, ?_, hall⟩
    have hnone : ((f :: rest).filter fun f => decide (f.baseOffset ≤ hwm)) = [] := by
      rw [filter_eq_nil_iff]
      intro g hg
      have := hall g hg
      simp only [decide_eq_true_eq]
      omega
    rw [hnone]
    rfl

variable {init rest : List SegmentFile}

/-- A file before another one that starts at most at the boundary holds only frames below it. -/
theorem bytesBelow_of_earlier {last : SegmentFile}
    (hfiles : files = init ++ last :: rest) (hlast : last.baseOffset ≤ hwm) (hf : f ∈ init) :
    bytesBelow hwm (lay f.baseOffset) = f.bytes := by
  subst hfiles
  have hmem : f ∈ init ++ last :: rest := mem_append_left _ hf
  have hpair := pairwise_append.mp h.linked
  obtain ⟨next, hlaid⟩ := h.laid f hmem
  have hbelow : ∀ p ∈ lay f.baseOffset, p.base < hwm := by
    intro p hp
    have hnext := (hpair.2.2 f hf last (.head _)).2 p hp
    have := hlaid.base_lt_next hp
    omega
  rw [bytesBelow_all hbelow]
  exact (h.bytes_eq hmem).symm

end

end Arranged

theorem listPartitionSegments_append (init : List SegmentFile) {rest : List SegmentFile} (hrest : rest ≠ []) :
    listPartitionSegments (init ++ rest) =
      init.map (fun f => ⟨f.baseOffset, f.bytes.length, true, f.modTime⟩) ++ listPartitionSegments rest := by
  induction init with
  | nil => rfl
  | cons f init ih =>
    have hne : init ++ rest ≠ [] := by simp [hrest]
    rw [cons_append, map_cons, cons_append, ← ih]
    cases hcase : init ++ rest with
    | nil => exact absurd hcase hne
    | cons g tail => rfl

theorem listPartitionSegments_cons (rest : List SegmentFile) : ∃ isSealed, listPartitionSegments (f :: rest) =
      ⟨f.baseOffset, f.bytes.length, isSealed, f.modTime⟩ :: listPartitionSegments rest := by
  cases rest with
  | nil => exact ⟨false, rfl⟩
  | cons g rest => exact ⟨true, rfl⟩

theorem listPartitionSegments_info {info : SegmentInfo} (h : info ∈ listPartitionSegments files) :
    ∃ f ∈ files, info.baseOffset = f.baseOffset ∧ info.sizeBytes = f.bytes.length := by
  induction files with
  | nil => cases h
  | cons f rest ih =>
    obtain ⟨isSealed, hcons⟩ := listPartitionSegments_cons f rest
    rw [hcons, mem_cons] at h
    rcases h with rfl | h
    · exact ⟨f, .head _, rfl, rfl⟩
    · obtain ⟨g, hg, heq⟩ := ih h
      exact ⟨g, .tail _ hg, heq⟩

theorem SegmentFile.below_base (hwm : ℕ) (lay : ℕ → List Piece) :
    (f.below hwm lay).baseOffset = f.baseOffset ∧ (f.below hwm lay).modTime = f.modTime := by
  unfold SegmentFile.below
  split <;> exact ⟨rfl, rfl⟩

section

variable (h : Arranged z files lay)
include h

theorem Arranged.find_eq {f : SegmentFile} (hf : f ∈ files) :
    (files.find? fun g => g.baseOffset == f.baseOffset) = some f := by
  have hlinked := h.linked
  clear h
  induction files with
  | nil => cases hf
  | cons g rest ih =>
    rw [pairwise_cons] at hlinked
    rcases mem_cons.mp hf with rfl | hf
    · rw [find?_cons_of_pos (by simp)]
    have := (hlinked.1 f hf).1
    rw [find?_cons_of_neg (by simp; omega)]
    exact ih hf hlinked.2

/-- The files of a directory that start at most at the boundary, and the last of them, if there is one. -/
theorem Arranged.cases_kept (hwm : ℕ) : ((∀ f ∈ files, hwm < f.baseOffset) ∧ committedFiles files hwm lay = []) ∨
      ∃ init last past, files = init ++ last :: past ∧ last.baseOffset ≤ hwm ∧ (∀ f ∈ past, hwm < f.baseOffset) ∧
        committedFiles files hwm lay = init ++ [last.below hwm lay] := by
  obtain ⟨past, hsplit, hpast⟩ := h.split hwm
  generalize hkept : (files.filter fun f => decide (f.baseOffset ≤ hwm)) = kept at hsplit
  rcases eq_nil_or_concat kept with rfl | ⟨init, last, rfl⟩
  · exact .inl ⟨hsplit ▸ hpast, by rw [committedFiles, hkept]; rfl⟩
  rw [concat_eq_append] at hsplit hkept
  have hlast : last.baseOffset ≤ hwm := by
    have : last ∈ files.filter fun f => decide (f.baseOffset ≤ hwm) := by rw [hkept]; simp
    simpa using (mem_filter.mp this).2
  have hfiles : files = init ++ last :: past := by rw [hsplit, append_assoc]; rfl
  refine .inr ⟨init, last, past, hfiles, hlast, hpast, ?_⟩
  have hinit : init.map (fun f => f.below hwm lay) = init.map id :=
    map_congr_left fun f hf => by
      rw [SegmentFile.below, h.bytesBelow_of_earlier hfiles hlast hf, if_pos le_rfl, id]
  rw [committedFiles, hkept, List.map_append, hinit, List.map_id]
  rfl

/-- A listing reports the committed files, whatever tells it the boundary. -/
theorem Arranged.listCommittedSegments_eq (hwm : ℕ) (boundary : ℕ → Option ℕ)
    (hboundary : ∀ f ∈ files, ∀ pos, boundary f.baseOffset = some pos →
      pos = (bytesBelow hwm (lay f.baseOffset)).length) :
    listCommittedSegments files hwm boundary = listPartitionSegments (committedFiles files hwm lay) := by
  have hpast' : ∀ past : List SegmentFile, (∀ f ∈ past, hwm < f.baseOffset) →
      ∀ info ∈ listPartitionSegments past, decide (hwm < info.baseOffset) = true := by
    intro past hpast info hinfo
    obtain ⟨f, hf, heq, -⟩ := listPartitionSegments_info hinfo
    simpa [heq] using hpast f hf
  unfold listCommittedSegments
  rcases h.cases_kept hwm with ⟨hpast, hcommitted⟩ | ⟨init, last, past, hfiles, hlast, hpast, hcommitted⟩
  · rw [hcommitted, rdropWhile_eq_nil_iff.mpr (hpast' files hpast)]
    rfl
  have hmem : last ∈ files := by rw [hfiles]; simp
  obtain ⟨isSealed, hcons⟩ := listPartitionSegments_cons last past
  have hsegs : ((listPartitionSegments files).rdropWhile fun s => decide (hwm < s.baseOffset)) =
      init.map (fun f => ⟨f.baseOffset, f.bytes.length, true, f.modTime⟩) ++
        [⟨last.baseOffset, last.bytes.length, isSealed, last.modTime⟩] := by
    conv_lhs => rw [hfiles]
    rw [listPartitionSegments_append init (by simp), hcons]
    exact rdropWhile_concat_stop (by simpa using hlast) (hpast' past hpast)
  have hwalk : committedSegmentBytes last hwm = (bytesBelow hwm (lay last.baseOffset)).length := by
    rw [committedSegmentBytes, h.walkFramesBelow_eq hmem]
  have hpos : ((boundary last.baseOffset).or ((files.find? fun f => f.baseOffset == last.baseOffset).map
      fun f => committedSegmentBytes f hwm)) = some (bytesBelow hwm (lay last.baseOffset)).length := by
    cases hb : boundary last.baseOffset with
    | none => rw [h.find_eq hmem, none_or, map_some, hwalk]
    | some pos => rw [some_or, hboundary last hmem pos hb]
  obtain ⟨hbase, hmod⟩ := last.below_base hwm lay
  rw [hcommitted, listPartitionSegments_append init (by simp)]
  simp only [hsegs, getLast?_append, getLast?_singleton, some_or, dropLast_concat, hpos,
    elim_some, listPartitionSegments, hbase, hmod, h.below_bytes hmem,
    min_eq_right (h.bytesBelow_le hmem hwm)]

end

theorem Arranged.cutStagedCopy_eq (h : Arranged z files lay) (hwm : ℕ) :
    (cutStagedCopy files hwm).1 = committedFiles files hwm lay := by
  unfold cutStagedCopy
  rcases h.cases_kept hwm with ⟨hpast, hcommitted⟩ | ⟨init, last, past, hfiles, hlast, hpast, hcommitted⟩
  · have hnone : (files.rdropWhile fun f => decide (hwm < f.baseOffset)) = [] := by
      rw [rdropWhile_eq_nil_iff]
      simpa using hpast
    rw [hcommitted, hnone]
    rfl
  have hmem : last ∈ files := by rw [hfiles]; simp
  have hkept : (files.rdropWhile fun f => decide (hwm < f.baseOffset)) = init ++ [last] := by
    rw [hfiles]
    exact rdropWhile_concat_stop (by simpa using hlast) (by simpa using hpast)
  simp only [hkept, getLast?_append, getLast?_singleton, some_or, dropLast_concat,
    h.walkFramesBelow_eq hmem, hcommitted, SegmentFile.below]
  split <;> rfl

theorem Chain.split_below {pos off size next : ℕ} {ps : List Piece} (h : Chain pos off ps size next) (offset : ℕ) :
    ∃ b k, ps = (ps.filter fun p => decide (p.base < offset)) ++ b ∧
      Chain pos off (ps.filter fun p => decide (p.base < offset)) (pos + (bytesBelow offset ps).length) k := by
  induction ps generalizing pos off with
  | nil => exact ⟨[], off, rfl, rfl, le_rfl⟩
  | cons p ps ih =>
    by_cases hlt : p.base < offset
    · obtain ⟨b, k, hsplit, hchain⟩ := ih h.2.2
      rw [filter_cons_of_pos (by simpa using hlt), bytesBelow_cons hlt, length_append]
      have hstop : p.stop = pos + p.bytes.length := by rw [stop, h.1]
      refine ⟨b, k, by rw [cons_append, ← hsplit], h.1, h.2.1, ?_⟩
      rwa [← add_assoc, ← hstop]
    · have habove : ∀ q ∈ p :: ps, offset ≤ q.base := h.le_base_of_head (by omega)
      rw [filter_below_nil habove, bytesBelow_nil habove]
      exact ⟨p :: ps, off, rfl, rfl, le_rfl⟩

/-- The committed files are again whole frames, those below the boundary. -/
theorem Arranged.committed (h : Arranged z files lay) (hwm : ℕ) :
    Arranged z (committedFiles files hwm lay) fun base => (lay base).filter fun p => decide (p.base < hwm) := by
  have hfile : ∀ f' ∈ committedFiles files hwm lay, ∃ f ∈ files, f' = f.below hwm lay := by
    intro f' hf'
    obtain ⟨f, hf, rfl⟩ := mem_map.mp hf'
    exact ⟨f, mem_of_mem_filter hf, rfl⟩
  refine ⟨?_, fun f' hf' => ?_, fun f' hf' p hp => ?_⟩
  · refine pairwise_map.mpr ((h.linked.filter _).imp fun {f g} hfg => ?_)
    rw [(f.below_base hwm lay).1, (g.below_base hwm lay).1]
    exact ⟨hfg.1, fun p hp => hfg.2 p (mem_of_mem_filter hp)⟩
  · obtain ⟨f, hf, rfl⟩ := hfile f' hf'
    obtain ⟨next, hlaid⟩ := h.laid f hf
    obtain ⟨b, k, hsplit, hchain⟩ := hlaid.chain.split_below hwm
    rw [hsplit] at hlaid
    have hcut := hlaid.cut hchain
    refine ⟨k, ?_⟩
    rw [h.below_bytes hf, (f.below_base hwm lay).1]
    rw [zero_add, h.resize_bytesBelow hf] at hcut
    exact hcut
  · obtain ⟨f, hf, rfl⟩ := hfile f' hf'
    rw [(f.below_base hwm lay).1] at hp
    exact h.intact f hf p (mem_of_mem_filter hp)

/-- A copy that was cut is left as it is. -/
theorem Arranged.cutStagedCopy_idem (h : Arranged z files lay) (hwm : ℕ) :
    cutStagedCopy (committedFiles files hwm lay) hwm = (committedFiles files hwm lay, false) := by
  have hall : ∀ f' ∈ committedFiles files hwm lay, f'.baseOffset ≤ hwm := by
    intro f' hf'
    obtain ⟨f, hf, rfl⟩ := mem_map.mp hf'
    rw [(f.below_base hwm lay).1]
    simpa using (mem_filter.mp hf).2
  have hagain := h.committed hwm
  unfold cutStagedCopy
  rcases eq_nil_or_concat (committedFiles files hwm lay) with hnil | ⟨init, last, hconcat⟩
  · rw [hnil]
    rfl
  rw [concat_eq_append] at hconcat
  have hmem : last ∈ committedFiles files hwm lay := by rw [hconcat]; simp
  have hkept : ((committedFiles files hwm lay).rdropWhile fun f => decide (hwm < f.baseOffset)) =
      init ++ [last] := by
    rw [hconcat]
    exact rdropWhile_concat_stop (by simpa using hall last hmem) (by simp)
  have hwalk := hagain.walkFramesBelow_eq hmem hwm
  obtain ⟨f, hf, rfl⟩ := mem_map.mp hmem
  have hbytes := h.below_bytes (mem_of_mem_filter hf) hwm
  have hsame : bytesBelow hwm ((lay f.baseOffset).filter fun p => decide (p.base < hwm)) =
      bytesBelow hwm (lay f.baseOffset) := by
    rw [bytesBelow, List.filter_filter, bytesBelow]
    simp
  rw [(f.below_base hwm lay).1, hsame, hbytes] at hwalk
  rw [hconcat] at hkept
  simp only [hkept, getLast?_append, getLast?_singleton, some_or, (f.below_base hwm lay).1, hwalk,
    hbytes, le_refl, if_true, hconcat, lt_irrefl, decide_false]

end

section

variable {z : Zstd} {l : Log} {files : List SegmentFile} {lay : ℕ → List Piece}

/-- The files of an open log whose segments are whole. -/
theorem StoreOk.arranged (h : StoreOk z l.store lay) (hwhole : Whole l.store lay)
    (hfiles : ∀ seg ∈ l.store.segments, seg.file.length = seg.sizeBytes) : Arranged z l.disk.files lay := by
  refine ⟨?_, fun f hf => ?_, fun f hf p hp => ?_⟩
  · have hstep : ∀ a ∈ l.store.sealed, ∀ b : Segment, a.nextOffset ≤ b.baseOffset →
        a.baseOffset < b.baseOffset ∧ ∀ p ∈ lay a.baseOffset, p.next ≤ b.baseOffset := by
      intro a ha b hab
      have hmem : a ∈ l.store.segments := mem_segments.mpr (.inl ha)
      refine ⟨lt_of_lt_of_le (h.nonempty a ha) hab, fun p hp => ?_⟩
      have := (h.laid a hmem).chain.bounds hp
      omega
    have hpair := h.pairwise
    rw [Store.segments, pairwise_append] at hpair
    refine pairwise_map.mpr ?_
    rw [Store.segments, pairwise_append]
    refine ⟨hpair.1.imp_of_mem fun {a b} ha _ hab => hstep a ha b hab, pairwise_singleton _ _, ?_⟩
    exact fun a ha b hb => hstep a ha b (hpair.2.2 a ha b hb)
  · obtain ⟨seg, hseg, rfl⟩ := mem_map.mp hf
    refine ⟨seg.nextOffset, ?_⟩
    rw [hfiles seg hseg]
    exact h.laid seg hseg
  · obtain ⟨seg, hseg, rfl⟩ := mem_map.mp hf
    exact hwhole.intact seg hseg p hp

/-- The boundary the open log finds through its index. -/
theorem Log.committedBoundary_eq (h : StoreOk z l.store lay) (hwhole : Whole l.store lay)
    (hle : hwm ≤ l.highWatermark) : ∀ f ∈ l.disk.files, ∀ pos, l.committedBoundary f.baseOffset hwm = some pos →
      pos = (bytesBelow hwm (lay f.baseOffset)).length := by
  intro f hf pos hpos
  obtain ⟨seg, hseg, rfl⟩ := mem_map.mp hf
  unfold Log.committedBoundary at hpos
  split at hpos
  · cases hpos
  rw [h.findSegmentLocked_eq hseg, map_some, some.injEq, min_eq_left hle] at hpos
  have hall := hwhole.intact seg hseg
  have hlaid := h.laid seg hseg
  have hkept : ∀ p ∈ lay seg.baseOffset, p.base < hwm → p.stop ≤ seg.file.length :=
    fun p hp _ => hlaid.stop_le_length hp (hall p hp)
  obtain ⟨a, b, hab, hbound⟩ := frameBoundaryAtOrAboveLocked_spec h hseg hkept
  rw [hab] at hall
  have htight := hwhole.tight seg hseg
  rw [hab] at htight
  obtain ⟨hbelow, ha⟩ := hbound.exact hall htight
  have hbytes : bytesBelow hwm (a ++ b) = a.flatMap bytes := by
    have hb : bytesBelow hwm b = [] := bytesBelow_nil hbound.above
    have hsplit : bytesBelow hwm (a ++ b) = bytesBelow hwm a ++ bytesBelow hwm b := by
      simp [bytesBelow]
    rw [hsplit, hb, append_nil, bytesBelow_all hbelow]
  rw [← hpos]
  change _ = (bytesBelow hwm (lay seg.baseOffset)).length
  rw [hab, hbytes, ha.chain.size_eq, zero_add]

/-- A copy that holds the frames below the boundary and more: frames from there on, and whole segments
that start there or later. -/
structure Extends (files copy : List SegmentFile) (lay lay' : ℕ → List Piece) (hwm : ℕ) : Prop where
  held : ∀ f ∈ files, f.baseOffset ≤ hwm → ∃ g ∈ copy, g.baseOffset = f.baseOffset
  same : ∀ g ∈ copy, g.baseOffset ≤ hwm → (∃ f ∈ files, f.baseOffset = g.baseOffset ∧
      bytesBelow hwm (lay' g.baseOffset) = bytesBelow hwm (lay f.baseOffset)) ∨ g.baseOffset = hwm

/-- A cut copy holds the committed frames of the source and nothing else. -/
theorem Extends.cut {copy : List SegmentFile} {lay' : ℕ → List Piece}
    (h : Extends files copy lay lay' hwm) (hcopy : Arranged z copy lay') : (∀ g ∈ (cutStagedCopy copy hwm).1,
      (∃ f ∈ files, f.baseOffset ≤ hwm ∧ g.baseOffset = f.baseOffset ∧ g.bytes = bytesBelow hwm (lay f.baseOffset)) ∨
        (g.baseOffset = hwm ∧ g.bytes = [])) ∧
    (∀ f ∈ files, f.baseOffset ≤ hwm → ∃ g ∈ (cutStagedCopy copy hwm).1, g.baseOffset = f.baseOffset) ∧
    cutStagedCopy (cutStagedCopy copy hwm).1 hwm = ((cutStagedCopy copy hwm).1, false) := by
  rw [hcopy.cutStagedCopy_eq hwm]
  refine ⟨fun g' hg' => ?_, fun f hf hle => ?_, hcopy.cutStagedCopy_idem hwm⟩
  · obtain ⟨g, hg, rfl⟩ := mem_map.mp hg'
    obtain ⟨hg, hle⟩ := mem_filter.mp hg
    rw [hcopy.below_bytes hg, (g.below_base hwm lay').1]
    rcases h.same g hg (by simpa using hle) with ⟨f, hf, hbase, hsame⟩ | heq
    · exact .inl ⟨f, hf, by simpa [hbase] using hle, hbase.symm, hsame⟩
    refine .inr ⟨heq, ?_⟩
    rw [← heq]
    obtain ⟨next, hlaid⟩ := hcopy.laid _ hg
    refine bytesBelow_nil fun p hp => ?_
    have := hlaid.chain.bounds hp
    omega
  · obtain ⟨g, hg, hbase⟩ := h.held f hf hle
    refine ⟨g.below hwm lay', mem_map.mpr ⟨g, mem_filter.mpr ⟨hg, ?_⟩, rfl⟩, ?_⟩
    · simpa [hbase] using hle
    · rw [(g.below_base hwm lay').1, hbase]

theorem listPartitionSegments_bases (files : List SegmentFile) :
    (listPartitionSegments files).map SegmentInfo.baseOffset = files.map SegmentFile.baseOffset := by
  induction files with
  | nil => rfl
  | cons f rest ih =>
    obtain ⟨isSealed, hcons⟩ := listPartitionSegments_cons f rest
    rw [hcons, map_cons, map_cons, ih]

/-- A partition copy takes exactly the frames below the high watermark, whether the open log or a walk of
the file finds the boundary, and a staged copy that holds more is cut back to the same bytes. -/
theorem copy_takes_committed_frames (z : Zstd) (l : Log) (lay : ℕ → List Piece) (hwm : ℕ)
    (hstore : StoreOk z l.store lay) (hwhole : Whole l.store lay)
    (hfiles : ∀ seg ∈ l.store.segments, seg.file.length = seg.sizeBytes) (hle : hwm ≤ l.highWatermark) :
    let listed := listCommittedSegments l.disk.files hwm fun base => l.committedBoundary base hwm
    listed = listCommittedSegments l.disk.files hwm (fun _ => none) ∧ listed.map SegmentInfo.baseOffset =
      (l.disk.files.filter fun f => decide (f.baseOffset ≤ hwm)).map SegmentFile.baseOffset ∧
    (∀ info ∈ listed, ∃ f ∈ l.disk.files, f.baseOffset = info.baseOffset ∧
      f.bytes.take info.sizeBytes = bytesBelow hwm (lay f.baseOffset) ∧
      info.sizeBytes = (bytesBelow hwm (lay f.baseOffset)).length) ∧
    ∀ copy lay', Arranged z copy lay' → Extends l.disk.files copy lay lay' hwm → (∀ g ∈ (cutStagedCopy copy hwm).1,
        (∃ f ∈ l.disk.files, f.baseOffset ≤ hwm ∧ g.baseOffset = f.baseOffset ∧
          g.bytes = bytesBelow hwm (lay f.baseOffset)) ∨ (g.baseOffset = hwm ∧ g.bytes = [])) ∧
      (∀ f ∈ l.disk.files, f.baseOffset ≤ hwm → ∃ g ∈ (cutStagedCopy copy hwm).1, g.baseOffset = f.baseOffset) ∧
      cutStagedCopy (cutStagedCopy copy hwm).1 hwm = ((cutStagedCopy copy hwm).1, false) := by
  have harranged := hstore.arranged hwhole hfiles
  have hlog := harranged.listCommittedSegments_eq hwm (fun base => l.committedBoundary base hwm)
    (Log.committedBoundary_eq hstore hwhole hle)
  have hwalk := harranged.listCommittedSegments_eq hwm (fun _ => none) nofun
  refine ⟨hlog.trans hwalk.symm, ?_, fun info hinfo => ?_, fun copy lay' hcopy hextends => hextends.cut hcopy⟩
  · rw [hlog, listPartitionSegments_bases, committedFiles, List.map_map]
    refine map_congr_left fun f _ => ?_
    exact (f.below_base hwm lay).1
  · rw [hlog] at hinfo
    obtain ⟨f', hf', hbase, hsize⟩ := listPartitionSegments_info hinfo
    obtain ⟨f, hf, rfl⟩ := mem_map.mp hf'
    have hmem : f ∈ l.disk.files := mem_of_mem_filter hf
    rw [harranged.below_bytes hmem] at hsize
    rw [(f.below_base hwm lay).1] at hbase
    exact ⟨f, hmem, hbase.symm, by rw [hsize, harranged.take_bytesBelow hmem], hsize⟩

end

/-- Two frames of one record each. -/
def twoFrames : List Piece :=
  let frame (base : ℕ) : Bytes := (encodeFrame Zstd.stored .none [[7]] base).toOption.getD []
  [⟨0, 0, [[7]], frame 0, false⟩, ⟨(frame 0).length, 1, [[7]], frame 1, false⟩]

/-- A log whose second record is not committed yet. -/
def uncommittedTail : Log :=
  { newLog defaultOptions Disk.empty with
    store := Store.ofSegments []
      ⟨0, 2, (twoFrames.flatMap Piece.bytes).length, twoFrames.flatMap Piece.bytes, 0, none⟩
    highWatermark := 1 }

theorem twoFrames_tight : Tight 0 0 twoFrames (twoFrames.flatMap Piece.bytes).length 2 :=
  ⟨rfl, rfl, by decide +kernel, rfl, by decide +kernel, rfl⟩

theorem twoFrames_laid : Laid Zstd.stored (twoFrames.flatMap Piece.bytes) 0 0 twoFrames
    (twoFrames.flatMap Piece.bytes).length 2 := by
  refine ⟨twoFrames_tight.chain, fun p hp => ?_, fun p hp _ => ?_, fun p hp hl => ?_⟩
  all_goals
    simp only [twoFrames, mem_cons, not_mem_nil, or_false] at hp
    rcases hp with rfl | rfl
  · exact ⟨⟨.none, by decide +kernel⟩, by decide⟩
  · exact ⟨⟨.none, by decide +kernel⟩, by decide⟩
  · decide +kernel
  · decide +kernel
  · cases hl
  · cases hl

/-- The log and a walk list the same, and a staged copy of both frames is cut to the first. -/
theorem uncommittedTail_listed :
    listCommittedSegments uncommittedTail.disk.files 1 (fun base => uncommittedTail.committedBoundary base 1) =
      listCommittedSegments uncommittedTail.disk.files 1 (fun _ => none) ∧
    (∃ g ∈ (cutStagedCopy uncommittedTail.disk.files 1).1, g.baseOffset = 0) ∧
    ∀ g ∈ (cutStagedCopy uncommittedTail.disk.files 1).1, g.baseOffset = 0 → g.bytes = bytesBelow 1 twoFrames := by
  have hstore : StoreOk Zstd.stored uncommittedTail.store fun _ => twoFrames := by
    refine storeOk_ofSegments (isChain_singleton _) nofun fun seg hseg => ?_
    rw [nil_append, mem_singleton] at hseg
    subst hseg
    exact twoFrames_laid
  have hmem : ∀ seg ∈ uncommittedTail.store.segments, seg = uncommittedTail.store.active := by
    intro seg hseg
    simpa [uncommittedTail, Store.segments, Store.ofSegments] using hseg
  have hwhole : Whole uncommittedTail.store fun _ => twoFrames := by
    refine ⟨fun seg hseg => ?_, fun seg _ p hp => ?_⟩
    · rw [hmem seg hseg]
      exact twoFrames_tight
    · simp only [twoFrames, mem_cons, not_mem_nil, or_false] at hp
      rcases hp with rfl | rfl <;> rfl
  have hfiles : ∀ seg ∈ uncommittedTail.store.segments, seg.file.length = seg.sizeBytes := by
    intro seg hseg
    rw [hmem seg hseg]
    rfl
  obtain ⟨hlisted, -, -, hcopy⟩ := copy_takes_committed_frames Zstd.stored uncommittedTail (fun _ => twoFrames) 1
    hstore hwhole hfiles (by decide)
  obtain ⟨hcut, hheld, -⟩ := hcopy uncommittedTail.disk.files _ (hstore.arranged hwhole hfiles)
    ⟨fun f hf _ => ⟨f, hf, rfl⟩, fun g hg _ => .inl ⟨g, hg, rfl, rfl⟩⟩
  refine ⟨hlisted, hheld _ (mem_singleton_self _) (Nat.zero_le 1), fun g hg hbase => ?_⟩
  rcases hcut g hg with ⟨f, -, -, -, hbytes⟩ | ⟨hone, -⟩
  · exact hbytes
  · omega

end Narad.Storage
