import Narad.Storage.FlusherSteps

/-!
# Opening an undamaged directory

A directory is undamaged when every sealed file is a run of whole frames that ends at its
successor's base, and the last file is a run of whole frames with nothing after it that passes for
a frame. Opening it cuts off what follows the whole frames and yields a log that holds exactly the
records of the frames.
-/

namespace Narad.Storage

open Lib List

theorem ValidAt.headerSize_le {file : Bytes} {p : ℕ} (h : ValidAt file p) : p + headerSize ≤ file.length := by
  by_contra hlt
  have hshort : (readAt file p headerSize).length < headerSize := by
    have h27 : headerSize = 27 := rfl
    rw [readAt_length]
    omega
  unfold ValidAt verifyFrameAtBuffered at h
  rw [if_pos hshort] at h
  exact absurd h (by simp [Except.isOk, Except.toBool])

variable (o : Options)

/-- At a torn frame the walk truncates there or goes on at the first valid frame after it. -/
theorem walkLoop_torn (fuel : ℕ) {size pos : ℕ} {w : Walked} {e : FrameError} (hlt : pos < size)
    (hverify : verifyFrameAtBuffered w.segment.file pos = .error e) : walkLoop o size (fuel + 1) pos w =
      if nextValidFramePos w.segment.file (pos + 1) size < size then
        walkLoop o size fuel (nextValidFramePos w.segment.file (pos + 1) size) w
      else { w with segment := w.segment.truncate pos } := by
  rw [walkLoop, if_neg (by omega), hverify]

/-- Whole frames from the start of the file up to `stop`, and no valid frame from there on. -/
structure Surviving (z : Zstd) (base : ℕ) (bytes : Bytes) (ps : List Piece) (stop next : ℕ) : Prop where
  laid : Laid z bytes 0 base ps stop next
  tight : Tight 0 base ps stop next
  intact : ∀ p ∈ ps, p.lost = false
  torn : ∀ p, stop ≤ p → ¬ValidAt bytes p
  stop_le : stop ≤ bytes.length

variable {ps : List Piece}

theorem Tight.getLast?_next {pos off size next : ℕ}
    (h : Tight pos off ps size next) : (ps.getLast?.map Piece.next).getD off = next := by
  induction ps generalizing pos off with
  | nil => exact h.2
  | cons p ps ih =>
    have hrec := ih h.2.2
    cases hlast : ps.getLast? with rw [hlast] at hrec
    | none | some => simpa [getLast?_cons, hlast] using hrec

/-- The active segment after its walk. -/
def walkedSegment (f : SegmentFile) (stop next : ℕ) : Segment :=
  { openSegment f with
    file := f.bytes.take stop
    sizeBytes := stop
    nextOffset := next
    synced := if stop = f.bytes.length then f.synced else stop }

variable {f : SegmentFile}

variable {z : Zstd}

/-- The walk keeps the whole frames and nothing else. -/
theorem walkActiveSegment_surviving
    {stop next : ℕ} (h : Surviving z f.baseOffset f.bytes ps stop next) (sealed : List Segment) :
    walkActiveSegment o (Store.ofSegments sealed (openSegment f)) 0 =
      (setSegmentIndexLocked o (Store.ofSegments sealed (walkedSegment f stop next)) f.baseOffset
        ((ps.map (Piece.entry f.baseOffset)).foldl (appendSparseIndexEntry o) []), next) := by
  have hlaid : Laid z (Walked.mk (openSegment f) 0 []).segment.file 0 f.baseOffset ps stop next := h.laid
  obtain ⟨fuel, hfuel, hwalk⟩ := hlaid.walkLoop_eq (o := o) h.stop_le h.intact (f.bytes.length + 1) (by omega)
  set w := ps.foldl (Walked.step o) ⟨openSegment f, 0, []⟩ with hw
  have hseg : w.segment = { openSegment f with nextOffset := next } := by
    rw [hw, foldl_step_segment]
    exact congrArg (fun n => { openSegment f with nextOffset := n }) h.tight.getLast?_next
  have hentries : w.entries = (ps.map (Piece.entry f.baseOffset)).foldl (appendSparseIndexEntry o) [] := by
    rw [hw, foldl_step_entries]
    rfl
  have hnext : max w.nextOffset next = next := by
    have hlog := h.tight.chain.foldl_step_nextOffset o ⟨openSegment f, 0, []⟩ (Nat.zero_le _)
    have hlast := h.tight.getLast?_next
    rw [hw, hlog]
    cases hcase : ps.getLast? with
    | none => exact Nat.max_eq_right (Nat.zero_le _)
    | some q =>
      rw [hcase] at hlast
      exact max_eq_right hlast.le
  obtain ⟨fuel, rfl⟩ : ∃ fuel', fuel = fuel' + 1 := ⟨fuel - 1, by have := h.stop_le; omega⟩
  have hend : walkLoop o f.bytes.length (fuel + 1) stop w =
      { w with segment := walkedSegment f stop next } := by
    by_cases hstop : stop = f.bytes.length
    · rw [walkLoop, if_pos hstop.ge]
      have : w.segment = walkedSegment f stop next := by
        rw [hseg, walkedSegment, if_pos hstop, hstop, take_length]
        rfl
      rw [← this]
    have hlt : stop < f.bytes.length := lt_of_le_of_ne h.stop_le hstop
    have hfile : w.segment.file = f.bytes := hseg ▸ rfl
    have hverify : ∃ e, verifyFrameAtBuffered w.segment.file stop = .error e := by
      have hinvalid := h.torn stop le_rfl
      rw [hfile]
      unfold ValidAt at hinvalid
      cases hv : verifyFrameAtBuffered f.bytes stop with
      | error e => exact ⟨e, rfl⟩
      | ok r =>
        rw [hv] at hinvalid
        exact absurd rfl hinvalid
    obtain ⟨e, hverify⟩ := hverify
    have hbound := (nextValidFramePos_isFirst w.segment.file (stop + 1) f.bytes.length
      (by omega)).eq_bound fun i hi _ => hfile ▸ h.torn i (by omega)
    rw [walkLoop_torn o fuel hlt hverify, hbound, if_neg (lt_irrefl _)]
    have : w.segment.truncate stop = walkedSegment f stop next := by
      rw [hseg, walkedSegment, if_neg hstop, Segment.truncate]
      simp only [resize_of_le (show stop ≤ (openSegment f).file.length from h.stop_le)]
      rfl
    rw [this]
  have hresult : walkLoop o f.bytes.length (f.bytes.length + 1) 0 ⟨openSegment f, 0, []⟩ =
      { w with segment := walkedSegment f stop next } := hwalk.trans hend
  refine (congrArg (fun w : Walked => (setSegmentIndexLocked o (Store.ofSegments sealed w.segment)
    w.segment.baseOffset w.entries, max w.nextOffset w.segment.nextOffset)) hresult).trans ?_
  rw [hentries]
  exact congrArg (Prod.mk _) hnext

/-- A sealed file and its successor: whole frames up to the successor's base. -/
structure SealedOk (z : Zstd) (lay : ℕ → List Piece) (f g : SegmentFile) : Prop where
  lt : f.baseOffset < g.baseOffset
  laid : Laid z f.bytes 0 f.baseOffset (lay f.baseOffset) f.bytes.length g.baseOffset
  tight : Tight 0 f.baseOffset (lay f.baseOffset) f.bytes.length g.baseOffset
  intact : ∀ p ∈ lay f.baseOffset, p.lost = false

/-- The files of an undamaged directory that holds the records of `m`. -/
structure DirOk (z : Zstd) (files : List SegmentFile) (m : OffsetMap Bytes) (lay : ℕ → List Piece) : Prop where
  linked : files.IsChain (SealedOk z lay)
  last : ∀ f ∈ files.getLast?, ∃ stop, Surviving z f.baseOffset f.bytes (lay f.baseOffset) stop m.next
  empty : files = [] → m.first = 0 ∧ m.next = 0 ∧ lay 0 = []
  oldest : ∀ f ∈ files.head?, f.baseOffset = m.first
  pieces : ∀ f ∈ files, ∀ p ∈ lay f.baseOffset, m.Holds p.base p.records
  fits : m.next < 2 ^ 63

variable {lay : ℕ → List Piece} {files : List SegmentFile}

/-- The sealed segments of a directory, in front of an active one. -/
theorem sealedSegments_spec {last : SegmentFile} (hlinked : files.IsChain (SealedOk z lay))
    (hlast : files.getLast? = some last) {active : Segment} (hactive : active.baseOffset = last.baseOffset) :
    (sealedSegments files ++ [active]).IsChain (fun a b => a.nextOffset = b.baseOffset) ∧
      (sealedSegments files ++ [active]).head?.map Segment.baseOffset = files.head?.map SegmentFile.baseOffset ∧
      ∀ seg ∈ sealedSegments files, ∃ f ∈ files, ∃ g, SealedOk z lay f g ∧
        seg = { openSegment f with nextOffset := g.baseOffset } := by
  induction files with
  | nil => exact absurd hlast (by simp)
  | cons f files ih =>
    cases files with
    | nil =>
      obtain rfl : f = last := by simpa using hlast
      simp [sealedSegments, hactive]
    | cons g rest =>
      rw [isChain_cons_cons] at hlinked
      rw [getLast?_cons_cons] at hlast
      obtain ⟨hchain, hhead, hall⟩ := ih hlinked.2 hlast
      refine ⟨?_, rfl, fun seg hseg => ?_⟩
      · rw [sealedSegments, cons_append]
        refine isChain_cons.mpr ⟨fun b hb => ?_, hchain⟩
        rw [Option.mem_def.mp hb] at hhead
        simpa using hhead.symm
      · rw [sealedSegments] at hseg
        rcases mem_cons.mp hseg with rfl | hseg
        · exact ⟨f, by simp, g, hlinked.1, rfl⟩
        · obtain ⟨f', hf', hrest⟩ := hall seg hseg
          exact ⟨f', .tail _ hf', hrest⟩

/-- What recovery makes of an undamaged directory. -/
structure Recovered (z : Zstd) (s : Store) (m : OffsetMap Bytes) (lay : ℕ → List Piece) : Prop where
  store : StoreOk z s lay
  indexed : ActiveIndexed s lay
  oldest : oldestOffset s = m.first
  pieces : ∀ seg ∈ s.segments, ∀ p ∈ lay seg.baseOffset, m.Holds p.base p.records
  next : s.active.nextOffset = m.next
  whole : Whole s lay

variable {m : OffsetMap Bytes}

theorem recover_nil (h : DirOk z [] m lay) : Recovered z (recover o []).1 m lay ∧ (recover o []).2 = m.next := by
  obtain ⟨hfirst, hnext, hlay⟩ := h.empty rfl
  have hsegs : (recover o []).1.segments = [createSegment 0] := rfl
  have hlaid : Laid z [] 0 0 [] 0 0 := ⟨⟨rfl, le_rfl⟩, by simp, by simp, by simp⟩
  have hok : StoreOk z (Store.ofSegments [] (createSegment 0)) lay := by
    refine storeOk_ofSegments (by simp) (by simp) fun seg hseg => ?_
    rw [nil_append, mem_singleton] at hseg
    rw [hseg]
    simp only [createSegment, hlay]
    exact hlaid
  refine ⟨⟨hok, fun _ p hp => ?_, hfirst.symm, fun seg hseg p hp => ?_, hnext.symm,
    ⟨fun seg hseg => ?_, fun seg hseg p hp => ?_⟩⟩, hnext.symm⟩
  · rw [show (recover o []).1.active.baseOffset = 0 from rfl, hlay] at hp
    cases hp
  all_goals rw [hsegs, mem_singleton] at hseg
  · rw [hseg, show (createSegment 0).baseOffset = 0 from rfl, hlay] at hp
    cases hp
  · rw [hseg]
    simp only [createSegment, hlay]
    exact ⟨rfl, rfl⟩
  · rw [hseg, show (createSegment 0).baseOffset = 0 from rfl, hlay] at hp
    cases hp

/-- The active segment after the walk is laid out as its frames. -/
theorem Surviving.walked {stop next : ℕ} (h : Surviving z f.baseOffset f.bytes ps stop next) :
    Laid z (walkedSegment f stop next).file 0 f.baseOffset ps stop next := by
  refine ⟨h.laid.chain, h.laid.frames, fun p hp hl => ?_, fun p hp hl => ?_⟩
  · exact (h.laid.intact p hp hl).take (h.laid.chain.bounds hp).2.1
  · rw [h.intact p hp] at hl
    cases hl

theorem recover_spec (h : DirOk z files m lay) :
    Recovered z (recover o files).1 m lay ∧ (recover o files).2 = m.next := by
  cases hlast : files.getLast? with
  | none =>
    obtain rfl := getLast?_eq_none_iff.mp hlast
    exact recover_nil o h
  | some f =>
    obtain ⟨stop, hs⟩ := h.last f hlast
    have hactive : (walkedSegment f stop m.next).baseOffset = f.baseOffset := rfl
    obtain ⟨hchain, hhead, hall⟩ := sealedSegments_spec h.linked hlast hactive
    have hmem : f ∈ files := mem_of_getLast? hlast
    have hok : StoreOk z (Store.ofSegments (sealedSegments files) (walkedSegment f stop m.next))
        lay := by
      refine storeOk_ofSegments hchain (fun seg hseg => ?_) fun seg hseg => ?_
      · obtain ⟨g, -, g', hg, rfl⟩ := hall seg hseg
        exact hg.lt
      · rcases mem_append.mp hseg with hin | hin
        · obtain ⟨g, -, g', hg, rfl⟩ := hall seg hin
          exact hg.laid
        · rw [mem_singleton.mp hin]
          exact hs.walked
    have hseg : walkedSegment f stop m.next ∈
        (Store.ofSegments (sealedSegments files) (walkedSegment f stop m.next)).segments :=
      active_mem _
    obtain ⟨hset, hsegs, hidx⟩ := setSegmentIndexLocked_ok hok hseg
      (indexOk_walk o f.baseOffset hs.laid.chain hs.intact)
    rw [hactive] at hset hsegs hidx
    have hresult : recover o files = (setSegmentIndexLocked o
        (Store.ofSegments (sealedSegments files) (walkedSegment f stop m.next)) f.baseOffset
        (((lay f.baseOffset).map (Piece.entry f.baseOffset)).foldl (appendSparseIndexEntry o) []),
        m.next) := by
      rw [recover, hlast]
      exact walkActiveSegment_surviving o hs (sealedSegments files)
    rw [hresult]
    refine ⟨⟨hset, fun hnone p hp => ?_, ?_, fun seg hin p hp => ?_, ?_, ⟨fun seg hin => ?_,
      fun seg hin p hp => ?_⟩⟩, rfl⟩
    · rw [setSegmentIndexLocked_active] at hnone hp
      have := hidx ⟨p, hp, hs.intact p hp⟩
      rw [Option.isSome_iff_ne_none] at this
      exact absurd hnone this
    · rw [oldestOffset, hsegs]
      change ((sealedSegments files ++ [walkedSegment f stop m.next]).head?.map _).getD 0 = _
      rw [hhead]
      cases hfirst : files.head? with
      | none => simp [head?_eq_none_iff.mp hfirst] at hmem
      | some g => simpa using h.oldest g hfirst
    · rw [hsegs] at hin
      rcases mem_segments.mp hin with hin | rfl
      · obtain ⟨g, hg, g', -, rfl⟩ := hall seg hin
        exact h.pieces g hg p hp
      · exact h.pieces f hmem p hp
    · rw [setSegmentIndexLocked_active]
      rfl
    · rw [hsegs] at hin
      rcases mem_segments.mp hin with hin | rfl
      · obtain ⟨g, hg, g', hok, rfl⟩ := hall seg hin
        exact hok.tight
      · exact hs.tight
    · rw [hsegs] at hin
      rcases mem_segments.mp hin with hin | rfl
      · obtain ⟨g, hg, g', hok, rfl⟩ := hall seg hin
        exact hok.intact p hp
      · exact hs.intact p hp

/-- A log over a recovered store, with nothing buffered and a visible tail. -/
theorem Recovered.logOk {l : Log} (h : Recovered z l.store m lay) (hfits : m.next < 2 ^ 63)
    (hbuffer : l.buffer = ⟨[], m.next, m.next⟩) (hflushing : l.flushing = none)
    (htail : l.durableTail = m.next) (hhwm : l.highWatermark ≤ m.next) : LogOk z l m lay 0 := by
  have hactive := active_mem l.store
  refine ⟨h.store, h.indexed, h.oldest, h.pieces, hbuffer ▸ rfl,
    hbuffer ▸ .nil _ _, by rw [hbuffer], hbuffer ▸ hfits, ?_, ?_, ?_,
    fun p hp _ => ?_, fun offset _ hlow hhigh => ?_⟩
  · rw [hflushing, hbuffer, h.next]
    rfl
  · rw [htail, h.next]
  · rw [h.next]
    exact hhwm
  · exact (h.store.laid _ hactive).stop_le_length hp (h.whole.intact _ hactive p hp)
  · obtain ⟨p, hp, hcov⟩ := (h.whole.tight _ hactive).exists_covers hlow hhigh
    exact ⟨p, hp, h.whole.intact _ hactive p hp, hcov⟩

/-- Syncing the recovered tail. -/
theorem Recovered.syncActive {s : Store}
    (h : Recovered z s m lay) : Recovered z { s with active := s.active.sync } m lay := by
  have hactive := active_mem s
  refine ⟨h.store.setActiveFile rfl rfl rfl (SameBelow.refl _ _), h.indexed, ?_,
    fun seg hseg => ?_, h.next, fun seg hseg => ?_, fun seg hseg => ?_⟩
  · rw [← h.oldest]
    exact oldestOffset_congr rfl rfl
  all_goals rcases mem_segments.mp hseg with hin | rfl
  · exact h.pieces seg (mem_segments.mpr (.inl hin))
  · exact h.pieces s.active hactive
  · exact h.whole.tight seg (mem_segments.mpr (.inl hin))
  · exact h.whole.tight s.active hactive
  · exact h.whole.intact seg (mem_segments.mpr (.inl hin))
  · exact h.whole.intact s.active hactive

/-- Opening an undamaged directory gives a log that holds its records. -/
theorem newLog_logOk {d : Disk} (o : Options) (h : DirOk z d.files m lay) :
    LogOk z (newLog o d) m lay 0 ∧ (newLog o d).buffer.nextOffset = m.next := by
  obtain ⟨hrec, hnext⟩ := recover_spec o h
  unfold newLog
  rcases hr : recover o d.files with ⟨s, next⟩
  rw [hr] at hrec hnext
  obtain rfl : next = m.next := hnext
  cases d.hwmFile.content with
  | boundary persisted => exact ⟨hrec.logOk h.fits rfl rfl rfl (min_le_right _ _), rfl⟩
  | _ =>
    dsimp only
    split
    · exact ⟨hrec.syncActive.logOk h.fits rfl rfl rfl le_rfl, rfl⟩
    · exact ⟨hrec.logOk h.fits rfl rfl rfl le_rfl, rfl⟩

theorem newLog_whole {d : Disk} (o : Options) (h : DirOk z d.files m lay) :
    (newLog o d).closed = false ∧ (newLog o d).poisoned = false ∧ Whole (newLog o d).store lay := by
  obtain ⟨hrec, -⟩ := recover_spec o h
  unfold newLog
  rcases hr : recover o d.files with ⟨s, next⟩
  rw [hr] at hrec
  cases d.hwmFile.content with
  | boundary persisted => exact ⟨rfl, rfl, hrec.whole⟩
  | _ =>
    dsimp only
    split
    · exact ⟨rfl, rfl, hrec.syncActive.whole⟩
    · exact ⟨rfl, rfl, hrec.whole⟩

theorem dirOk_empty (z : Zstd) : DirOk z [] ⟨0, []⟩ fun _ => [] :=
  ⟨.nil, by simp, fun _ => ⟨rfl, rfl, rfl⟩, by simp, by simp, by decide⟩

end Narad.Storage
