import Narad.Storage.Files
import Narad.Lib.OffsetMap

/-!
# The log's invariant

A log holds the records of a map from offsets, each possibly more than once: in the write buffer,
in the flushing snapshot, in the frames of the segments and in the decoded-frame cache. `LogOk`
ties all of them to the map. What the flusher has in its hands between two of its steps, and what a
reader has between two of its sections, is described by `PhaseOk` and `ReaderOk`.

`floor` is the offset at which the last discard left the log: records appended since have offsets
from there on, and their frames are on disk once written.
-/

namespace Narad.Storage

open Lib List

variable {z : Zstd} {o : Options} {s s' : Store} {lay lay' : ℕ → List Piece}

/-- A section of a read: it leaves the files alone and what it remembers is right. -/
structure ReadOnly (z : Zstd) (s s' : Store) (lay : ℕ → List Piece) : Prop where
  ok : StoreOk z s' lay
  sealed : s'.sealed = s.sealed
  active : s'.active = s.active
  indexed : ActiveIndexed s lay → ActiveIndexed s' lay

theorem ReadOnly.segments (h : ReadOnly z s s' lay) : s'.segments = s.segments := by
  rw [Store.segments, Store.segments, h.sealed, h.active]

/-- Changes of the two caches alone. -/
theorem ReadOnly.of_index_eq (hok : StoreOk z s' lay) (hsealed : s'.sealed = s.sealed)
    (hactive : s'.active = s.active) (hindex : s'.segmentIndexes = s.segmentIndexes) : ReadOnly z s s' lay := by
  refine ⟨hok, hsealed, hactive, fun h => ?_⟩
  rw [ActiveIndexed, hactive, hindex]
  exact h

theorem installIndex_indexed (o : Options) (s : Store) (seg : Segment)
    (scanned : Option (List IndexEntry)) (hactive : (installIndex o s seg scanned).active = s.active)
    (h : ActiveIndexed s lay) : ActiveIndexed (installIndex o s seg scanned) lay := by
  intro hnone
  rw [hactive] at hnone ⊢
  refine h ?_
  by_contra hsome
  unfold installIndex at hnone
  split at hnone
  next hcold =>
    unfold setSegmentIndexLocked at hnone
    dsimp only at hnone
    split at hnone
    · have hne : s.active.baseOffset ≠ seg.baseOffset := fun heq => hsome (heq ▸ hcold)
      rw [AList.lookup_erase_ne hne] at hnone
      exact hsome hnone
    · exact (putSegmentIndex_put s seg.baseOffset _ 0).keptActive hsome hnone
  · exact hsome hnone

theorem findIndexLocked_index (h : StoreOk z s lay) (offset : ℕ) :
    (findIndexLocked s offset).2.segmentIndexes = s.segmentIndexes := by
  rw [(findIndexLocked_spec (o := offset) h).1.same]

theorem lookupStep_readOnly (h : StoreOk z s lay) (offset : ℕ) {l : Lookup} (hl : LookupOk o s l) :
    ReadOnly z s (lookupStep o s offset l).2 lay := by
  have hgood := lookupStep_spec (o := offset) h hl
  cases l with
  | probe =>
    refine .of_index_eq hgood.ok hgood.sealed hgood.active ?_
    have hidx := findIndexLocked_index h offset
    rw [lookupStep, probeIndex]
    rcases hfind : findIndexLocked s offset with ⟨r, s1⟩
    rw [hfind] at hidx
    cases r with
    | some r => exact hidx
    | none =>
      dsimp only
      split
      · exact hidx
      · split <;> exact hidx
  | rescan base =>
    refine .of_index_eq hgood.ok hgood.sealed hgood.active ?_
    rw [lookupStep]
    split <;> rfl
  | install base scanned =>
    refine { hgood with indexed := fun hidx => ?_ }
    rw [lookupStep]
    cases hfind : findSegmentLocked s base with
    | none => exact hidx
    | some seg =>
      dsimp only
      have hseg : seg ∈ s.segments ∧ seg.baseOffset = base := by
        unfold findSegmentLocked at hfind
        exact ⟨mem_of_find?_eq_some hfind, by simpa using find?_some hfind⟩
      have hscan : ∀ entries ∈ scanned, entries = scanSegmentIndex o seg := by
        cases scanned with
        | none => simp
        | some entries =>
          obtain ⟨seg', hseg', hbase, hentries⟩ := hl
          rw [← h.eq_of_base_eq (mem_segments.mpr (.inl hseg')) hseg.1 (hbase.trans hseg.2.symm)]
          intro e he
          cases he
          exact hentries
      obtain ⟨hok, -, hactive, -⟩ := installIndex_spec h hseg.1 hscan
      have hins := installIndex_indexed o s seg scanned hactive hidx
      have hsame := findIndexLocked_index hok offset
      have hact' := (findIndexLocked_spec (o := offset) hok).1.active
      rcases hres : findIndexLocked (installIndex o s seg scanned) offset with ⟨r, s1⟩
      rw [hres] at hsame hact'
      have hfinal : ActiveIndexed s1 lay := by
        dsimp only at hsame hact'
        rw [ActiveIndexed, hact', hsame]
        exact hins
      cases r with
      | none | some => exact hfinal

/-- The files only grow, as far as anything below the high watermark is concerned. -/
structure Moves (s : Store) (lay : ℕ → List Piece) (hwm : ℕ) (s' : Store) (lay' : ℕ → List Piece)
    (hwm' : ℕ) : Prop where
  sealed : ∀ seg ∈ s.sealed, seg ∈ s'.sealed
  bases : ∀ seg ∈ s.segments, ∃ seg' ∈ s'.segments, seg'.baseOffset = seg.baseOffset
  pieces : ∀ seg ∈ s.segments, ∀ p ∈ lay seg.baseOffset, p.base < hwm → p ∈ lay' seg.baseOffset
  hwm : hwm ≤ hwm'

theorem Moves.of_files {hwm hwm' : ℕ} (hsealed : s'.sealed = s.sealed)
    (hbase : s'.active.baseOffset = s.active.baseOffset) (hle : hwm ≤ hwm') : Moves s lay hwm s' lay hwm' := by
  refine ⟨fun seg hseg => hsealed ▸ hseg, fun seg hseg => ?_, fun _ _ p hp _ => hp, hle⟩
  rcases mem_segments.mp hseg with hin | rfl
  · exact ⟨seg, mem_segments.mpr (.inl (hsealed ▸ hin)), rfl⟩
  · exact ⟨s'.active, active_mem s', hbase⟩

theorem ReadOnly.moves (h : ReadOnly z s s' lay) (hwm : ℕ) : Moves s lay hwm s' lay hwm :=
  .of_files h.sealed (by rw [h.active]) le_rfl

/-- A lookup goes on where it was. -/
theorem LookupOk.mono {l : Lookup} (h : LookupOk o s l) (hsealed : ∀ seg ∈ s.sealed, seg ∈ s'.sealed)
    (hbases : ∀ seg ∈ s.segments, ∃ seg' ∈ s'.segments, seg'.baseOffset = seg.baseOffset) : LookupOk o s' l := by
  cases l with
  | probe => trivial
  | rescan base =>
    obtain ⟨seg, hseg, rfl⟩ := h
    exact ⟨seg, hsealed seg hseg, rfl⟩
  | install base scanned =>
    cases scanned with
    | none =>
      obtain ⟨seg, hseg, rfl⟩ := h
      exact hbases seg hseg
    | some entries =>
      obtain ⟨seg, hseg, rfl, rfl⟩ := h
      exact ⟨seg, hsealed seg hseg, rfl, rfl⟩

/-- What a reader of a committed offset has found so far. -/
def ReaderOk (o : Options) (s : Store) (lay : ℕ → List Piece) (hwm : ℕ) (r : Reader) : Prop :=
  r.offset < hwm ∧ match r.phase with
    | .lookup l => LookupOk o s l
    | .probe e i => ∃ p, Found s lay r.offset e i p
    | .decode e i => ∃ p, Found s lay r.offset e i p
    | .insert key records _ => ∃ seg ∈ s.segments, ∃ p ∈ lay seg.baseOffset,
        p.base < hwm ∧ key = ⟨seg.baseOffset, p.pos⟩ ∧ records = p.records

theorem Found.moves {hwm hwm' offset i : ℕ} {e : IndexEntry} {p : Piece} (h : Found s lay offset e i p)
    (hlt : offset < hwm) (hm : Moves s lay hwm s' lay' hwm') : Found s' lay' offset e i p := by
  obtain ⟨⟨seg, hseg, hp, rfl⟩, hlow, hrest⟩ := h
  obtain ⟨seg', hseg', hbase⟩ := hm.bases seg hseg
  have hp' := hm.pieces seg hseg p hp (by omega)
  exact ⟨⟨seg', hseg', by rwa [hbase], by rw [hbase]⟩, hlow, hrest⟩

theorem ReaderOk.moves {hwm hwm' : ℕ} {r : Reader} (h : ReaderOk o s lay hwm r)
    (hm : Moves s lay hwm s' lay' hwm') : ReaderOk o s' lay' hwm' r := by
  obtain ⟨hlt, hphase⟩ := h
  refine ⟨hlt.trans_le hm.hwm, ?_⟩
  cases hr : r.phase with rw [hr] at hphase
  | lookup l => exact hphase.mono hm.sealed hm.bases
  | probe | decode =>
    obtain ⟨p, hp⟩ := hphase
    exact ⟨p, hp.moves hlt hm⟩
  | insert key records size =>
    obtain ⟨seg, hseg, p, hp, hbelow, hkey, hrecs⟩ := hphase
    obtain ⟨seg', hseg', hbase⟩ := hm.bases seg hseg
    exact ⟨seg', hseg', p, hbase ▸ hm.pieces seg hseg p hp hbelow, hbelow.trans_le hm.hwm, hbase ▸ hkey, hrecs⟩

/-- One section of a read. -/
theorem readerStep_spec (h : StoreOk z s lay) {hwm : ℕ} {r : Reader} (hr : ReaderOk o s lay hwm r) :
    ReadOnly z s (readerStep z o s r).2 lay ∧
      ∀ r' ∈ (readerStep z o s r).1, ReaderOk o (readerStep z o s r).2 lay hwm r' := by
  obtain ⟨hlt, hphase⟩ := hr
  unfold readerStep
  cases hcase : r.phase with rw [hcase] at hphase
  | lookup l =>
    have hgood := lookupStep_spec (o := r.offset) h hphase
    have hread := lookupStep_readOnly h r.offset hphase
    dsimp only
    rcases hstep : lookupStep o s r.offset l with ⟨res, s1⟩
    rw [hstep] at hgood hread
    cases res with
    | missing => exact ⟨hread, by simp⟩
    | continue_ next =>
      refine ⟨hread, fun r' hr' => ?_⟩
      cases hr'
      exact ⟨hlt, hgood.next next rfl⟩
    | found entry idx =>
      refine ⟨hread, fun r' hr' => ?_⟩
      cases hr'
      obtain ⟨p, hp⟩ := hgood.found entry idx rfl
      exact ⟨hlt, p, hp.of_files hread.sealed hread.active⟩
  | probe e i =>
    obtain ⟨p, hp⟩ := hphase
    have hread : ReadOnly z s { s with frameCache := (frameGet s.frameCache e.key).2 } lay :=
      .of_index_eq (h.moved e.key) rfl rfl rfl
    refine ⟨hread, fun r' hr' => ?_⟩
    dsimp only at hr'
    split at hr' <;> cases hr'
    exact ⟨hlt, p, hp.of_files rfl rfl⟩
  | decode e i =>
    have hsame : ReadOnly z s s lay := .of_index_eq h rfl rfl rfl
    obtain ⟨p, ⟨seg, hseg, hp, rfl⟩, hlow, hrest⟩ := hphase
    dsimp only
    rw [show (p.entry seg.baseOffset).segmentBaseOffset = seg.baseOffset from rfl, h.findSegmentLocked_eq hseg]
    dsimp only
    cases hread : readFrameAt z seg.file (p.entry seg.baseOffset).framePos with
    | error err => exact ⟨hsame, by simp⟩
    | ok res =>
      obtain ⟨hd, records, stop⟩ := res
      obtain ⟨-, rfl⟩ := (h.laid seg hseg).readFrameAt_ok hp hread
      dsimp only
      split
      · exact ⟨hsame, by simp⟩
      refine ⟨hsame, fun r' hr' => ?_⟩
      cases hr'
      exact ⟨hlt, seg, hseg, p, hp, by omega, rfl, rfl⟩
  | insert key records size =>
    obtain ⟨seg, hseg, p, hp, -, rfl, rfl⟩ := hphase
    refine ⟨.of_index_eq (h.withFrames fun f hf => ?_) rfl rfl rfl, by simp⟩
    rcases mem_framePutSized hf with hold | ⟨hkey, hrecs⟩
    · exact .inl hold
    · exact .inr ⟨seg, hseg, p, hp, hkey, hrecs⟩

/-- The base offset of the oldest segment. -/
def oldestOffset (s : Store) : ℕ :=
  (s.segments.head?.map Segment.baseOffset).getD 0

/-- The snapshot reaches from a point at or below the written tail to the buffer. -/
def SnapshotOk (m : OffsetMap Bytes) (next : ℕ) (b : Buffer) : Option Flushing → Prop
  | none => b.baseOffset = next
  | some f => f.base ≤ next ∧ f.written = next ∧ next ≤ b.baseOffset ∧
      f.base + f.records.length = b.baseOffset ∧ m.Holds f.base f.records

structure LogOk (z : Zstd) (l : Log) (m : OffsetMap Bytes) (lay : ℕ → List Piece) (floor : ℕ) : Prop where
  store : StoreOk z l.store lay
  indexed : ActiveIndexed l.store lay
  oldest : oldestOffset l.store = m.first
  pieces : ∀ seg ∈ l.store.segments, ∀ p ∈ lay seg.baseOffset, m.Holds p.base p.records
  buffered : l.buffer.nextOffset = l.buffer.baseOffset + l.buffer.records.length
  buffer : m.Holds l.buffer.baseOffset l.buffer.records
  assigned : l.buffer.nextOffset ≤ m.next
  fits : l.buffer.nextOffset < 2 ^ 63
  snapshot : SnapshotOk m l.store.active.nextOffset l.buffer l.flushing
  tail : l.durableTail ≤ l.store.active.nextOffset
  visible : l.highWatermark ≤ l.store.active.nextOffset
  reached : ∀ p ∈ lay l.store.active.baseOffset, p.base < l.highWatermark → p.stop ≤ l.store.active.file.length
  fresh : ∀ offset, floor ≤ offset → l.store.active.baseOffset ≤ offset →
    offset < l.store.active.nextOffset → ∃ p ∈ lay l.store.active.baseOffset, p.Serves offset

theorem SnapshotOk.next_le {m : OffsetMap Bytes} {next : ℕ} {b : Buffer} {f : Option Flushing}
    (h : SnapshotOk m next b f) : next ≤ b.baseOffset := by
  cases f with
  | none => exact h.ge
  | some f => exact h.2.2.1

theorem oldestOffset_congr (hsealed : s'.sealed = s.sealed)
    (hbase : s'.active.baseOffset = s.active.baseOffset) : oldestOffset s' = oldestOffset s := by
  simp only [oldestOffset, Store.segments, hsealed]
  cases s.sealed with
  | nil => simp [hbase]
  | cons a rest => rfl

theorem StoreOk.oldestOffset_le (h : StoreOk z s lay) {seg : Segment} (hseg : seg ∈ s.segments) :
    oldestOffset s ≤ seg.baseOffset := by
  have hp := h.pairwise
  have hle : ∀ seg ∈ s.segments, seg.baseOffset ≤ seg.nextOffset := fun _ => h.base_le_next
  unfold oldestOffset
  generalize s.segments = l at hp hle hseg
  cases l with
  | nil => exact absurd hseg (by simp)
  | cons a l =>
    rcases mem_cons.mp hseg with rfl | hin
    · exact le_rfl
    have h1 := (pairwise_cons.mp hp).1 seg hin
    have h2 := hle a (.head _)
    simp only [head?_cons, Option.map_some, Option.getD_some]
    omega

namespace LogOk

variable {l : Log} {m : OffsetMap Bytes} {floor : ℕ}

section

variable (h : LogOk z l m lay floor)
include h

theorem first_le : m.first ≤ l.store.active.nextOffset := by
  have h1 := h.store.oldestOffset_le (active_mem l.store)
  have h2 := h.store.base_le_next (active_mem l.store)
  rw [h.oldest] at h1
  omega

theorem next_le_buffer : l.store.active.nextOffset ≤ l.buffer.nextOffset := by
  have h1 := h.snapshot.next_le
  have h2 := h.buffered
  omega

theorem activeLaid : Laid z l.store.active.file 0 l.store.active.baseOffset (lay l.store.active.baseOffset)
      l.store.active.sizeBytes l.store.active.nextOffset :=
  h.store.laid l.store.active (active_mem l.store)

/-- The invariant does not mention the log's other fields. -/
theorem congr {l' : Log} (hstore : l'.store = l.store)
    (hbuffer : l'.buffer = l.buffer) (hflushing : l'.flushing = l.flushing)
    (htail : l'.durableTail = l.durableTail) (hhwm : l'.highWatermark = l.highWatermark) : LogOk z l' m lay floor := by
  obtain ⟨h1, h2, h3, h4, h5, h6, h7, h8, h9, h10, h11, h12, h13⟩ := h
  constructor
  all_goals simp only [hstore, hbuffer, hflushing, htail, hhwm]
  all_goals assumption

/-- Reads keep the invariant. -/
theorem withStore (hread : ReadOnly z l.store s' lay) : LogOk z { l with store := s' } m lay floor := by
  have hsegs := hread.segments
  have hactive := hread.active
  refine ⟨hread.ok, hread.indexed h.indexed, ?_, ?_, h.buffered, h.buffer, h.assigned, h.fits, ?_, ?_, ?_, ?_, ?_⟩
  · rw [oldestOffset, hsegs]
    exact h.oldest
  · rw [hsegs]
    exact h.pieces
  · rw [hactive]
    exact h.snapshot
  · rw [hactive]
    exact h.tail
  · rw [hactive]
    exact h.visible
  · rw [hactive]
    exact h.reached
  · rw [hactive]
    exact h.fresh

/-- The active segment's file changes, but not where it holds pieces. -/
theorem setActiveFile {active : Segment} (hbase : active.baseOffset = l.store.active.baseOffset)
    (hsize : active.sizeBytes = l.store.active.sizeBytes) (hnext : active.nextOffset = l.store.active.nextOffset)
    (hsame : SameBelow l.store.active.sizeBytes l.store.active.file active.file)
    (hlen : l.store.active.sizeBytes ≤ active.file.length ∨ l.store.active.file.length ≤ active.file.length) :
    LogOk z { l with store := { l.store with active := active } } m lay floor := by
  have hsegs : ∀ seg ∈ ({ l.store with active := active } : Store).segments,
      ∃ seg' ∈ l.store.segments, seg'.baseOffset = seg.baseOffset := by
    intro seg hseg
    rcases mem_segments.mp hseg with hin | rfl
    · exact ⟨seg, mem_segments.mpr (.inl hin), rfl⟩
    · exact ⟨l.store.active, active_mem l.store, hbase.symm⟩
  refine ⟨h.store.setActiveFile hbase hsize hnext hsame, ?_, ?_, fun seg hseg p hp => ?_, h.buffered,
    h.buffer, h.assigned, h.fits, ?_, ?_, ?_, ?_, ?_⟩
  · intro hnone p hp
    dsimp only at hnone hp
    rw [hbase] at hnone hp
    exact h.indexed hnone p hp
  · rw [← h.oldest]
    exact oldestOffset_congr rfl hbase
  · obtain ⟨seg', hseg', heq⟩ := hsegs seg hseg
    exact h.pieces seg' hseg' p (heq ▸ hp)
  · simp only [hnext]
    exact h.snapshot
  · simp only [hnext]
    exact h.tail
  · simp only [hnext]
    exact h.visible
  · simp only [hbase]
    intro p hp hlt
    have h1 := h.reached p hp hlt
    have h2 := h.activeLaid.chain.bounds hp
    omega
  · simp only [hbase, hnext]
    exact h.fresh

/-- An append keeps the invariant for the extended map. -/
theorem appendBatch {records : List Bytes} (hfit : l.buffer.nextOffset + records.length < 2 ^ 63) :
    LogOk z { l with buffer := l.buffer.pushBatch records } (m.assign l.buffer.nextOffset records) lay floor := by
  have hfirst : m.first ≤ l.buffer.nextOffset := h.first_le.trans h.next_le_buffer
  have hsnap := h.snapshot.next_le
  have hbuf := h.buffered
  refine ⟨h.store, h.indexed, h.oldest, fun seg hseg p hp => ?_, ?_, ?_, ?_, ?_, ?_, h.tail,
    h.visible, h.reached, h.fresh⟩
  · refine (h.pieces seg hseg p hp).assign ?_ h.assigned
    have hb := (h.store.laid seg hseg).chain.bounds hp
    have hle : seg.nextOffset ≤ l.store.active.nextOffset := by
      rcases mem_segments.mp hseg with hin | rfl
      · have h1 := (pairwise_append.mp h.store.pairwise).2.2 seg hin l.store.active (by simp)
        have h2 := h.store.base_le_next (active_mem l.store)
        omega
      · exact le_rfl
    simp only [Piece.next] at hb
    omega
  · simp only [Buffer.pushBatch, length_append]
    omega
  · refine (h.buffer.assign (by omega) h.assigned).append ?_
    rw [← hbuf]
    exact OffsetMap.holds_assign hfirst h.assigned
  · rw [OffsetMap.assign_next hfirst h.assigned]
    exact le_rfl
  · exact hfit
  · have hsnapshot := h.snapshot
    cases hf : l.flushing with rw [hf] at hsnapshot
    | none => exact hsnapshot
    | some f =>
      obtain ⟨h1, h2, h3, h4, h5⟩ := hsnapshot
      exact ⟨h1, h2, h3, h4, h5.assign (by omega) h.assigned⟩

end

end LogOk

end Narad.Storage
