import Narad.Storage.Opening

/-!
# Reading refines a map from offsets

A run of the machine is traced together with what the log is meant to be: the map from offsets to
records that the accepted appends build. The trace also keeps the frames written so far and the
floor of the last discard. Commits are of records appended and not discarded since, as those of
the produce path are.

The invariant of the log, of the running pass and of every reader holds in each state of a run; in
such a state a read of an offset between the oldest and the next one returns the map's record, as
long as its frame, if it has been written, is still on disk.
-/

namespace Narad.Storage

open Lib List Option

/-- A machine, the records its log has accepted, the frames written to each segment and the offset
at which the last discard left the log. -/
structure Traced where
  machine : Machine
  assigned : OffsetMap Bytes
  written : ℕ → List Piece
  floor : ℕ

/-- The commit is of records that are in the log and that no discard has passed. -/
def Traced.Commits (t : Traced) (c : CommitRequest) : Prop :=
  ∀ h ∈ c.hwm, t.floor < h ∧ h ≤ t.machine.log.buffer.nextOffset

instance (t : Traced) (c : CommitRequest) : Decidable (t.Commits c) :=
  inferInstanceAs (Decidable (∀ h ∈ c.hwm, _))

/-- What an append adds to the map. -/
def Traced.append (t : Traced) (records : List Bytes) : OffsetMap Bytes :=
  match (appendBatch t.machine.log records).1 with
  | .ok _ => t.assigned.assign t.machine.log.buffer.nextOffset records
  | .error _ => t.assigned

/-- One step of the machine with its trace. -/
def Traced.step (z : Zstd) (o : Options) (t : Traced) (label : Label) : Option Traced :=
  match label with
  | .append records =>
    (Storage.step z o t.machine label).map fun m =>
      { t with machine := m, assigned := t.append records }
  | .request c =>
    if t.Commits c then
      (Storage.step z o t.machine label).map fun m => { t with machine := m }
    else none
  | .flush _ =>
    (Storage.step z o t.machine label).bind fun m =>
      t.machine.flusher.map fun pass =>
        { t with
          machine := m
          written := layoutAfter t.written t.machine.log pass.2 m.log
          floor := floorAfter t.floor pass.2 m.log }
  | _ => (Storage.step z o t.machine label).map fun m => { t with machine := m }

def Traced.run (z : Zstd) (o : Options) (t : Traced) : List Label → Option Traced
  | [] => some t
  | label :: labels => (t.step z o label).bind fun t => t.run z o labels

/-- The traced log of a directory that holds the records of `m` in the frames `lay`. -/
def Traced.start (o : Options) (d : Disk) (m : OffsetMap Bytes) (lay : ℕ → List Piece) : Traced :=
  ⟨⟨newLog o d, none, []⟩, m, lay, 0⟩

structure Traced.Ok (z : Zstd) (o : Options) (t : Traced) : Prop where
  log : LogOk z t.machine.log t.assigned t.written t.floor
  flusher : ∀ pass ∈ t.machine.flusher, PhaseOk z o t.machine.log t.assigned t.written t.floor pass.1 pass.2
  readers : ∀ r ∈ t.machine.readers, ReaderOk o t.machine.log.store t.written t.machine.log.highWatermark r

variable {z : Zstd} {o : Options}

section PhaseFrame

variable {l l' : Log} {m m' : OffsetMap Bytes} {lay : ℕ → List Piece} {floor : ℕ} {p : Pass}

/-- What the pass relies on is left alone by appends and reads. -/
structure LeavesPass (l l' : Log) (m m' : OffsetMap Bytes) : Prop where
  sealed : l'.store.sealed = l.store.sealed
  active : l'.store.active = l.store.active
  base : l'.buffer.baseOffset = l.buffer.baseOffset
  next : l.buffer.nextOffset ≤ l'.buffer.nextOffset
  holds : ∀ b xs, b + xs.length ≤ l.buffer.baseOffset → m.Holds b xs → m'.Holds b xs

variable {b : Batch}

theorem LeavesPass.batch (hs : LeavesPass l l' m m') : LeavesBatch l l' m m' :=
  ⟨by rw [hs.active], hs.base, hs.holds⟩

theorem PublishedOk.leaves {e : IndexEntry} {n : ℕ}
    (h : PublishedOk l m lay floor p e n b) (hs : LeavesPass l l' m m') : PublishedOk l' m' lay floor p e n b := by
  refine ⟨?_, h.2.leaves hs.batch⟩
  rw [hs.active]
  exact h.1

theorem PhaseOk.leaves {phase : Phase} (h : PhaseOk z o l m lay floor p phase)
    (hs : LeavesPass l l' m m') : PhaseOk z o l' m' lay floor p phase := by
  have hactive := hs.active
  have hsegs : ∀ seg ∈ l.store.segments, ∃ seg' ∈ l'.store.segments, seg'.baseOffset = seg.baseOffset := by
    rw [Store.segments, Store.segments, hs.sealed, hactive]
    exact fun seg hseg => ⟨seg, hseg, rfl⟩
  cases phase with
  | begin forceDrain => exact ⟨h.1, fun hwm hh => ⟨(h.2 hwm hh).1, (h.2 hwm hh).2.trans hs.next⟩⟩
  | frame b => exact BatchOk.leaves h hs.batch
  | sync | durable | clear => exact AfterOk.leaves h hs.batch
  | create why => exact RollOk.leaves h hs.batch
  | write bytes n b => exact FrameOk.leaves h hs.batch
  | publish bytes n b => exact ⟨h.1.leaves hs.batch, hactive ▸ h.2⟩
  | nav | cache => exact PublishedOk.leaves h hs
  | verify offset lookup =>
    exact ⟨h.1.mono (fun seg hseg => hs.sealed ▸ hseg) hsegs, hactive ▸ h.2⟩
  | advance =>
    rw [PhaseOk, hactive]
    exact h
  | _ => trivial

end PhaseFrame

variable {t t' : Traced}

section

variable (h : t.Ok z o)
include h

/-- A step that touches neither files, caches nor buffers. -/
theorem Traced.Ok.congr {l : Log} (hstore : l.store = t.machine.log.store)
    (hbuffer : l.buffer = t.machine.log.buffer) (hflushing : l.flushing = t.machine.log.flushing)
    (htail : l.durableTail = t.machine.log.durableTail) (hhwm : l.highWatermark = t.machine.log.highWatermark) :
    Traced.Ok z o { t with machine := { t.machine with log := l } } := by
  refine ⟨h.log.congr hstore hbuffer hflushing htail hhwm, fun pass hpass => ?_, fun r hr => ?_⟩
  · exact (h.flusher pass hpass).leaves ⟨by rw [hstore], by rw [hstore], by rw [hbuffer],
      by rw [hbuffer], fun _ _ _ hh => hh⟩
  · simp only [hstore, hhwm]
    exact h.readers r hr

theorem append_ok {records : List Bytes} (hstep : t.step z o (.append records) = some t') : t'.Ok z o := by
  simp only [Traced.step, step] at hstep
  split at hstep
  next hfit =>
    obtain rfl := (some.inj hstep).symm
    rw [Traced.append, appendBatch]
    split
    · exact h
    split
    · exact h
    have hlog := h.log.appendBatch hfit
    have hstable : LeavesPass t.machine.log
        { t.machine.log with buffer := t.machine.log.buffer.pushBatch records } t.assigned
        (t.assigned.assign t.machine.log.buffer.nextOffset records) := by
      refine ⟨rfl, rfl, rfl, Nat.le_add_right _ _, fun b xs hend hh => ?_⟩
      have hbuf := h.log.buffered
      exact hh.assign (by omega) h.log.assigned
    split
    next hempty =>
      obtain rfl := isEmpty_iff.mp hempty
      have hsame : t.machine.log.buffer.pushBatch [] = t.machine.log.buffer := by
        simp [Buffer.pushBatch]
      rw [hsame] at hlog hstable
      exact ⟨hlog, fun pass hpass => (h.flusher pass hpass).leaves hstable, h.readers⟩
    · exact ⟨hlog, fun pass hpass => (h.flusher pass hpass).leaves hstable, h.readers⟩
  · cases hstep

/-- A pass begins. -/
theorem Traced.Ok.start_pass {p : Pass} {forceDrain : Bool} (hforce : p.hwm ≠ none → forceDrain = true)
    (htargets : p.Targets t.floor t.machine.log.buffer.nextOffset) :
    Traced.Ok z o { t with machine := { t.machine with flusher := some (p, .begin forceDrain) } } := by
  refine ⟨h.log, fun pass hpass => ?_, h.readers⟩
  obtain rfl : (p, Phase.begin forceDrain) = pass := by simpa using hpass
  exact ⟨hforce, htargets⟩

theorem flush_ok {e : Env} (hstep : t.step z o (.flush e) = some t') : t'.Ok z o := by
  cases hf : t.machine.flusher with
  | none => simp [Traced.step, step, hf] at hstep
  | some pass =>
    obtain ⟨p, phase⟩ := pass
    have hok := flusherStep_ok h.log (h.flusher (p, phase) hf) e
    simp only [Traced.step, step, hf, map_some, bind_some, some.injEq] at hstep
    obtain rfl := hstep
    refine ⟨hok.log, fun pass hpass => ?_, fun r hr => (h.readers r hr).moves hok.moves⟩
    split at hpass
    · cases hpass
    · obtain rfl := some.inj hpass
      exact hok.phase

theorem reader_ok {i : ℕ} (hstep : t.step z o (.reader i) = some t') : t'.Ok z o := by
  cases hr : t.machine.readers[i]? with
  | none => simp [Traced.step, step, hr] at hstep
  | some r =>
    have hmem : r ∈ t.machine.readers := mem_of_getElem? hr
    obtain ⟨hread, hnext⟩ := readerStep_spec h.log.store (h.readers r hmem)
    simp only [Traced.step, step, hr, map_some, some.injEq] at hstep
    obtain rfl := hstep
    refine ⟨h.log.withStore hread, fun pass hpass => ?_, fun r' hr' => ?_⟩
    · exact (h.flusher pass hpass).leaves ⟨hread.sealed, hread.active, rfl, le_rfl, fun _ _ _ hh => hh⟩
    · have hmoves := hread.moves t.machine.log.highWatermark
      rcases mem_append.mp hr' with hr' | hr'
      · rcases mem_append.mp hr' with hr' | hr'
        · exact (h.readers r' (mem_of_mem_take hr')).moves hmoves
        · exact hnext r' (by simpa using hr')
      · exact (h.readers r' (mem_of_mem_drop hr')).moves hmoves

/-- Every step of the machine keeps the invariant. -/
theorem Traced.Ok.step {label : Label} (hstep : t.step z o label = some t') : t'.Ok z o := by
  cases label with
  | append records => exact append_ok h hstep
  | tick | stop =>
    simp only [Traced.step, Storage.step] at hstep
    split at hstep
    · obtain rfl := some.inj hstep
      exact h.start_pass (by simp [Pass.hwm]) (by simp [Pass.Targets, Pass.hwm])
    · cases hstep
  | request c =>
    simp only [Traced.step, Storage.step] at hstep
    split at hstep
    next hcommits =>
      split at hstep
      · obtain rfl := some.inj hstep
        exact h.start_pass (fun _ => rfl) hcommits
      · cases hstep
    · cases hstep
  | close =>
    obtain rfl := some.inj hstep
    exact h.congr rfl rfl rfl rfl rfl
  | flush e => exact flush_ok h hstep
  | read offset =>
    simp only [Traced.step, Storage.step] at hstep
    split at hstep
    next hlt =>
      obtain rfl := some.inj hstep
      have hsame := h.congr (l := { t.machine.log with readSeen := true }) rfl rfl rfl rfl rfl
      refine ⟨hsame.log, hsame.flusher, fun r hr => ?_⟩
      rcases mem_cons.mp hr with rfl | hr
      · exact ⟨hlt.1, trivial⟩
      · exact h.readers r hr
    · cases hstep
  | reader i => exact reader_ok h hstep

theorem Traced.Ok.run {labels : List Label} (hrun : t.run z o labels = some t') : t'.Ok z o := by
  induction labels generalizing t with
  | nil => exact some.inj hrun ▸ h
  | cons label labels ih =>
    obtain ⟨t₁, hstep, hrest⟩ := bind_eq_some_iff.mp hrun
    exact ih (h.step hstep) hrest

end

theorem Traced.start_ok {d : Disk} {m : OffsetMap Bytes} {lay : ℕ → List Piece}
    (h : DirOk z d.files m lay) : (Traced.start o d m lay).Ok z o :=
  ⟨(newLog_logOk o h).1, by simp [Traced.start], by simp [Traced.start]⟩

/-- The frame of the offset, if it has been written, is on disk. -/
def Traced.Intact (t : Traced) (offset : ℕ) : Prop :=
  offset < t.machine.log.store.active.nextOffset →
    ∃ seg ∈ t.machine.log.store.segments, ∃ p ∈ t.written seg.baseOffset,
      p.base ≤ offset ∧ offset < p.next ∧ HoldsAt seg.file p.pos p.bytes

/-- A piece whose bytes are in the file is not lost. -/
theorem Laid.not_lost {file : Bytes} {pos off size next : ℕ} {ps : List Piece} {p : Piece}
    (h : Laid z file pos off ps size next) (hp : p ∈ ps) (hat : HoldsAt file p.pos p.bytes) : p.lost = false := by
  by_contra hl
  have hblank := h.blank p hp (by simpa using hl)
  have hstop := h.pos_lt_stop hp
  have hlen := (h.frames p hp).headerSize_lt
  have hget := (HoldsAt.iff_getElem?.mp hat) 0 (by omega)
  rw [add_zero, (h.frames p hp).magic.1] at hget
  exact absurd (hblank p.pos _ le_rfl (by omega) hget) (by decide)

variable {l : Log} {m : OffsetMap Bytes} {lay : ℕ → List Piece} {floor offset : ℕ} {r : Bytes}

/-- What the buffer or the snapshot answers is the map's record. -/
theorem LogOk.held (h : LogOk z l m lay floor)
    (hr : (l.buffer.readBuffered offset).or (readFlushingShared l.flushing offset) = some r) :
    m.get offset = some r := by
  rcases or_eq_some_iff.mp hr with hbuf | ⟨-, hsnap⟩
  · unfold Buffer.readBuffered at hbuf
    split at hbuf
    · cases hbuf
    next hin =>
      have := h.buffer _ _ hbuf
      rwa [show l.buffer.baseOffset + (offset - l.buffer.baseOffset) = offset by omega] at this
  unfold readFlushingShared at hsnap
  have hok := h.snapshot
  cases hf : l.flushing with
  | none =>
    rw [hf] at hsnap
    cases hsnap
  | some f =>
    rw [hf] at hok hsnap
    dsimp only at hsnap
    split at hsnap
    · cases hsnap
    · have := hok.2.2.2.2 _ _ hsnap
      rwa [show f.base + (offset - f.base) = offset by omega] at this

/-- What is not written yet is in the buffer or in the snapshot. -/
theorem LogOk.held_of_unwritten (h : LogOk z l m lay floor)
    (hlow : l.store.active.nextOffset ≤ offset) (hhigh : offset < l.buffer.nextOffset) :
    (l.buffer.readBuffered offset).or (readFlushingShared l.flushing offset) ≠ none := by
  have hbuffered := h.buffered
  rw [Ne, or_eq_none_iff]
  rintro ⟨hbuf, hsnap⟩
  by_cases hin : l.buffer.baseOffset ≤ offset
  · rw [Buffer.readBuffered, if_neg (by omega), getElem?_eq_none_iff] at hbuf
    omega
  have hok := h.snapshot
  unfold readFlushingShared at hsnap
  cases hf : l.flushing with
  | none =>
    rw [hf] at hok
    have hbase : l.buffer.baseOffset = l.store.active.nextOffset := hok
    omega
  | some f =>
    rw [hf] at hok hsnap
    obtain ⟨h1, h2, h3, h4, -⟩ := hok
    dsimp only at hsnap
    rw [if_neg (by omega), getElem?_eq_none_iff] at hsnap
    omega

/-- A read answers from the map. -/
theorem Traced.Ok.readShared_eq (h : t.Ok z o) (hopen : t.machine.log.closed = false)
    (hnext : offset < t.machine.log.buffer.nextOffset) (hintact : t.Intact offset) :
    ∃ r, (readShared z o t.machine.log offset).1 = .ok r ∧ t.assigned.get offset = some r := by
  rw [readShared, if_neg (by simp [hopen])]
  dsimp only
  by_cases hwritten : offset < t.machine.log.store.active.nextOffset
  · -- A frame on disk serves the offset, whether or not memory answers first.
    obtain ⟨seg, hseg, p, hp, hlow, hhigh, hat⟩ := hintact hwritten
    have hs : p.Serves offset := ⟨(h.log.store.laid seg hseg).not_lost hp hat, hlow, hhigh⟩
    have hlt : offset - p.base < p.records.length := by
      simp only [Piece.next] at hhigh
      omega
    have hrec := h.log.pieces seg hseg p hp _ _ (getElem?_eq_getElem hlt)
    rw [show p.base + (offset - p.base) = offset by omega] at hrec
    have hread : (readSegmentShared z o t.machine.log.store offset).1 = .ok _ :=
      readSegmentShared_eq h.log.store hseg hp hs (getElem?_eq_getElem hlt)
    generalize hheld : (if t.machine.log.durableTail ≤ offset then _ else none) = held
    cases held with
    | none => exact ⟨_, hread, hrec⟩
    | some r =>
      refine ⟨r, rfl, h.log.held ?_⟩
      split at hheld
      · exact hheld
      · cases hheld
  · have htail := h.log.tail
    rw [if_pos (by omega)]
    generalize hheld : Option.or _ _ = held
    cases held with
    | none => exact absurd hheld (h.log.held_of_unwritten (by omega) hnext)
    | some r => exact ⟨r, rfl, h.log.held hheld⟩

/-- In every state that a run of the log reaches, and while the log is open, reading an offset up to
the next one whose frame is on disk, if it has been written, returns exactly the record that the
offset is assigned. Offsets below the oldest have no frame. -/
theorem readShared_refines_assigned (z : Zstd) (o : Options) (d : Disk) (m : OffsetMap Bytes)
    (lay : ℕ → List Piece) (hdir : DirOk z d.files m lay) (labels : List Label) (t : Traced)
    (hrun : (Traced.start o d m lay).run z o labels = some t) (hopen : t.machine.log.closed = false)
    (offset : ℕ) (hnext : offset < t.machine.log.buffer.nextOffset) (hintact : t.Intact offset) :
    ∃ r, (readShared z o t.machine.log offset).1 = .ok r ∧ t.assigned.get offset = some r :=
  ((Traced.start_ok hdir).run hrun).readShared_eq hopen hnext hintact

/-- Two records appended and committed in one frame, and a third one buffered. -/
def committedThenBuffered : List Label :=
  [Label.append [[1], [2]], .request (commitRequest defaultOptions 0 1)] ++
    List.replicate 13 (Label.flush .calm) ++ [Label.append [[3]]]

theorem readShared_committed_record :
    ∃ t, (Traced.start defaultOptions .empty ⟨0, []⟩ fun _ => []).run .stored defaultOptions
        committedThenBuffered = some t ∧ t.machine.flusher = none ∧ t.machine.log.highWatermark = 2 ∧
      ∃ r, (readShared .stored defaultOptions t.machine.log 1).1 = .ok r ∧ t.assigned.get 1 = some r := by
  have hrun := (some_get (x := (Traced.start defaultOptions .empty ⟨0, []⟩ fun _ => []).run
    .stored defaultOptions committedThenBuffered) (by decide +kernel)).symm
  refine ⟨_, hrun, by decide +kernel, by decide +kernel, ?_⟩
  refine readShared_refines_assigned .stored defaultOptions .empty ⟨0, []⟩ (fun _ => [])
    (dirOk_empty .stored) committedThenBuffered _ hrun (by decide +kernel) 1 (by decide +kernel)
    fun _ => ?_
  refine ⟨_, active_mem _, ?_⟩
  decide +kernel

/-- Three records, each committed in a frame of its own. -/
def threeFrames : List Label :=
  [0, 1, 2].flatMap fun k => [Label.append [[UInt8.ofNat (k + 1)]], .request (commitRequest defaultOptions k k)] ++
    List.replicate 13 (Label.flush .calm)

/-- The disk with one byte of its files changed. -/
def Disk.setByte (d : Disk) (pos : ℕ) (byte : UInt8) : Disk :=
  { d with files := d.files.map fun f => { f with bytes := f.bytes.set pos byte } }

/-- One changed byte in the second frame's length makes its frame end inside the third. The log opened on
that disk has the third record's offset, and its frame passes its checksum, but the walk over the frame
headers lands behind the third frame's magic and finds nothing: a resync only follows a length that leaves
the segment. -/
theorem damaged_length_hides_intact_frame :
    ∃ t, (Traced.start defaultOptions .empty ⟨0, []⟩ fun _ => []).run .stored defaultOptions threeFrames = some t ∧
      t.assigned.get 2 = some [3] ∧ ∃ l, l = newLog defaultOptions (t.machine.log.disk.setByte 55 7) ∧
        oldestOffset l.store ≤ 2 ∧ 2 < l.buffer.nextOffset ∧
        (readFrameAt .stored l.store.active.file 66).map (fun frame => frame.2.1) = .ok [[3]] ∧
        (readShared .stored defaultOptions l 2).1 = .error .offsetNotFound := by
  have hrun := (some_get (x := (Traced.start defaultOptions .empty ⟨0, []⟩ fun _ => []).run
    .stored defaultOptions threeFrames) (by decide +kernel)).symm
  exact ⟨_, hrun, by decide +kernel, _, rfl, by decide +kernel, by decide +kernel, by decide +kernel,
    by decide +kernel⟩

end Narad.Storage
