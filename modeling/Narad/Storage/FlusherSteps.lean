import Narad.Storage.LogInvariant

/-!
# The flusher keeps the log's invariant

Between two steps the flusher holds a batch, an encoded frame or a position; `PhaseOk` says what
these have to do with the log. One lemma per kind of step shows that the log's invariant and the
phase's facts hold after it, for the layout of frames that the step leaves (`layoutAfter`).
-/

namespace Narad.Storage

open Function (update update_eq_self update_of_ne update_self)
open Lib List Option

/-- The high watermark that the pass is to reach. -/
def Pass.hwm (p : Pass) : Option ℕ :=
  p.commit.bind CommitRequest.hwm

/-- A commit's target lies above the floor and within what is available. -/
def Pass.Targets (p : Pass) (floor bound : ℕ) : Prop :=
  ∀ h ∈ p.hwm, floor < h ∧ h ≤ bound

/-- The batch is what the snapshot still has to write. -/
structure BatchOk (l : Log) (m : OffsetMap Bytes) (floor : ℕ) (p : Pass) (b : Batch) : Prop where
  base : b.baseOffset = l.store.active.nextOffset
  stop : b.baseOffset + b.records.length = l.buffer.baseOffset
  holds : m.Holds b.baseOffset b.records
  targets : p.Targets floor l.buffer.baseOffset

/-- The frame is that of the batch's first records. -/
structure FrameOk (z : Zstd) (l : Log) (m : OffsetMap Bytes) (floor : ℕ) (p : Pass) (bytes : Bytes)
    (n : ℕ) (b : Batch) : Prop where
  batch : BatchOk l m floor p b
  count : n ≤ b.records.length
  frame : IsFrame z b.baseOffset (b.records.take n) bytes

section Phases

variable (z : Zstd) (o : Options) (l : Log) (m : OffsetMap Bytes) (lay : ℕ → List Piece) (floor : ℕ) (p : Pass)

def RollOk : RollFor → Prop
  | .frame bytes n b => FrameOk z l m floor p bytes n b
  | _ => True

def AfterOk : AfterSync → Prop
  | .batch b => BatchOk l m floor p b
  | .roll why => RollOk z l m floor p why

/-- The frame is published and the rest of the batch is left. -/
def PublishedOk (e : IndexEntry) (n : ℕ) (b : Batch) : Prop :=
  (∃ q ∈ lay l.store.active.baseOffset, e = q.entry l.store.active.baseOffset ∧
    q.records = b.records.take n) ∧ BatchOk l m floor p (b.rest n)

def PhaseOk : Phase → Prop
  | .begin forceDrain => (p.hwm ≠ none → forceDrain = true) ∧ p.Targets floor l.buffer.nextOffset
  | .frame b => BatchOk l m floor p b
  | .sync _ k => AfterOk z l m floor p k
  | .durable k => AfterOk z l m floor p k
  | .clear k => AfterOk z l m floor p k
  | .create why => RollOk z l m floor p why
  | .write bytes n b => FrameOk z l m floor p bytes n b
  | .publish bytes n b => FrameOk z l m floor p bytes n b ∧
      HoldsAt l.store.active.file l.store.active.sizeBytes bytes
  | .nav e n b => PublishedOk l m lay floor p e n b
  | .cache e n b => PublishedOk l m lay floor p e n b
  | .verify _ lookup => LookupOk o l.store lookup ∧ p.Targets floor l.store.active.nextOffset
  | .advance => p.Targets floor l.store.active.nextOffset
  | _ => True

end Phases

/-- The layout after a step of the pass: a published frame joins it, and the active segment keeps
what it still counts. -/
def layoutAfter (lay : ℕ → List Piece) (l : Log) (phase : Phase) (l' : Log) : ℕ → List Piece :=
  let lay := match phase with
    | .publish bytes n b => update lay l.store.active.baseOffset
        (lay l.store.active.baseOffset ++ [publishedPiece l.store bytes n b])
    | _ => lay
  update lay l'.store.active.baseOffset (trimPieces l'.store.active (lay l'.store.active.baseOffset))

/-- The floor after a step of the pass. -/
def floorAfter (floor : ℕ) (phase : Phase) (l' : Log) : ℕ :=
  match phase with
  | .discard _ => l'.buffer.nextOffset
  | _ => floor

/-- What a step of the pass must do. -/
structure StepOk (z : Zstd) (o : Options) (l : Log) (m : OffsetMap Bytes) (lay lay' : ℕ → List Piece)
    (floor : ℕ) (r : Log × Pass × Phase) : Prop where
  log : LogOk z r.1 m lay' floor
  phase : PhaseOk z o r.1 m lay' floor r.2.1 r.2.2
  moves : Moves l.store lay l.highWatermark r.1.store lay' r.1.highWatermark

variable {z : Zstd} {o : Options} {l : Log} {m : OffsetMap Bytes} {lay : ℕ → List Piece} {floor : ℕ}
  {p : Pass} {s : Store}

theorem update_trimPieces_eq (h : StoreOk z s lay) :
    update lay s.active.baseOffset (trimPieces s.active (lay s.active.baseOffset)) = lay := by
  rw [(h.laid s.active (active_mem s)).trimPieces_eq, update_eq_self]

variable {l' : Log} {phase : Phase}

/-- Most steps leave the layout alone. -/
theorem layoutAfter_eq (h : StoreOk z l'.store lay)
    (hphase : ∀ bytes n b, phase ≠ .publish bytes n b) : layoutAfter lay l phase l' = lay := by
  unfold layoutAfter
  cases phase with
  | publish bytes n b => exact absurd rfl (hphase bytes n b)
  | _ => exact update_trimPieces_eq h

theorem moves_refl (s : Store) (lay : ℕ → List Piece) (hwm : ℕ) : Moves s lay hwm s lay hwm :=
  .of_files rfl rfl le_rfl

theorem phaseOk_failed : PhaseOk z o l m lay floor p (failed l p) := by
  unfold failed
  split <;> trivial

theorem phaseOk_rollFailed (why : RollFor) : PhaseOk z o l m lay floor p (why.failed l p) := by
  cases why with
  | pending => trivial
  | frame | rotate => exact phaseOk_failed

variable {k : AfterSync}

theorem phaseOk_resume (h : AfterOk z l m floor p k) : PhaseOk z o l m lay floor p k.resume := by
  cases k <;> exact h

theorem phaseOk_advanced : PhaseOk z o l m lay floor p (advanced p) := by
  unfold advanced
  split
  · trivial
  · split <;> trivial

variable {b : Batch}

/-- What a pass knows of its batch is left alone. -/
structure LeavesBatch (l l' : Log) (m m' : OffsetMap Bytes) : Prop where
  next : l'.store.active.nextOffset = l.store.active.nextOffset
  base : l'.buffer.baseOffset = l.buffer.baseOffset
  holds : ∀ b xs, b + xs.length ≤ l.buffer.baseOffset → m.Holds b xs → m'.Holds b xs

theorem LeavesBatch.of_eq (hnext : l'.store.active.nextOffset = l.store.active.nextOffset)
    (hbase : l'.buffer.baseOffset = l.buffer.baseOffset) : LeavesBatch l l' m m :=
  ⟨hnext, hbase, fun _ _ _ h => h⟩

variable {n : ℕ} {bytes : Bytes} {why : RollFor} {m' : OffsetMap Bytes}

theorem BatchOk.leaves (h : BatchOk l m floor p b) (hs : LeavesBatch l l' m m') : BatchOk l' m' floor p b :=
  ⟨h.base.trans hs.next.symm, h.stop.trans hs.base.symm, hs.holds _ _ h.stop.le h.holds, hs.base ▸ h.targets⟩

theorem FrameOk.leaves (h : FrameOk z l m floor p bytes n b) (hs : LeavesBatch l l' m m') :
    FrameOk z l' m' floor p bytes n b :=
  ⟨h.batch.leaves hs, h.count, h.frame⟩

theorem RollOk.leaves (h : RollOk z l m floor p why) (hs : LeavesBatch l l' m m') : RollOk z l' m' floor p why := by
  cases why with
  | frame bytes n b => exact FrameOk.leaves h hs
  | rotate => trivial
  | pending => trivial

theorem AfterOk.leaves (h : AfterOk z l m floor p k) (hs : LeavesBatch l l' m m') : AfterOk z l' m' floor p k := by
  cases k with
  | batch b => exact BatchOk.leaves h hs
  | roll why => exact RollOk.leaves h hs

theorem frameSplitLen_go_le (o : Options) (size i : ℕ) (records : List Bytes) :
    frameSplitLen.go o size i records ≤ i + records.length := by
  induction records generalizing size i with
  | nil => simp [frameSplitLen.go]
  | cons r records ih =>
    rw [frameSplitLen.go]
    split
    · omega
    have := ih (size + (4 + r.length)) (i + 1)
    simp only [length_cons]
    omega

/-- What is left to write of a snapshot. -/
theorem unwrittenFlushingLocked_spec {next : ℕ} {b : Buffer} {f : Flushing}
    (h : SnapshotOk m next b (some f)) : (unwrittenFlushingLocked f).2 = next ∧
      (unwrittenFlushingLocked f).2 + (unwrittenFlushingLocked f).1.length = b.baseOffset ∧
      m.Holds (unwrittenFlushingLocked f).2 (unwrittenFlushingLocked f).1 := by
  obtain ⟨h1, h2, h3, h4, h5⟩ := h
  unfold unwrittenFlushingLocked
  split
  · exact ⟨by simp only; omega, by simp only [length_nil]; omega, .nil _ _⟩
  refine ⟨h2, ?_, ?_⟩
  · simp only [length_drop]
    omega
  · have hdrop := h5.drop (f.written - f.base)
    rwa [show f.base + (f.written - f.base) = f.written by omega] at hdrop

/-- Draining moves everything buffered into the snapshot. -/
theorem drainBufferForFlush_spec (h : LogOk z l m lay floor) : LogOk z (drainBufferForFlush l).2 m lay floor ∧
      (drainBufferForFlush l).2.store = l.store ∧ (drainBufferForFlush l).2.highWatermark = l.highWatermark ∧
      (drainBufferForFlush l).2.buffer.baseOffset = l.buffer.nextOffset ∧
      (drainBufferForFlush l).1.2 = l.store.active.nextOffset ∧
      (drainBufferForFlush l).1.2 + (drainBufferForFlush l).1.1.length = l.buffer.nextOffset ∧
      m.Holds (drainBufferForFlush l).1.2 (drainBufferForFlush l).1.1 := by
  have hsnap := h.snapshot
  have hbuf := h.buffered
  unfold drainBufferForFlush
  split
  next hempty =>
    have hnil := isEmpty_iff.mp hempty
    rw [hnil, length_nil, add_zero] at hbuf
    cases hf : l.flushing with rw [hf] at hsnap
    | none =>
      have hbase : l.buffer.baseOffset = l.store.active.nextOffset := hsnap
      exact ⟨h, rfl, rfl, hbuf.symm, by dsimp only; omega, by simp, .nil _ _⟩
    | some f =>
      obtain ⟨h1, h2, h3⟩ := unwrittenFlushingLocked_spec hsnap
      exact ⟨h, rfl, rfl, hbuf.symm, h1, h2.trans hbuf.symm, h3⟩
  · dsimp only
    have hdrained (f : Flushing) (hsnap' : SnapshotOk m l.store.active.nextOffset
        ⟨[], l.buffer.nextOffset, l.buffer.nextOffset⟩ (some f)) :
        LogOk z { l with flushing := some f, buffer := ⟨[], l.buffer.nextOffset, l.buffer.nextOffset⟩ } m lay floor :=
      { h with buffered := by simp, buffer := .nil _ _, snapshot := hsnap' }
    cases hf : l.flushing with rw [hf] at hsnap
    | none =>
      have hbase : l.buffer.baseOffset = l.store.active.nextOffset := hsnap
      have hsnap' : SnapshotOk m l.store.active.nextOffset ⟨[], l.buffer.nextOffset, l.buffer.nextOffset⟩
          (some ⟨l.buffer.baseOffset, l.buffer.baseOffset, l.buffer.records⟩) :=
        ⟨hbase.le, hbase, by dsimp only; omega, hbuf.symm, h.buffer⟩
      obtain ⟨h1, h2, h3⟩ := unwrittenFlushingLocked_spec hsnap'
      exact ⟨hdrained _ hsnap', rfl, rfl, rfl, h1, h2, h3⟩
    | some g =>
      obtain ⟨h1, h2, h3, h4, h5⟩ := hsnap
      have hsnap' : SnapshotOk m l.store.active.nextOffset ⟨[], l.buffer.nextOffset, l.buffer.nextOffset⟩
          (some { g with records := g.records ++ l.buffer.records }) := by
        refine ⟨h1, h2, by dsimp only; omega, ?_, h5.append (h4 ▸ h.buffer)⟩
        simp only [length_append]
        omega
      obtain ⟨h1, h2, h3⟩ := unwrittenFlushingLocked_spec hsnap'
      exact ⟨hdrained _ hsnap', rfl, rfl, rfl, h1, h2, h3⟩

theorem beginPass_ok (h : LogOk z l m lay floor) {forceDrain : Bool}
    (hp : PhaseOk z o l m lay floor p (.begin forceDrain)) (e : Env) :
    StepOk z o l m lay lay floor (beginPass o l p e forceDrain) := by
  obtain ⟨hforce, htargets⟩ := hp
  unfold beginPass
  split
  · exact ⟨h, phaseOk_failed, moves_refl _ _ _⟩
  split
  next hskip =>
    simp only [Bool.and_eq_true, Bool.not_eq_true'] at hskip
    refine ⟨h, ⟨?_, rfl, .nil _ _, fun hwm hhwm => ?_⟩, moves_refl _ _ _⟩
    · have hsnap := h.snapshot
      have hpending := hskip.1.2
      unfold hasPendingFlushing at hpending
      cases hf : l.flushing with
      | none =>
        rw [hf] at hsnap
        exact hsnap
      | some f =>
        rw [hf] at hsnap hpending
        obtain ⟨h1, h2, h3, h4, -⟩ := hsnap
        simp only [decide_eq_false_iff_not] at hpending
        simp only
        omega
    · have hfd := hforce (by rw [hhwm]; simp)
      rw [hfd] at hskip
      exact absurd hskip.1.1 (by simp)
  · obtain ⟨hlog, hstore, hhwm, hbase, h1, h2, h3⟩ := drainBufferForFlush_spec h
    rcases hdrain : drainBufferForFlush l with ⟨⟨records, base⟩, l1⟩
    rw [hdrain] at hlog hstore hhwm hbase h1 h2 h3
    dsimp only at hlog hstore hhwm hbase h1 h2 h3 ⊢
    have hmoves : Moves l.store lay l.highWatermark l1.store lay l1.highWatermark := by
      rw [hstore, hhwm]
      exact moves_refl _ _ _
    split
    next hempty =>
      rw [isEmpty_iff.mp hempty] at h2
      exact ⟨hlog, ⟨hstore ▸ h1, h2.trans hbase.symm, .nil _ _, hbase ▸ htargets⟩, hmoves⟩
    · exact ⟨hlog.congr rfl rfl rfl rfl rfl, ⟨by dsimp only; rw [hstore]; exact h1,
        h2.trans hbase.symm, h3, by dsimp only; rw [hbase]; exact htargets⟩, hmoves⟩

theorem finishRequest_ok (h : BatchOk l m floor p b) (hempty : b.records = []) :
    PhaseOk z o l m lay floor p (finishRequest p) := by
  have hbase : l.buffer.baseOffset = l.store.active.nextOffset := by
    have h1 := h.base
    have h2 := h.stop
    rw [hempty, length_nil] at h2
    omega
  have htargets : p.Targets floor l.store.active.nextOffset := hbase ▸ h.targets
  unfold finishRequest
  split
  · split <;> trivial
  split
  · exact ⟨trivial, htargets⟩
  · exact htargets

theorem frameStep_ok (h : LogOk z l m lay floor) (hb : BatchOk l m floor p b) (e : Env) :
    PhaseOk z o l m lay floor p (frameStep z o l p e b) := by
  unfold frameStep
  split
  next hempty => exact finishRequest_ok hb (isEmpty_iff.mp hempty)
  · dsimp only
    split
    · exact phaseOk_failed
    next bytes hencode =>
      have hfits := h.fits
      have hle := h.next_le_buffer
      have hbase := hb.base
      have hframe : FrameOk z l m floor p bytes (frameSplitLen o b.records) b :=
        ⟨hb, zero_add b.records.length ▸ frameSplitLen_go_le o 0 0 b.records, ⟨o.codec, hencode⟩, by omega⟩
      split <;> exact hframe

theorem writeStep_ok (h : LogOk z l m lay floor) (hf : FrameOk z l m floor p bytes n b) (e : Env) :
    StepOk z o l m lay lay floor (flusherStep z o l p e (.write bytes n b)) := by
  have hlog : LogOk z { l with store := writeActive l.store e.write bytes } m lay floor :=
    h.setActiveFile rfl rfl rfl (writeActive_sameBelow l.store e.write bytes)
      (.inl (writeActive_length l.store e.write bytes))
  refine ⟨hlog, ?_, .of_files rfl rfl le_rfl⟩
  unfold flusherStep
  dsimp only
  split
  next hok =>
    refine ⟨hf.leaves (.of_eq rfl rfl), ?_⟩
    simp only [writeActive, hok]
    exact holdsAt_writeAt _ _ _
  · exact phaseOk_failed

/-- After publishing, the layout has one piece more. -/
theorem layoutAfter_publish (h : StoreOk z l'.store (update lay l.store.active.baseOffset
      (lay l.store.active.baseOffset ++ [publishedPiece l.store bytes n b]))) :
    layoutAfter lay l (.publish bytes n b) l' = update lay l.store.active.baseOffset
      (lay l.store.active.baseOffset ++ [publishedPiece l.store bytes n b]) :=
  update_trimPieces_eq h

theorem publishFrame_active (e : Env) (bytes : Bytes) (n : ℕ) (b : Batch) :
    (publishFrame o l e bytes n b).2.store.sealed = l.store.sealed ∧
      (publishFrame o l e bytes n b).2.store.active = { l.store.active with
        firstWriteAt := some (l.store.active.firstWriteAt.getD e.now)
        sizeBytes := l.store.active.sizeBytes + bytes.length, nextOffset := b.baseOffset + n } := by
  unfold publishFrame appendIndexLocked
  exact ⟨(putSegmentIndex_put _ _ _ _).sealed, (putSegmentIndex_put _ _ _ _).active⟩

theorem publishStep_ok (h : LogOk z l m lay floor) (hf : FrameOk z l m floor p bytes n b)
    (hat : HoldsAt l.store.active.file l.store.active.sizeBytes bytes) (e : Env) : StepOk z o l m lay
      (layoutAfter lay l (.publish bytes n b) (flusherStep z o l p e (.publish bytes n b)).1) floor
      (flusherStep z o l p e (.publish bytes n b)) := by
  obtain ⟨hbatch, hcount, hframe⟩ := hf
  obtain ⟨hok, hindexed⟩ := publishFrame_ok (o := o) h.store h.indexed e hcount hframe hbatch.base.symm hat
  obtain ⟨hsealed, hactive⟩ := publishFrame_active (o := o) (l := l) e bytes n b
  set q := publishedPiece l.store bytes n b with hq
  set lay' := update lay l.store.active.baseOffset (lay l.store.active.baseOffset ++ [q]) with hlay'
  have hlen : (b.records.take n).length = n := by simp [hcount]
  have hpos : 0 < n := by
    have := length_pos_iff.mpr hframe.records_ne_nil
    omega
  have hstop := hbatch.stop
  have hbase := hbatch.base
  have hnew : (publishFrame o l e bytes n b).2.store.active.baseOffset = l.store.active.baseOffset := by
    rw [hactive]
  have hnext : (publishFrame o l e bytes n b).2.store.active.nextOffset = b.baseOffset + n := by
    rw [hactive]
  have hself : lay' l.store.active.baseOffset = lay l.store.active.baseOffset ++ [q] := update_self _ _ _
  have hmono : ∀ base, ∀ x ∈ lay base, x ∈ lay' base := fun base x hx =>
    mem_update_of hx fun heq => mem_append_left _ (heq ▸ hx)
  have hmem : ∀ base, ∀ x ∈ lay' base, x ∈ lay base ∨ x = q := by
    intro base x hx
    rcases mem_update_cases hx with ⟨rfl, hnew⟩ | hx
    · exact (mem_append.mp hnew).imp_right mem_singleton.mp
    · exact .inl hx
  have hlog : LogOk z (publishFrame o l e bytes n b).2 m lay' floor := by
    refine ⟨hok, fun hnone => ?_, ?_, fun seg hseg x hx => ?_, h.buffered, h.buffer, h.assigned,
      h.fits, ?_, ?_, ?_, fun x hx hlt => ?_, fun offset hfloor hlow hhigh => ?_⟩
    · rw [hnew] at hnone
      exact absurd hnone hindexed
    · rw [← h.oldest]
      exact oldestOffset_congr hsealed hnew
    · rcases hmem _ x hx with hold | rfl
      · rcases mem_segments.mp hseg with hin | rfl
        · exact h.pieces seg (mem_segments.mpr (.inl (hsealed ▸ hin))) x hold
        · rw [hnew] at hold
          exact h.pieces _ (active_mem l.store) x hold
      · exact hbatch.holds.take n
    · have hsnap := h.snapshot
      rw [hnext]
      change SnapshotOk m _ l.buffer (markFlushingWritten l.flushing (b.baseOffset + n))
      cases hflush : l.flushing with rw [hflush] at hsnap
      | none =>
        have : l.buffer.baseOffset = l.store.active.nextOffset := hsnap
        omega
      | some f =>
        obtain ⟨h1, h2, h3, h4, h5⟩ := hsnap
        exact ⟨by dsimp only; omega, by dsimp only; omega, by omega, h4, h5⟩
    · have := h.tail
      rw [hnext]
      change l.durableTail ≤ _
      omega
    · have := h.visible
      rw [hnext]
      change l.highWatermark ≤ _
      omega
    · rw [hnew, hself] at hx
      rw [hactive]
      rcases mem_append.mp hx with hx | hx
      · exact h.reached x hx hlt
      · rw [mem_singleton.mp hx]
        exact hat.end_le hframe.ne_nil
    · rw [hnext] at hhigh
      rw [hnew] at hlow ⊢
      by_cases hold : offset < l.store.active.nextOffset
      · obtain ⟨x, hx, hs⟩ := h.fresh offset hfloor hlow hold
        exact ⟨x, hmono _ x hx, hs⟩
      refine ⟨q, by rw [hself]; simp, rfl, ?_, ?_⟩
      · simp only [hq, publishedPiece]
        omega
      · simp only [hq, publishedPiece, Piece.next, hlen]
        omega
  have hlayout : layoutAfter lay l (.publish bytes n b)
      (flusherStep z o l p e (.publish bytes n b)).1 = lay' := layoutAfter_publish hok
  rw [hlayout]
  refine ⟨hlog, ⟨⟨q, ?_, ?_, rfl⟩, ?_⟩, ?_⟩
  · change q ∈ lay' (publishFrame o l e bytes n b).2.store.active.baseOffset
    rw [hnew, hself]
    simp
  · change (publishFrame o l e bytes n b).1 = q.entry (publishFrame o l e bytes n b).2.store.active.baseOffset
    rw [hnew]
    simp [publishFrame, Piece.entry, hq, publishedPiece, hlen]
  · refine ⟨hnext.symm, ?_, hbatch.holds.drop n, hbatch.targets⟩
    simp only [Batch.rest, length_drop]
    change _ = l.buffer.baseOffset
    omega
  · refine ⟨fun seg hseg => ?_, fun seg hseg => ?_, fun seg _ x hx _ => hmono _ x hx, le_rfl⟩
    · change seg ∈ (publishFrame o l e bytes n b).2.store.sealed
      rwa [hsealed]
    · rcases mem_segments.mp hseg with hin | rfl
      · refine ⟨seg, mem_segments.mpr (.inl ?_), rfl⟩
        change seg ∈ (publishFrame o l e bytes n b).2.store.sealed
        rwa [hsealed]
      · exact ⟨_, active_mem _, hnew⟩

theorem syncActive_logOk (h : LogOk z l m lay floor) :
    LogOk z { l with store := { l.store with active := l.store.active.sync } } m lay floor :=
  h.setActiveFile rfl rfl rfl (SameBelow.refl _ _) (.inr le_rfl)

theorem syncStep_ok (h : LogOk z l m lay floor) {force : Bool} (hk : AfterOk z l m floor p k) (e : Env) :
    StepOk z o l m lay lay floor (flusherStep z o l p e (.sync force k)) := by
  rw [flusherStep]
  split
  · exact ⟨h, phaseOk_resume hk, moves_refl _ _ _⟩
  split
  · exact ⟨h.congr rfl rfl rfl rfl rfl, by cases k with
                                        | batch b => exact phaseOk_failed
                                        | roll why => exact phaseOk_rollFailed why, .of_files rfl rfl le_rfl⟩
  · exact ⟨(syncActive_logOk h).congr rfl rfl rfl rfl rfl, hk.leaves (.of_eq rfl rfl), .of_files rfl rfl le_rfl⟩

/-- Releasing the snapshot up to the written tail. -/
theorem SnapshotOk.clear {next : ℕ} {b : Buffer} {f : Option Flushing} (h : SnapshotOk m next b f) :
    SnapshotOk m next b (clearFlushingThrough f next) := by
  unfold clearFlushingThrough
  cases f with
  | none => exact h
  | some f =>
    obtain ⟨h1, h2, h3, h4, h5⟩ := h
    dsimp only
    split
    · exact ⟨h1, h2, h3, h4, h5⟩
    split
    · exact (show b.baseOffset = next by omega)
    refine ⟨le_rfl, by dsimp only; omega, h3, ?_, ?_⟩
    · simp only [length_drop]
      omega
    · have hdrop := h5.drop (next - f.base)
      rwa [show f.base + (next - f.base) = next by omega] at hdrop

/-- A fresh segment has no pieces. -/
theorem layoutAfter_roll (hstore : l'.store = rollStore l.store) :
    layoutAfter lay l (.create why) l' = update lay l.store.active.nextOffset [] := by
  unfold layoutAfter
  rw [hstore]
  simp [rollStore, createSegment, trimPieces]

theorem StoreOk.base_lt_next (h : StoreOk z s lay)
    (hnew : findSegmentLocked s s.active.nextOffset = none) : s.active.baseOffset < s.active.nextOffset := by
  refine lt_of_le_of_ne (h.base_le_next (active_mem s)) fun heq => ?_
  rw [← heq, h.findSegmentLocked_eq (active_mem s)] at hnew
  cases hnew

theorem createStep_ok (h : LogOk z l m lay floor) (hw : RollOk z l m floor p why) (e : Env) :
    StepOk z o l m lay (layoutAfter lay l (.create why) (flusherStep z o l p e (.create why)).1) floor
      (flusherStep z o l p e (.create why)) := by
  rw [flusherStep]
  split
  · rw [layoutAfter_eq h.store (by simp)]
    exact ⟨h, phaseOk_rollFailed why, moves_refl _ _ _⟩
  next hnew =>
    simp only [Bool.or_eq_true, not_or, Bool.not_eq_true, isSome_eq_false_iff, isNone_iff_eq_none] at hnew
    have hne := h.store.base_lt_next hnew.2
    obtain ⟨hok, hindexed⟩ := rollStore_ok h.store hne
    have hold : ∀ seg ∈ l.store.segments, update lay l.store.active.nextOffset []
        seg.baseOffset = lay seg.baseOffset :=
      fun seg hseg => update_of_ne (h.store.base_ne_next hne hseg) _ _
    have hsegs := rollStore_segments l.store
    rw [layoutAfter_roll rfl]
    refine ⟨⟨hok, hindexed, ?_, fun seg hseg x hx => ?_, h.buffered, h.buffer, h.assigned, h.fits,
      h.snapshot, h.tail, h.visible, fun x hx => ?_, fun offset _ hlow hhigh => ?_⟩, ?_, ?_⟩
    · rw [← h.oldest]
      simp only [oldestOffset, hsegs]
      cases hs : l.store.segments with
      | nil =>
        have := active_mem l.store
        rw [hs] at this
        exact absurd this (by simp)
      | cons a rest => rfl
    · rw [hsegs] at hseg
      rcases mem_append.mp hseg with hin | hin
      · rw [hold seg hin] at hx
        exact h.pieces seg hin x hx
      · rw [mem_singleton.mp hin] at hx
        simp [createSegment] at hx
    · simp [rollStore, createSegment] at hx
    · simp only [rollStore, createSegment] at hlow hhigh
      omega
    · cases why with
      | frame bytes n b => exact FrameOk.leaves hw (.of_eq rfl rfl)
      | rotate => trivial
      | pending => trivial
    · refine ⟨fun seg hseg => mem_append_left _ hseg, fun seg hseg => ⟨seg, ?_, rfl⟩,
        fun seg hseg x hx _ => by rwa [hold seg hseg], le_rfl⟩
      rw [hsegs]
      exact mem_append_left _ hseg

theorem navStep_ok (h : LogOk z l m lay floor) {entry : IndexEntry}
    (hp : PublishedOk l m lay floor p entry n b) (e : Env) :
    StepOk z o l m lay lay floor (flusherStep z o l p e (.nav entry n b)) := by
  obtain ⟨⟨q, hq, hentry, hrecs⟩, hrest⟩ := hp
  have hread : ReadOnly z l.store { l.store with navCache := navPut l.store.navCache entry } lay := by
    refine .of_index_eq (h.store.withNav fun x hx => ?_) rfl rfl rfl
    rcases mem_navPut hx with rfl | hold
    · exact .inr ⟨q, l.store.active, active_mem l.store, hq, hentry⟩
    · exact .inl hold
  rw [flusherStep]
  refine ⟨h.withStore hread, ?_, .of_files rfl rfl le_rfl⟩
  split
  · exact ⟨⟨q, hq, hentry, hrecs⟩, hrest.leaves (.of_eq rfl rfl)⟩
  · exact hrest.leaves (.of_eq rfl rfl)

theorem cacheStep_ok (h : LogOk z l m lay floor) {entry : IndexEntry}
    (hp : PublishedOk l m lay floor p entry n b) (e : Env) :
    StepOk z o l m lay lay floor (flusherStep z o l p e (.cache entry n b)) := by
  obtain ⟨⟨q, hq, rfl, hrecs⟩, hrest⟩ := hp
  rw [flusherStep]
  split
  · exact ⟨h, hrest, moves_refl _ _ _⟩
  have hread : ReadOnly z l.store { l.store with
      frameCache := framePutSized l.store.frameCache (q.entry l.store.active.baseOffset).key
        (b.records.take n) ((b.records.take n).map length).sum } lay := by
    refine .of_index_eq (h.store.withFrames fun f hf => ?_) rfl rfl rfl
    rcases mem_framePutSized hf with hold | ⟨hkey, hf⟩
    · exact .inl hold
    · exact .inr ⟨l.store.active, active_mem l.store, q, hq, hkey, hf.trans hrecs.symm⟩
  exact ⟨h.withStore hread, hrest.leaves (.of_eq rfl rfl), .of_files rfl rfl le_rfl⟩

/-- A section of the read-back changes what is remembered, and goes on, fails or ends. -/
theorem verifyStep_cases (o : Options) (l : Log) (p : Pass) (e : Env) (offset : ℕ) (lookup : Lookup) :
    ∃ phase, verifyStep o l p e offset lookup = ({ l with store := (lookupStep o l.store offset lookup).2 }, phase) ∧
      ((∃ next, (lookupStep o l.store offset lookup).1 = .continue_ next ∧ phase = .verify offset next) ∨
        phase = failed l p ∨ (∃ offset', phase = .verify offset' .probe) ∨ phase = .advance) := by
  unfold verifyStep
  rcases lookupStep o l.store offset lookup with ⟨res, s1⟩
  cases res with
  | continue_ next => exact ⟨_, rfl, .inl ⟨next, rfl, rfl⟩⟩
  | missing => exact ⟨_, rfl, .inr (.inl rfl)⟩
  | found entry idx =>
    dsimp only
    cases findSegmentLocked s1 entry.segmentBaseOffset with
    | none => exact ⟨_, rfl, .inr (.inl rfl)⟩
    | some seg =>
      dsimp only
      split
      · exact ⟨_, rfl, .inr (.inl rfl)⟩
      split
      · exact ⟨_, rfl, .inr (.inl rfl)⟩
      split
      · exact ⟨_, rfl, .inr (.inl rfl)⟩
      split
      · exact ⟨_, rfl, .inr (.inr (.inl ⟨_, rfl⟩))⟩
      · exact ⟨_, rfl, .inr (.inr (.inr rfl))⟩

theorem verifyStep_ok (h : LogOk z l m lay floor) {offset : ℕ} {lookup : Lookup}
    (hl : LookupOk o l.store lookup) (ht : p.Targets floor l.store.active.nextOffset) (e : Env) :
    StepOk z o l m lay lay floor (flusherStep z o l p e (.verify offset lookup)) := by
  have hread := lookupStep_readOnly h.store offset hl
  have ht' : p.Targets floor (lookupStep o l.store offset lookup).2.active.nextOffset := hread.active ▸ ht
  obtain ⟨phase, hstep, hphase⟩ := verifyStep_cases o l p e offset lookup
  rw [flusherStep, hstep]
  refine ⟨h.withStore hread, ?_, hread.moves l.highWatermark⟩
  rcases hphase with ⟨next, hnext, rfl⟩ | rfl | ⟨offset', rfl⟩ | rfl
  · exact ⟨(lookupStep_spec (o := offset) h.store hl).next next hnext, ht'⟩
  · exact phaseOk_failed
  · exact ⟨trivial, ht'⟩
  · exact ht'

/-- Emptying the high watermark file touches nothing else the invariant is about. -/
theorem releaseHighWatermarkFile_same (l : Log) (outcome : HwmOutcome) :
    (releaseHighWatermarkFile l outcome).2.store = l.store ∧ (releaseHighWatermarkFile l outcome).2.buffer = l.buffer ∧
      (releaseHighWatermarkFile l outcome).2.flushing = l.flushing ∧
      (releaseHighWatermarkFile l outcome).2.durableTail = l.durableTail ∧
      (releaseHighWatermarkFile l outcome).2.highWatermark = l.highWatermark := by
  cases outcome <;> exact ⟨rfl, rfl, rfl, rfl, rfl⟩

theorem persistClosedHighWatermark_same (l : Log) (outcome : HwmOutcome) :
    (persistClosedHighWatermark l outcome).2.store = l.store ∧
      (persistClosedHighWatermark l outcome).2.buffer = l.buffer ∧
      (persistClosedHighWatermark l outcome).2.flushing = l.flushing ∧
      (persistClosedHighWatermark l outcome).2.durableTail = l.durableTail ∧
      (persistClosedHighWatermark l outcome).2.highWatermark = l.highWatermark := by
  unfold persistClosedHighWatermark
  split
  · exact ⟨rfl, rfl, rfl, rfl, rfl⟩
  cases outcome with
  | dirSyncFails =>
    dsimp only
    split <;> exact ⟨rfl, rfl, rfl, rfl, rfl⟩
  | _ => exact ⟨rfl, rfl, rfl, rfl, rfl⟩

variable {hwm : ℕ}

section

variable (h : LogOk z l m lay floor)
include h

section

variable (hlow : floor < hwm) (hhigh : hwm ≤ l.store.active.nextOffset)
include hlow hhigh

/-- What was appended since the last discard is on disk once written, so the file reaches it. -/
theorem LogOk.reached_of_fresh {x : Piece}
    (hx : x ∈ lay l.store.active.baseOffset) (hlt : x.base < hwm) : x.stop ≤ l.store.active.file.length := by
  have hlaid := h.activeLaid
  have hb := hlaid.chain.bounds hx
  obtain ⟨q, hq, hs⟩ := h.fresh (hwm - 1) (by omega) (by omega) (by omega)
  have hq1 := hs.2.1
  have hq2 := hs.2.2
  have hqlen := hlaid.stop_le_length hq hs.1
  obtain ⟨a, b, hab⟩ := append_of_mem hq
  rw [hab] at hx hlaid
  rcases mem_append.mp hx with hxa | hxb
  · have h1 := hlaid.chain.before hxa
    have h2 := hlaid.pos_lt_stop (p := q) (by simp)
    omega
  rcases mem_cons.mp hxb with rfl | hxb
  · exact hqlen
  · have := hlaid.chain.after hxb
    omega

theorem LogOk.advance : LogOk z { l with highWatermark := hwm } m lay floor :=
  { h with visible := hhigh, reached := fun _ hx hlt => h.reached_of_fresh hlow hhigh hx hlt }

theorem advanceHighWatermark_ok (outcome : HwmOutcome) : LogOk z (advanceHighWatermark l hwm outcome).2 m lay floor ∧
      (advanceHighWatermark l hwm outcome).2.store = l.store ∧
      l.highWatermark ≤ (advanceHighWatermark l hwm outcome).2.highWatermark := by
  unfold advanceHighWatermark
  split
  · exact ⟨h, rfl, le_rfl⟩
  obtain ⟨h1, h2, h3, h4, h5⟩ := releaseHighWatermarkFile_same l outcome
  have hrel := h.congr h1 h2 h3 h4 h5
  by_cases hr : l.hwmReleased = true
  · rw [if_pos hr]
    dsimp only
    rw [if_pos rfl]
    exact ⟨h.advance hlow hhigh, rfl, by dsimp only; omega⟩
  rw [if_neg hr]
  rcases hrelease : releaseHighWatermarkFile l outcome with ⟨ok, l1⟩
  rw [hrelease] at h1 h5 hrel
  dsimp only at h1 h5 hrel ⊢
  split
  · exact ⟨hrel.advance hlow (h1 ▸ hhigh), h1, by dsimp only; omega⟩
  · exact ⟨hrel, h1, h5.ge⟩

end

theorem advanceStep_ok (ht : p.Targets floor l.store.active.nextOffset)
    (e : Env) : StepOk z o l m lay lay floor (flusherStep z o l p e .advance) := by
  rw [flusherStep]
  cases hhwm : p.commit.bind CommitRequest.hwm with
  | none => exact ⟨h, phaseOk_advanced, moves_refl _ _ _⟩
  | some hwm =>
    obtain ⟨hlow, hhigh⟩ := ht hwm hhwm
    obtain ⟨hlog, hstore, hle⟩ := advanceHighWatermark_ok h hlow hhigh e.hwm
    refine ⟨hlog, ?_, .of_files (hstore ▸ rfl) (hstore ▸ rfl) hle⟩
    dsimp only
    split
    · exact phaseOk_advanced
    · exact phaseOk_failed

end

/-- What truncating the tail leaves: the store is good for the trimmed layout, nothing below the
high watermark is gone, and the offsets end at the cut. -/
structure Truncated (z : Zstd) (l : Log) (lay : ℕ → List Piece) (cut : ℕ) (s : Store)
    (lay' : ℕ → List Piece) : Prop where
  store : StoreOk z s lay'
  indexed : ActiveIndexed s lay'
  sealed : s.sealed = l.store.sealed
  base : s.active.baseOffset = l.store.active.baseOffset
  next : s.active.nextOffset = cut
  cut_le : cut ≤ l.store.active.nextOffset
  hwm_le : l.highWatermark ≤ cut
  old : ∀ base, ∀ x ∈ lay' base, ∃ y ∈ lay base, y.base = x.base ∧ y.records = x.records
  kept : ∀ base, ∀ x ∈ lay base, x.base < l.highWatermark → x ∈ lay' base
  reached : ∀ x ∈ lay' l.store.active.baseOffset, x.base < l.highWatermark → x.stop ≤ s.active.file.length

section

variable (h : LogOk z l m lay floor)
include h

theorem truncated_none : Truncated z l lay l.store.active.nextOffset l.store lay :=
  ⟨h.store, h.indexed, rfl, rfl, rfl, le_rfl, h.visible, fun _ x hx => ⟨x, hx, rfl, rfl⟩,
    fun _ _ hx _ => hx, h.reached⟩

theorem truncated_cut {a b : List Piece} {boundary pos : ℕ} (hab : lay l.store.active.baseOffset = a ++ b)
    (hr : BoundaryAt l.store.active l.highWatermark 0 l.store.active.baseOffset (boundary, pos) a b) :
    Truncated z l lay boundary (cutActive l.store boundary pos) (update lay l.store.active.baseOffset a) := by
  obtain ⟨hok, hindexed⟩ := cutActive_ok h.store hab hr.chain
  obtain ⟨hsealed, hactive⟩ := cutActive_segments l.store boundary pos
  refine ⟨hok, hindexed h.indexed, hsealed, hactive ▸ rfl, hactive ▸ rfl, hr.le,
    hr.ge h.visible, fun base x hx => ?_, fun base x hx hlt => ?_, fun x hx _ => ?_⟩
  · rcases mem_update_cases hx with ⟨rfl, hxa⟩ | hx
    · exact ⟨x, hab ▸ mem_append_left b hxa, rfl, rfl⟩
    · exact ⟨x, hx, rfl, rfl⟩
  · refine mem_update_of hx fun hbase => ?_
    rw [hbase, hab] at hx
    rcases mem_append.mp hx with hxa | hxb
    · exact hxa
    · have := hr.above x hxb
      omega
  · rw [update_self] at hx
    rw [hactive]
    simp only [Segment.cut, Segment.truncate, resize_length]
    exact (hr.chain.bounds hx).2.1

theorem truncated_fileOnly {a b : List Piece} {boundary pos : ℕ} (hab : lay l.store.active.baseOffset = a ++ b)
    (hr : BoundaryAt l.store.active l.highWatermark 0 l.store.active.baseOffset (boundary, pos) a b) :
    Truncated z l lay l.store.active.nextOffset (cutFileOnly l.store pos)
      (update lay l.store.active.baseOffset (a ++ b.map Piece.lose)) := by
  obtain ⟨hok, hindexed⟩ := cutFileOnly_ok h.store hab hr.chain
  refine ⟨hok, hindexed h.indexed, rfl, rfl, rfl, le_rfl, h.visible, fun base x hx => ?_,
    fun base x hx hlt => ?_, fun x hx hlt => ?_⟩
  · rcases mem_update_cases hx with ⟨rfl, hnew⟩ | hx
    · rw [hab]
      rcases mem_append.mp hnew with hxa | hxb
      · exact ⟨x, mem_append_left b hxa, rfl, rfl⟩
      · obtain ⟨y, hy, rfl⟩ := mem_map.mp hxb
        exact ⟨y, mem_append_right a hy, rfl, rfl⟩
    · exact ⟨x, hx, rfl, rfl⟩
  · refine mem_update_of hx fun hbase => ?_
    rw [hbase, hab] at hx
    rcases mem_append.mp hx with hxa | hxb
    · exact mem_append_left _ hxa
    · have := hr.above x hxb
      omega
  · rw [update_self] at hx
    simp only [cutFileOnly, resize_length]
    rcases mem_append.mp hx with hxa | hxb
    · exact (hr.chain.bounds hxa).2.1
    obtain ⟨y, hy, rfl⟩ := mem_map.mp hxb
    have := hr.above y hy
    simp only [Piece.lose] at hlt
    omega

/-- Every way truncating the tail can end. -/
theorem truncateTail_spec (outcome : TruncateOutcome) :
    Truncated z l lay ((truncateTail l outcome).1.getD l.store.active.nextOffset) (truncateTail l outcome).2
      (update lay (truncateTail l outcome).2.active.baseOffset (trimPieces (truncateTail l outcome).2.active
          (lay (truncateTail l outcome).2.active.baseOffset))) := by
  have hnone : Truncated z l lay l.store.active.nextOffset l.store (update lay l.store.active.baseOffset
        (trimPieces l.store.active (lay l.store.active.baseOffset))) := by
    rw [update_trimPieces_eq h.store]
    exact truncated_none h
  unfold truncateTail
  split
  · obtain ⟨a, b, hab, hr⟩ := frameBoundaryAtOrAboveLocked_spec h.store (active_mem l.store) h.reached
    rcases hbound : frameBoundaryAtOrAboveLocked l.store l.store.active l.highWatermark with
      ⟨boundary, pos⟩
    rw [hbound] at hr
    have hlaid := h.activeLaid
    rw [hab] at hlaid
    dsimp only
    split
    · cases outcome with
      | ok =>
        have hcut := truncated_cut h hab hr
        dsimp only [getD_some]
        rw [hcut.base, hab, (cutActive_segments _ _ _).2, trimPieces_cut hlaid hr.chain rfl rfl]
        exact hcut
      | unchanged => exact hnone
      | unsynced =>
        dsimp only [getD_none]
        rw [show (cutFileOnly l.store pos).active.baseOffset = l.store.active.baseOffset from rfl, hab,
          trimPieces_cutFile (cutFileOnly l.store pos).active hlaid hr.chain rfl rfl]
        exact truncated_fileOnly h hab hr
    · exact hnone
  · exact hnone

end

variable {lay' : ℕ → List Piece}

/-- A log that continues at the cut. -/
theorem Truncated.logOk {cut : ℕ}
    (ht : Truncated z l lay cut s lay') (h : LogOk z l m lay floor) (hstore : l'.store = s)
    (hbuffer : l'.buffer = ⟨[], cut, cut⟩) (hflushing : l'.flushing = none)
    (htail : l'.durableTail ≤ cut) (hhwm : l'.highWatermark = l.highWatermark) : LogOk z l' m lay' cut := by
  have hnext := h.next_le_buffer
  have hcut := ht.cut_le
  subst hstore
  refine ⟨ht.store, ht.indexed, ?_, fun seg hseg x hx => ?_, hbuffer ▸ rfl,
    hbuffer ▸ .nil _ _, ?_, ?_, ?_, by rw [ht.next]; exact htail,
    by rw [ht.next, hhwm]; exact ht.hwm_le, ?_, fun offset hlow _ hhigh => ?_⟩
  · rw [← h.oldest]
    exact oldestOffset_congr ht.sealed ht.base
  · obtain ⟨y, hy, hbase, hrecs⟩ := ht.old _ x hx
    rw [← hbase, ← hrecs]
    rcases mem_segments.mp hseg with hin | rfl
    · exact h.pieces seg (mem_segments.mpr (.inl (ht.sealed ▸ hin))) y hy
    · rw [ht.base] at hy
      exact h.pieces _ (active_mem l.store) y hy
  · rw [hbuffer]
    exact (hcut.trans hnext).trans h.assigned
  · rw [hbuffer]
    exact lt_of_le_of_lt (hcut.trans hnext) h.fits
  · rw [hflushing, hbuffer, ht.next]
    rfl
  · rw [ht.base, hhwm]
    exact ht.reached
  · rw [ht.next] at hhigh
    omega

theorem Truncated.moves {cut : ℕ} (ht : Truncated z l lay cut s lay') :
    Moves l.store lay l.highWatermark s lay' l.highWatermark := by
  refine ⟨fun seg hseg => ht.sealed ▸ hseg, fun seg hseg => ?_, fun seg _ x hx hlt => ht.kept _ x hx hlt, le_rfl⟩
  rcases mem_segments.mp hseg with hin | rfl
  · exact ⟨seg, mem_segments.mpr (.inl (ht.sealed ▸ hin)), rfl⟩
  · exact ⟨s.active, active_mem s, ht.base⟩

theorem discardStep_ok (h : LogOk z l m lay floor) (truncateDisk : Bool) (e : Env) : StepOk z o l m lay
      (layoutAfter lay l (.discard truncateDisk) (flusherStep z o l p e (.discard truncateDisk)).1)
      (floorAfter floor (.discard truncateDisk) (flusherStep z o l p e (.discard truncateDisk)).1)
      (flusherStep z o l p e (.discard truncateDisk)) := by
  have hspec : Truncated z l lay ((if truncateDisk then truncateTail l e.truncate else (none, l.store)).1.getD
        l.store.active.nextOffset)
      (if truncateDisk then truncateTail l e.truncate else (none, l.store)).2
      (layoutAfter lay l (.discard truncateDisk)
        (flusherStep z o l p e (.discard truncateDisk)).1) := by
    cases truncateDisk with
    | true => exact truncateTail_spec h e.truncate
    | false =>
      have hsame : layoutAfter lay l (.discard false) (flusherStep z o l p e (.discard false)).1 = lay :=
        layoutAfter_eq (z := z) h.store (by simp)
      rw [hsame]
      exact truncated_none h
  have htail (clean : Bool) (tail cut : ℕ) : (if clean then cut else min tail cut) ≤ cut := by
    split
    · exact le_rfl
    · exact min_le_right _ _
  exact ⟨hspec.logOk h rfl rfl rfl (htail _ _ _) rfl, trivial, hspec.moves⟩

/-- The steps that leave the layout alone. -/
theorem flusherStep_same (h : LogOk z l m lay floor) (hp : PhaseOk z o l m lay floor p phase) (e : Env)
    (hpublish : ∀ bytes n b, phase ≠ .publish bytes n b) (hcreate : ∀ why, phase ≠ .create why)
    (hdiscard : ∀ t, phase ≠ .discard t) : StepOk z o l m lay lay floor (flusherStep z o l p e phase) := by
  cases phase with
  | begin forceDrain => exact beginPass_ok h hp e
  | frame b => exact ⟨h, frameStep_ok h hp e, moves_refl _ _ _⟩
  | sync force k => exact syncStep_ok h hp e
  | durable k => exact ⟨{ h with tail := le_rfl }, hp.leaves (.of_eq rfl rfl), .of_files rfl rfl le_rfl⟩
  | clear k =>
    exact ⟨{ h with snapshot := h.snapshot.clear }, phaseOk_resume (hp.leaves (.of_eq rfl rfl)), .of_files rfl rfl le_rfl⟩
  | create why => exact absurd rfl (hcreate why)
  | write bytes n b => exact writeStep_ok h hp e
  | publish bytes n b => exact absurd rfl (hpublish bytes n b)
  | nav entry n b => exact navStep_ok h hp e
  | cache entry n b => exact cacheStep_ok h hp e
  | verify offset lookup => exact verifyStep_ok h hp.1 hp.2 e
  | advance => exact advanceStep_ok h hp e
  | rotate =>
    rw [flusherStep]
    split <;> exact ⟨h, trivial, moves_refl _ _ _⟩
  | rollPending | reply =>
    refine ⟨h, ?_, moves_refl _ _ _⟩
    rw [flusherStep]
    split <;> trivial
  | discard truncateDisk => exact absurd rfl (hdiscard truncateDisk)
  | persist =>
    obtain ⟨h1, h2, h3, h4, h5⟩ := persistClosedHighWatermark_same l e.hwm
    exact ⟨h.congr h1 h2 h3 h4 h5, trivial, .of_files (by rw [flusherStep, h1]) (by rw [flusherStep, h1]) h5.ge⟩
  | shut =>
    rw [flusherStep]
    split
    · exact ⟨h, trivial, moves_refl _ _ _⟩
    · exact ⟨syncActive_logOk h, trivial, .of_files rfl rfl le_rfl⟩
  | stopped => exact ⟨h, trivial, moves_refl _ _ _⟩

/-- Every step of the flusher keeps the log's invariant and what it holds between steps. -/
theorem flusherStep_ok (h : LogOk z l m lay floor) (hp : PhaseOk z o l m lay floor p phase) (e : Env) :
    StepOk z o l m lay (layoutAfter lay l phase (flusherStep z o l p e phase).1)
      (floorAfter floor phase (flusherStep z o l p e phase).1) (flusherStep z o l p e phase) := by
  have hsame (hpublish : ∀ bytes n b, phase ≠ .publish bytes n b)
      (hcreate : ∀ why, phase ≠ .create why) (hdiscard : ∀ t, phase ≠ .discard t) :
      StepOk z o l m lay (layoutAfter lay l phase (flusherStep z o l p e phase).1)
        (floorAfter floor phase (flusherStep z o l p e phase).1) (flusherStep z o l p e phase) := by
    have hstep := flusherStep_same h hp e hpublish hcreate hdiscard
    rw [layoutAfter_eq hstep.log.store hpublish]
    cases phase with
    | discard t => exact absurd rfl (hdiscard t)
    | _ => exact hstep
  cases phase with
  | create why => exact createStep_ok h hp e
  | publish bytes n b => exact publishStep_ok h hp.1 hp.2 e
  | discard truncateDisk => exact discardStep_ok h truncateDisk e
  | _ => exact hsame (by simp) (by simp) (by simp)

end Narad.Storage
