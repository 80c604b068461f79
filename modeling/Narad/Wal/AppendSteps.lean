import Narad.Wal.LogInvariant

/-!
# Appends, inline syncs and rolls keep the invariant

The steps of the goroutine that holds the append lock: staging, withdrawing a failed batch, the write
and sync in front of a roll, and the roll. A roll that fails must take its new file away again.
-/

namespace Narad.Wal

open Lib List Option Log

variable {s : Log} {pieces : List (Segment × ℕ)} {act : Segment} {fresh : List Segment} {lost : Bytes} {f : Flight}

variable {staged : List Bytes}

theorem framesOf_split {a n : ℕ} (ha : a ≤ n) (hn : n ≤ staged.length) :
    framesOf a (staged.drop a) = framesOf a (span staged a n) ++ framesOf n (staged.drop n) := by
  rw [← span_length_self, ← span_append ha hn hn, framesOf_append, span_length, min_eq_left hn,
    Nat.add_sub_cancel' ha, span_length_self]

variable {s' : Log} {batch : Option ℕ}

theorem Covers.take {limit n : ℕ} (h : Covers s batch limit)
    (hstaged : s'.staged = s.staged.take n) (hbase : s'.segmentBase = s.segmentBase)
    (hwaiting : s'.waiting = s.waiting) (hlt : ∀ w ∈ s.waiting, ∀ r ∈ w.2, r.seq < n) : Covers s' batch limit := by
  intro w hw hb r hr
  rw [hwaiting] at hw
  rw [hstaged, hbase]
  exact (h w hw hb r hr).take (hlt w hw r hr)

/-- A flight that sees the same files only depends on the callers that wait on it. -/
theorem FlightOk.covers (h : FlightOk s act f) (hbase : s'.segmentBase = s.segmentBase)
    (hfailed : s'.writeFailed = s.writeFailed)
    (hcovers : ∀ {limit}, Covers s f.batch limit → Covers s' f.batch limit) : FlightOk s' act f := by
  obtain ⟨batch, base, stop, stage⟩ := f
  cases stage with
  | writing => exact ⟨hbase ▸ h.1, hcovers h.2.1, hfailed ▸ h.2.2⟩
  | syncing => exact ⟨hbase ▸ h.1, hcovers h.2.1, hfailed ▸ h.2.2.1, h.2.2.2⟩
  | ended ok =>
    cases ok with
    | true => exact ⟨hbase ▸ h.1, hcovers h.2.1, hbase ▸ h.2.2⟩
    | false => exact hfailed.trans h

/-- The compaction keeps its bound, however far the staged records reach. -/
theorem CompactionOk.bounded {c : Compaction} (h : CompactionOk s pieces c)
    (hcompacted : s'.compacted = s.compacted) (hbase : s'.segmentBase = s.segmentBase)
    (hbound : c.bound ≤ s'.nextSeq) : CompactionOk s' pieces c := by
  cases c with
  | idle | rotating => trivial
  | rotated seq => exact ⟨hcompacted ▸ h.1, hbound⟩
  | listing seq active floor => exact ⟨hcompacted ▸ h.1, hbound, hbase ▸ h.2.2⟩
  | removing doomed floor newFloor => exact ⟨hbase ▸ h.1, hcompacted ▸ h.2⟩

variable {m : Mark}

theorem Core.withdraw (h : Core s pieces act fresh lost) (hm : MarkOk s m) :
    Core (s.withdraw m) pieces act fresh lost := by
  have hlen : (s.staged.take m.nextSeq).length = m.nextSeq := by
    rw [length_take, min_eq_left hm.next_le]
  have hframes : act.file ++ (lost ++ s.writeBuffer.take m.buffered) =
      framesOf s.segmentBase ((s.staged.take m.nextSeq).drop s.segmentBase) := by
    have hall := h.file.frames
    rw [framesOf_split hm.base_le hm.next_le, ← hm.tail,
      ← take_append_drop m.buffered s.writeBuffer, ← append_assoc lost,
      ← append_assoc act.file, take_append_drop] at hall
    exact append_cancel_right hall
  refine { h with
    layout := h.layout.congr fun g stop hstop hg => hg.take (le_trans hstop hm.base_le)
    next := hlen.symm
    base_le := ?_
    fit := h.fit.take _
    size := ?_
    file := { h.file with frames := hframes }
    batches := ?_
    flight := fun f hf => (h.flight f hf).covers rfl rfl fun hc => hc.take rfl rfl rfl hm.waiting
    acked := fun r hr => ⟨(h.acked r hr).1.take (hm.acked r hr), (h.acked r hr).2.take (hm.acked r hr)⟩
    read := fun q hq => (h.read q hq).take (hm.read q hq)
    bases := fun b hb => (h.bases b hb).take (hm.bases b hb)
    compaction := h.compaction.bounded rfl rfl hm.compaction }
  · change s.segmentBase ≤ (s.staged.take m.nextSeq).length
    rw [hlen]
    exact hm.base_le
  · change m.segmentSize = reach (s.staged.take m.nextSeq) s.segmentBase (s.staged.take m.nextSeq).length
    rw [hlen, reach_take le_rfl]
    exact hm.size
  · refine ⟨fun w hw => ⟨(h.batches.waiting w hw).1, fun r hr => ?_⟩, fun b hb => ?_, fun f hf b hb => ?_⟩
    · exact ((h.batches.waiting w hw).2 r hr).take (hm.waiting w hw r hr)
    · rcases hm.pending with hnone | hsame
      · exact absurd (hnone.symm.trans hb) (by simp)
      · exact h.batches.pending b (hsame.symm.trans hb)
    · obtain ⟨hlt, hne⟩ := h.batches.detached f hf b hb
      refine ⟨hlt, fun hp => ?_⟩
      rcases hm.pending with hnone | hsame
      · exact absurd (hnone.symm.trans hp) (by simp)
      · exact hne (hsame.symm.trans hp)

/-- The holder moves on without touching the file. -/
theorem Core.setHolder (h : Core s pieces act fresh lost) {k : Holder}
    (hidle : s.writeFailed = false → k.rest = s.holder.rest ∧ (k.holdsFile = false → s.holder.holdsFile = false)) :
    Core { s with holder := k } pieces act fresh lost :=
  { h with
    file := { h.file with
      healthy := fun hok => by rw [(hidle hok).1]; exact h.file.healthy hok
      synced_eq := fun hok hflight hk => h.file.synced_eq hok hflight ((hidle hok).2 hk) }
    batches := { h.batches with }
    flight := h.flight }

/-- The append lock is released. -/
theorem Core.release (h : Core s pieces act [] lost)
    (hidle : s.writeFailed = false → s.holder.rest = [] ∧ s.holder.holdsFile = false) :
    Inv { s with holder := .free } pieces act [] lost where
  toCore := h.setHolder fun hok => ⟨(hidle hok).1.symm, fun _ => (hidle hok).2⟩
  holder := rfl

variable {k : After}

theorem Core.giveUp (h : Core s pieces act [] lost)
    (hidle : s.writeFailed = false → s.holder.rest = [] ∧ s.holder.holdsFile = false)
    (hmark : MarkedOk s k) : Inv (s.giveUp k) pieces act [] lost := by
  cases k with
  | append c =>
    rw [giveUp]
    split
    · exact (h.withdraw hmark).release hidle
    · exact h.release hidle
  | compact seq =>
    have hcore : Core { s with compaction := .idle } pieces act [] lost := { h with
      file := { h.file with }
      batches := { h.batches with }
      flight := h.flight
      compaction := trivial }
    exact hcore.release hidle

section

variable (h : Core s pieces act fresh lost)
include h

theorem Core.bound_le : s.compaction.bound ≤ s.nextSeq := by
  have hok := h.compaction
  cases hc : s.compaction with
  | rotated seq => rw [hc] at hok; exact hok.2
  | listing seq active floor => rw [hc] at hok; exact hok.2.1
  | _ => exact Nat.zero_le _

theorem Core.mark : MarkOk s s.mark where
  buffered_le := le_rfl
  base_le := by
    change s.segmentBase ≤ s.nextSeq
    rw [h.next]
    exact h.base_le
  next_le := h.next.le
  tail := by
    change s.writeBuffer.drop s.writeBuffer.length = framesOf s.nextSeq (s.staged.drop s.nextSeq)
    rw [drop_length, h.next, drop_length]
    rfl
  size := by
    change s.segmentSize = reach s.staged s.segmentBase s.nextSeq
    rw [h.size, h.next]
  pending := .inr rfl
  waiting w hw r hr := by
    change r.seq < s.nextSeq
    rw [h.next]
    exact ((h.batches.waiting w hw).2 r hr).lt
  acked r hr := by
    change r.seq < s.nextSeq
    rw [h.next]
    exact (h.acked r hr).1.lt
  read q hq := by
    change q + 1 ≤ s.nextSeq
    rw [h.next]
    exact (h.read q hq).le_length h.base_le
  bases b hb := by
    change b ≤ s.nextSeq
    rw [h.next]
    exact (h.bases b hb).le_length h.base_le
  compaction := h.bound_le

theorem Core.markAfter (k : After) : MarkedOk s (s.markAfter k) := by
  cases k with
  | append c => exact h.mark
  | compact seq => trivial

end

theorem AfterOk.markAfter (h : AfterOk s k) : AfterOk s (s.markAfter k) := by
  cases k with
  | append c => exact ⟨h.sizes, h.taken⟩
  | compact seq => exact h

theorem MarkedOk.imp (h : MarkedOk s k) (hmark : ∀ m, MarkOk s m → MarkOk s' m) : MarkedOk s' k := by
  cases k with
  | append c => exact hmark _ h
  | compact seq => trivial

theorem AfterOk.congr (h : AfterOk s k) (hopts : s'.opts = s.opts) (hstaged : s'.staged = s.staged)
    (hcompacted : s'.compacted = s.compacted) (hnext : s'.nextSeq = s.nextSeq) : AfterOk s' k := by
  cases k with
  | append c => exact ⟨hopts ▸ h.sizes, hstaged ▸ h.taken⟩
  | compact seq => exact ⟨hcompacted ▸ h.1, hnext ▸ h.2⟩

theorem Covers.subset {limit : ℕ} (h : Covers s batch limit)
    (hstaged : s'.staged = s.staged) (hbase : s'.segmentBase = s.segmentBase)
    (hwaiting : ∀ w ∈ s'.waiting, w ∈ s.waiting) : Covers s' batch limit := by
  intro w hw hb r hr
  rw [hstaged, hbase]
  exact h w (hwaiting w hw) hb r hr

theorem Core.completeBatch (h : Core s pieces act fresh lost) (batch : Option ℕ) (ok : Bool)
    (hcovers : ok = true → Covers s batch act.synced) : Core (s.completeBatch batch ok) pieces act fresh lost := by
  cases batch with
  | none => exact h
  | some b =>
    have hsub : ∀ w ∈ s.waiting.filter fun w => w.1 ≠ b, w ∈ s.waiting := fun w hw => (mem_filter.mp hw).1
    refine { h with
      file := { h.file with }
      batches := { h.batches with waiting := fun w hw => h.batches.waiting w (hsub w hw) }
      flight := fun f hf => (h.flight f hf).covers rfl rfl fun hc => hc.subset rfl rfl hsub
      acked := ?_ }
    intro r hr
    cases ok with
    | false => exact h.acked r hr
    | true =>
      rcases mem_append.mp hr with hr | hr
      · exact h.acked r hr
      obtain ⟨w, hw, hrw⟩ := mem_flatMap.mp hr
      obtain ⟨hmem, hbatch⟩ := mem_filter.mp hw
      refine ⟨(h.batches.waiting w hmem).2 r hrw, hcovers rfl w hmem ?_ r hrw⟩
      rw [of_decide_eq_true hbatch]

theorem completeBatch_fields (s : Log) (batch : Option ℕ) (ok : Bool) :
    (s.completeBatch batch ok).writeBuffer = s.writeBuffer ∧ (s.completeBatch batch ok).opts = s.opts ∧
    (s.completeBatch batch ok).staged = s.staged ∧ (s.completeBatch batch ok).nextSeq = s.nextSeq ∧
    (s.completeBatch batch ok).compacted = s.compacted ∧ (s.completeBatch batch ok).holder = s.holder ∧
    (s.completeBatch batch ok).flight = s.flight ∧ (s.completeBatch batch ok).writeFailed = s.writeFailed := by
  cases batch <;> exact ⟨rfl, rfl, rfl, rfl, rfl, rfl, rfl, rfl⟩

theorem Core.setPending (h : Core s pieces act fresh lost) (err : Bool) :
    Core { s with syncErr := err, pending := none } pieces act fresh lost :=
  { h with
    file := { h.file with }
    batches := { h.batches with
      pending := fun b hb => absurd hb (by simp)
      detached := fun f hf b hb => ⟨(h.batches.detached f hf b hb).1, by simp⟩ }
    flight := h.flight }

/-- The failure of an inline write or sync. -/
theorem Core.latch (h : Core s pieces act [] lost) (hfailed : s.writeFailed = true) :
    Inv (s.latch k) pieces act [] lost := by
  have hcore := (h.setPending true).completeBatch s.pending false (fun hok => absurd hok (by simp))
  refine hcore.giveUp (fun hok => ?_) (hcore.markAfter k)
  rw [(completeBatch_fields _ s.pending false).2.2.2.2.2.2.2, hfailed] at hok
  cases hok

theorem Inv.append {many : Bool} {records : List Fill} (h : Inv s pieces act fresh lost)
    (hh : s.holder = .free) (hsizes : ∀ f ∈ records, 0 < f.size ∧ f.size ≤ s.opts.maxRecord) :
    Inv { s with holder := .staging ⟨many, records, [], s.mark⟩ } pieces act fresh lost := by
  have hholder := h.holder
  rw [hh] at hholder
  refine ⟨h.setHolder fun _ => hh ▸ ⟨rfl, fun _ => rfl⟩, hholder, ⟨hsizes, by simp⟩, ?_⟩
  exact { h.mark with }

/-- The caller leaves the lock to wait on the pending batch. -/
theorem Inv.wait {c : Call} {batch : ℕ} (h : Inv s pieces act fresh lost) (hh : s.holder = .staging c)
    (hpending : s.pending = some batch) :
    Inv { s with holder := .free, waiting := (batch, c.taken) :: s.waiting } pieces act fresh lost := by
  have hholder := h.holder
  rw [hh] at hholder
  obtain ⟨hfresh, hcall, -⟩ := hholder
  have hcore := h.setHolder (k := .free) fun _ => hh ▸ ⟨rfl, fun _ => rfl⟩
  refine ⟨{ hcore with
    file := { hcore.file with }
    batches := { h.batches with waiting := fun w hw => ?_ }
    flight := fun f hf => (h.flight f hf).covers rfl rfl fun hcovers w hw hb => ?_ }, hfresh⟩
  · rcases mem_cons.mp hw with rfl | hw
    · exact ⟨h.batches.pending batch hpending, hcall.taken⟩
    · exact h.batches.waiting w hw
  · rcases mem_cons.mp hw with rfl | hw
    · exact absurd hpending (h.batches.detached f hf _ hb).2
    · exact hcovers w hw hb

theorem flightRest_of_not_holds (h : s.flightHoldsFile = false) : flightRest s.flight = [] := by
  unfold flightHoldsFile at h
  unfold flightRest
  split
  next hf =>
    rw [hf] at h
    cases h
  · rfl

/-- The inline sync starts, or there is nothing to write. -/
theorem Core.syncLocked (h : Core s pieces act [] lost)
    (hidle : s.holder.rest = [] ∧ s.holder.holdsFile = false) (hk : AfterOk s k)
    (hstep : s.syncLocked k = some s') : s'.Ok := by
  rw [Log.syncLocked] at hstep
  split at hstep
  next hempty =>
    cases hstep
    refine ⟨pieces, act, [], lost, h.setHolder fun _ => ⟨hidle.1.symm, fun _ => hidle.2⟩, rfl, hempty, ?_, ?_⟩
    · exact hk.markAfter
    · exact (h.markAfter k).imp fun _ hm => { hm with }
  · split at hstep
    · cases hstep
    next hflight =>
      cases hstep
      have hflight : s.flightHoldsFile = false := by simpa using hflight
      refine ⟨pieces, act, [], lost ++ s.writeBuffer, { h with
        file := { h.file with
          frames := by rw [append_nil]; exact h.file.frames
          healthy := fun hok => ?_
          synced_eq := fun _ _ hk => absurd hk (by simp [Holder.holdsFile]) }
        batches := { h.batches with }
        flight := h.flight }, rfl, rfl, hflight, hk⟩
      have hlost := h.file.healthy hok
      rw [hidle.1, append_nil] at hlost
      rw [hlost]
      rfl

theorem Core.openBatch (h : Core s pieces act fresh lost) : Core s.openBatch pieces act fresh lost := by
  unfold Log.openBatch
  split
  · exact h
  next hnone =>
    refine { h with
      file := { h.file with }
      batches := ?_
      flight := h.flight }
    refine ⟨fun w hw => ⟨Nat.lt_succ_of_lt (h.batches.waiting w hw).1, (h.batches.waiting w hw).2⟩,
      fun b hb => ?_, fun f hf b hb => ?_⟩
    · cases hb
      exact Nat.lt_succ_self _
    · have hlt := (h.batches.detached f hf b hb).1
      exact ⟨Nat.lt_succ_of_lt hlt, fun hp => absurd (some.inj hp) hlt.ne'⟩

theorem MarkOk.openBatch (h : MarkOk s m) : MarkOk s.openBatch m := by
  unfold Log.openBatch
  split
  · exact h
  next hnone => exact { h with pending := .inl (h.pending.elim id fun hp => hp.trans hnone) }

theorem framesOf_snoc {a : ℕ} (ha : a ≤ staged.length) (payload : Bytes) : framesOf a ((staged ++ [payload]).drop a) =
      framesOf a (staged.drop a) ++ frameOf staged.length payload := by
  rw [drop_append_of_le_length ha, framesOf_append, length_drop, Nat.add_sub_cancel' ha, framesOf, framesOf, append_nil]

theorem Covers.left {limit : ℕ} {more : List Bytes} (h : Covers s batch limit) (hstaged : s'.staged = s.staged ++ more)
    (hbase : s'.segmentBase = s.segmentBase) (hwaiting : s'.waiting = s.waiting) : Covers s' batch limit := by
  intro w hw hb r hr
  rw [hwaiting] at hw
  rw [hstaged, hbase]
  exact (h w hw hb r hr).left more

theorem Core.stageRecord {payload : Bytes} (h : Core s pieces act fresh lost)
    (hfits : Fits s.opts.maxRecord s.nextSeq payload) : Core (s.stageRecord payload) pieces act fresh lost := by
  have hframes := framesOf_snoc h.base_le payload
  refine { h with
    layout := h.layout.congr fun g stop _ hg => hg.left _
    next := ?_
    base_le := ?_
    fit := ?_
    size := ?_
    file := { h.file with frames := ?_ }
    batches := ?_
    flight := fun f hf => (h.flight f hf).covers rfl rfl fun hc => hc.left rfl rfl rfl
    acked := fun r hr => ⟨(h.acked r hr).1.left _, (h.acked r hr).2.left _⟩
    read := fun q hq => (h.read q hq).left _
    bases := fun b hb => (h.bases b hb).left _
    compaction := h.compaction.bounded rfl rfl (Nat.le_succ_of_le h.bound_le) }
  · change s.nextSeq + 1 = (s.staged ++ [payload]).length
    rw [h.next, length_append, length_singleton]
  · change s.segmentBase ≤ (s.staged ++ [payload]).length
    rw [length_append]
    exact le_trans h.base_le (Nat.le_add_right _ _)
  · refine h.fit.append ⟨?_, trivial⟩
    rw [zero_add, ← h.next]
    exact hfits
  · change s.segmentSize + (frameHeaderSize + payload.length) =
      reach (s.staged ++ [payload]) s.segmentBase (s.staged ++ [payload]).length
    rw [reach_length, hframes, length_append, frameOf_length, h.size, reach_length]
  · change act.file ++ (lost ++ (s.writeBuffer ++ frameOf s.nextSeq payload)) = _
    rw [← append_assoc lost, ← append_assoc act.file, h.file.frames, h.next]
    exact hframes.symm
  · exact { h.batches with waiting := fun w hw =>
      ⟨(h.batches.waiting w hw).1, fun r hr => ((h.batches.waiting w hw).2 r hr).left _⟩ }

theorem MarkOk.stageRecord (h : MarkOk s m) (hnext : s.nextSeq = s.staged.length)
    (payload : Bytes) : MarkOk (s.stageRecord payload) m :=
  { h with
    buffered_le := by
      change m.buffered ≤ (s.writeBuffer ++ frameOf s.nextSeq payload).length
      rw [length_append]
      exact le_trans h.buffered_le (Nat.le_add_right _ _)
    next_le := by
      change m.nextSeq ≤ (s.staged ++ [payload]).length
      rw [length_append]
      exact le_trans h.next_le (Nat.le_add_right _ _)
    tail := by
      change (s.writeBuffer ++ frameOf s.nextSeq payload).drop m.buffered =
        framesOf m.nextSeq ((s.staged ++ [payload]).drop m.nextSeq)
      rw [drop_append_of_le_length h.buffered_le, h.tail, framesOf_snoc h.next_le, hnext]
    size := by
      change m.segmentSize = reach (s.staged ++ [payload]) s.segmentBase m.nextSeq
      rw [reach_left _ h.next_le]
      exact h.size }

/-- The next record of a call is staged, or the call fails, syncs or waits. -/
theorem Inv.stage {c : Call} (h : Inv s pieces act fresh lost) (hh : s.holder = .staging c)
    (hseq : s.nextSeq < 2 ^ 64) (hstep : s.stage c = some s') : s'.Ok := by
  have hholder := h.holder
  rw [hh] at hholder
  obtain ⟨rfl, hcall, hmark⟩ := hholder
  rw [stage] at hstep
  split at hstep
  · obtain ⟨batch, hbatch, rfl⟩ := map_eq_some_iff.mp hstep
    exact ⟨_, _, _, _, h.wait hh hbatch⟩
  next f rest hrest =>
    split at hstep
    · exact h.toCore.syncLocked (k := .append c) (hh ▸ ⟨rfl, rfl⟩) hcall hstep
    dsimp only at hstep
    have hopen := h.toCore.openBatch
    have hstaged : s.openBatch.staged = s.staged := by unfold openBatch; split <;> rfl
    have hnext : s.openBatch.nextSeq = s.nextSeq := by unfold openBatch; split <;> rfl
    have hopts : s.openBatch.opts = s.opts := by unfold openBatch; split <;> rfl
    have hhold : s.openBatch.holder = .staging c := by unfold openBatch; split <;> exact hh
    split at hstep <;> cases hstep
    next payload hpayload =>
      rw [Fill.payload?, filter_eq_some_iff] at hpayload
      have hlen := of_decide_eq_true hpayload.2
      have hsize := hcall.sizes f (hrest ▸ (.head _))
      have hfits : Fits s.openBatch.opts.maxRecord s.openBatch.nextSeq payload := by
        rw [hopts, hnext]
        refine ⟨fun hnil => ?_, by omega, ?_, hseq⟩
        · rw [hnil, length_nil] at hlen
          omega
        · exact lt_of_le_of_lt (by omega) h.small
      have hcore := hopen.stageRecord hfits
      refine ⟨pieces, act, [], lost, hcore.setHolder fun _ => ?_, rfl, ⟨?_, ?_⟩, ?_⟩
      · change _ ∧ (_ → s.openBatch.holder.holdsFile = false)
        rw [hhold]
        exact ⟨(by change [] = s.openBatch.holder.rest; rw [hhold]; rfl), fun _ => rfl⟩
      · intro g hg
        change 0 < g.size ∧ g.size ≤ s.openBatch.opts.maxRecord
        rw [hopts]
        exact hcall.sizes g (hrest ▸ .tail _ hg)
      · intro r hr
        change r.StagedIn (s.openBatch.staged ++ [payload])
        rcases mem_append.mp hr with hr | hr
        · rw [hstaged]
          exact (hcall.taken r hr).left _
        · rw [mem_singleton.mp hr, Record.StagedIn, hopen.next, getElem?_concat_length]
      · exact { hmark.openBatch.stageRecord hopen.next payload with }
    · refine ⟨_, _, _, _, hopen.giveUp (fun _ => ?_) hmark.openBatch⟩
      rw [hhold]
      exact ⟨rfl, rfl⟩

/-- Some detached bytes reach the active file, or a write fails after it wrote them. -/
theorem Core.write {data later : Bytes} (h : Core s pieces act [] (data ++ later)) (hd : Holder)
    (fl : Option Flight) (failed : Bool) (hhealthy : failed = false → later = flightRest fl ++ hd.rest)
    (hheld : failed = false → Log.flightHoldsFile { s with flight := fl } = false → hd.holdsFile = true)
    (hbatch : fl.map Flight.batch = s.flight.map Flight.batch) (hflight : ∀ f, fl = some f →
      FlightOk { s with writeFailed := failed } (act.append data) f) : Core { s with
      disk := updateSegment s.disk s.segmentBase (.append data)
      holder := hd, flight := fl, writeFailed := failed } pieces (act.append data) [] later := by
  refine { h with
    disk := h.update_active rfl _
    file := { h.file with
      frames := ?_
      healthy := hhealthy
      synced_le := ?_
      synced_eq := fun hok hfl hhd => absurd (hheld hok hfl) (by simp [hhd]) }
    batches := { h.batches with detached := ?_ }
    flight := fun f hf => (hflight f hf).covers rfl rfl id }
  · change (act.file ++ data) ++ (later ++ s.writeBuffer) = _
    rw [append_assoc, ← append_assoc data]
    exact h.file.frames
  · change act.synced ≤ (act.file ++ data).length
    rw [length_append]
    exact le_trans h.file.synced_le (Nat.le_add_right _ _)
  · intro f hf b hb
    have hfl : fl = some f := hf
    rw [hfl, map_some] at hbatch
    obtain ⟨f', hf', hsame⟩ := map_eq_some_iff.mp hbatch.symm
    exact h.batches.detached f' hf' b (hsame.trans hb)

theorem FlightOk.mono {act' : Segment} (h : FlightOk s act f)
    (hheld : Log.flightHoldsFile { s with flight := some f } = false)
    (hstaged : s'.staged = s.staged) (hbase : s'.segmentBase = s.segmentBase)
    (hwaiting : ∀ w ∈ s'.waiting, w ∈ s.waiting) (hfailed : s.writeFailed = true → s'.writeFailed = true)
    (hsynced : act.synced ≤ act'.synced) : FlightOk s' act' f := by
  obtain ⟨batch, base, stop, stage⟩ := f
  cases stage with
  | writing | syncing => exact absurd hheld (by simp [flightHoldsFile])
  | ended ok =>
    cases ok with
    | false => exact hfailed h
    | true =>
      refine ⟨hbase ▸ h.1, fun w hw hb r hr => ?_, fun hb => le_trans (h.2.2 (hbase ▸ hb)) hsynced⟩
      rw [hstaged, hbase]
      exact (h.2.1 w (hwaiting w hw) hb r hr).mono hsynced

theorem flightHoldsFile_of_flight (hf : s.flight = some f) (h : s.flightHoldsFile = false) :
    Log.flightHoldsFile { s with flight := some f } = false := by
  rw [flightHoldsFile, hf] at h
  exact h

/-- The write of an inline sync. -/
theorem Inv.write {rest : Bytes} {n : ℕ} {ok : Bool} (h : Inv s pieces act fresh lost) (hh : s.holder = .writing rest k)
    (hstep : s.inlineWrite rest k n ok = some s') : s'.Ok := by
  have hholder := h.holder
  rw [hh] at hholder
  obtain ⟨rfl, hbuffer, hidle, hafter⟩ := hholder
  rw [inlineWrite] at hstep
  split at hstep
  next hfailed =>
    cases hstep
    exact ⟨_, _, _, _, h.toCore.latch hfailed⟩
  next hhealthy =>
    have hhealthy : s.writeFailed = false := by simpa using hhealthy
    have hlost : lost = rest.take n ++ rest.drop n := by
      rw [take_append_drop, h.file.healthy hhealthy, flightRest_of_not_holds hidle, hh]
      rfl
    have hcore : Core s pieces act [] (rest.take n ++ rest.drop n) := hlost ▸ h.toCore
    -- the flight is over, if there is one, and sees the same synced bytes
    have hflight : ∀ f, s.flight = some f → ∀ failed,
        FlightOk { s with writeFailed := failed } (act.append (rest.take n)) f :=
      fun f hf failed => (h.flight f hf).mono (flightHoldsFile_of_flight hf hidle) rfl rfl (fun _ => id)
        (fun hbad => absurd (hhealthy.symm.trans hbad) (by simp)) le_rfl
    split at hstep
    · cases hstep
      have hfail := hcore.write s.holder s.flight true (fun hok => absurd hok (by simp))
        (fun hok => absurd hok (by simp)) rfl (fun f hf => hflight f hf true)
      exact ⟨_, _, _, _, hfail.latch rfl⟩
    split at hstep
    next hdone =>
      cases hstep
      refine ⟨pieces, act.append (rest.take n), [], rest.drop n, ?_, rfl, hbuffer, hidle, hhealthy,
        hafter⟩
      exact hcore.write (.syncing k) s.flight s.writeFailed
        (fun _ => by rw [hdone, flightRest_of_not_holds hidle]; rfl) (fun _ _ => rfl) rfl
        (fun f hf => hflight f hf _)
    · split at hstep
      · cases hstep
      cases hstep
      refine ⟨pieces, act.append (rest.take n), [], rest.drop n, ?_, rfl, hbuffer, hidle,
        hafter⟩
      exact hcore.write (.writing (rest.drop n) k) s.flight s.writeFailed
        (fun _ => by rw [flightRest_of_not_holds hidle]; rfl) (fun _ _ => rfl) rfl
        (fun f hf => hflight f hf _)

/-- A file with nothing left to come holds everything staged. -/
theorem Core.length_of_whole (h : Core s pieces act fresh []) (hbuffer : s.writeBuffer = []) :
    act.file.length = reach s.staged s.segmentBase s.staged.length := by
  rw [reach_length, ← h.file.frames, hbuffer, append_nil, append_nil]

/-- The sync of an inline sync. -/
theorem Inv.sync (h : Inv s pieces act fresh lost) (hh : s.holder = .syncing k) (ok : Bool) :
    (s.inlineSync k ok).Ok := by
  have hholder := h.holder
  rw [hh] at hholder
  obtain ⟨rfl, hbuffer, hidle, hhealthy, hafter⟩ := hholder
  have hlost : lost = [] := by
    rw [h.file.healthy hhealthy, flightRest_of_not_holds hidle, hh]
    rfl
  subst hlost
  rw [inlineSync]
  split
  · have hfail : Core { s with writeFailed := true } pieces act [] [] := { h.toCore with
      file := { h.file with
        healthy := fun hok => absurd hok (by simp)
        synced_eq := fun hok => absurd hok (by simp) }
      batches := { h.batches with }
      flight := fun f hf => (h.flight f hf).mono (flightHoldsFile_of_flight hf hidle) rfl rfl
        (fun _ => id) (fun _ => rfl) le_rfl }
    exact ⟨_, _, _, _, hfail.latch rfl⟩
  have hwhole := h.toCore.length_of_whole hbuffer
  set t : Log := { s with
    disk := updateSegment s.disk s.segmentBase .sync
    durableSize := s.segmentSize
    pending := none } with ht
  have hcore : Core t pieces act.sync [] [] := { h.toCore with
    disk := h.update_active rfl _
    file := { h.file with
      synced_le := le_rfl
      synced_eq := fun _ _ _ => rfl
      durable_le := by
        change s.segmentSize ≤ act.file.length
        rw [h.size, hwhole] }
    batches := { h.batches with
      pending := fun b hb => absurd hb (by simp [ht])
      detached := fun f hf b hb => ⟨(h.batches.detached f hf b hb).1, by simp [ht]⟩ }
    flight := fun f hf => (h.flight f hf).mono (flightHoldsFile_of_flight hf hidle) rfl rfl
      (fun _ => id) id h.file.synced_le
    acked := fun r hr => ⟨(h.acked r hr).1, (h.acked r hr).2.mono h.file.synced_le⟩
    read := fun q hq => (h.read q hq).mono h.file.synced_le
    bases := fun b hb => (h.bases b hb).mono h.file.synced_le }
  have hcovers : Covers t s.pending act.sync.synced := fun w hw _ r hr =>
    kept_of_whole hwhole.ge ((h.batches.waiting w hw).2 r hr).lt
  have hdone := hcore.completeBatch s.pending true fun _ => hcovers
  obtain ⟨hbuf, hopts, hstaged, hnext, hcomp, -, hflight, -⟩ := completeBatch_fields t s.pending true
  refine ⟨pieces, act.sync, [], [], { hdone with
    file := { hdone.file with
      healthy := fun _ => ?_
      synced_eq := fun _ _ _ => rfl }
    batches := { hdone.batches with }
    flight := hdone.flight }, rfl, hbuf.trans hbuffer, ?_, ?_⟩
  · change [] = flightRest (t.completeBatch s.pending true).flight ++ []
    rw [hflight, append_nil]
    exact (flightRest_of_not_holds hidle).symm
  · exact (hafter.congr hopts hstaged hcomp hnext).markAfter
  · exact (hdone.markAfter k).imp fun _ hm => { hm with }

theorem framesOf_eq_nil {seq : ℕ} {payloads : List Bytes} (h : framesOf seq payloads = []) : payloads = [] := by
  cases payloads with
  | nil => rfl
  | cons payload payloads =>
    have := congrArg length h
    simp [framesOf, frameHeaderSize] at this

theorem Inv.rollCreate {ok : Bool} (h : Inv s pieces act fresh lost)
    (hh : s.holder = .rolling k) (hstep : s.rollCreate k ok = some s') : s'.Ok := by
  have hholder := h.holder
  rw [hh] at hholder
  obtain ⟨rfl, hbuffer, hafter, hmark⟩ := hholder
  have hidle : s.holder.rest = [] ∧ s.holder.holdsFile = false := hh ▸ ⟨rfl, rfl⟩
  rw [rollCreate] at hstep
  split at hstep
  · cases hstep
  rename_i hflight
  have hflight : s.flightHoldsFile = false := by simpa using hflight
  split at hstep
  · cases hstep
    have hcore : Core { s with syncErr := true } pieces act [] lost := { h.toCore with
      file := { h.file with }
      batches := { h.batches with }
      flight := h.flight }
    exact ⟨_, _, _, _, hcore.giveUp (fun _ => hidle) (hmark.imp fun _ hm => { hm with })⟩
  rename_i hfailed
  have hfailed : s.writeFailed = false := by simpa using hfailed
  split at hstep
  · cases hstep
    exact ⟨_, _, _, _, h.toCore.giveUp (fun _ => hidle) hmark⟩
  rename_i hcreated
  cases hstep
  have hlost : lost = [] := by
    rw [h.file.healthy hfailed, flightRest_of_not_holds hflight, hidle.1]
    rfl
  subst hlost
  have hsynced := h.file.synced_eq hfailed hflight hidle.2
  have hwhole := h.toCore.length_of_whole hbuffer
  have hlt : s.segmentBase < s.nextSeq := by
    refine lt_of_le_of_ne (h.next ▸ h.base_le) fun heq => hcreated ?_
    have : (s.disk.any fun g => g.base = s.nextSeq) = true :=
      any_eq_true.mpr ⟨act, by rw [h.disk]; simp, by simp [h.file.base, heq]⟩
    simp [this]
  refine ⟨pieces, act, [⟨s.nextSeq, [], 0⟩], [], { h.toCore with
    disk := ?_
    file := { h.file with
      healthy := fun hok => by
        rw [flightRest_of_not_holds hflight]
        rfl
      synced_eq := fun _ _ _ => hsynced }
    batches := { h.batches with }
    flight := h.flight
    bases := ?_ }, rfl, ⟨hbuffer, rfl, hsynced, hlt, hflight, hfailed⟩,
    hafter, hmark.imp fun m hm => { hm with bases := fun b hb => ?_ }⟩
  · change s.disk ++ _ = _
    rw [h.disk, append_assoc]
    rfl
  · intro b hb
    rcases mem_cons.mp hb with rfl | hb
    · rw [h.next]
      exact kept_of_whole (by rw [← hwhole, hsynced]) le_rfl
    · exact h.bases b hb
  · rcases mem_cons.mp hb with rfl | hb
    · rw [h.next]
      have htail := hm.tail
      rw [hbuffer, drop_nil] at htail
      exact drop_eq_nil_iff.mp (framesOf_eq_nil htail.symm)
    · exact hm.bases b hb

/-- The failed roll takes its file away. -/
theorem Core.rollBack {g : Segment} (h : Core s pieces act [g] lost)
    (hidle : s.holder.rest = [] ∧ s.holder.holdsFile = false) (hbase : g.base = s.nextSeq)
    (hlt : s.segmentBase < s.nextSeq) (hmark : MarkedOk s k) : (s.rollBack k true).Ok := by
  have hcore : Core { s with disk := removeSegment s.disk s.nextSeq } pieces act [] lost := { h with
    disk := hbase ▸ h.remove_fresh (hbase ▸ hlt)
    file := { h.file with }
    batches := { h.batches with }
    flight := h.flight }
  exact ⟨_, _, _, _, hcore.giveUp (fun _ => hidle) (hmark.imp fun _ hm => { hm with })⟩

theorem Inv.rollSyncDir {ok removed : Bool} (h : Inv s pieces act fresh lost)
    (hh : s.holder = .created k) (hclean : ok = true ∨ removed = true) : (s.rollSyncDir k ok removed).Ok := by
  have hholder := h.holder
  rw [hh] at hholder
  obtain ⟨rfl, hready, hafter, hmark⟩ := hholder
  rw [rollSyncDir]
  split
  · refine ⟨_, _, _, _, h.toCore.setHolder (k := .named k) fun _ => ?_, rfl, { hready with },
      hafter, hmark.imp fun _ hm => { hm with }⟩
    rw [hh]
    exact ⟨rfl, fun _ => rfl⟩
  next hok =>
    obtain rfl : removed = true := hclean.resolve_left hok
    exact h.toCore.rollBack (hh ▸ ⟨rfl, rfl⟩) rfl hready.base_lt hmark

/-- The new segment takes over: the old one is sealed. -/
theorem Core.swap {g : Segment} (h : Core s pieces act [g] lost) (hg : g = ⟨s.nextSeq, [], 0⟩)
    (hready : Ready s act lost) (hidle : s.holder.rest = []) : Core s.swap (pieces ++ [(act, s.nextSeq)]) g [] [] := by
  obtain rfl := hready.lost_nil
  have hnext := h.next
  have hholds : Holds s.staged act s.nextSeq := by
    refine ⟨?_, hnext.le, ?_, hready.synced⟩
    · rw [h.file.base]
      exact hready.base_lt.le
    · have hframes := h.file.frames
      rw [hready.buffer, append_nil, append_nil] at hframes
      rw [h.file.base, hnext, span_length_self, hframes]
  have hlayout : Layout s.staged s.compacted s.nextSeq (pieces ++ [(act, s.nextSeq)]) :=
    Layout.snoc (h.file.base ▸ h.layout) hholds (h.file.base ▸ hready.base_lt)
  refine { h with
    disk := ?_
    layout := hlayout
    base_le := hnext.le
    size := ?_
    file := ?_
    batches := { h.batches with }
    flight := ?_
    acked := fun r hr => ⟨(h.acked r hr).1, .inl ?_⟩
    read := fun q hq => .inl ?_
    bases := fun b hb => .inl ?_
    compaction := ?_ }
  · change s.disk = _
    rw [h.disk, map_append, append_assoc]
    rfl
  · change 0 = reach s.staged s.nextSeq s.staged.length
    rw [hnext, reach, span_of_le le_rfl]
    rfl
  · subst hg
    refine ⟨rfl, ?_, fun _ => ?_, le_rfl, fun _ _ _ => rfl, le_rfl⟩
    · change [] ++ ([] ++ s.writeBuffer) = framesOf s.nextSeq (s.staged.drop s.nextSeq)
      rw [hready.buffer, hnext, drop_length]
      rfl
    · change [] = flightRest s.flight ++ s.holder.rest
      rw [flightRest_of_not_holds hready.flight, hidle]
      rfl
  · rintro ⟨batch, base, stop, stage⟩ hf
    have hok := h.flight _ hf
    have hheld := flightHoldsFile_of_flight hf hready.flight
    cases stage with
    | writing | syncing => exact absurd hheld (by simp [flightHoldsFile])
    | ended ok =>
      cases ok with
      | false => exact hok
      | true =>
        refine ⟨le_trans hok.1 hready.base_lt.le, fun w hw _ r hr => .inl ?_, fun hb => ?_⟩
        · change r.seq + 1 ≤ s.nextSeq
          rw [hnext]
          exact ((h.batches.waiting w hw).2 r hr).lt
        · change base = s.nextSeq at hb
          exact absurd (hb ▸ hok.1) (Nat.not_le_of_lt hready.base_lt)
  · change r.seq + 1 ≤ s.nextSeq
    rw [hnext]
    exact (h.acked r hr).1.lt
  · change q + 1 ≤ s.nextSeq
    rw [hnext]
    exact (h.read q hq).le_length h.base_le
  · change b ≤ s.nextSeq
    rw [hnext]
    exact (h.bases b hb).le_length h.base_le
  · have hok := h.compaction
    change CompactionOk _ _ s.compaction
    cases hc : s.compaction with
    | idle | rotating => trivial
    | rotated seq => rw [hc] at hok; exact hok
    | listing seq active floor => rw [hc] at hok; exact ⟨hok.1, hok.2.1, .inr hok.2.1⟩
    | removing doomed floor newFloor =>
      rw [hc] at hok
      refine ⟨fun b hb => (hok.1 b hb).trans hready.base_lt, fun p hp hb => ?_⟩
      rcases mem_append.mp hp with hp | hp
      · exact hok.2 p hp hb
      · rw [mem_singleton.mp hp] at hb
        exact absurd (hok.1 _ hb) (by rw [h.file.base]; exact lt_irrefl _)

theorem Inv.rollClose {ok removed : Bool} (h : Inv s pieces act fresh lost)
    (hh : s.holder = .named k) (hclean : ok = true ∨ removed = true) : (s.rollClose k ok removed).Ok := by
  have hholder := h.holder
  rw [hh] at hholder
  obtain ⟨rfl, hready, hafter, hmark⟩ := hholder
  rw [rollClose]
  split
  · have hcore := h.toCore.swap rfl hready (hh ▸ rfl)
    have hidle : ∀ k : Holder, k.rest = [] → s.swap.writeFailed = false → k.rest = s.swap.holder.rest ∧
        (k.holdsFile = false → s.swap.holder.holdsFile = false) := by
      intro k hk _
      change _ = s.holder.rest ∧ (_ → s.holder.holdsFile = false)
      rw [hh]
      exact ⟨hk, fun _ => rfl⟩
    cases k with
    | append c =>
      refine ⟨_, _, _, _, hcore.setHolder (hidle _ rfl), rfl, ⟨hafter.sizes, hafter.taken⟩, ?_⟩
      exact { hcore.mark with }
    | compact seq =>
      have hfree := hcore.setHolder (hidle .free rfl)
      refine ⟨_, _, _, _, { hfree with
        file := { hfree.file with }
        batches := { hfree.batches with }
        flight := hfree.flight
        compaction := hafter }, rfl⟩
  next hok =>
    obtain rfl : removed = true := hclean.resolve_left hok
    exact h.toCore.rollBack (hh ▸ ⟨rfl, rfl⟩) rfl hready.base_lt hmark

end Narad.Wal
