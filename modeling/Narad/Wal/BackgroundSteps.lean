import Narad.Wal.AppendSteps

/-!
# Flushes and compactions keep the invariant

The steps outside the append lock: the background flush, which writes and syncs a detached buffer
under the file lock, and `CompactBefore`, which deletes sealed segments while appends go on. A
compaction whose bound is not above the next seq never deletes a segment that is still active.
-/

namespace Narad.Wal

open Lib List Log

variable {s : Log} {pieces : List (Segment × ℕ)} {act : Segment} {fresh : List Segment} {lost : Bytes}

variable {k : Holder}

/-- While a flush has the file lock the holder of the append lock is not at the files. -/
theorem HolderOk.background (h : HolderOk s act fresh lost k) (hheld : s.flightHoldsFile = true) :
    fresh = [] ∧ k.rest = [] ∧ k.holdsFile = false ∧ ∀ disk flight writeFailed act' lost',
        HolderOk { s with disk := disk, flight := flight, writeFailed := writeFailed } act' fresh lost' k := by
  have hbusy : s.flightHoldsFile ≠ false := by simp [hheld]
  cases k with
  | free => exact ⟨h, rfl, rfl, fun _ _ _ _ _ => h⟩
  | staging c =>
    obtain ⟨hfresh, hcall, hmark⟩ := h
    exact ⟨hfresh, rfl, rfl, fun _ _ _ _ _ => ⟨hfresh, hcall, { hmark with }⟩⟩
  | writing | syncing => exact absurd h.2.2.1 hbusy
  | rolling k =>
    obtain ⟨hfresh, hbuffer, hafter, hmark⟩ := h
    exact ⟨hfresh, rfl, rfl, fun _ _ _ _ _ =>
      ⟨hfresh, hbuffer, hafter, hmark.imp fun _ hm => { hm with }⟩⟩
  | created | named => exact absurd h.2.1.flight hbusy

variable {s' : Log}

/-- Of what readers and compactions change the holder's part of the invariant needs its marks only. -/
theorem HolderOk.frame {disk : List Segment} {read : List ℕ} {c : Compaction} {floor : ℕ}
    (h : HolderOk s act fresh lost k) (hmark : ∀ m, MarkOk s m →
      MarkOk { s with disk := disk, read := read, compaction := c, compactFloor := floor } m) :
    HolderOk { s with disk := disk, read := read, compaction := c, compactFloor := floor } act fresh lost k := by
  cases k with
  | free | writing | syncing => exact h
  | staging c => exact ⟨h.1, h.2.1, hmark _ h.2.2⟩
  | rolling k => exact ⟨h.1, h.2.1, h.2.2.1, h.2.2.2.imp hmark⟩
  | created | named => exact ⟨h.1, { h.2.1 with }, h.2.2.1, h.2.2.2.imp hmark⟩

theorem Inv.flushDetach (h : Inv s pieces act fresh lost) (hh : s.holder = .free)
    (hf : s.flight = none) (hstep : s.flushDetach = some s') : s'.Ok := by
  have hfresh := h.holder
  rw [hh] at hfresh
  rw [Log.flushDetach] at hstep
  split at hstep
  · cases hstep
  cases hstep
  refine ⟨pieces, act, fresh, lost ++ s.writeBuffer, { h.toCore with
    file := { h.file with
      frames := by rw [append_nil]; exact h.file.frames
      healthy := fun hok => ?_
      synced_eq := fun _ hheld => absurd hheld (by simp [flightHoldsFile]) }
    batches := { h.batches with
      pending := fun b hb => absurd hb (by simp)
      detached := fun f hf b hb => ⟨?_, by simp⟩ }
    flight := ?_ }, ?_⟩
  · have hlost := h.file.healthy hok
    rw [hf, hh] at hlost
    rw [hlost, hh]
    simp [flightRest, Holder.rest]
  · cases hf
    exact h.batches.pending b hb
  · rintro f ⟨⟩
    refine ⟨rfl, fun w hw hb r hr => ?_, fun hok => ?_⟩
    · refine kept_of_whole ?_ ((h.batches.waiting w hw).2 r hr).lt
      exact h.size.ge
    · have hframes := congrArg length h.file.frames
      have hlost := h.file.healthy hok
      rw [hf, hh] at hlost
      rw [hlost, ← reach_length, ← h.size] at hframes
      simpa [flightRest, Holder.rest] using hframes
  · change HolderOk _ act fresh _ s.holder
    rw [hh]
    exact hfresh

variable {batch : Option ℕ}

theorem Inv.flushWrite {base stop n : ℕ} {rest : Bytes} {ok : Bool}
    (h : Inv s pieces act fresh lost) (hf : s.flight = some ⟨batch, base, stop, .writing rest⟩)
    (hstep : s.flushWrite ⟨batch, base, stop, .writing rest⟩ rest n ok = some s') : s'.Ok := by
  obtain ⟨rfl, hcovers, hlen⟩ : _ ∧ _ ∧ _ := h.flight _ hf
  have hheld : s.flightHoldsFile = true := by simp [flightHoldsFile, hf]
  obtain ⟨rfl, hrest, hholds, hframe⟩ := h.holder.background hheld
  rw [flushWrite] at hstep
  split at hstep
  next hfailed =>
    cases hstep
    refine ⟨pieces, act, [], lost, { h.toCore with
      file := { h.file with
        healthy := fun hok => absurd (hfailed.symm.trans hok) (by simp)
        synced_eq := fun hok => absurd (hfailed.symm.trans hok) (by simp) }
      batches := { h.batches with
        detached := fun f hf' b hb => ?_ }
      flight := ?_ }, hframe s.disk _ s.writeFailed act lost⟩
    · cases hf'
      exact h.batches.detached _ hf b hb
    · rintro f ⟨⟩
      exact hfailed
  rename_i hfailed
  have hfailed : s.writeFailed = false := by simpa using hfailed
  have hlost : lost = rest.take n ++ rest.drop n := by
    rw [take_append_drop, h.file.healthy hfailed, hf, hrest]
    exact append_nil _
  have hcore : Core s pieces act [] (rest.take n ++ rest.drop n) := hlost ▸ h.toCore
  have hbatch : ∀ stage, (some (⟨batch, s.segmentBase, stop, stage⟩ : Flight)).map Flight.batch =
      s.flight.map Flight.batch := by
    intro stage
    rw [hf]
    rfl
  have hwritten : (act.append (rest.take n)).file.length + (rest.drop n).length = stop := by
    change (act.file ++ rest.take n).length + (rest.drop n).length = stop
    rw [length_append, add_assoc, ← length_append, take_append_drop]
    exact hlen hfailed
  split at hstep
  · cases hstep
    refine ⟨_, _, _, _, hcore.write s.holder _ true (fun hok => absurd hok (by simp))
      (fun hok => absurd hok (by simp)) (hbatch (.ended false)) ?_, hframe _ _ _ _ _⟩
    rintro f ⟨⟩
    rfl
  split at hstep
  next hdone =>
    cases hstep
    rw [hdone] at hwritten
    refine ⟨_, _, _, _, hcore.write s.holder _ s.writeFailed (fun _ => ?_) (fun _ hidle => ?_)
      (hbatch .syncing) ?_, hframe _ _ _ _ _⟩
    · rw [hdone, hrest]
      rfl
    · exact absurd hidle (by simp [flightHoldsFile])
    · rintro f ⟨⟩
      exact ⟨rfl, hcovers, hfailed, hwritten⟩
  split at hstep <;> cases hstep
  refine ⟨_, _, _, _, hcore.write s.holder _ s.writeFailed (fun _ => ?_) (fun _ hidle => ?_)
    (hbatch (.writing (rest.drop n))) ?_, hframe _ _ _ _ _⟩
  · rw [hrest]
    exact (append_nil _).symm
  · exact absurd hidle (by simp [flightHoldsFile])
  · rintro f ⟨⟩
    exact ⟨rfl, hcovers, fun _ => hwritten⟩

theorem Inv.flushSync {base stop : ℕ} (h : Inv s pieces act fresh lost)
    (hf : s.flight = some ⟨batch, base, stop, .syncing⟩) (ok : Bool) :
    (s.flushSync ⟨batch, base, stop, .syncing⟩ ok).Ok := by
  obtain ⟨rfl, hcovers, hfailed, hlen⟩ : _ ∧ _ ∧ _ ∧ _ := h.flight _ hf
  have hheld : s.flightHoldsFile = true := by simp [flightHoldsFile, hf]
  obtain ⟨rfl, hrest, hholds, hframe⟩ := h.holder.background hheld
  have hdetached : ∀ stage f, some (⟨batch, s.segmentBase, stop, stage⟩ : Flight) = some f →
      ∀ b, f.batch = some b → b < s.nextBatch ∧ s.pending ≠ some b := by
    rintro stage f ⟨⟩ b hb
    exact h.batches.detached _ hf b hb
  rw [flushSync]
  split
  · refine ⟨pieces, act.sync, [], lost, { h.toCore with
      disk := h.update_active rfl _
      file := { h.file with
        healthy := fun hok => by
          have hlost := h.file.healthy hok
          rw [hf] at hlost
          exact hlost
        synced_le := le_rfl
        synced_eq := fun _ _ _ => rfl
        durable_le := le_trans h.file.durable_le h.file.synced_le }
      batches := { h.batches with detached := hdetached _ }
      flight := ?_
      acked := fun r hr => ⟨(h.acked r hr).1, (h.acked r hr).2.mono h.file.synced_le⟩
      read := fun q hq => (h.read q hq).mono h.file.synced_le
      bases := fun b hb => (h.bases b hb).mono h.file.synced_le },
      hframe _ _ s.writeFailed _ _⟩
    rintro f ⟨⟩
    refine ⟨le_rfl, ?_, fun _ => hlen.ge⟩
    change Covers s batch act.file.length
    rw [hlen]
    exact hcovers
  · refine ⟨pieces, act, [], lost, { h.toCore with
      file := { h.file with
        healthy := fun hok => absurd hok (by simp)
        synced_eq := fun hok => absurd hok (by simp) }
      batches := { h.batches with detached := hdetached _ }
      flight := ?_ }, hframe s.disk _ _ _ _⟩
    rintro f ⟨⟩
    rfl

theorem Core.completeBatch_free (h : Core s pieces act [] lost) (hh : s.holder = .free)
    (batch : Option ℕ) (ok : Bool) (hcovers : ok = true → Covers s batch act.synced) :
    Inv (s.completeBatch batch ok) pieces act [] lost where
  toCore := h.completeBatch batch ok hcovers
  holder := by
    rw [(completeBatch_fields s batch ok).2.2.2.2.2.1, hh]
    rfl

theorem Inv.flushed {base stop : ℕ} {ok : Bool} (h : Inv s pieces act fresh lost)
    (hh : s.holder = .free) (hf : s.flight = some ⟨batch, base, stop, .ended ok⟩) :
    (s.flushed ⟨batch, base, stop, .ended ok⟩ ok).Ok := by
  have hfresh := h.holder
  rw [hh] at hfresh
  obtain rfl : fresh = [] := hfresh
  have hidle : s.flightHoldsFile = false := by simp [flightHoldsFile, hf]
  have hlost : s.writeFailed = false → lost = [] := by
    intro hok
    rw [h.file.healthy hok, hf, hh]
    rfl
  have hsynced := fun hok => h.file.synced_eq hok hidle (hh ▸ rfl)
  cases ok with
  | true =>
    obtain ⟨-, hcovers, hstop⟩ : _ ∧ _ ∧ _ := h.flight _ hf
    set durable := if s.segmentBase = base ∧ s.durableSize < stop then stop else s.durableSize with hd
    have hcore : Core { s with flight := none, durableSize := durable } pieces act [] lost :=
      { h.toCore with
        file := { h.file with
          healthy := fun hok => by rw [hlost hok, hh]; rfl
          synced_eq := fun hok _ _ => hsynced hok
          durable_le := by
            change durable ≤ act.synced
            rw [hd]
            split
            next hboth => exact hstop hboth.1.symm
            · exact h.file.durable_le }
        batches := { h.batches with detached := fun f hf => absurd hf (by simp) }
        flight := fun f hf => absurd hf (by simp) }
    exact ⟨_, _, _, _, hcore.completeBatch_free hh batch true fun _ => hcovers⟩
  | false =>
    have hfailed : s.writeFailed = true := h.flight _ hf
    have hcore : Core { s with flight := none, syncErr := true, writeBuffer := [], pending := none }
        pieces act [] (lost ++ s.writeBuffer) :=
      { h.toCore with
        file := { h.file with
          frames := by rw [append_nil]; exact h.file.frames
          healthy := fun hok => absurd (hfailed.symm.trans hok) (by simp)
          synced_eq := fun hok _ _ => hsynced hok }
        batches := { h.batches with
          pending := fun b hb => absurd hb (by simp)
          detached := fun f hf => absurd hf (by simp) }
        flight := fun f hf => absurd hf (by simp) }
    have hfirst := hcore.completeBatch s.pending false (fun hok => absurd hok (by simp))
    refine ⟨_, _, _, _, hfirst.completeBatch_free ?_ batch false (fun hok => absurd hok (by simp))⟩
    rw [(completeBatch_fields _ s.pending false).2.2.2.2.2.1]
    exact hh

variable {r : Record} {seq : ℕ}

theorem lt_of_mem_recordsOf {payloads : List Bytes} (h : r ∈ recordsOf seq payloads) :
    r.seq < seq + payloads.length := by
  induction payloads generalizing seq with
  | nil => exact absurd h not_mem_nil
  | cons payload payloads ih =>
    rw [length_cons]
    rcases mem_cons.mp h with rfl | h
    · exact Nat.lt_add_of_pos_right (Nat.succ_pos _)
    · have := ih h
      omega

theorem mem_replay {start maxRecord : ℕ} {segments : List SegmentInfo} (h : r ∈ (replay start maxRecord segments).1) :
    ∃ g ∈ segments, r ∈ (replaySegment g start maxRecord).1 := by
  induction segments with
  | nil => exact absurd h not_mem_nil
  | cons g segments ih =>
    cases segments with
    | nil => exact ⟨g, .head _, h⟩
    | cons next rest =>
      have hlater : r ∈ (replay start maxRecord (next :: rest)).1 →
          ∃ g' ∈ g :: next :: rest, r ∈ (replaySegment g' start maxRecord).1 := by
        intro hr
        obtain ⟨g', hg', hr'⟩ := ih hr
        exact ⟨g', .tail _ hg', hr'⟩
      rw [replay] at h
      split at h
      · exact hlater h
      dsimp only at h
      split at h
      · exact ⟨g, .head _, h⟩
      rcases mem_append.mp h with h | h
      · exact ⟨g, .head _, h⟩
      · exact hlater h

/-- Replay of the open log delivers only records that are on stable storage. -/
theorem Inv.kept_of_replayOpen {start : ℕ} (h : Inv s pieces act fresh lost)
    (hr : r ∈ (s.replayOpen start).1) : Kept s.staged s.segmentBase act.synced (r.seq + 1) := by
  obtain ⟨g', hg', hr⟩ := mem_replay hr
  rw [openInfos, listSegments_of_sorted h.disk_sorted, h.disk] at hg'
  obtain ⟨g, hg, rfl⟩ := mem_map.mp hg'
  rcases mem_append.mp hg with hg | hg
  · obtain ⟨p, hp, rfl⟩ := mem_map.mp hg
    obtain ⟨hstop, hlt⟩ := h.layout.below p hp
    have hholds := h.layout.holds p hp
    rw [if_pos hlt] at hr
    have hreplay : replaySegment p.1.info start s.opts.maxRecord = _ := hholds.replaySegment h.fit
    rw [Segment.info] at hreplay
    rw [hreplay] at hr
    have := lt_of_mem_recordsOf (mem_filter.mp hr).1
    rw [span_length, Nat.min_eq_left hholds.stop_le, Nat.add_sub_cancel' hholds.base_le] at this
    exact .inl (by omega)
  rcases mem_cons.mp hg with rfl | hg
  · have hbase := h.file.base
    rw [if_neg (by omega), if_pos hbase] at hr
    set payloads := s.staged.drop s.segmentBase with hpayloads
    have hpre : g.file.take s.durableSize <+: framesOf g.base payloads := by
      rw [hbase]
      exact (List.take_prefix _ _).trans ⟨lost ++ s.writeBuffer, h.file.frames⟩
    have hfit : AllFit s.opts.maxRecord g.base payloads := by
      rw [hbase]
      exact h.fit.from _
    have hreplay : replaySegment ⟨g.base, g.file.take s.durableSize⟩ start s.opts.maxRecord = _ :=
      replaySegment_of_run hfit hpre
    rw [hreplay] at hr
    set w := wholeFrames (g.file.take s.durableSize).length payloads with hw
    have hlt := lt_of_mem_recordsOf (mem_filter.mp hr).1
    rw [length_take, min_eq_left (wholeFrames_le _ _), hbase] at hlt
    have hkept : Kept s.staged s.segmentBase g.synced (s.segmentBase + w) := by
      refine .inr ⟨?_, ?_⟩
      · have hle : w ≤ payloads.length := wholeFrames_le _ _
        have := h.base_le
        rw [hpayloads, length_drop] at hle
        omega
      · rw [reach, span_add_take]
        calc (framesOf s.segmentBase (payloads.take w)).length
            ≤ (g.file.take s.durableSize).length := framesOf_take_wholeFrames_le _ _ _
          _ ≤ s.durableSize := length_take_le _ _
          _ ≤ g.synced := h.file.durable_le
    exact hkept.of_le hlt
  · have hlt := h.fresh_lt g hg
    rw [if_neg (by omega), if_neg (by omega)] at hr
    exact absurd hr (by simp [replaySegment, replayLoop, readHeader, readAt, frameHeaderSize])

theorem reach_lt {staged : List Bytes} {a q q' : ℕ} (ha : a ≤ q) (hlt : q < q') (hle : q' ≤ staged.length) :
    reach staged a q < reach staged a q' := by
  rw [reach, reach, ← span_append ha hlt.le (by omega), framesOf_append, length_append]
  refine Nat.lt_add_of_pos_right (length_pos_iff.mpr fun hnil => ?_)
  have := congrArg length (framesOf_eq_nil hnil)
  rw [span_length, min_eq_left hle, length_nil] at this
  omega

/-- What is on stable storage was staged before the mark. -/
theorem Core.le_mark {m : Mark} {q : ℕ} (h : Core s pieces act fresh lost) (hm : MarkOk s m)
    (hq : Kept s.staged s.segmentBase act.synced q) : q ≤ m.nextSeq := by
  rcases hq with hq | ⟨hle, hreach⟩
  · exact le_trans hq hm.base_le
  by_contra hlt
  have hfile : act.file.length ≤ reach s.staged s.segmentBase m.nextSeq := by
    have hframes := (h.withdraw hm).file.frames
    change act.file ++ _ = framesOf s.segmentBase (span s.staged s.segmentBase m.nextSeq) at hframes
    rw [reach, ← hframes, length_append]
    exact Nat.le_add_right _ _
  have := reach_lt hm.base_le (Nat.lt_of_not_le hlt) hle
  have := h.file.synced_le
  omega

theorem Inv.readRecord {start q : ℕ} (h : Inv s pieces act fresh lost)
    (hq : ((s.replayOpen start).1.any fun r => r.seq = q) = true) :
    Inv { s with read := q :: s.read } pieces act fresh lost := by
  obtain ⟨r, hr, hseq⟩ := any_eq_true.mp hq
  have hkept : Kept s.staged s.segmentBase act.synced (q + 1) :=
    of_decide_eq_true hseq ▸ h.kept_of_replayOpen hr
  refine ⟨{ h.toCore with
    file := { h.file with }
    batches := { h.batches with }
    flight := h.flight
    read := fun q' hq' => ?_ }, ?_⟩
  · rcases mem_cons.mp hq' with rfl | hq'
    · exact hkept
    · exact h.read q' hq'
  · refine h.holder.frame (fun m hm => { hm with read := fun q' hq' => ?_ })
    rcases mem_cons.mp hq' with rfl | hq'
    · exact h.toCore.le_mark hm hkept
    · exact hm.read q' hq'

variable {disk : List Segment}

theorem HolderOk.compacting {c : Compaction} {floor : ℕ}
    (h : HolderOk s act fresh lost k) (hbound : c.bound ≤ s.compaction.bound) :
    HolderOk { s with disk := disk, compaction := c, compactFloor := floor } act fresh lost k :=
  h.frame (fun _ hm => { hm with compaction := le_trans hbound hm.compaction })

section

variable (h : Inv s pieces act fresh lost)
include h

/-- The compaction moves on, and the sealed segments may have become fewer. -/
theorem Inv.compacting {pieces' : List (Segment × ℕ)} {c : Compaction} {floor : ℕ}
    (hbound : c.bound ≤ s.compaction.bound) (hdisk : disk = pieces'.map Prod.fst ++ act :: fresh)
    (hlayout : Layout s.staged s.compacted s.segmentBase pieces') (hok : CompactionOk s pieces' c) :
    Inv { s with disk := disk, compaction := c, compactFloor := floor } pieces' act fresh lost where
  toCore := { h.toCore with
    disk := hdisk
    layout := hlayout
    file := { h.file with }
    batches := { h.batches with }
    flight := h.flight
    compaction := by cases c <;> exact hok }
  holder := h.holder.compacting hbound

theorem Inv.compactStart (hh : s.holder = .free)
    (hseq : seq ≤ s.nextSeq) (hstep : s.compactStart seq = some s') : s'.Ok := by
  have hfresh := h.holder
  rw [hh] at hfresh
  obtain rfl : fresh = [] := hfresh
  have hcore : ∀ c : Compaction, CompactionOk { s with compacted := max s.compacted seq } pieces c →
      Core { s with compacted := max s.compacted seq, compaction := c } pieces act [] lost :=
    fun c hc => { h.toCore with
      layout := h.layout.mono (le_max_left _ _)
      file := { h.file with }
      batches := { h.batches with }
      flight := h.flight
      compaction := by cases c <;> exact hc }
  have hrotated : Log.Ok { s with compacted := max s.compacted seq, compaction := .rotated seq } := by
    refine ⟨pieces, act, [], lost, hcore _ ⟨le_max_right _ _, hseq⟩, ?_⟩
    change HolderOk _ act [] lost s.holder
    rw [hh]
    rfl
  rw [Log.compactStart] at hstep
  split at hstep
  · cases hstep
    exact hrotated
  split at hstep
  · cases hstep
    exact hrotated
  refine (hcore .rotating trivial).syncLocked (k := .compact seq) ?_ ⟨le_max_right _ _, hseq⟩ hstep
  change s.holder.rest = [] ∧ s.holder.holdsFile = false
  rw [hh]
  exact ⟨rfl, rfl⟩

theorem Inv.compactSnapshot (hc : s.compaction = .rotated seq) : (s.compactSnapshot seq).Ok := by
  have hok := h.compaction
  rw [hc] at hok
  rw [Log.compactSnapshot]
  split
  · exact ⟨_, _, _, _, h.compacting (c := .idle) (Nat.zero_le _) h.disk h.layout trivial⟩
  refine ⟨_, _, _, _, h.compacting (c := .listing seq s.segmentBase s.compactFloor) ?_ h.disk h.layout
    ⟨hok.1, hok.2, .inl rfl⟩⟩
  rw [hc]
  exact le_rfl

end

/-- A doomed segment is not the one read as active, and one with a base up to the bound follows it. -/
theorem mem_doomed {seq active b : ℕ} {bases : List ℕ} (h : b ∈ Log.doomed seq active bases)
    (hsorted : bases.Pairwise (· < ·)) : b ≠ active ∧ b ∈ bases ∧ ∃ n ∈ bases, b < n ∧ n ≤ seq := by
  induction bases with
  | nil => exact absurd h (by simp [doomed])
  | cons first bases ih =>
    obtain ⟨hfirst, hrest⟩ := pairwise_cons.mp hsorted
    cases bases with
    | nil => exact absurd h (by simp [doomed])
    | cons second rest =>
      have hlater : b ∈ doomed seq active (second :: rest) → b ≠ active ∧ b ∈ first :: second :: rest ∧
            ∃ n ∈ first :: second :: rest, b < n ∧ n ≤ seq := by
        intro hb
        obtain ⟨hne, hmem, n, hn, hlt⟩ := ih hb hrest
        exact ⟨hne, .tail _ hmem, n, .tail _ hn, hlt⟩
      rw [doomed] at h
      split at h
      next hgone =>
        rcases mem_cons.mp h with rfl | h
        · exact ⟨hgone.1, .head _, second, by simp, hfirst second (by simp), hgone.2⟩
        · exact hlater h
      · exact hlater h

/-- A later sealed segment starts where the earlier one stops, or past it. -/
theorem stop_le_base (h : pieces.Pairwise fun p q => p.2 ≤ q.1.base ∧ p.1.base < q.1.base)
    {p q : Segment × ℕ} (hp : p ∈ pieces) (hq : q ∈ pieces) (hlt : p.1.base < q.1.base) : p.2 ≤ q.1.base := by
  induction h with
  | nil => exact absurd hp not_mem_nil
  | cons hfirst _ ih =>
    rcases mem_cons.mp hp with rfl | hp'
    · rcases mem_cons.mp hq with rfl | hq'
      · exact absurd hlt (lt_irrefl _)
      · exact (hfirst q hq').1
    · rcases mem_cons.mp hq with rfl | hq'
      · exact absurd (hfirst p hp').2 (Nat.not_lt_of_lt hlt)
      · exact ih hp' hq'

/-- The bases of the directory: sealed segments, the active one, and what a roll has created. -/
theorem Core.mem_bases {b : ℕ} (h : Core s pieces act fresh lost) (hb : b ∈ s.disk.map Segment.base) :
    (∃ p ∈ pieces, p.1.base = b) ∨ b = s.segmentBase ∨ ∃ g ∈ fresh, g.base = b := by
  rw [h.disk] at hb
  obtain ⟨g, hg, rfl⟩ := mem_map.mp hb
  rcases mem_append.mp hg with hg | hg
  · obtain ⟨p, hp, rfl⟩ := mem_map.mp hg
    exact .inl ⟨p, hp, rfl⟩
  rcases mem_cons.mp hg with rfl | hg
  · exact .inr (.inl h.file.base)
  · exact .inr (.inr ⟨g, hg, rfl⟩)

section

variable (h : Inv s pieces act fresh lost)
include h

theorem Inv.compactList {seq active floor : ℕ}
    (hc : s.compaction = .listing seq active floor) : (s.compactList seq active floor).Ok := by
  have hok := h.compaction
  rw [hc] at hok
  obtain ⟨hcompacted, -, hactive⟩ := hok
  have hsorted := h.disk_sorted
  have hdoomed := fun b (hb : b ∈ doomed seq active (s.disk.map Segment.base)) =>
    mem_doomed hb (pairwise_map.mpr hsorted)
  rw [Log.compactList, listSegments_of_sorted hsorted]
  refine ⟨pieces, act, fresh, lost, h.compacting (Nat.zero_le _) h.disk h.layout ⟨fun b hb => ?_, fun p hp hb => ?_⟩⟩
  · obtain ⟨hne, hmem, n, hn, hlt, hle⟩ := hdoomed b hb
    rcases h.toCore.mem_bases hmem with ⟨p, hp, rfl⟩ | hb | ⟨g, hg, rfl⟩
    · exact (h.layout.below p hp).2
    · -- the active segment is only followed by what a roll has created, past the bound
      have hle_active : seq ≤ s.segmentBase := hactive.resolve_left fun heq => hne (hb.trans heq.symm)
      omega
    · rcases h.toCore.mem_bases hn with ⟨q, hq, rfl⟩ | hb | ⟨f, hf, rfl⟩
      · have := (h.layout.below q hq).2
        have := h.fresh_lt g hg
        omega
      · have := h.fresh_lt g hg
        omega
      · exact absurd hlt (by rw [h.fresh_base hf, h.fresh_base hg]; exact lt_irrefl _)
  · obtain ⟨-, -, n, hn, hlt, hle⟩ := hdoomed _ hb
    have hbelow := h.layout.below p hp
    have hstop : p.2 ≤ n := by
      rcases h.toCore.mem_bases hn with ⟨q, hq, rfl⟩ | hb | ⟨f, hf, rfl⟩
      · exact stop_le_base h.layout.sorted hp hq hlt
      · omega
      · have := h.fresh_lt f hf
        omega
    exact le_trans hstop (le_trans hle hcompacted)

theorem Inv.remove {base : ℕ} {rest : List ℕ} {floor newFloor : ℕ}
    (hc : s.compaction = .removing (base :: rest) floor newFloor) : Log.Ok { s with
      disk := removeSegment s.disk base, compaction := .removing rest floor newFloor } := by
  have hok := h.compaction
  rw [hc] at hok
  obtain ⟨hbelow, hstop⟩ := hok
  refine ⟨_, act, fresh, lost, h.compacting (Nat.zero_le _)
    (h.remove_sealed h.fresh_lt (hbelow base (.head _))) (h.layout.filter _ fun p hp hgone => ?_)
    ⟨fun b hb => hbelow b (.tail _ hb), fun p hp hb => ?_⟩⟩
  · have hbase : p.1.base = base := by simpa using hgone
    exact hstop p hp (hbase ▸ (.head _))
  · exact hstop p (mem_filter.mp hp).1 (.tail _ hb)

theorem Inv.closing (hh : s.holder = .free) (closed fileOpen : Bool) :
    Inv { s with closed := closed, fileOpen := fileOpen } pieces act fresh lost where
  toCore := { h.toCore with
    file := { h.file with }
    batches := { h.batches with }
    flight := h.flight }
  holder := by
    have hfresh := h.holder
    change HolderOk _ act fresh lost s.holder
    rw [hh] at hfresh ⊢
    exact hfresh

end

/-- The condition on a step: a failed roll removes its file, a compaction's bound is not above the next
seq, and seqs stay within their 64 bits. -/
def Log.clean (s : Log) : Action → Bool
  | .stage => s.nextSeq < 2 ^ 64
  | .syncDir ok removed => ok || removed
  | .closeOld ok removed => ok || removed
  | .compactBefore seq => seq ≤ s.nextSeq
  | _ => true

theorem Log.Ok.step {a : Action} (h : s.Ok) (hclean : s.clean a = true) (hstep : s.step a = some s') : s'.Ok := by
  obtain ⟨pieces, act, fresh, lost, h⟩ := h
  cases a with simp only [Log.step] at hstep
  | append many records =>
    split at hstep
    next hh =>
      split at hstep
      · cases hstep
      split at hstep
      · cases hstep
      rename_i hsizes
      split at hstep <;> cases hstep
      refine ⟨_, _, _, _, h.append hh fun f hf => ?_⟩
      simp only [any_eq_true, not_exists, not_and, Bool.or_eq_true, not_or, beq_iff_eq,
        decide_eq_true_eq, not_lt] at hsizes
      obtain ⟨hne, hle⟩ := hsizes f hf
      exact ⟨pos_of_ne_zero hne, hle⟩
    · cases hstep
  | stage =>
    split at hstep
    next c hh => exact h.stage hh (of_decide_eq_true hclean) hstep
    · cases hstep
  | write n ok =>
    split at hstep
    next rest k hh => exact h.write hh hstep
    · cases hstep
  | sync ok =>
    split at hstep <;> cases hstep
    next k hh => exact h.sync hh ok
  | create ok =>
    split at hstep
    next k hh => exact h.rollCreate hh hstep
    · cases hstep
  | syncDir ok removed =>
    split at hstep <;> cases hstep
    next k hh => exact h.rollSyncDir hh (Bool.or_eq_true_iff.mp hclean)
  | closeOld ok removed =>
    split at hstep <;> cases hstep
    next k hh => exact h.rollClose hh (Bool.or_eq_true_iff.mp hclean)
  | flush =>
    split at hstep
    next hh hf => exact h.flushDetach hh hf hstep
    · cases hstep
  | flushWrite n ok =>
    split at hstep
    next f hf =>
      split at hstep
      next rest hstage =>
        obtain ⟨batch, base, stop, stage⟩ := f
        obtain rfl : stage = .writing rest := hstage
        exact h.flushWrite hf hstep
      · cases hstep
    · cases hstep
  | flushSync ok =>
    split at hstep
    next f hf =>
      split at hstep
      next hstage =>
        obtain ⟨batch, base, stop, stage⟩ := f
        obtain rfl : stage = .syncing := hstage
        cases hstep
        exact h.flushSync hf ok
      · cases hstep
    · cases hstep
  | flushed =>
    split at hstep
    next f hh hf =>
      split at hstep
      next ok hstage =>
        obtain ⟨batch, base, stop, stage⟩ := f
        obtain rfl : stage = .ended ok := hstage
        cases hstep
        exact h.flushed hh hf
      · cases hstep
    · cases hstep
  | read start q =>
    split at hstep <;> cases hstep
    next hq => exact ⟨_, _, _, _, h.readRecord hq⟩
  | compactBefore seq =>
    split at hstep
    next hh hc => exact h.compactStart hh (of_decide_eq_true hclean) hstep
    · cases hstep
  | snapshot =>
    split at hstep <;> cases hstep
    next seq hh hc => exact h.compactSnapshot hc
  | list =>
    split at hstep <;> cases hstep
    next seq active floor hc => exact h.compactList hc
  | remove ok =>
    split at hstep
    next base rest floor newFloor hc =>
      split at hstep <;> cases hstep
      · exact h.remove hc
      · exact ⟨_, _, _, _, h.compacting (c := .idle) (Nat.zero_le _) h.disk h.layout trivial⟩
    · cases hstep
  | settle =>
    split at hstep <;> cases hstep
    exact ⟨_, _, _, _, h.compacting (c := .idle) (Nat.zero_le _) h.disk h.layout trivial⟩
  | stop =>
    split at hstep <;> cases hstep
    next hh => exact ⟨_, _, _, _, h.closing hh _ _⟩
  | closeFile =>
    split at hstep
    next hh hf =>
      split at hstep <;> cases hstep
      exact ⟨_, _, _, _, h.closing hh _ _⟩
    · cases hstep

end Narad.Wal
