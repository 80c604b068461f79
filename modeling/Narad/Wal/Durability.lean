import Narad.Wal.BackgroundSteps

/-!
# No acknowledged record is lost

Under the invariant a crash leaves sealed segments as they are and a prefix of the active one that has
its synced bytes. `Open` cuts it at the last whole frame and goes on from there, so the invariant holds
again and any number of crashes may follow.

The invariant needs every failed roll to remove the file it created, and every compaction bound to be
at or below the next seq. A leftover file makes replay pass over the segment that is still written to;
a bound ahead of the log lets a compaction delete it.
-/

namespace Narad.Wal

open Lib List Option Log

variable {s : Log} {pieces : List (Segment × ℕ)} {act : Segment} {fresh : List Segment} {lost : Bytes}

/-- The records read stay read, and only `CompactBefore` raises the bound. -/
structure Log.Follows (s s' : Log) : Prop where
  read : ∀ q ∈ s.read, q ∈ s'.read
  compacted : s'.compacted = s.compacted

theorem Log.Follows.trans {s s' s'' : Log} (h : s.Follows s') (h' : s'.Follows s'') : s.Follows s'' :=
  ⟨fun q hq => h'.read q (h.read q hq), h'.compacted.trans h.compacted⟩

theorem follows_giveUp (s : Log) (k : After) : s.Follows (s.giveUp k) := by
  cases k with
  | append c =>
    rw [giveUp]
    split <;> exact ⟨fun _ => id, rfl⟩
  | compact seq => exact ⟨fun _ => id, rfl⟩

theorem follows_goOn (s : Log) (k : After) : s.Follows (s.goOn k) := by
  cases k <;> exact ⟨fun _ => id, rfl⟩

theorem follows_completeBatch (s : Log) (batch : Option ℕ) (ok : Bool) : s.Follows (s.completeBatch batch ok) := by
  cases batch <;> exact ⟨fun _ => id, rfl⟩

theorem follows_openBatch (s : Log) : s.Follows s.openBatch := by
  unfold openBatch
  split <;> exact ⟨fun _ => id, rfl⟩

theorem follows_latch (s : Log) (k : After) : s.Follows (s.latch k) := by
  have hfirst : s.Follows { s with syncErr := true, pending := none } := ⟨fun _ => id, rfl⟩
  exact (hfirst.trans (follows_completeBatch _ _ _)).trans (follows_giveUp _ _)

variable {s' : Log} {k : After}

theorem follows_stage {c : Call} (h : s.stage c = some s') : s.Follows s' := by
  unfold stage at h
  split at h
  · obtain ⟨batch, -, rfl⟩ := map_eq_some_iff.mp h
    exact ⟨fun _ => id, rfl⟩
  split at h
  · unfold syncLocked at h
    split_ifs at h <;> cases h <;> exact ⟨fun _ => id, rfl⟩
  dsimp only at h
  split at h <;> cases h
  · exact (follows_openBatch s).trans ⟨fun _ => id, rfl⟩
  · exact (follows_openBatch s).trans (follows_giveUp _ _)

variable {ok : Bool} {n : ℕ}

theorem follows_inlineWrite {rest : Bytes} (h : s.inlineWrite rest k n ok = some s') : s.Follows s' := by
  unfold inlineWrite at h
  split at h
  · cases h
    exact follows_latch s k
  split at h
  · cases h
    refine Log.Follows.trans ?_ (follows_latch _ k)
    exact ⟨fun _ => id, rfl⟩
  split at h
  · cases h
    exact ⟨fun _ => id, rfl⟩
  split at h <;> cases h
  exact ⟨fun _ => id, rfl⟩

theorem follows_inlineSync (s : Log) (k : After) (ok : Bool) : s.Follows (s.inlineSync k ok) := by
  unfold inlineSync
  split
  · refine Log.Follows.trans ?_ (follows_latch _ k)
    exact ⟨fun _ => id, rfl⟩
  have hsynced : s.Follows { s with
      disk := updateSegment s.disk s.segmentBase .sync
      durableSize := s.segmentSize
      pending := none } := ⟨fun _ => id, rfl⟩
  exact (hsynced.trans (follows_completeBatch _ s.pending true)).trans ⟨fun _ => id, rfl⟩

theorem follows_rollCreate (h : s.rollCreate k ok = some s') : s.Follows s' := by
  unfold rollCreate at h
  split at h
  · cases h
  split at h
  · cases h
    refine Log.Follows.trans ?_ (follows_giveUp _ k)
    exact ⟨fun _ => id, rfl⟩
  split at h <;> cases h
  · exact follows_giveUp s k
  · exact ⟨fun _ => id, rfl⟩

theorem follows_rollBack (s : Log) (k : After) (removed : Bool) : s.Follows (s.rollBack k removed) := by
  unfold rollBack
  split
  · refine Log.Follows.trans ?_ (follows_giveUp _ k)
    exact ⟨fun _ => id, rfl⟩
  · exact follows_giveUp s k

theorem follows_flushed (s : Log) (f : Flight) (ok : Bool) : s.Follows (s.flushed f ok) := by
  unfold flushed
  split
  · refine Log.Follows.trans ?_ (follows_completeBatch _ f.batch true)
    exact ⟨fun _ => id, rfl⟩
  have hfailed : s.Follows
      { s with flight := none, syncErr := true, writeBuffer := [], pending := none } :=
    ⟨fun _ => id, rfl⟩
  exact (hfailed.trans (follows_completeBatch _ s.pending false)).trans (follows_completeBatch _ f.batch false)

theorem Log.step_follows {a : Action} (ha : ∀ seq, a ≠ .compactBefore seq)
    (hstep : s.step a = some s') : s.Follows s' := by
  cases a with simp only [step] at hstep
  | compactBefore seq => exact absurd rfl (ha seq)
  | append | list | remove | settle | stop | closeFile =>
    -- none of these touches what was read or compacted
    repeat' split at hstep
    all_goals cases hstep
    all_goals exact ⟨fun _ => id, rfl⟩
  | stage =>
    split at hstep
    · exact follows_stage hstep
    · cases hstep
  | write n ok =>
    split at hstep
    · exact follows_inlineWrite hstep
    · cases hstep
  | sync ok =>
    split at hstep <;> cases hstep
    exact follows_inlineSync s _ ok
  | create ok =>
    split at hstep
    · exact follows_rollCreate hstep
    · cases hstep
  | syncDir ok removed =>
    split at hstep <;> cases hstep
    rw [rollSyncDir]
    split
    · exact ⟨fun _ => id, rfl⟩
    · exact follows_rollBack s _ removed
  | closeOld ok removed =>
    split at hstep <;> cases hstep
    rw [rollClose]
    split
    · refine Log.Follows.trans ?_ (follows_goOn _ _)
      exact ⟨fun _ => id, rfl⟩
    · exact follows_rollBack s _ removed
  | flush =>
    split at hstep
    · unfold flushDetach at hstep
      split at hstep <;> cases hstep
      exact ⟨fun _ => id, rfl⟩
    · cases hstep
  | flushWrite n ok =>
    split at hstep
    · split at hstep
      · unfold flushWrite at hstep
        split_ifs at hstep <;> cases hstep <;> exact ⟨fun _ => id, rfl⟩
      · cases hstep
    · cases hstep
  | flushSync ok =>
    split at hstep
    · split at hstep <;> cases hstep
      rw [flushSync]
      split <;> exact ⟨fun _ => id, rfl⟩
    · cases hstep
  | flushed =>
    split at hstep
    · split at hstep <;> cases hstep
      exact follows_flushed s _ _
    · cases hstep
  | read start q =>
    split at hstep <;> cases hstep
    exact ⟨fun _ => mem_cons_of_mem _, rfl⟩
  | snapshot =>
    split at hstep <;> cases hstep
    rw [compactSnapshot]
    split <;> exact ⟨fun _ => id, rfl⟩

theorem open_history {o : Options} {disk : List Segment} {h : History} {t : Log}
    (hopen : «open» o disk h = .ok t) : t.read = h.read ∧ t.compacted = h.compacted := by
  unfold «open» at hopen
  dsimp only at hopen
  split at hopen <;> cases hopen
  exact ⟨rfl, rfl⟩

/-- A directory that `Open` can recover: sealed segments and a last one with a prefix of the rest. -/
structure Recoverable (staged : List Bytes) (bound : ℕ) (pieces : List (Segment × ℕ)) (last : Segment) : Prop where
  layout : Layout staged bound last.base pieces
  base_le : last.base ≤ staged.length
  file : last.file <+: framesOf last.base (staged.drop last.base)

/-- The next seq that `Open` finds. -/
def recovered (staged : List Bytes) (last : Segment) : ℕ :=
  last.base + wholeFrames last.file.length (staged.drop last.base)

variable {staged : List Bytes}

theorem Holds.crash_eq {g : Segment} {stop : ℕ} (h : Holds staged g stop) (keep : ℕ → ℕ) :
    { g with file := g.file.take (max g.synced (keep g.base)) } = g := by
  obtain ⟨base, file, synced⟩ := g
  have hsynced : synced = file.length := h.synced_eq
  rw [hsynced, take_of_length_le (le_max_left _ _)]

theorem crash_sealed {bound next : ℕ} (h : Layout staged bound next pieces)
    (keep : ℕ → ℕ) : crash (pieces.map Prod.fst) keep = pieces.map Prod.fst := by
  rw [crash]
  conv_rhs => rw [← map_id (pieces.map Prod.fst)]
  refine map_congr_left fun g hg => ?_
  obtain ⟨p, hp, rfl⟩ := mem_map.mp hg
  exact (h.holds p hp).crash_eq keep

/-- The records that were kept are in what a crash leaves. -/
theorem Inv.crash (h : Inv s pieces act fresh lost) (keep : ℕ → ℕ) :
    ∃ pieces last, crash s.disk keep = pieces.map Prod.fst ++ [last] ∧ Recoverable s.staged s.compacted pieces last ∧
      ∀ q, Kept s.staged s.segmentBase act.synced q → q ≤ recovered s.staged last := by
  set act' : Segment := { act with file := act.file.take (max act.synced (keep act.base)) } with hact'
  have hpre : act.file <+: framesOf s.segmentBase (s.staged.drop s.segmentBase) :=
    ⟨lost ++ s.writeBuffer, h.file.frames⟩
  have hlen : act.synced ≤ act'.file.length := by
    rw [hact', length_take]
    exact le_min (le_max_left _ _) h.file.synced_le
  have hcrash : Wal.crash s.disk keep = pieces.map Prod.fst ++ act' :: Wal.crash fresh keep := by
    have hsealed := crash_sealed h.layout keep
    rw [Wal.crash] at hsealed ⊢
    rw [h.disk, map_append, map_cons, hsealed]
    rfl
  have hshort : Recoverable s.staged s.compacted pieces act' ∧
      ∀ q, Kept s.staged s.segmentBase act.synced q → q ≤ recovered s.staged act' := by
    refine ⟨⟨?_, ?_, ?_⟩, fun q hq => ?_⟩
    · rw [show act'.base = s.segmentBase from h.file.base]
      exact h.layout
    · rw [show act'.base = s.segmentBase from h.file.base]
      exact h.base_le
    · rw [show act'.base = s.segmentBase from h.file.base]
      exact (List.take_prefix _ _).trans hpre
    · rw [recovered, show act'.base = s.segmentBase from h.file.base]
      rcases hq with hq | ⟨hq, hreach⟩
      · exact le_trans hq (Nat.le_add_right _ _)
      have hwhole : q - s.segmentBase ≤ wholeFrames act'.file.length (s.staged.drop s.segmentBase) := by
        have hend : (framesOf s.segmentBase ((s.staged.drop s.segmentBase).take
            (q - s.segmentBase))).length ≤ act'.file.length := by
          rw [← drop_take]
          exact le_trans hreach hlen
        exact le_wholeFrames (by rw [length_drop]; omega) hend
      omega
  rcases h.fresh_eq with rfl | ⟨rfl, hready⟩
  · exact ⟨pieces, act', hcrash, hshort⟩
  have hholds : Holds s.staged act s.nextSeq := by
    have hframes := h.file.frames
    rw [hready.lost_nil, hready.buffer, append_nil, append_nil] at hframes
    refine ⟨h.file.base ▸ hready.base_lt.le, h.next.le, ?_, hready.synced⟩
    rw [h.file.base, h.next, span_length_self, hframes]
  have hfresh : Wal.crash [⟨s.nextSeq, [], 0⟩] keep = [⟨s.nextSeq, [], 0⟩] := by
    rw [Wal.crash, map_singleton, take_nil]
  refine ⟨pieces ++ [(act, s.nextSeq)], ⟨s.nextSeq, [], 0⟩, ?_, ⟨?_, h.next.le, nil_prefix⟩, fun q hq => ?_⟩
  · rw [hcrash, hfresh, hact', hholds.crash_eq keep, map_append, append_assoc]
    rfl
  · exact Layout.snoc (h.file.base ▸ h.layout) hholds (h.file.base ▸ hready.base_lt)
  · refine le_trans (hq.le_length h.base_le) ?_
    rw [← h.next]
    exact Nat.le_add_right _ _

theorem normalizeOptions_idem (o : Options) : normalizeOptions (normalizeOptions o) = normalizeOptions o := by
  obtain ⟨segmentBytes, maxRecord, compactRotateBytes⟩ := o
  simp only [normalizeOptions, Options.mk.injEq]
  refine ⟨?_, ?_, ?_⟩ <;> split <;> simp_all

/-- The last segment cut at its last whole frame. -/
def trimmed (staged : List Bytes) (last : Segment) : Segment :=
  { last with
    file := framesOf last.base (span staged last.base (recovered staged last))
    synced := reach staged last.base (recovered staged last) }

theorem Recoverable.trim {bound : ℕ} {last : Segment} (h : Recoverable staged bound pieces last) :
    resize last.file (reach staged last.base (recovered staged last)) =
      framesOf last.base (span staged last.base (recovered staged last)) := by
  set payloads := staged.drop last.base with hpayloads
  have hspan : span staged last.base (recovered staged last) =
      payloads.take (wholeFrames last.file.length payloads) := by
    rw [recovered, span_add_take]
  have hle := framesOf_take_wholeFrames_le last.base last.file.length payloads
  rw [reach, hspan, resize_of_le hle]
  refine (prefix_iff_eq_take.mp ?_).symm
  have hrun : framesOf last.base (payloads.take (wholeFrames last.file.length payloads)) <+:
      framesOf last.base payloads := by
    conv_rhs => rw [← take_append_drop (wholeFrames last.file.length payloads) payloads, framesOf_append]
    exact prefix_append _ _
  exact prefix_of_prefix_length_le hrun h.file hle

theorem recovered_le {last : Segment} (h : last.base ≤ staged.length) : recovered staged last ≤ staged.length := by
  have := wholeFrames_le last.file.length (staged.drop last.base)
  rw [length_drop] at this
  rw [recovered]
  omega

/-- What `Open` is given back of the history is in the directory. -/
structure Remembered (h : History) (maxRecord : ℕ) (last : Segment) : Prop where
  fit : AllFit maxRecord 0 h.staged
  acked : ∀ r ∈ h.acked, r.StagedIn h.staged ∧ r.seq < recovered h.staged last
  read : ∀ q ∈ h.read, q < recovered h.staged last
  bases : ∀ b ∈ h.bases, b ≤ recovered h.staged last

section

variable {opts : Options} {disk : List Segment} {h : History} {last : Segment}

theorem Recoverable.sorted (hrec : Recoverable h.staged h.compacted pieces last)
    (hdisk : disk = pieces.map Prod.fst ++ [last]) : disk.Pairwise fun a b => a.base < b.base := by
  rw [hdisk]
  exact hrec.layout.disk_sorted (by simp) List.Pairwise.nil

/-- The log that `Open` makes of a recoverable directory. -/
theorem opened_inv (hopts : normalizeOptions opts = opts) (hsmall : opts.maxRecord < 2 ^ 32)
    (hdisk : disk = pieces.map Prod.fst ++ [last]) (hrec : Recoverable h.staged h.compacted pieces last)
    (hmem : Remembered h opts.maxRecord last) : Inv (opened opts disk h last.base (recovered h.staged last)
        (reach h.staged last.base (recovered h.staged last))) pieces (trimmed h.staged last) [] [] := by
  set n := recovered h.staged last with hn
  have hbase : last.base ≤ n := Nat.le_add_right _ _
  have hlen : (h.staged.take n).length = n := by
    rw [length_take, min_eq_left (recovered_le hrec.base_le)]
  have hreach : reach (h.staged.take n) last.base n = reach h.staged last.base n := reach_take le_rfl
  have hkept : ∀ q ≤ n, Kept (h.staged.take n) last.base (reach h.staged last.base n) q := fun q hq =>
    kept_of_whole (by rw [hlen, hreach]) (by rw [hlen]; exact hq)
  have hupdate : ∀ f : Segment → Segment,
      updateSegment disk last.base f = pieces.map Prod.fst ++ [f last] := by
    intro f
    have hsealed : updateSegment (pieces.map Prod.fst) last.base f = pieces.map Prod.fst := by
      refine updateSegment_of_ne fun g hg => ?_
      obtain ⟨p, hp, rfl⟩ := mem_map.mp hg
      exact (hrec.layout.below p hp).2.ne
    rw [updateSegment] at hsealed ⊢
    rw [hdisk, map_append, hsealed, map_singleton, if_pos rfl]
  have hfile : FileOk (opened opts disk h last.base n (reach h.staged last.base n))
      (trimmed h.staged last) [] := by
    refine ⟨rfl, ?_, fun _ => rfl, le_rfl, fun _ _ _ => rfl, le_rfl⟩
    exact append_nil _
  exact {
    opts := hopts
    small := hsmall
    disk := by
      change updateSegment disk last.base _ = _
      rw [hupdate, hrec.trim]
      rfl
    layout := hrec.layout.congr fun g stop hstop hg => hg.take (le_trans hstop hbase)
    next := hlen.symm
    base_le := hlen.symm ▸ hbase
    fit := hmem.fit.take n
    size := by
      change reach h.staged last.base n = reach (h.staged.take n) last.base (h.staged.take n).length
      rw [hlen, hreach]
    file := hfile
    batches := ⟨by simp [opened], by simp [opened], by simp [opened]⟩
    flight := by simp [opened]
    acked := fun r hr => ⟨(hmem.acked r hr).1.take (hmem.acked r hr).2, hkept _ (hmem.acked r hr).2⟩
    read := fun q hq => hkept _ (hmem.read q hq)
    bases := fun b hb => by
      refine hkept b ?_
      rcases mem_append.mp hb with hb | hb
      · obtain ⟨g, hg, rfl⟩ := mem_map.mp hb
        rw [hdisk] at hg
        rcases mem_append.mp hg with hg | hg
        · obtain ⟨p, hp, rfl⟩ := mem_map.mp hg
          exact le_trans (hrec.layout.below p hp).2.le hbase
        · rw [mem_singleton.mp hg]
          exact hbase
      · exact hmem.bases b hb
    compaction := trivial
    holder := rfl }

theorem open_eq {o : Options} (hfit : AllFit (normalizeOptions o).maxRecord 0 h.staged)
    (hdisk : disk = pieces.map Prod.fst ++ [last]) (hrec : Recoverable h.staged h.compacted pieces last) :
    «open» o disk h = .ok (opened (normalizeOptions o) disk h last.base (recovered h.staged last)
      (reach h.staged last.base (recovered h.staged last))) := by
  have hsorted := hrec.sorted hdisk
  have hinfos : segmentInfos disk = pieces.map (fun p => p.1.info) ++ [last.info] := by
    rw [segmentInfos, listSegments_of_sorted hsorted, hdisk, List.map_append, List.map_map]
    rfl
  have hlast : ((listSegments disk).getLast?.map Segment.base).getD 0 = last.base := by
    rw [listSegments_of_sorted hsorted, hdisk, getLast?_concat]
    rfl
  have hne : disk ≠ [] := by
    rw [hdisk]
    simp
  have hfile : last.info.file <+: framesOf last.info.base (h.staged.drop last.info.base) := hrec.file
  obtain ⟨nextSeq, hscan, hnext⟩ := scanForOpen_of_layout hfit hfile
    (fun p hp => ⟨hrec.layout.holds p hp, (hrec.layout.below p hp).1⟩) (Nat.zero_le last.info.base)
  have hnext' : max nextSeq last.base = recovered h.staged last := hnext
  simp only [«open», if_neg hne, hinfos, hscan, hlast, hnext']
  rw [reach, recovered, span_add_take]
  rfl

end

/-- Replay of the whole log from a seq that compaction has not passed. -/
theorem Inv.replay_eq (h : Inv s pieces act [] []) (hbuffer : s.writeBuffer = []) {start : ℕ}
    (hstart : s.compacted ≤ start) :
    replay start s.opts.maxRecord (segmentInfos s.disk) = (recordsOf start (s.staged.drop start), none) := by
  have hframes := h.file.frames
  rw [hbuffer, append_nil, append_nil] at hframes
  have hbase : act.info.base = s.segmentBase := h.file.base
  have hinfos : segmentInfos s.disk = pieces.map (fun p => p.1.info) ++ [act.info] := by
    rw [segmentInfos, listSegments_of_sorted h.disk_sorted, h.disk, List.map_append, List.map_map]
    rfl
  have hfile : act.info.file = framesOf act.info.base (s.staged.drop act.info.base) := by
    rw [hbase]
    exact hframes
  have hstop : act.info.base + wholeFrames act.info.file.length (s.staged.drop act.info.base) =
      s.staged.length := by
    rw [hfile, wholeFrames_length, length_drop, hbase]
    exact Nat.add_sub_cancel' h.base_le
  rw [hinfos, replay_of_layout h.fit (by rw [← hfile]) (hbase ▸ h.base_le)
    (hbase ▸ h.layout.mono hstart) le_rfl (fun hlt => absurd hlt (lt_irrefl _)), hstop, span_length_self]

theorem Log.Ok.read_lt (h : s.Ok) {q : ℕ} (hq : q ∈ s.read) : q < s.nextSeq := by
  obtain ⟨pieces, act, fresh, lost, h⟩ := h
  rw [h.next]
  exact (h.read q hq).le_length h.base_le

/-- The oldest segment starts at or below the compaction bound. -/
theorem Log.Ok.firstSeq_le (h : s.Ok) : s.firstSeq ≤ s.compacted := by
  obtain ⟨pieces, act, fresh, lost, h⟩ := h
  rw [firstSeq, listSegments_of_sorted h.disk_sorted, h.disk]
  by_contra hlt
  cases pieces with
  | nil =>
    have hfirst : s.compacted < s.segmentBase := h.file.base ▸ Nat.lt_of_not_le hlt
    obtain ⟨p, hp, -⟩ := h.layout.covers s.compacted le_rfl hfirst
    exact not_mem_nil hp
  | cons p pieces =>
    have hfirst : s.compacted < p.1.base := Nat.lt_of_not_le hlt
    have hbelow := (h.layout.below p (.head _)).2
    obtain ⟨q, hq, hle, -⟩ := h.layout.covers s.compacted le_rfl (hfirst.trans hbelow)
    rcases mem_cons.mp hq with rfl | hq
    · omega
    · have := ((pairwise_cons.mp h.layout.sorted).1 q hq).2
      omega

/-- What the log `t` that `Open` makes after a crash has of the log `s` before it: a prefix of the staged
records with every acknowledged one, delivered by replay from any seq at or above the compaction bound
as consecutive records with their payloads; and a next seq above every acknowledged seq and every seq
that was read, and not below a segment base seen before. -/
structure Log.Recovers (s t : Log) : Prop where
  staged : t.staged <+: s.staged
  acked : ∀ r ∈ s.acked, r.StagedIn t.staged
  replays : ∀ start, s.compacted ≤ start →
    replay start t.opts.maxRecord (segmentInfos t.disk) = (recordsOf start (t.staged.drop start), none)
  next_acked : ∀ r ∈ s.acked, r.seq < t.nextSeq
  next_read : ∀ q ∈ s.read, q < t.nextSeq
  next_bases : ∀ b ∈ s.bases, b ≤ t.nextSeq

/-- An acknowledged record is delivered by replay from its own seq. -/
theorem Log.Recovers.mem_replay {t : Log} {r : Record} (h : s.Recovers t) (hr : r ∈ s.acked)
    (hstart : s.compacted ≤ r.seq) : r ∈ (replay r.seq t.opts.maxRecord (segmentInfos t.disk)).1 := by
  obtain ⟨hlt, hget⟩ := List.getElem?_eq_some_iff.mp (h.acked r hr)
  rw [h.replays r.seq hstart, drop_eq_getElem_cons hlt, hget]
  exact .head _

theorem Log.Ok.reopen (h : s.Ok) (keep : ℕ → ℕ) : ∃ t, s.reopen keep = .ok t ∧ t.Ok ∧ s.Recovers t := by
  obtain ⟨pieces, act, fresh, lost, h⟩ := h
  obtain ⟨pieces', last, hdisk, hrec, hkept⟩ := h.crash keep
  have hmem : Remembered s.toHistory s.opts.maxRecord last :=
    ⟨h.fit, fun r hr => ⟨(h.acked r hr).1, hkept _ (h.acked r hr).2⟩, fun q hq => hkept _ (h.read q hq),
      fun b hb => hkept b (h.bases b hb)⟩
  have hopen := open_eq (o := s.opts) (by rw [h.opts]; exact h.fit) hdisk hrec
  have hinv := opened_inv h.opts h.small hdisk hrec hmem
  rw [h.opts] at hopen
  refine ⟨_, hopen, ⟨_, _, _, _, hinv⟩, take_prefix _ _, fun r hr => ?_, fun start hstart => ?_,
    fun r hr => (hmem.acked r hr).2, fun q hq => hmem.read q hq, fun b hb => hmem.bases b hb⟩
  · exact (hmem.acked r hr).1.take (hmem.acked r hr).2
  · exact hinv.replay_eq rfl hstart

/-- A restart is always allowed. -/
def Log.cleanEvent (s : Log) : Event → Bool
  | .act a => s.clean a
  | .restart _ => true

theorem Log.Ok.event {e : Event} (h : s.Ok) (hclean : s.cleanEvent e = true) (hstep : s.event e = some s') : s'.Ok := by
  cases e with
  | act a => exact h.step hclean hstep
  | restart keep =>
    obtain ⟨t, hopen, hok, -⟩ := h.reopen keep
    rw [Log.event, hopen] at hstep
    obtain rfl : t = s' := some.inj hstep
    exact hok

theorem create_ok (o : Options) (hsmall : (normalizeOptions o).maxRecord < 2 ^ 32) : ∃ s, create o = .ok s ∧ s.Ok := by
  set h : History := ⟨[], [], [], [], 0⟩
  set last : Segment := ⟨0, [], 0⟩
  have hrec : Recoverable h.staged h.compacted [] last := by
    refine ⟨⟨by simp, List.Pairwise.nil, by simp, fun q _ hq => absurd hq (Nat.not_lt_zero q)⟩, le_rfl, prefix_rfl⟩
  have hmem : Remembered h (normalizeOptions o).maxRecord last := ⟨trivial, by simp [h], by simp [h], by simp [h]⟩
  have hdisk : [last] = ([] : List (Segment × ℕ)).map Prod.fst ++ [last] := rfl
  have hopen := open_eq (o := o) (h := h) trivial hdisk hrec
  exact ⟨_, hopen, _, _, _, _, opened_inv (normalizeOptions_idem o) hsmall rfl hrec hmem⟩

/-- After any run of a log on an empty directory, with any number of restarts in it, whose failed rolls
removed their files and whose compaction bounds did not exceed the next seq, a crash loses no
acknowledged record and `Open` succeeds. -/
theorem wal_recovers_after_clean_runs (o : Options) (hsmall : (normalizeOptions o).maxRecord < 2 ^ 32)
    (first s : Log) (hfirst : create o = .ok first) (events : List Event)
    (hclean : cleanRun Log.event Log.cleanEvent first events = true)
    (hrun : runWith Log.event first events = some s) (keep : ℕ → ℕ) : ∃ t, s.reopen keep = .ok t ∧ s.Recovers t := by
  obtain ⟨first', hcreate, hok⟩ := create_ok o hsmall
  obtain rfl : first' = first := Except.ok.inj (hcreate.symm.trans hfirst)
  obtain ⟨t, hopen, -, hrec⟩ :=
    (run_induction (fun _ _ _ h hclean hstep => h.event hclean hstep) hok hclean hrun).reopen keep
  exact ⟨t, hopen, hrec⟩

/-- Segments of 90 bytes. -/
def smallOptions : Options :=
  ⟨90, 100, 1000⟩

/-- The log on an empty directory. -/
def smallLog : Log :=
  opened smallOptions [⟨0, [], 0⟩] ⟨[], [], [], [], 0⟩ 0 0 0

theorem create_smallOptions : create smallOptions = .ok smallLog := by
  rfl

/-- `Append` of `n` equal bytes, up to the roll if it needs one. -/
def appendOf (n : ℕ) (b : UInt8) : List Event :=
  [.act (.append false [⟨n, some (List.replicate n b)⟩]), .act .stage]

/-- The caller waits and a flush succeeds. -/
def flushAll : List Event :=
  [.act .stage, .act .flush, .act (.flushWrite 1000 true), .act (.flushSync true), .act .flushed]

def rollOver : List Event :=
  [.act (.create true), .act (.syncDir true true), .act (.closeOld true true), .act .stage]

/-- Two segments, a failed roll that is cleaned up, a compaction, and a batch whose write fails. -/
def tornBatch : List Event :=
  appendOf 60 1 ++ flushAll ++ appendOf 20 2 ++ rollOver ++ flushAll ++ appendOf 40 3 ++
    [Event.act (.create true), .act (.syncDir false true), .act (.compactBefore 1), .act .snapshot, .act .list,
      .act (.remove true), .act .settle] ++
    [Event.act (.append true [⟨2, some [4, 4]⟩, ⟨3, some [5, 5, 5]⟩]), .act .stage, .act .stage, .act .stage,
      .act .flush, .act (.flushWrite 30 false)]

theorem tornBatch_recovers : ∃ s, runWith Log.event smallLog tornBatch = some s ∧ s.acked.map Record.seq = [0, 1] ∧
      s.compacted = 1 ∧ s.staged.length = 4 ∧ ∃ t, s.reopen (fun _ => 100) = .ok t ∧ s.Recovers t := by
  have hrun := (some_get (x := runWith event smallLog tornBatch) (by decide +kernel)).symm
  refine ⟨_, hrun, by decide +kernel, by decide +kernel, by decide +kernel, ?_⟩
  exact wal_recovers_after_clean_runs smallOptions (by decide) smallLog _ create_smallOptions tornBatch
    (by decide +kernel) hrun _

/-- A roll whose directory sync fails and whose new file stays; then a record that still fits. -/
def leftoverFile : List Event :=
  appendOf 40 1 ++ flushAll ++ appendOf 60 2 ++ [Event.act (.create true), .act (.syncDir false false)] ++
    appendOf 10 3 ++ flushAll

/-- A compaction bound ahead of the log, and a roll that fails while the compaction lists the directory. -/
def boundAhead : List Event :=
  appendOf 60 1 ++ flushAll ++ [Event.act (.compactBefore 3), .act .snapshot] ++
    appendOf 20 2 ++ rollOver ++ flushAll ++ appendOf 40 3 ++
    [Event.act (.create true), .act .list, .act (.remove true), .act (.syncDir false true)] ++
    appendOf 1 4 ++ flushAll ++ appendOf 1 5 ++ flushAll

/-- What replay from `start` delivers after a crash that keeps only what was synced, and the next seq. -/
def afterCrash (s : Log) (start : ℕ) : Option (Replayed × ℕ) :=
  (s.reopen (fun _ => 0)).toOption.map fun t =>
    (replay start t.opts.maxRecord (segmentInfos t.disk), t.nextSeq)

theorem not_recovers_of_afterCrash {r : Record} (hr : r ∈ s.acked)
    (hstart : s.compacted ≤ r.seq) (h : afterCrash s r.seq = some (([], none), n)) :
    ∃ t, s.reopen (fun _ => 0) = .ok t ∧ t.nextSeq = n ∧
      replay r.seq t.opts.maxRecord (segmentInfos t.disk) = ([], none) ∧ ¬s.Recovers t := by
  obtain ⟨t, ht, heq⟩ := map_eq_some_iff.mp h
  obtain ⟨hreplay, hnext⟩ := Prod.mk.inj heq
  refine ⟨t, ?_, hnext, hreplay, fun hrec => ?_⟩
  · cases hopen : s.reopen (fun _ => 0) with
    | error e => exact absurd ht (by simp [hopen, Except.toOption])
    | ok t' =>
      rw [hopen] at ht
      exact congrArg Except.ok (some.inj ht)
  · have := hrec.mem_replay hr hstart
    rw [hreplay] at this
    exact not_mem_nil this

/-- In the first run the acknowledged record 1 is in segment 0, which replay from 1 passes over because
of the leftover segment 1. In the second the active segment is deleted, and the acknowledged record 3
with it. -/
theorem unclean_runs_lose_acked_records :
    (∃ s t, runWith Log.event smallLog leftoverFile = some s ∧ s.reopen (fun _ => 0) = .ok t ∧
      ⟨1, List.replicate 10 3⟩ ∈ s.acked ∧ s.compacted = 0 ∧
      replay 1 t.opts.maxRecord (segmentInfos t.disk) = ([], none) ∧ ¬s.Recovers t) ∧
    ∃ s t, runWith Log.event smallLog boundAhead = some s ∧ s.reopen (fun _ => 0) = .ok t ∧
      ⟨3, [5]⟩ ∈ s.acked ∧ s.compacted = 3 ∧
      replay 3 t.opts.maxRecord (segmentInfos t.disk) = ([], none) ∧ t.nextSeq = 1 ∧ ¬s.Recovers t := by
  constructor
  · have hrun := (some_get (x := runWith event smallLog leftoverFile) (by decide +kernel)).symm
    obtain ⟨t, hopen, -, hreplay, hnot⟩ := not_recovers_of_afterCrash (r := ⟨1, replicate 10 3⟩) (n := 2)
      (s := (runWith event smallLog leftoverFile).get (by decide +kernel))
      (by decide +kernel) (by decide +kernel) (by decide +kernel)
    exact ⟨_, t, hrun, hopen, by decide +kernel, by decide +kernel, hreplay, hnot⟩
  · have hrun := (some_get (x := runWith event smallLog boundAhead) (by decide +kernel)).symm
    obtain ⟨t, hopen, hnext, hreplay, hnot⟩ := not_recovers_of_afterCrash (r := ⟨3, [5]⟩) (n := 1)
      (s := (runWith event smallLog boundAhead).get (by decide +kernel))
      (by decide +kernel) (by decide +kernel) (by decide +kernel)
    exact ⟨_, t, hrun, hopen, by decide +kernel, by decide +kernel, hreplay, hnext, hnot⟩

end Narad.Wal
