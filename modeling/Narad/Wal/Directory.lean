import Narad.Wal.Scan
import Mathlib.Data.List.Sort

/-!
# The segment directory

A segment file knows how many of its bytes are on stable storage. Sealed segments hold whole runs of
the staged records; compaction may leave gaps between them, but none at or above its bound. The last
segment holds a prefix of the bytes of what follows.

Over such a directory `scanForOpen` finds the end of the last whole frame, and replay from any seq at or
above the bound delivers the records from there to that end.
-/

namespace Narad.Wal

open Lib List

/-- A segment file; its first `synced` bytes are on stable storage. -/
structure Segment where
  base : ℕ
  file : Bytes
  synced : ℕ
  deriving DecidableEq

variable (disk : List Segment)

/-- The directory's segments by base. -/
def listSegments : List Segment :=
  disk.insertionSort fun a b => a.base ≤ b.base

variable (g : Segment)

def Segment.info : SegmentInfo :=
  ⟨g.base, g.file⟩

def segmentInfos : List SegmentInfo :=
  (listSegments disk).map Segment.info

/-- Apply `f` to the segment with this base, if it is still there. -/
def updateSegment (base : ℕ) (f : Segment → Segment) : List Segment :=
  disk.map fun g => if g.base = base then f g else g

def removeSegment (base : ℕ) : List Segment :=
  disk.filter fun g => g.base ≠ base

def Segment.append (data : Bytes) (g : Segment) : Segment :=
  { g with file := g.file ++ data }

def Segment.sync : Segment :=
  { g with synced := g.file.length }

/-- What a crash leaves of the directory: a segment keeps its synced bytes and possibly more. -/
def crash (keep : ℕ → ℕ) : List Segment :=
  disk.map fun g => { g with file := g.file.take (max g.synced (keep g.base)) }

/-- The payloads of the records from seq `b` up to seq `e`. -/
def span (staged : List Bytes) (b e : ℕ) : List Bytes :=
  (staged.take e).drop b

section

variable {staged more : List Bytes} {b m e seq start maxRecord : ℕ} {payloads : List Bytes}

@[simp] theorem span_length (staged : List Bytes) (b e : ℕ) : (span staged b e).length = min e staged.length - b := by
  simp [span]

theorem span_append (hb : b ≤ m) (hm : m ≤ e) (hlen : m ≤ staged.length) :
    span staged b m ++ span staged m e = span staged b e := by
  have hsplit : staged.take e = staged.take m ++ (staged.take e).drop m := by
    have := take_append_drop m (staged.take e)
    rw [take_take, min_eq_left hm] at this
    exact this.symm
  have hlen' : b ≤ (staged.take m).length := by simp; omega
  calc span staged b m ++ span staged m e
      = (staged.take m ++ (staged.take e).drop m).drop b := by
        rw [drop_append_of_le_length hlen', span, span]
    _ = span staged b e := by rw [← hsplit, span]

theorem span_length_self (staged : List Bytes) (b : ℕ) : span staged b staged.length = staged.drop b := by
  rw [span, take_length]

theorem span_of_le (h : e ≤ b) : span staged b e = [] := by
  rw [span, drop_eq_nil_of_le]
  exact le_trans (length_take_le _ _) h

/-- A span only depends on the records below its end. -/
theorem span_take (h : e ≤ m) : span (staged.take m) b e = span staged b e := by
  rw [span, span, take_take, min_eq_left h]

theorem span_left (h : e ≤ staged.length) : span (staged ++ more) b e = span staged b e := by
  rw [span, span, take_append_of_le_length h]

theorem span_add_take (staged : List Bytes) (b n : ℕ) : span staged b (b + n) = (staged.drop b).take n := by
  rw [span, drop_take, Nat.add_sub_cancel_left]

theorem recordsOf_append (seq : ℕ) (payloads more : List Bytes) : recordsOf seq (payloads ++ more) =
      recordsOf seq payloads ++ recordsOf (seq + payloads.length) more := by
  induction payloads generalizing seq with
  | nil => rfl
  | cons payload payloads ih =>
    simp only [cons_append, recordsOf, ih, length_cons]
    rw [add_assoc, add_comm 1]

theorem le_seq_of_mem_recordsOf {r : Record} (h : r ∈ recordsOf seq payloads) : seq ≤ r.seq := by
  induction payloads generalizing seq with
  | nil => exact absurd h not_mem_nil
  | cons payload payloads ih =>
    rcases mem_cons.mp h with rfl | h
    · exact le_rfl
    · exact Nat.le_of_succ_le (ih h)

theorem recordsOf_filter_all (h : start ≤ seq) :
    ((recordsOf seq payloads).filter fun r => decide (start ≤ r.seq)) = recordsOf seq payloads := by
  rw [filter_eq_self]
  intro r hr
  exact decide_eq_true (le_trans h (le_seq_of_mem_recordsOf hr))

theorem recordsOf_filter (h : seq ≤ start) : ((recordsOf seq payloads).filter fun r => decide (start ≤ r.seq)) =
      recordsOf start (payloads.drop (start - seq)) := by
  induction payloads generalizing seq with
  | nil => simp [recordsOf]
  | cons payload payloads ih =>
    rcases eq_or_lt_of_le h with rfl | hlt
    · rw [recordsOf_filter_all le_rfl, Nat.sub_self, drop_zero]
    · have hk : start - seq = start - (seq + 1) + 1 := by omega
      rw [recordsOf, filter_cons_of_neg (by simpa using hlt), ih hlt, hk, drop_succ_cons]

section

variable (h : AllFit maxRecord seq payloads)
include h

theorem AllFit.drop (n : ℕ) : AllFit maxRecord (seq + n) (payloads.drop n) := by
  induction payloads generalizing seq n with
  | nil => rw [drop_nil]; trivial
  | cons payload payloads ih =>
    cases n with
    | zero => exact h
    | succ n =>
      have := ih h.2 n
      rwa [add_assoc, add_comm 1] at this

theorem AllFit.take (n : ℕ) : AllFit maxRecord seq (payloads.take n) := by
  induction payloads generalizing seq n with
  | nil => rw [take_nil]; trivial
  | cons payload payloads ih =>
    cases n with
    | zero => trivial
    | succ n => exact ⟨h.1, ih h.2 n⟩

theorem AllFit.append {more : List Bytes}
    (hmore : AllFit maxRecord (seq + payloads.length) more) : AllFit maxRecord seq (payloads ++ more) := by
  induction payloads generalizing seq with
  | nil => exact hmore
  | cons payload payloads ih =>
    refine ⟨h.1, ih h.2 ?_⟩
    rwa [add_assoc, add_comm 1]

end

theorem AllFit.from (h : AllFit maxRecord 0 staged) (b : ℕ) : AllFit maxRecord b (staged.drop b) := by
  simpa using h.drop b

theorem framesOf_length_mono {n : ℕ} (h : m ≤ n) (seq : ℕ) (payloads : List Bytes) :
    (framesOf seq (payloads.take m)).length ≤ (framesOf seq (payloads.take n)).length := by
  have hsplit : payloads.take n = payloads.take m ++ (payloads.take n).drop m := by
    have := take_append_drop m (payloads.take n)
    rw [take_take, min_eq_left h] at this
    exact this.symm
  rw [hsplit, framesOf_append, length_append]
  exact Nat.le_add_right _ _

/-- A file that reaches past a record's frame has its frame whole. -/
theorem le_wholeFrames {n : ℕ} (hm : m ≤ payloads.length)
    (h : (framesOf seq (payloads.take m)).length ≤ n) : m ≤ wholeFrames n payloads := by
  induction payloads generalizing seq m n with
  | nil => exact le_trans hm (Nat.zero_le _)
  | cons payload payloads ih =>
    cases m with
    | zero => exact Nat.zero_le _
    | succ m =>
      simp only [take_succ_cons, framesOf, length_append, frameOf_length] at h
      rw [wholeFrames, if_neg (by omega)]
      have htail : (framesOf (seq + 1) (payloads.take m)).length ≤
          n - (frameHeaderSize + payload.length) := by omega
      exact Nat.succ_le_succ (ih (Nat.le_of_succ_le_succ hm) htail)

/-- The whole run is whole. -/
theorem wholeFrames_length (seq : ℕ) (payloads : List Bytes) :
    wholeFrames (framesOf seq payloads).length payloads = payloads.length :=
  le_antisymm (wholeFrames_le _ _) (le_wholeFrames le_rfl (by rw [take_length]))

end

/-- The segment holds the frames of the records from its base up to `stop`, all on stable storage. -/
structure Holds (staged : List Bytes) (g : Segment) (stop : ℕ) : Prop where
  base_le : g.base ≤ stop
  stop_le : stop ≤ staged.length
  file_eq : g.file = framesOf g.base (span staged g.base stop)
  synced_eq : g.synced = g.file.length

/-- The sealed segments below `next`, each with the seq its records stop at: in order, disjoint, and
with every record from `bound` on. -/
structure Layout (staged : List Bytes) (bound next : ℕ) (pieces : List (Segment × ℕ)) : Prop where
  holds : ∀ p ∈ pieces, Holds staged p.1 p.2
  sorted : pieces.Pairwise fun p q => p.2 ≤ q.1.base ∧ p.1.base < q.1.base
  below : ∀ p ∈ pieces, p.2 ≤ next ∧ p.1.base < next
  covers : ∀ q, bound ≤ q → q < next → ∃ p ∈ pieces, p.1.base ≤ q ∧ q < p.2

section

variable {staged more : List Bytes} {bound next n maxRecord start : ℕ} {pieces : List (Segment × ℕ)}
  {g : Segment} {stop : ℕ}

theorem Holds.left (h : Holds staged g stop) (more : List Bytes) : Holds (staged ++ more) g stop :=
  { h with
    stop_le := by rw [length_append]; exact le_trans h.stop_le (Nat.le_add_right _ _)
    file_eq := by rw [span_left h.stop_le, h.file_eq] }

theorem Holds.take (h : Holds staged g stop) (hn : stop ≤ n) : Holds (staged.take n) g stop :=
  { h with
    stop_le := by rw [length_take]; exact le_min hn h.stop_le
    file_eq := by rw [span_take hn, h.file_eq] }

section

variable (h : Layout staged bound next pieces)
include h

/-- Any change to the records at or above `next` keeps the layout. -/
theorem Layout.congr {staged' : List Bytes}
    (hholds : ∀ g stop, stop ≤ next → Holds staged g stop → Holds staged' g stop) : Layout staged' bound next pieces :=
  { h with holds := fun p hp => hholds _ _ (h.below p hp).1 (h.holds p hp) }

theorem Layout.mono {bound' : ℕ} (hle : bound ≤ bound') : Layout staged bound' next pieces :=
  ⟨h.holds, h.sorted, h.below, fun q hq => h.covers q (le_trans hle hq)⟩

/-- Segments whose records all lie below the bound may go. -/
theorem Layout.filter (keep : Segment × ℕ → Bool)
    (hgone : ∀ p ∈ pieces, keep p = false → p.2 ≤ bound) : Layout staged bound next (pieces.filter keep) where
  holds p hp := h.holds p (mem_filter.mp hp).1
  sorted := h.sorted.filter _
  below p hp := h.below p (mem_filter.mp hp).1
  covers q hq hlt := by
    obtain ⟨p, hp, hle, hlt⟩ := h.covers q hq hlt
    refine ⟨p, mem_filter.mpr ⟨hp, ?_⟩, hle, hlt⟩
    by_contra hkeep
    have := hgone p hp (by simpa using hkeep)
    omega

end

/-- The active segment is sealed. -/
theorem Layout.snoc (h : Layout staged bound g.base pieces) (hg : Holds staged g n)
    (hlt : g.base < n) : Layout staged bound n (pieces ++ [(g, n)]) where
  holds p hp := by
    rcases mem_append.mp hp with hp | hp
    · exact h.holds p hp
    · rw [mem_singleton.mp hp]; exact hg
  sorted := by
    rw [pairwise_append]
    refine ⟨h.sorted, pairwise_singleton _ _, ?_⟩
    rintro p hp q hq
    rw [mem_singleton.mp hq]
    exact h.below p hp
  below p hp := by
    rcases mem_append.mp hp with hp | hp
    · obtain ⟨hstop, hbase⟩ := h.below p hp
      exact ⟨by omega, by omega⟩
    · rw [mem_singleton.mp hp]; exact ⟨le_rfl, hlt⟩
  covers q hq hqn := by
    by_cases hbase : q < g.base
    · obtain ⟨p, hp, hcover⟩ := h.covers q hq hbase
      exact ⟨p, mem_append_left _ hp, hcover⟩
    · exact ⟨(g, n), by simp, Nat.le_of_not_lt hbase, hqn⟩

theorem Layout.tail {p : Segment × ℕ} (h : Layout staged bound next (p :: pieces)) :
    Layout staged (max bound p.2) next pieces where
  holds q hq := h.holds q (.tail _ hq)
  sorted := (pairwise_cons.mp h.sorted).2
  below q hq := h.below q (.tail _ hq)
  covers q hq hlt := by
    obtain ⟨r, hr, hle, hstop⟩ := h.covers q (le_trans (le_max_left _ _) hq) hlt
    rcases mem_cons.mp hr with rfl | hr
    · have := le_trans (le_max_right _ _) hq
      omega
    · exact ⟨r, hr, hle, hstop⟩

theorem replaySegment_of_run {s : SegmentInfo} {payloads : List Bytes}
    (hfit : AllFit maxRecord s.base payloads) (hfile : s.file <+: framesOf s.base payloads) :
    replaySegment s start maxRecord = ((recordsOf s.base (payloads.take (wholeFrames s.file.length payloads))).filter
        fun r => decide (start ≤ r.seq), none) := by
  rw [replaySegment, replayLoop_of_run hfit (by simpa using hfile) (by simp), drop_zero]

theorem Holds.replaySegment (h : Holds staged g stop) (hfit : AllFit maxRecord 0 staged) :
    replaySegment g.info start maxRecord =
      ((recordsOf g.base (span staged g.base stop)).filter fun r => decide (start ≤ r.seq), none) := by
  have hfit' : AllFit maxRecord g.base (span staged g.base stop) := by
    simpa [span] using (hfit.take stop).drop g.base
  have hfile : g.info.file = framesOf g.base (span staged g.base stop) := h.file_eq
  rw [replaySegment_of_run hfit' (by rw [hfile]; rfl), hfile, wholeFrames_length, take_length]
  rfl

/-- Replay over sealed segments and a last one. `first` is where the delivered records start: at `start`,
or at the first segment's base if that is higher. -/
theorem replay_of_layout (hfit : AllFit maxRecord 0 staged) {last : SegmentInfo}
    (hlast : last.file <+: framesOf last.base (staged.drop last.base)) (hle : last.base ≤ staged.length)
    {first : ℕ} (h : Layout staged first last.base pieces) (hstart : start ≤ first)
    (hfirst : start < first → first ≤ last.base ∧ ∀ p ∈ pieces, first ≤ p.1.base) :
    replay start maxRecord (pieces.map (fun p => p.1.info) ++ [last]) = (recordsOf first (span staged first
        (last.base + wholeFrames last.file.length (staged.drop last.base))), none) := by
  set stop := last.base + wholeFrames last.file.length (staged.drop last.base) with hstop
  have hstop_le : stop ≤ staged.length := by
    have := wholeFrames_le last.file.length (staged.drop last.base)
    rw [length_drop] at this
    omega
  induction pieces generalizing first with
  | nil =>
    have hge : last.base ≤ first := by
      by_contra hlt
      obtain ⟨p, hp, -⟩ := h.covers first le_rfl (by omega)
      exact not_mem_nil hp
    rw [map_nil, nil_append, replay, replaySegment_of_run (hfit.from _) hlast, ← span_add_take, ← hstop]
    congr 1
    rcases eq_or_lt_of_le hstart with heq | hlt
    · rw [recordsOf_filter (by omega), heq, span, span, drop_drop, Nat.add_sub_cancel' hge]
    · rw [recordsOf_filter_all (by omega), le_antisymm (hfirst hlt).1 hge]
  | cons p pieces ih =>
    obtain ⟨hp_holds, hp_below⟩ := And.intro (h.holds p (.head _)) (h.below p (.head _))
    have hp_sorted := (pairwise_cons.mp h.sorted).1
    -- the segment after `p`
    obtain ⟨second, rest, hrest, hsecond⟩ : ∃ second rest, pieces.map (fun p => p.1.info) ++ [last] = second :: rest ∧
          p.2 ≤ second.base ∧ p.1.base < second.base ∧ second.base ≤ last.base ∧
          ∀ q ∈ pieces, second.base ≤ q.1.base := by
      cases pieces with
      | nil => exact ⟨last, [], rfl, hp_below.1, hp_below.2, le_rfl, by simp⟩
      | cons q qs =>
        have hq := hp_sorted q (.head _)
        refine ⟨q.1.info, _, rfl, hq.1, hq.2, (h.below q (by simp)).2.le, fun r hr => ?_⟩
        rcases mem_cons.mp hr with rfl | hr
        · exact le_rfl
        · exact ((pairwise_cons.mp (pairwise_cons.mp h.sorted).2).1 r hr).2.le
    obtain ⟨hs_stop, hs_base, hs_last, hs_rest⟩ := hsecond
    rw [map_cons, cons_append, hrest, replay]
    split
    next hskip =>
      have heq : start = first := by
        rcases eq_or_lt_of_le hstart with heq | hlt
        · exact heq
        · have := (hfirst hlt).2 p (.head _)
          omega
      rw [← hrest]
      refine @ih first ?_ hstart fun hlt => absurd hlt (by omega)
      rw [← max_eq_left (show p.2 ≤ first by omega)]
      exact h.tail
    next hnot =>
      have hlt_second : first < second.base := by
        rcases eq_or_lt_of_le hstart with heq | hlt
        · omega
        · exact lt_of_le_of_lt ((hfirst hlt).2 p (.head _)) hs_base
      have hcover : ∀ q, first ≤ q → q < second.base → p.1.base ≤ q ∧ q < p.2 := by
        intro q hq hqs
        obtain ⟨r, hr, hle', hlt'⟩ := h.covers q hq (by omega)
        rcases mem_cons.mp hr with rfl | hr
        · exact ⟨hle', hlt'⟩
        · have := hs_rest r hr
          omega
      have hp_first := hcover first le_rfl hlt_second
      have hp_stop : p.2 = second.base := by
        by_contra hne
        exact absurd (hcover p.2 hp_first.2.le (by omega)).2 (lt_irrefl _)
      have hhead : replaySegment p.1.info start maxRecord =
          (recordsOf first (span staged first p.2), none) := by
        rw [hp_holds.replaySegment hfit]
        congr 1
        rcases eq_or_lt_of_le hstart with heq | hlt
        · rw [recordsOf_filter (by omega), heq, span, span, drop_drop, Nat.add_sub_cancel' hp_first.1]
        · have hbase := le_antisymm ((hfirst hlt).2 p (.head _)) hp_first.1
          rw [recordsOf_filter_all (by omega), ← hbase]
      have htail := @ih second.base (by rw [← hp_stop, ← max_eq_right hp_first.2.le]; exact h.tail) (by omega)
        (fun _ => ⟨hs_last, hs_rest⟩)
      rw [hrest] at htail
      rw [hhead, htail]
      have hp_len : p.2 ≤ staged.length := hp_holds.stop_le
      rw [← hp_stop, ← span_append hp_first.2.le (by omega : p.2 ≤ stop) hp_len, recordsOf_append,
        span_length, Nat.min_eq_left hp_len, Nat.add_sub_cancel' hp_first.2.le]

theorem scanSegment_of_run {base : ℕ} {file : Bytes} {payloads : List Bytes} (tolerate : Bool)
    (hfit : AllFit maxRecord base payloads) (hfile : file <+: framesOf base payloads) :
    ∃ scanned, scanSegment base file maxRecord tolerate = .ok scanned ∧
      scanned.nextSeq base = base + wholeFrames file.length payloads ∧
      scanned.validEnd = (framesOf base (payloads.take (wholeFrames file.length payloads))).length ∧
      (scanned.sawRecord = true ↔ 0 < wholeFrames file.length payloads) := by
  have hoffset : file.drop 0 <+: framesOf base payloads := hfile
  have hempty : (⟨0, 0, false⟩ : Scanned).nextSeq base = base := rfl
  obtain ⟨scanned, hscan, hrest⟩ := scanLoop_of_run base tolerate hfit hoffset
    (Nat.lt_succ_self _) hempty (Nat.zero_le _) rfl
  exact ⟨scanned, hscan, by simpa using hrest⟩

/-- `scanForOpen` ends at the last whole frame of the last segment. -/
theorem scanForOpen_of_layout (hfit : AllFit maxRecord 0 staged) {last : SegmentInfo}
    (hlast : last.file <+: framesOf last.base (staged.drop last.base))
    (hpieces : ∀ p ∈ pieces, Holds staged p.1 p.2 ∧ p.2 ≤ last.base) {seen : ℕ} (hseen : seen ≤ last.base) :
    ∃ nextSeq, scanForOpen maxRecord seen (pieces.map (fun p => p.1.info) ++ [last]) =
        .ok (nextSeq, (framesOf last.base ((staged.drop last.base).take
          (wholeFrames last.file.length (staged.drop last.base)))).length) ∧
      max nextSeq last.base = last.base + wholeFrames last.file.length (staged.drop last.base) := by
  induction pieces generalizing seen with
  | nil =>
    obtain ⟨scanned, hscan, hnext, hend, hsaw⟩ := scanSegment_of_run true (hfit.from _) hlast
    simp only [map_nil, nil_append, scanForOpen, isEmpty_nil, hscan, if_true, hend]
    refine ⟨_, rfl, ?_⟩
    rw [Scanned.nextSeq] at hnext
    by_cases hzero : scanned.sawRecord = true
    · rw [if_pos hzero] at hnext
      rw [if_pos ⟨hzero, by have := hsaw.mp hzero; omega⟩, hnext]
      exact Nat.max_eq_left (Nat.le_add_right _ _)
    · rw [if_neg hzero] at hnext
      rw [if_neg (fun hboth => hzero hboth.1), ← hnext]
      exact max_eq_right hseen
  | cons p pieces ih =>
    obtain ⟨hholds, hbelow⟩ := hpieces p (.head _)
    have hfit' : AllFit maxRecord p.1.base (span staged p.1.base p.2) := by
      simpa [span] using (hfit.take p.2).drop p.1.base
    have hfile : p.1.file <+: framesOf p.1.base (span staged p.1.base p.2) := by rw [hholds.file_eq]
    obtain ⟨scanned, hscan, hnext, -, -⟩ := scanSegment_of_run false hfit' hfile
    rw [hholds.file_eq, wholeFrames_length, span_length, min_eq_left hholds.stop_le,
      Nat.add_sub_cancel' hholds.base_le] at hnext
    have hne : (pieces.map (fun p => p.1.info) ++ [last]).isEmpty = false := by simp
    have hscan' : scanSegment p.1.info.base p.1.info.file maxRecord false = .ok scanned := hscan
    simp only [map_cons, cons_append, scanForOpen, hne, hscan', Bool.false_eq_true, if_false]
    refine ih (fun q hq => hpieces q (.tail _ hq)) ?_
    split
    next hsaw' =>
      rw [Scanned.nextSeq, if_pos hsaw'.1] at hnext
      omega
    · exact hseen

end

theorem listSegments_of_sorted {disk : List Segment}
    (h : disk.Pairwise fun a b => a.base < b.base) : listSegments disk = disk :=
  (h.imp fun hlt => hlt.le).insertionSort_eq

/-- The sealed segments, the active one, and possibly an empty one that a roll has created. -/
theorem Layout.disk_sorted {staged : List Bytes} {bound : ℕ} {pieces : List (Segment × ℕ)} {g : Segment}
    {more : List Segment} (h : Layout staged bound g.base pieces) (hmore : ∀ f ∈ more, g.base < f.base)
    (hsorted : more.Pairwise fun a b => a.base < b.base) :
    (pieces.map Prod.fst ++ g :: more).Pairwise fun a b => a.base < b.base := by
  rw [pairwise_append, pairwise_cons, pairwise_map]
  refine ⟨h.sorted.imp fun hlt => hlt.2, ⟨hmore, hsorted⟩, ?_⟩
  intro a ha b hb
  obtain ⟨p, hp, rfl⟩ := mem_map.mp ha
  have hlt := (h.below p hp).2
  rcases mem_cons.mp hb with rfl | hb
  · exact hlt
  · exact hlt.trans (hmore b hb)

end Narad.Wal
