import Narad.Storage.Refinement

/-!
# Logs whose frames are all on disk

As long as no discard cuts a file without syncing the cut, the segments stay runs of frames with
nothing skipped or lost. Every offset from the oldest to the written tail is then readable, and a
discard that truncates cuts exactly at the high watermark, if that lies in the active segment.
-/

namespace Narad.Storage

open Function (update update_of_ne update_self)
open Lib List Option

variable {z : Zstd} {o : Options} {s s' : Store} {lay : ℕ → List Piece}

theorem Whole.congr (h : Whole s lay) (hsealed : s'.sealed = s.sealed)
    (hbase : s'.active.baseOffset = s.active.baseOffset) (hsize : s'.active.sizeBytes = s.active.sizeBytes)
    (hnext : s'.active.nextOffset = s.active.nextOffset) : Whole s' lay := by
  have hactive := active_mem s
  refine ⟨fun seg hseg => ?_, fun seg hseg => ?_⟩
  all_goals rcases mem_segments.mp hseg with hin | rfl
  · exact h.tight seg (mem_segments.mpr (.inl (hsealed ▸ hin)))
  · rw [hbase, hsize, hnext]
    exact h.tight s.active hactive
  · exact h.intact seg (mem_segments.mpr (.inl (hsealed ▸ hin)))
  · rw [hbase]
    exact h.intact s.active hactive

/-- The active segment's pieces change, the sealed ones stay. -/
theorem Whole.setActive (h : Whole s lay) (hok : StoreOk z s lay) {ps : List Piece}
    (hsealed : s'.sealed = s.sealed) (hbase : s'.active.baseOffset = s.active.baseOffset)
    (htight : Tight 0 s.active.baseOffset ps s'.active.sizeBytes s'.active.nextOffset)
    (hintact : ∀ p ∈ ps, p.lost = false) : Whole s' (update lay s.active.baseOffset ps) := by
  refine ⟨fun seg hseg => ?_, fun seg hseg p hp => ?_⟩
  all_goals rcases mem_segments.mp hseg with hin | rfl
  · rw [hsealed] at hin
    rw [update_of_ne (hok.sealed_lt hin).ne]
    exact h.tight seg (mem_segments.mpr (.inl hin))
  · rw [hbase, update_self]
    exact htight
  · rw [hsealed] at hin
    rw [update_of_ne (hok.sealed_lt hin).ne] at hp
    exact h.intact seg (mem_segments.mpr (.inl hin)) p hp
  · rw [hbase, update_self] at hp
    exact hintact p hp

/-- A fresh active segment after the old one. -/
theorem Whole.roll (h : Whole s lay) (hok : StoreOk z s lay) (hne : s.active.baseOffset < s.active.nextOffset) :
    Whole (rollStore s) (update lay s.active.nextOffset []) := by
  refine ⟨fun seg hseg => ?_, fun seg hseg p hp => ?_⟩
  all_goals
    rw [rollStore_segments] at hseg
    rcases mem_append.mp hseg with hin | hin
  · rw [update_of_ne (hok.base_ne_next hne hin)]
    exact h.tight seg hin
  · rw [mem_singleton.mp hin]
    simp only [createSegment, update_self]
    exact ⟨rfl, rfl⟩
  · rw [update_of_ne (hok.base_ne_next hne hin)] at hp
    exact h.intact seg hin p hp
  · rw [mem_singleton.mp hin] at hp
    simp [createSegment] at hp

variable {l : Log} {m : OffsetMap Bytes} {floor : ℕ} {p : Pass}

/-- The segments keep their extent. -/
structure SameExtent (s s' : Store) : Prop where
  sealed : s'.sealed = s.sealed
  base : s'.active.baseOffset = s.active.baseOffset
  size : s'.active.sizeBytes = s.active.sizeBytes
  next : s'.active.nextOffset = s.active.nextOffset

theorem SameExtent.of_eq (h : s' = s) : SameExtent s s' :=
  h ▸ ⟨rfl, rfl, rfl, rfl⟩

theorem beginPass_store (o : Options) (l : Log) (p : Pass) (e : Env) (forceDrain : Bool) :
    (beginPass o l p e forceDrain).1.store = l.store := by
  have hdrain : (drainBufferForFlush l).2.store = l.store := by
    unfold drainBufferForFlush
    repeat' split
    all_goals rfl
  unfold beginPass
  split
  · rfl
  split
  · rfl
  rcases hd : drainBufferForFlush l with ⟨⟨records, base⟩, l1⟩
  rw [hd] at hdrain
  dsimp only at hdrain ⊢
  split <;> exact hdrain

variable {phase : Phase}

/-- Apart from publishing, rolling and discarding, a step of the flusher leaves the extent of the
segments alone. -/
theorem flusherStep_sameExtent (h : LogOk z l m lay floor) (hp : PhaseOk z o l m lay floor p phase) (e : Env)
    (hpublish : ∀ bytes n b, phase ≠ .publish bytes n b) (hcreate : ∀ why, phase ≠ .create why)
    (hdiscard : ∀ t, phase ≠ .discard t) : SameExtent l.store (flusherStep z o l p e phase).1.store := by
  cases phase with
  | begin forceDrain => exact .of_eq (beginPass_store o l p e forceDrain)
  | sync force k =>
    rw [flusherStep]
    split
    · exact .of_eq rfl
    split
    · exact .of_eq rfl
    · exact ⟨rfl, rfl, rfl, rfl⟩
  | create why => exact absurd rfl (hcreate why)
  | write | nav => exact ⟨rfl, rfl, rfl, rfl⟩
  | publish bytes n b => exact absurd rfl (hpublish bytes n b)
  | cache | shut =>
    rw [flusherStep]
    split <;> exact ⟨rfl, rfl, rfl, rfl⟩
  | verify offset lookup =>
    have hread := lookupStep_readOnly h.store offset hp.1
    obtain ⟨phase, hstep, -⟩ := verifyStep_cases o l p e offset lookup
    rw [flusherStep, hstep]
    exact ⟨hread.sealed, by rw [hread.active], by rw [hread.active], by rw [hread.active]⟩
  | advance =>
    refine .of_eq ?_
    rw [flusherStep]
    cases p.commit.bind CommitRequest.hwm with
    | none => rfl
    | some hwm =>
      have hrel := (releaseHighWatermarkFile_same l e.hwm).1
      dsimp only [advanceHighWatermark]
      split
      · rfl
      split
      · rfl
      rcases hr : releaseHighWatermarkFile l e.hwm with ⟨ok, l1⟩
      rw [hr] at hrel
      dsimp only at hrel ⊢
      split <;> exact hrel
  | rotate =>
    rw [flusherStep]
    split <;> exact .of_eq rfl
  | discard t => exact absurd rfl (hdiscard t)
  | persist => exact .of_eq (persistClosedHighWatermark_same l e.hwm).1
  | _ => exact .of_eq rfl

variable {offset : ℕ}

/-- Pieces split by their base offsets split in one way. -/
theorem split_at_unique {a b a' b' : List Piece} (hab : a ++ b = a' ++ b')
    (ha : ∀ p ∈ a, p.base < offset) (hb : ∀ p ∈ b, offset ≤ p.base)
    (ha' : ∀ p ∈ a', p.base < offset) (hb' : ∀ p ∈ b', offset ≤ p.base) : a = a' := by
  have hfilter (x y : List Piece) (hx : ∀ p ∈ x, p.base < offset) (hy : ∀ p ∈ y, offset ≤ p.base) :
      (x ++ y).filter (fun p => decide (p.base < offset)) = x := by
    have h1 : x.filter (fun p => decide (p.base < offset)) = x :=
      filter_eq_self.mpr fun p hp => decide_eq_true (hx p hp)
    have h2 : y.filter (fun p => decide (p.base < offset)) = [] := by
      refine filter_eq_nil_iff.mpr fun p hp => ?_
      have := hy p hp
      simp only [decide_eq_true_eq]
      omega
    rw [filter_append, h1, h2, append_nil]
  rw [← hfilter a b ha hb, hab, hfilter a' b' ha' hb']

/-- The boundary walk, in a segment with nothing skipped or lost. -/
theorem frameBoundary_whole (hok : StoreOk z s lay) (h : Whole s lay) {seg : Segment}
    (hseg : seg ∈ s.segments) (offset : ℕ) : ∃ a b, lay seg.baseOffset = a ++ b ∧ (∀ p ∈ a, p.base < offset) ∧
      (∀ p ∈ b, offset ≤ p.base) ∧ Tight 0 seg.baseOffset a (frameBoundaryAtOrAboveLocked s seg offset).2
        (frameBoundaryAtOrAboveLocked s seg offset).1 ∧
      BoundaryAt seg offset 0 seg.baseOffset (frameBoundaryAtOrAboveLocked s seg offset) a b := by
  have hlaid := hok.laid seg hseg
  obtain ⟨a, b, hab, hr⟩ := frameBoundaryAtOrAboveLocked_spec hok hseg fun p hp _ =>
    hlaid.stop_le_length hp (h.intact seg hseg p hp)
  have htight := h.tight seg hseg
  have hintact := h.intact seg hseg
  rw [hab] at htight hintact
  obtain ⟨hlow, ha⟩ := hr.exact hintact htight
  exact ⟨a, b, hab, hlow, hr.above, ha, hr⟩

/-- At a frame boundary the walk answers the offset itself. -/
theorem frameBoundary_at (hok : StoreOk z s lay) (h : Whole s lay)
    (hat : AtBoundary s lay offset) (hbase : s.active.baseOffset ≤ offset) :
    (frameBoundaryAtOrAboveLocked s s.active offset).1 = offset := by
  have hseg := active_mem s
  have hlaid := hok.laid s.active hseg
  obtain ⟨a, b, hab, hlow, hhigh, ha, -⟩ := frameBoundary_whole hok h hseg offset
  obtain ⟨a', b', pos, hab', ha'⟩ := hat hbase
  have heq : a = a' := by
    refine split_at_unique (hab.symm.trans hab') hlow hhigh (fun p hp => ?_) fun p hp => ?_
    · have h1 := (ha'.chain.bounds hp).2.2.2
      have h2 := hlaid.base_lt_next (hab' ▸ mem_append_left b' hp)
      omega
    · have htight := h.tight s.active hseg
      rw [hab'] at htight
      obtain ⟨m, k, hfront, hback⟩ := Tight.append.mp htight
      obtain ⟨-, rfl⟩ := hfront.unique ha'
      exact (hback.chain.bounds hp).2.2.1
  subst heq
  exact (ha.unique ha').2

/-- A discard that may truncate and does not fail leaves the log at the high watermark exactly when
the active segment does not start above it. -/
theorem discard_next_iff (h : LogOk z l m lay floor) (hw : Whole l.store lay)
    (hat : AtBoundary l.store lay l.highWatermark) :
    (discardUncommittedTail l true .ok).buffer.nextOffset = l.highWatermark ↔
      l.store.active.baseOffset ≤ l.highWatermark := by
  have hseg := active_mem l.store
  have hvisible := h.visible
  have hle := h.store.base_le_next hseg
  obtain ⟨a, b, hab, hlow, hhigh, ha, hr⟩ := frameBoundary_whole h.store hw hseg l.highWatermark
  change (truncateTail l .ok).1.getD l.store.active.nextOffset = _ ↔ _
  rw [truncateTail]
  constructor
  · intro heq
    by_contra hlt
    rw [if_pos (by omega)] at heq
    have hbound : frameBoundaryAtOrAboveLocked l.store l.store.active l.highWatermark =
        (l.store.active.baseOffset, 0) := by
      rw [frameBoundaryAtOrAboveLocked, if_pos (by omega)]
    rw [hbound] at heq
    dsimp only at heq
    split at heq
    · simp only [getD_some] at heq
      omega
    · simp only [getD_none] at heq
      omega
  · intro hbase
    split
    next hlt =>
      have hexact := frameBoundary_at h.store hw hat hbase
      have htight := hw.tight l.store.active hseg
      rw [hab] at htight
      obtain ⟨m', k, hfront, hback⟩ := Tight.append.mp htight
      obtain ⟨rfl, rfl⟩ := hfront.unique ha
      have hpos : (frameBoundaryAtOrAboveLocked l.store l.store.active l.highWatermark).2 <
          l.store.active.sizeBytes := by
        cases b with
        | nil =>
          have := hback.2
          omega
        | cons q b =>
          have hq := (h.activeLaid).pos_lt_stop (p := q) (by rw [hab]; simp)
          have h1 := hback.1
          have h2 := hback.2.2.chain.le.1
          omega
      dsimp only
      rw [if_pos hpos]
      exact hexact
    · simp only [getD_none]
      omega

section

variable (h : LogOk z l m lay floor)
include h

section

variable (hw : Whole l.store lay)
include hw

/-- What a discard leaves of the segments: nothing changed, or the active one is cut at the boundary
that the walk reports. -/
theorem discardStep_cases (truncateDisk : Bool) (e : Env) (ho : e.truncate ≠ .unsynced) {l' : Log}
    (hl' : l' = (flusherStep z o l p e (.discard truncateDisk)).1) :
    l'.store = l.store ∧ layoutAfter lay l (.discard truncateDisk) l' = lay ∨
      ∃ a b boundary pos, lay l.store.active.baseOffset = a ++ b ∧ Tight 0 l.store.active.baseOffset a pos boundary ∧
        (boundary, pos) = frameBoundaryAtOrAboveLocked l.store l.store.active l.highWatermark ∧
        l'.store.sealed = l.store.sealed ∧ l'.store.active = l.store.active.cut boundary pos ∧
        layoutAfter lay l (.discard truncateDisk) l' = update lay l.store.active.baseOffset a := by
  have hsame : l'.store = l.store →
      l'.store = l.store ∧ layoutAfter lay l (.discard truncateDisk) l' = lay := by
    intro heq
    exact ⟨heq, layoutAfter_eq (heq ▸ h.store) (by simp)⟩
  cases truncateDisk with
  | false => exact .inl (hsame (by rw [hl']; rfl))
  | true =>
    obtain ⟨a, b, hab, -, -, ha, hr⟩ :=
      frameBoundary_whole h.store hw (active_mem l.store) l.highWatermark
    have hlaid := h.activeLaid
    rw [hab] at hlaid
    have hstore : l'.store = (truncateTail l e.truncate).2 := by rw [hl']; rfl
    rw [truncateTail] at hstore
    rcases hbound : frameBoundaryAtOrAboveLocked l.store l.store.active l.highWatermark with
      ⟨boundary, pos⟩
    rw [hbound] at ha hr hstore
    dsimp only at hstore
    split at hstore
    · split at hstore
      · cases houtcome : e.truncate with rw [houtcome] at hstore
        | ok =>
          obtain ⟨hsealed, hactive⟩ := cutActive_segments l.store boundary pos
          rw [← show l'.store = cutActive l.store boundary pos from hstore] at hsealed hactive
          refine .inr ⟨a, b, boundary, pos, hab, ha, rfl, hsealed, hactive, ?_⟩
          unfold layoutAfter
          rw [hactive]
          change update lay l.store.active.baseOffset (trimPieces _ (lay l.store.active.baseOffset)) = _
          rw [hab, trimPieces_cut hlaid hr.chain rfl rfl]
        | unchanged => exact .inl (hsame hstore)
        | unsynced => exact absurd houtcome ho
      · exact .inl (hsame hstore)
    · exact .inl (hsame hstore)

theorem publishStep_whole {bytes : Bytes} {n : ℕ} {b : Batch} (hf : FrameOk z l m floor p bytes n b)
    (hat : HoldsAt l.store.active.file l.store.active.sizeBytes bytes) (e : Env) :
    layoutAfter lay l (.publish bytes n b) (flusherStep z o l p e (.publish bytes n b)).1 =
        update lay l.store.active.baseOffset (lay l.store.active.baseOffset ++ [publishedPiece l.store bytes n b]) ∧
      Whole (flusherStep z o l p e (.publish bytes n b)).1.store (layoutAfter lay l (.publish bytes n b)
          (flusherStep z o l p e (.publish bytes n b)).1) := by
  obtain ⟨hbatch, hcount, hframe⟩ := hf
  have hseg := active_mem l.store
  obtain ⟨hok, -⟩ := publishFrame_ok (o := o) h.store h.indexed e hcount hframe hbatch.base.symm hat
  obtain ⟨hsealed, hactive⟩ := publishFrame_active (o := o) (l := l) e bytes n b
  have hlen : (b.records.take n).length = n := by simp [hcount]
  have hlayout : layoutAfter lay l (.publish bytes n b)
      (flusherStep z o l p e (.publish bytes n b)).1 = update lay l.store.active.baseOffset
        (lay l.store.active.baseOffset ++ [publishedPiece l.store bytes n b]) :=
    layoutAfter_publish hok
  refine ⟨hlayout, ?_⟩
  rw [hlayout]
  refine hw.setActive h.store hsealed (by rw [flusherStep, hactive]) ?_ fun q hq => ?_
  · have hsnoc := (hw.tight _ hseg).snoc (p := publishedPiece l.store bytes n b) rfl hbatch.base
    rw [flusherStep, hactive]
    simpa [publishedPiece, Piece.stop, Piece.next, hlen] using hsnoc
  · rcases mem_append.mp hq with hq | hq
    · exact hw.intact _ hseg q hq
    · rw [mem_singleton.mp hq]
      rfl

end

section

variable (hp : PhaseOk z o l m lay floor p phase)
include hp

/-- Apart from publishing, rolling and discarding, a step leaves the layout alone as well. -/
theorem flusherStep_sameLayout (e : Env)
    (hpublish : ∀ bytes n b, phase ≠ .publish bytes n b) (hcreate : ∀ why, phase ≠ .create why)
    (hdiscard : ∀ t, phase ≠ .discard t) : layoutAfter lay l phase (flusherStep z o l p e phase).1 = lay :=
  layoutAfter_eq (flusherStep_same h hp e hpublish hcreate hdiscard).log.store hpublish

/-- Steps of the flusher keep the segments whole, unless a discard's cut is not synced. -/
theorem flusherStep_whole (hw : Whole l.store lay) (e : Env)
    (ho : e.truncate ≠ .unsynced) : Whole (flusherStep z o l p e phase).1.store
      (layoutAfter lay l phase (flusherStep z o l p e phase).1) := by
  cases phase with
  | publish bytes n b => exact (publishStep_whole h hw hp.1 hp.2 e).2
  | create why =>
    rw [flusherStep]
    split
    · rw [layoutAfter_eq h.store (by simp)]
      exact hw
    next hnew =>
      simp only [Bool.or_eq_true, not_or, Bool.not_eq_true, isSome_eq_false_iff, isNone_iff_eq_none] at hnew
      rw [layoutAfter_roll rfl]
      exact hw.roll h.store (h.store.base_lt_next hnew.2)
  | discard t =>
    rcases discardStep_cases (o := o) (p := p) h hw t e ho rfl with
      ⟨hstore, hlay⟩ | ⟨a, b, boundary, pos, hab, ha, -, hsealed, hactive, hlay⟩
    · rw [hstore, hlay]
      exact hw
    rw [hlay]
    refine hw.setActive h.store hsealed (hactive ▸ rfl) (hactive ▸ ha) fun q hq => ?_
    exact hw.intact _ (active_mem l.store) q (hab ▸ mem_append_left b hq)
  | _ =>
    have hext := flusherStep_sameExtent h hp e (by simp) (by simp) (by simp)
    rw [flusherStep_sameLayout h hp e (by simp) (by simp) (by simp)]
    exact hw.congr hext.sealed hext.base hext.size hext.next

/-- Steps of the flusher keep the high watermark at a frame boundary of the active segment. -/
theorem flusherStep_boundary (hw : Whole l.store lay)
    (hat : AtBoundary l.store lay l.highWatermark) (e : Env) (ho : e.truncate ≠ .unsynced) :
    AtBoundary (flusherStep z o l p e phase).1.store
      (layoutAfter lay l phase (flusherStep z o l p e phase).1) l.highWatermark := by
  cases phase with
  | publish bytes n b =>
    obtain ⟨-, hactive⟩ := publishFrame_active (o := o) (l := l) e bytes n b
    rw [(publishStep_whole h hw hp.1 hp.2 e).1, AtBoundary, flusherStep, hactive]
    intro hbase
    obtain ⟨x, y, pos, hxy, hx⟩ := hat hbase
    exact ⟨x, y ++ [publishedPiece l.store bytes n b], pos, by rw [update_self, hxy, append_assoc], hx⟩
  | create why =>
    rw [flusherStep]
    split
    · rw [layoutAfter_eq h.store (by simp)]
      exact hat
    rw [layoutAfter_roll rfl]
    intro hbase
    have hle : l.highWatermark = l.store.active.nextOffset := le_antisymm h.visible hbase
    rw [hle]
    exact ⟨[], [], 0, by simp [rollStore, createSegment], rfl, rfl⟩
  | discard t =>
    rcases discardStep_cases (o := o) (p := p) h hw t e ho rfl with
      ⟨hstore, hlay⟩ | ⟨a, b, boundary, pos, -, ha, hbound, -, hactive, hlay⟩
    · rw [hstore, hlay]
      exact hat
    rw [hlay, AtBoundary, hactive]
    intro hbase
    have hexact := frameBoundary_at h.store hw hat hbase
    rw [← hbound] at hexact
    obtain rfl : boundary = l.highWatermark := hexact
    exact ⟨a, [], pos, by rw [append_nil]; exact update_self .., ha⟩
  | _ =>
    rw [flusherStep_sameLayout h hp e (by simp) (by simp) (by simp), AtBoundary,
      (flusherStep_sameExtent h hp e (by simp) (by simp) (by simp)).base]
    exact hat

end

end

/-- After every frame the written tail is a boundary. -/
theorem Whole.atBoundary_next (hw : Whole s lay) : AtBoundary s lay s.active.nextOffset :=
  fun _ => ⟨lay s.active.baseOffset, [], s.active.sizeBytes, by simp, hw.tight s.active (active_mem s)⟩

/-- Every offset from the oldest to the written tail lies in a segment. -/
theorem StoreOk.exists_segment (h : StoreOk z s lay) (hlow : oldestOffset s ≤ offset)
    (hhigh : offset < s.active.nextOffset) : ∃ seg ∈ s.segments, seg.baseOffset ≤ offset ∧ offset < seg.nextOffset := by
  have hlast : s.segments.getLast? = some s.active := by simp [Store.segments]
  have hlinked := h.linked
  unfold oldestOffset at hlow
  generalize s.segments = segs at hlast hlinked hlow
  induction segs with
  | nil => exact absurd hlast (by simp)
  | cons a rest ih =>
    simp only [head?_cons, map_some, getD_some] at hlow
    by_cases hin : offset < a.nextOffset
    · exact ⟨a, .head _, hlow, hin⟩
    cases rest with
    | nil =>
      obtain rfl : a = s.active := by simpa using hlast
      omega
    | cons b rest =>
      rw [isChain_cons_cons] at hlinked
      obtain ⟨seg, hseg, hcov⟩ := ih (by rwa [getLast?_cons_cons] at hlast) hlinked.2
        (by simp only [head?_cons, map_some, getD_some]; omega)
      exact ⟨seg, .tail _ hseg, hcov⟩

/-- Nothing from the oldest offset on is unreadable. -/
theorem Traced.Ok.intact {t : Traced} (h : t.Ok z o) (hw : Whole t.machine.log.store t.written)
    (hlow : t.assigned.first ≤ offset) : t.Intact offset := by
  intro hhigh
  rw [← h.log.oldest] at hlow
  obtain ⟨seg, hseg, hcov⟩ := h.log.store.exists_segment hlow hhigh
  obtain ⟨q, hq, hbase, hnext⟩ := (hw.tight seg hseg).exists_covers hcov.1 hcov.2
  exact ⟨seg, hseg, q, hq, hbase, hnext, (h.log.store.laid seg hseg).intact q hq (hw.intact seg hseg q hq)⟩

end Narad.Storage
