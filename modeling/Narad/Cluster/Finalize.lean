import Narad.Cluster.StagedCopy

/-!
# Finalizing a copy

Finalizing opens the staged copy as a log, which cuts a torn end, and takes off what lies past the high
watermark. Neither makes a staged file anything but a beginning of what it was, and on a copy of the last
listing neither takes a byte.

With the passes this gives the run theorem: unless a fetch fails inside a segment that an earlier pass had
begun, every staged file is a beginning of the source's segment after every call.
-/

namespace Narad.Cluster

open Narad.Lib Narad.Storage List Option

/-- Every file is the beginning of one there was, or the empty one of a new log. -/
structure Shrinks (files files' : List SegmentFile) : Prop where
  sorted : Sorted files → Sorted files'
  leads : ∀ {b bytes}, bytesOf files' b = some bytes →
    (∃ bytes', bytesOf files b = some bytes' ∧ bytes <+: bytes') ∨ (b = 0 ∧ bytes = [])
  bases : ∀ f ∈ files', f.baseOffset = 0 ∨ ∃ g ∈ files, g.baseOffset = f.baseOffset

variable (files : List SegmentFile)

def pairs : List (ℕ × Bytes) :=
  files.map fun f => (f.baseOffset, f.bytes)

section

variable {files files' files'' : List SegmentFile} {hwm : ℕ}

theorem Shrinks.trans (h : Shrinks files files') (h' : Shrinks files' files'') : Shrinks files files'' := by
  refine ⟨fun hs => h'.sorted (h.sorted hs), fun hb => ?_, fun f hf => ?_⟩
  · rcases h'.leads hb with ⟨bytes', hbytes', hle⟩ | hzero
    · rcases h.leads hbytes' with ⟨bytes, hbytes, hle'⟩ | ⟨hzero, rfl⟩
      · exact .inl ⟨bytes, hbytes, hle.trans hle'⟩
      · exact .inr ⟨hzero, prefix_nil.mp hle⟩
    · exact .inr hzero
  · rcases h'.bases f hf with hzero | ⟨g, hg, heq⟩
    · exact .inl hzero
    rcases h.bases g hg with hzero | ⟨k, hk, heq'⟩
    · exact .inl (heq.symm.trans hzero)
    · exact .inr ⟨k, hk, heq'.trans heq⟩

theorem bytesOf_of_pairs (h : pairs files = pairs files') : bytesOf files = bytesOf files' := by
  funext b
  induction files generalizing files' with
  | nil =>
    cases files' with
    | nil => rfl
    | cons g rest => cases h
  | cons f rest ih =>
    cases files' with
    | nil => cases h
    | cons g rest' =>
      simp only [pairs, map_cons, cons.injEq, Prod.mk.injEq] at h
      rw [bytesOf_cons, bytesOf_cons, ih h.2, h.1.1, h.1.2]

theorem sorted_iff_pairs : Sorted files ↔ (pairs files).Pairwise fun p q => p.1 < q.1 := by
  rw [pairs, pairwise_map]
  rfl

/-- Only the last file has changed, and it is the beginning of what it was. -/
theorem Shrinks.of_last {init : List SegmentFile} {last : SegmentFile} {bytes : Bytes}
    (hfiles : files = init ++ [last]) (hpairs : pairs files' = pairs init ++ [(last.baseOffset, bytes)])
    (hle : bytes <+: last.bytes) : Shrinks files files' := by
  have hpairs' : pairs files' = pairs (init ++ [{ last with bytes := bytes }]) := by
    rw [hpairs, pairs, pairs, map_append]
    rfl
  refine ⟨fun hs => ?_, fun {b bytes'} hb => .inl ?_, fun f hf => .inr ?_⟩
  · rw [sorted_iff_pairs, hpairs, pairwise_append]
    rw [hfiles, sorted_iff_pairs, pairs, map_append, pairwise_append] at hs
    refine ⟨hs.1, pairwise_singleton _ _, fun p hp q hq => ?_⟩
    rw [mem_singleton.mp hq]
    exact hs.2.2 p hp (last.baseOffset, last.bytes) (by simp)
  · rw [bytesOf_of_pairs hpairs', bytesOf_append] at hb
    rw [hfiles, bytesOf_append]
    cases hinit : bytesOf init b with
    | some x =>
      rw [hinit, some_or] at hb
      exact ⟨x, rfl, by rw [some.inj hb]⟩
    | none =>
      rw [hinit, none_or, bytesOf_cons] at hb
      rw [none_or, bytesOf_cons]
      split at hb <;> cases hb
      next hbase => exact ⟨last.bytes, if_pos hbase, hle⟩
  · have hmem : (f.baseOffset, f.bytes) ∈ pairs files' := mem_map_of_mem hf
    rw [hpairs'] at hmem
    obtain ⟨g, hg, heq⟩ := List.mem_map.mp hmem
    have hbase := (Prod.mk.inj heq).1
    rcases mem_append.mp hg with hg | hg
    · exact ⟨g, hfiles ▸ mem_append_left _ hg, hbase⟩
    · rw [mem_singleton.mp hg] at hbase
      exact ⟨last, by rw [hfiles]; simp, hbase⟩

variable (o : Options)

/-- The walk of the active segment cuts its file at most. -/
theorem walkLoop_leads (size fuel pos : ℕ) (w : Walked) (hsize : size ≤ w.segment.file.length) :
    (walkLoop o size fuel pos w).segment.baseOffset = w.segment.baseOffset ∧
      (walkLoop o size fuel pos w).segment.file <+: w.segment.file := by
  induction fuel generalizing pos w with
  | zero => exact ⟨rfl, prefix_rfl⟩
  | succ fuel ih =>
    rw [walkLoop]
    split
    · exact ⟨rfl, prefix_rfl⟩
    rename_i hlt
    split
    · exact ih _ _ hsize
    dsimp only
    split
    · exact ih _ _ hsize
    refine ⟨rfl, ?_⟩
    change resize w.segment.file pos <+: w.segment.file
    rw [resize_of_le (by omega)]
    exact take_prefix _ _

theorem sealedSegments_pairs (init : List SegmentFile) (last : SegmentFile) :
    (sealedSegments (init ++ [last])).map (fun seg => (seg.baseOffset, seg.file)) = pairs init := by
  induction init with
  | nil => rfl
  | cons f init ih =>
    cases hrest : init ++ [last] with
    | nil => simp at hrest
    | cons g rest =>
      rw [cons_append, hrest, sealedSegments, map_cons, ← hrest, ih]
      rfl

theorem setSegmentIndexLocked_segments (s : Store) (base : ℕ) (entries : List IndexEntry) :
    (setSegmentIndexLocked o s base entries).segments = s.segments := by
  unfold setSegmentIndexLocked
  dsimp only
  split
  · rfl
  · have hput := putSegmentIndex_put s base (sparseIndexEntries o entries) 0
    rw [Store.segments, Store.segments, hput.sealed, hput.active]

theorem recoverNext_fst (files : List SegmentFile) (hwm : ℕ) : pairs (MoveSession.recoverNext files hwm).1 =
      (recover defaultOptions files).1.segments.map fun seg => (seg.baseOffset, seg.file) := by
  rw [MoveSession.recoverNext, pairs, Log.disk, List.map_map]
  rfl

theorem recover_concat (init : List SegmentFile) (last : SegmentFile) : recover o (init ++ [last]) =
      walkActiveSegment o (Store.ofSegments (sealedSegments (init ++ [last])) (openSegment last)) 0 := by
  rw [recover, getLast?_concat]

/-- Opening a directory cuts its last file at most. -/
theorem recoverNext_pairs (init : List SegmentFile) (last : SegmentFile) (hwm : ℕ) : ∃ bytes, bytes <+: last.bytes ∧
      pairs (MoveSession.recoverNext (init ++ [last]) hwm).1 = pairs init ++ [(last.baseOffset, bytes)] := by
  obtain ⟨hbase, hfile⟩ := walkLoop_leads defaultOptions last.bytes.length (last.bytes.length + 1) 0
    ⟨openSegment last, 0, []⟩ le_rfl
  refine ⟨_, hfile, ?_⟩
  rw [recoverNext_fst, recover_concat, walkActiveSegment]
  rw [setSegmentIndexLocked_segments, Store.segments, map_append, ← sealedSegments_pairs init last]
  exact congrArg (_ ++ ·) (congrArg (fun b => [(b, _)]) hbase)

theorem recoverNext_shrinks (files : List SegmentFile) (hwm : ℕ) :
    Shrinks files (MoveSession.recoverNext files hwm).1 := by
  rcases eq_nil_or_concat files with rfl | ⟨init, last, rfl⟩
  · refine ⟨fun _ => pairwise_singleton _ _, fun {b bytes} hb => .inr ?_, fun f hf => .inl ?_⟩
    · have hb' : bytesOf [⟨0, [], 0, 0⟩] b = some bytes := hb
      rw [bytesOf_cons] at hb'
      split at hb' <;> cases hb'
      next hzero => exact ⟨hzero.symm, rfl⟩
    · have hf' : f ∈ [(⟨0, [], 0, 0⟩ : SegmentFile)] := hf
      rw [mem_singleton.mp hf']
  · rw [concat_eq_append]
    obtain ⟨bytes, hle, hpairs⟩ := recoverNext_pairs init last hwm
    exact .of_last rfl hpairs hle

theorem cutStagedCopy_shrinks (files : List SegmentFile) (hwm : ℕ) : Shrinks files (cutStagedCopy files hwm).1 := by
  obtain ⟨past, hpast⟩ : (files.rdropWhile fun f => decide (hwm < f.baseOffset)) <+: files :=
    rdropWhile_prefix _ _
  generalize hkept : (files.rdropWhile fun f => decide (hwm < f.baseOffset)) = kept at hpast
  have hshrinks : Shrinks files kept := by
    subst hpast
    refine ⟨fun hs => (pairwise_append.mp hs).1, fun {b bytes} hb => .inl ⟨bytes, ?_, prefix_rfl⟩,
      fun f hf => .inr ⟨f, mem_append_left _ hf, rfl⟩⟩
    rw [bytesOf_append, hb, some_or]
  unfold cutStagedCopy
  rw [hkept]
  dsimp only
  split
  · exact hshrinks
  rename_i last hlast
  split
  next pos _ =>
    split
    · exact hshrinks
    next hlt =>
      refine hshrinks.trans ?_
      have hconcat : kept = kept.dropLast ++ [last] := (dropLast_append_getLast? last hlast).symm
      have hpairs : pairs (kept.dropLast ++ [last.truncate pos]) =
          pairs kept.dropLast ++ [(last.baseOffset, resize last.bytes pos)] := by
        rw [pairs, map_append]
        rfl
      refine .of_last hconcat hpairs ?_
      rw [resize_of_le (by omega)]
      exact take_prefix _ _
  · exact hshrinks

theorem verifyStaged_shrinks (s : MoveSession) (hwm : ℕ) : Shrinks s.staged (s.verifyStaged hwm).1.staged := by
  have hopen := recoverNext_shrinks s.staged hwm
  unfold MoveSession.verifyStaged
  dsimp only
  split
  · split
    next files heq =>
      have hcut := cutStagedCopy_shrinks (MoveSession.recoverNext s.staged hwm).1 hwm
      rw [heq] at hcut
      exact (hopen.trans hcut).trans (recoverNext_shrinks files hwm)
    next files heq =>
      have hcut := cutStagedCopy_shrinks (MoveSession.recoverNext s.staged hwm).1 hwm
      rw [heq] at hcut
      exact hopen.trans hcut
  · exact hopen

end

section

variable {known : List SegmentFile} {s : MoveSession} {hwm : ℕ}

/-- Verifying keeps the copy exact: the cursors follow the files. -/
theorem Exact.verifyStaged (h : Exact known s) (hwm : ℕ) : Exact known (s.verifyStaged hwm).1 := by
  have hshrinks := verifyStaged_shrinks s hwm
  refine ⟨⟨hshrinks.sorted h.sorted, fun {b bytes} hb => ?_, fun {b c} hc => ?_, fun f hf => ?_⟩,
    fun {b c bytes} hc hb hpos => ?_⟩
  · rcases hshrinks.leads hb with ⟨bytes', hbytes', hle⟩ | ⟨-, rfl⟩
    · exact hle.trans (h.leads hbytes')
    · exact nil_prefix
  · obtain ⟨at', hat, hc⟩ := bind_eq_some_iff.mp hc
    obtain ⟨bytes, hbytes, -⟩ := map_eq_some_iff.mp hc
    exact ⟨bytes, hbytes⟩
  · rcases hshrinks.bases f hf with hzero | ⟨g, hg, heq⟩
    · exact .inl hzero
    · rw [← heq]
      exact h.bases g hg
  · obtain ⟨at', hat, hc⟩ := bind_eq_some_iff.mp hc
    obtain ⟨bytes', hbytes', rfl⟩ := map_eq_some_iff.mp hc
    rw [show bytes = bytes' from some.inj (hb.symm.trans hbytes')]
    rcases hshrinks.leads hbytes' with ⟨old, hold, hle⟩ | ⟨-, rfl⟩
    · have := hle.length_le
      have := h.cursor hat hold
      omega
    · simp at hpos

end

/-- The committed frames behind a listing: every segment is a run of whole frames that skips no offset and
ends at most at the high watermark. -/
structure Committed (z : Zstd) (info : Listing) (lay : ℕ → List Piece) : Prop where
  laid : ∀ seg ∈ info.segments, ∃ next ≤ info.highWatermark,
    Laid z seg.bytes 0 seg.baseOffset (lay seg.baseOffset) seg.bytes.length next ∧
      Tight 0 seg.baseOffset (lay seg.baseOffset) seg.bytes.length next
  intact : ∀ seg ∈ info.segments, ∀ p ∈ lay seg.baseOffset, p.lost = false

/-- Opening leaves the files as they are and comes to this offset. -/
def Opens (next : ℕ) : Prop :=
  ∀ files' hwm, pairs files' = pairs files →
    pairs (MoveSession.recoverNext files' hwm).1 = pairs files ∧ (MoveSession.recoverNext files' hwm).2 = next

section

variable {z : Zstd} {info : Listing} {lay : ℕ → List Piece} {files : List SegmentFile} {s : MoveSession} {next hwm : ℕ}

theorem Opens.of_pairs {files' : List SegmentFile} (h : Opens files next) (heq : pairs files' = pairs files) :
    Opens files' next := by
  intro files'' hwm hpairs
  rw [heq]
  exact h files'' hwm (hpairs.trans heq)

/-- A directory whose last file is a run of whole frames. -/
theorem opens_whole (init : List SegmentFile) {last : SegmentFile} {ps : List Piece}
    (hlaid : Laid z last.bytes 0 last.baseOffset ps last.bytes.length next)
    (htight : Tight 0 last.baseOffset ps last.bytes.length next) (hintact : ∀ p ∈ ps, p.lost = false) :
    Opens (init ++ [last]) next := by
  intro files' hwm hpairs
  rcases eq_nil_or_concat files' with rfl | ⟨init', last', rfl⟩
  · simp [pairs] at hpairs
  rw [concat_eq_append] at hpairs ⊢
  have hsplit := hpairs
  simp only [pairs, map_append, map_cons, map_nil] at hsplit
  obtain ⟨hbase, hbytes⟩ := Prod.mk.inj (singleton_injective (append_inj_right' hsplit rfl))
  rw [← hbytes, ← hbase] at hlaid htight
  rw [← hpairs]
  have hsurviving : Surviving z last'.baseOffset last'.bytes ps last'.bytes.length next := by
    refine ⟨hlaid, htight, hintact, fun p hp hvalid => ?_, le_rfl⟩
    have := hvalid.headerSize_le
    have h27 : headerSize = 27 := rfl
    omega
  have hrecover := (recover_concat defaultOptions init' last').trans
    (walkActiveSegment_surviving defaultOptions hsurviving (sealedSegments (init' ++ [last'])))
  constructor
  · rw [recoverNext_fst, hrecover, setSegmentIndexLocked_segments, Store.segments, map_append]
    have hsealed := sealedSegments_pairs init' last'
    simp only [Store.ofSegments, hsealed, map_cons, map_nil, walkedSegment, Storage.openSegment, take_length]
    rw [pairs, pairs, map_append]
    rfl
  · have hnext : (MoveSession.recoverNext (init' ++ [last']) hwm).2 =
        (recover defaultOptions (init' ++ [last'])).2 := rfl
    rw [hnext, hrecover]

/-- The last staged file is the last one listed. -/
theorem Complete.last (h : Complete info files) (hsorted : Sorted files) (hne : info.segments ≠ []) :
    ∃ init last seg, files = init ++ [last] ∧ seg ∈ info.segments ∧ last.baseOffset = seg.baseOffset ∧
      last.bytes = seg.bytes := by
  obtain ⟨seg, hseg⟩ := exists_mem_of_ne_nil _ hne
  obtain ⟨f, hf, hbase, -⟩ := exists_of_bytesOf (h.whole seg hseg)
  rcases eq_nil_or_concat files with rfl | ⟨init, last, rfl⟩
  · cases hf
  rw [concat_eq_append] at *
  have hmem : last ∈ init ++ [last] := by simp
  have hge : f.baseOffset ≤ last.baseOffset := by
    rcases mem_append.mp hf with hf | hf
    · exact le_of_lt ((pairwise_append.mp hsorted).2.2 f hf last (by simp))
    · rw [mem_singleton.mp hf]
  rcases h.before last hmem with ⟨seg', hseg', hbase'⟩ | hlt
  · refine ⟨init, last, seg', rfl, hseg', hbase'.symm, ?_⟩
    have hwhole := h.whole seg' hseg'
    rw [hbase', hsorted.bytesOf_mem hmem, some.injEq] at hwhole
    exact hwhole
  · have := hlt seg hseg
    omega

theorem Complete.opens (h : Complete info files) (hsorted : Sorted files) (hne : info.segments ≠ [])
    (hcommitted : Committed z info lay) : ∃ next ≤ info.highWatermark, Opens files next := by
  obtain ⟨init, last, seg, rfl, hseg, hbase, hbytes⟩ := h.last hsorted hne
  obtain ⟨next, hle, hlaid, htight⟩ := hcommitted.laid seg hseg
  have hintact := hcommitted.intact seg hseg
  rw [← hbytes, ← hbase] at hlaid htight
  rw [← hbase] at hintact
  exact ⟨next, hle, opens_whole init hlaid htight hintact⟩

/-- The log of a partition that has no records. -/
theorem opens_blank : Opens [⟨0, [], 0, 0⟩] 0 := by
  have hlaid : Laid Zstd.stored [] 0 0 [] 0 0 := ⟨⟨rfl, le_refl 0⟩, nofun, nofun, nofun⟩
  exact opens_whole [] hlaid ⟨rfl, rfl⟩ nofun

theorem Opens.verifyStaged (h : Opens s.staged next) (hle : next ≤ hwm) :
    pairs (s.verifyStaged hwm).1.staged = pairs s.staged ∧ (s.verifyStaged hwm).2 = next := by
  obtain ⟨hpairs, hnext⟩ := h s.staged hwm rfl
  unfold MoveSession.verifyStaged
  dsimp only
  rw [if_neg (by omega)]
  exact ⟨hpairs, hnext⟩

/-- Once a complete copy has been verified, opening it again comes to the offset it was verified at. -/
theorem Complete.verifyStaged (h : Complete info s.staged) (hsorted : Sorted s.staged)
    (hcommitted : Committed z info lay) :
    Opens (s.verifyStaged info.highWatermark).1.staged (s.verifyStaged info.highWatermark).2 ∧
      (info.segments ≠ [] → pairs (s.verifyStaged info.highWatermark).1.staged = pairs s.staged) := by
  by_cases hne : info.segments = []
  · refine ⟨?_, fun hcontra => absurd hne hcontra⟩
    have hblank := h.blank hne
    have hopen : pairs (MoveSession.recoverNext s.staged info.highWatermark).1 = [(0, [])] ∧
        (MoveSession.recoverNext s.staged info.highWatermark).2 = 0 := by
      cases hstaged : s.staged with
      | nil => exact ⟨rfl, rfl⟩
      | cons f rest =>
        rw [hstaged] at hblank hsorted
        have hrest : rest = [] := by
          refine eq_nil_iff_forall_not_mem.mpr fun g hg => ?_
          have hlt := (pairwise_cons.mp hsorted).1 g hg
          have := (hblank f (.head _)).1
          have := (hblank g (.tail _ hg)).1
          omega
        refine opens_blank _ _ ?_
        rw [hrest, pairs, map_singleton, (hblank f (.head _)).1, (hblank f (.head _)).2]
        rfl
    unfold MoveSession.verifyStaged
    dsimp only
    rw [hopen.2, if_neg (Nat.not_lt_zero _)]
    exact opens_blank.of_pairs hopen.1
  · obtain ⟨next, hle, hopens⟩ := h.opens hsorted hne hcommitted
    obtain ⟨hpairs, hnext⟩ := hopens.verifyStaged hle
    rw [hnext]
    exact ⟨hopens.of_pairs hpairs, fun _ => hpairs⟩

end

/-- The base offset and the bytes of the file an offset is read from. -/
def covering (offset : ℕ) : Option (ℕ × Bytes) :=
  ((pairs files).filter fun p => decide (p.1 ≤ offset)).getLast?

section

variable {files : List SegmentFile} {info : Listing} {offset : ℕ} {p : ℕ × Bytes}

theorem Sorted.getLast?_eq_some {ps : List (ℕ × Bytes)} (hsorted : ps.Pairwise fun p q => p.1 < q.1) :
    ps.getLast? = some p ↔ p ∈ ps ∧ ∀ q ∈ ps, q.1 ≤ p.1 := by
  rcases eq_nil_or_concat ps with rfl | ⟨init, last, rfl⟩
  · simp
  rw [concat_eq_append] at hsorted ⊢
  rw [getLast?_concat, some.injEq]
  have hbefore : ∀ q ∈ init, q.1 < last.1 := fun q hq =>
    (pairwise_append.mp hsorted).2.2 q hq last (.head _)
  constructor
  · rintro rfl
    refine ⟨by simp, fun q hq => ?_⟩
    rcases mem_append.mp hq with hq | hq
    · exact le_of_lt (hbefore q hq)
    · rw [mem_singleton.mp hq]
  · rintro ⟨hp, hall⟩
    rcases mem_append.mp hp with hp | hp
    · have := hall last (by simp)
      have := hbefore p hp
      omega
    · exact (mem_singleton.mp hp).symm

theorem covering_eq_some (hsorted : Sorted files) : covering files offset = some p ↔
      p ∈ pairs files ∧ p.1 ≤ offset ∧ ∀ q ∈ pairs files, q.1 ≤ offset → q.1 ≤ p.1 := by
  rw [covering, Sorted.getLast?_eq_some ((sorted_iff_pairs.mp hsorted).filter _)]
  simp only [mem_filter, decide_eq_true_eq, and_imp, and_assoc]

/-- A complete copy reads every listed offset from the same bytes as the source. -/
theorem Complete.covering_eq (h : Complete info files) (hsorted : Sorted files)
    (hlisted : ∃ seg ∈ info.segments, seg.baseOffset ≤ offset) :
    covering files offset = covering info.segments offset := by
  obtain ⟨seg, hseg, hle⟩ := hlisted
  have hne : ((pairs info.segments).filter fun p => decide (p.1 ≤ offset)) ≠ [] :=
    ne_nil_of_mem (mem_filter.mpr ⟨mem_map_of_mem hseg, decide_eq_true hle⟩)
  obtain ⟨p, hp⟩ : ∃ p, covering info.segments offset = some p := ⟨_, getLast?_eq_some_getLast hne⟩
  rw [hp, covering_eq_some hsorted]
  obtain ⟨hmem, hbelow, hlast⟩ := (covering_eq_some h.listed).mp hp
  obtain ⟨seg', hseg', rfl⟩ := mem_map.mp hmem
  refine ⟨?_, hbelow, fun q hq hqle => ?_⟩
  · obtain ⟨f, hf, hbase, hbytes⟩ := exists_of_bytesOf (h.whole seg' hseg')
    rw [← hbase, ← hbytes]
    exact mem_map_of_mem hf
  · obtain ⟨f, hf, rfl⟩ := mem_map.mp hq
    rcases h.before f hf with ⟨seg'', hseg'', hbase⟩ | hlt
    · have := hlast _ (mem_map_of_mem hseg'') (hbase.le.trans hqle)
      exact hbase.ge.trans this
    · exact le_of_lt (hlt seg' hseg')

end

/-- The copy of the last listing: opened it comes to the source's high watermark, and every offset the
listing covers is read from the source's own bytes. -/
structure Copied (staged : List SegmentFile) (info : Listing) : Prop where
  recovers : (MoveSession.recoverNext staged info.highWatermark).2 = info.highWatermark
  holds : ∀ offset, (∃ seg ∈ info.segments, seg.baseOffset ≤ offset) →
    covering staged offset = covering info.segments offset

section

variable {chunkSize : ℕ} {known known' : List SegmentFile} {s : MoveSession} {info : Listing}

theorem finalizeStaged_fst (s : MoveSession) (hwm : ℕ) : (s.finalizeStaged hwm).1 = (s.verifyStaged hwm).1 := by
  rfl

theorem finalizeStaged_ok {hwm next : ℕ} (h : (s.finalizeStaged hwm).2 = .ok next) : (s.verifyStaged hwm).2 = hwm := by
  have h' : (if (s.verifyStaged hwm).2 < hwm then Except.error (MoveError.behind (s.verifyStaged hwm).2 hwm)
      else if hwm < (s.verifyStaged hwm).2 then .error (.straddles (s.verifyStaged hwm).2 hwm) else .ok hwm) =
      .ok next := h
  split at h'
  · cases h'
  split at h'
  · cases h'
  · omega

/-- A verified copy of the last listing is what the source holds. -/
theorem Complete.copied (h : Complete info s.staged) (hsorted : Sorted s.staged) {next : ℕ}
    (hok : (s.finalizeStaged info.highWatermark).2 = .ok next) {z : Zstd} {lay : ℕ → List Piece}
    (hcommitted : Committed z info lay) : Copied (s.finalizeStaged info.highWatermark).1.staged info := by
  obtain ⟨hopens, hpairs⟩ := h.verifyStaged hsorted hcommitted
  rw [finalizeStaged_ok hok] at hopens
  refine ⟨(hopens _ _ rfl).2, fun offset hlisted => ?_⟩
  have hne : info.segments ≠ [] := ne_nil_of_mem hlisted.choose_spec.1
  rw [finalizeStaged_fst, covering, hpairs hne]
  exact h.covering_eq hsorted hlisted

/-- A finalize leaves files that begin the source's, and a copy it accepts is the last listing's. -/
theorem Exact.finalize (h : Exact known s) (hchunk : 0 < chunkSize) {rounds : List MoveSession.Round}
    (hnotes : rounds.foldlM note known = some known') (hanswered : ∀ r ∈ rounds, r.answered = true) (lapsed : Bool) :
    Leads known' (s.finalize chunkSize lapsed rounds).1 ∧
      ∀ info, (s.finalize chunkSize lapsed rounds).2 = .ok info → ∀ z lay, Committed z info lay →
        Copied (s.finalize chunkSize lapsed rounds).1.staged info := by
  obtain ⟨hleads, hdrain⟩ := h.drainLoop hchunk hnotes hanswered lapsed none
  unfold MoveSession.finalize
  split <;> rename_i heq <;> rw [heq] at hleads hdrain
  · exact ⟨hleads, nofun⟩
  rename_i s' info
  obtain ⟨hexact, hcomplete⟩ := hdrain info rfl
  have hfst := finalizeStaged_fst s' info.highWatermark
  have hverified := (hexact.verifyStaged info.highWatermark).toLeads
  split <;> rename_i heq' <;> rw [heq'] at hfst
  · exact ⟨hfst ▸ hverified, nofun⟩
  · refine ⟨hfst ▸ hverified, fun info' hinfo' z lay hcommitted => ?_⟩
    cases hinfo'
    have := hcomplete.copied hexact.sorted (by rw [heq']) hcommitted
    rw [heq'] at this
    exact this

theorem Exact.forcePromote (h : Exact known s) : Exact known s.forcePromote.1 := by
  unfold MoveSession.forcePromote
  split
  · exact h.verifyStaged _
  · exact h

/-- What holds between the calls of a session. -/
structure Copy.Ok (c : Copy) : Prop where
  leads : Leads c.known c.session
  finalized : ∀ info, c.finalized = some info → ∀ z lay, Committed z info lay → Copied c.session.staged info

theorem Copy.Ok.step {c c' : Copy} {call : Call} (h : c.Ok) (hchunk : 0 < chunkSize)
    (haligned : c.session.aligned = true) (hstep : c.step chunkSize call = some c') : c'.Ok := by
  have hexact := h.leads.exact haligned
  simp only [Copy.step, Option.ite_none_right_eq_some, Option.map_eq_some_iff, List.all_eq_true] at hstep
  obtain ⟨hanswered, known, hnotes, rfl⟩ := hstep
  cases call with
  | catchUp lagBytes maxRounds stallRounds rounds =>
    exact ⟨hexact.catchUpLoop hchunk hnotes hanswered, nofun⟩
  | finalize lapsed rounds =>
    obtain ⟨hleads, hcopied⟩ := hexact.finalize hchunk hnotes hanswered lapsed
    dsimp only [Call.rounds] at hleads hcopied ⊢
    split <;> rename_i heq <;> rw [heq] at hleads hcopied
    · refine ⟨hleads, fun info hinfo => ?_⟩
      cases hinfo
      exact hcopied _ rfl
    · exact ⟨hleads, nofun⟩
  | forcePromote =>
    cases hnotes
    exact ⟨hexact.forcePromote.toLeads, nofun⟩

/-- In a run in which every call finds each segment with a cursor above 0 staged exactly up to that cursor,
every staged file is after every call a beginning of the source's segment, and a finalized copy is the
source's. -/
theorem staged_files_lead (hchunk : 0 < chunkSize) {calls : List Call} {c : Copy}
    (hclean : cleanRun (Copy.step chunkSize) (fun c _ => c.session.aligned) {} calls = true)
    (hrun : runWith (Copy.step chunkSize) {} calls = some c) :
    (∀ f ∈ c.session.staged, f.bytes <+: (bytesOf c.known f.baseOffset).getD []) ∧
      ∀ info, c.finalized = some info → ∀ z lay, Committed z info lay → Copied c.session.staged info := by
  have hstart : Copy.Ok {} := ⟨⟨List.Pairwise.nil, nofun, nofun, nofun⟩, nofun⟩
  have hok := run_induction (fun _ _ _ h haligned hstep => Copy.Ok.step h hchunk haligned hstep) hstart hclean hrun
  exact ⟨fun f hf => hok.leads.leads (hok.leads.sorted.bytesOf_mem hf), hok.finalized⟩

end

/-- The fetch of a new segment fails after its first bytes, and the next call stages it from the start. -/
def restartedCopy : List Call :=
  let listing : Listing := ⟨[⟨0, twoFrames.flatMap Piece.bytes, 0, 0⟩], 2⟩
  [.catchUp 0 8 4 [⟨some listing, [some 16, none]⟩], .finalize false [⟨some listing, [some 16, some 9, some 64, some 64]⟩,
    ⟨some listing, []⟩]]

theorem restartedCopy_copied : ∃ c, runWith (Copy.step 32) {} restartedCopy = some c ∧
    Copied c.session.staged ⟨[⟨0, twoFrames.flatMap Piece.bytes, 0, 0⟩], 2⟩ := by
  have hrun := (some_get (x := runWith (Copy.step 32) {} restartedCopy) (by decide +kernel)).symm
  refine ⟨_, hrun, (staged_files_lead (by decide) (by decide +kernel) hrun).2 _ (by decide +kernel) Zstd.stored
    (fun _ => twoFrames) ⟨fun seg hseg => ?_, fun seg _ p hp => ?_⟩⟩
  · rw [mem_singleton.mp hseg]
    exact ⟨2, le_refl 2, twoFrames_laid, twoFrames_tight⟩
  · simp only [twoFrames, mem_cons, not_mem_nil, or_false] at hp
    rcases hp with rfl | rfl <;> rfl

/-- The frame of one record. -/
def frameAt (base : ℕ) : Bytes :=
  (encodeFrame Zstd.stored .none [[7]] base).toOption.getD []

/-- The source goes from one frame to three, and rolls. -/
def rolledListing : Listing :=
  ⟨[⟨0, frameAt 0 ++ frameAt 1 ++ frameAt 2, 0, 0⟩, ⟨3, frameAt 3, 0, 0⟩], 4⟩

/-- The fetch fails between the second frame and the third, and the second comes again after it. -/
def retriedCopy : List Call :=
  let size := (frameAt 0).length
  [.catchUp 0 8 4 [⟨some ⟨[⟨0, frameAt 0, 0, 0⟩], 1⟩, [some size]⟩],
    .catchUp 0 8 4 [⟨some ⟨[⟨0, frameAt 0 ++ frameAt 1 ++ frameAt 2, 0, 0⟩], 3⟩, [some size, none]⟩],
    .finalize false [⟨some rolledListing, [some size, some size, some size]⟩, ⟨some rolledListing, []⟩]]

theorem retriedCopy_repeats_frame :
    ∃ c, runWith (Copy.step (frameAt 0).length) {} retriedCopy = some c ∧ c.finalized = some rolledListing ∧
      bytesOf c.session.staged 0 = some (frameAt 0 ++ frameAt 1 ++ frameAt 1 ++ frameAt 2) ∧
      ¬(frameAt 0 ++ frameAt 1 ++ frameAt 1 ++ frameAt 2 <+: (bytesOf c.known 0).getD []) := by
  have hrun := (some_get (x := runWith (Copy.step (frameAt 0).length) {} retriedCopy) (by decide +kernel)).symm
  exact ⟨_, hrun, by decide +kernel, by decide +kernel, by decide +kernel⟩

end Narad.Cluster
