import Narad.Storage.Opening

/-!
# Recovery of a segment cut at an arbitrary byte

A segment written frame by frame is cut to its first `n` bytes, as a crash may cut it, and walked.
The walk recovers exactly the frames wholly inside the prefix if and only if no frame that passes
its checksum starts inside the torn one. Record bytes are arbitrary, so a record may itself contain
such a frame; the walk then takes it for a frame of the segment.
-/

namespace Narad.Storage

open Lib List Option

variable {batches : List (List Bytes)} {frames : List Bytes} {z : Zstd} {base : ℕ}

/-- Encode batches one after the other from offset `base`. -/
def encodeFrames (z : Zstd) (c : Codec) : ℕ → List (List Bytes) → Except FrameError (List Bytes)
  | _, [] => .ok []
  | base, batch :: batches =>
    match encodeFrame z c batch base with
    | .error e => .error e
    | .ok frame => (encodeFrames z c (base + batch.length) batches).map (frame :: ·)

/-- How many leading frames lie wholly inside the first `n` bytes. -/
def wholeFrames : List Bytes → ℕ → ℕ
  | [], _ => 0
  | f :: fs, n => if f.length ≤ n then wholeFrames fs (n - f.length) + 1 else 0

/-- Where the last frame wholly inside the first `n` bytes ends. -/
def wholeEnd (frames : List Bytes) (n : ℕ) : ℕ :=
  (frames.take (wholeFrames frames n)).flatten.length

/-- The segment file a crash leaves: the first `n` bytes of the frames. -/
def cutSegment (base : ℕ) (frames : List Bytes) (n : ℕ) : SegmentFile :=
  ⟨base, frames.flatten.take n, 0, 0⟩

/-- Walking the cut segment keeps exactly the whole frames, and their records are found. -/
structure RecoversWhole (z : Zstd) (o : Options) (base : ℕ) (batches : List (List Bytes))
    (frames : List Bytes) (n : ℕ) (r : Store × ℕ) : Prop where
  file : r.1.active.file = (frames.take (wholeFrames frames n)).flatten
  size : r.1.active.sizeBytes = wholeEnd frames n
  segmentNext : r.1.active.nextOffset = base + (batches.take (wholeFrames frames n)).flatten.length
  logNext : r.2 = base + (batches.take (wholeFrames frames n)).flatten.length
  records : ∀ i record, (batches.take (wholeFrames frames n)).flatten[i]? = some record →
    (readSegmentShared z o r.1 (base + i)).1 = .ok record

/-- The pieces that frames laid out from `pos` form. -/
def piecesFrom : ℕ → ℕ → List (List Bytes) → List Bytes → List Piece
  | pos, base, batch :: batches, frame :: frames =>
    ⟨pos, base, batch, frame, false⟩ :: piecesFrom (pos + frame.length) (base + batch.length) batches frames
  | _, _, _, _ => []

variable {c : Codec}

theorem encodeFrames_cons {batch : List Bytes} (h : encodeFrames z c base (batch :: batches) = .ok frames) :
    ∃ frame rest, frames = frame :: rest ∧ encodeFrame z c batch base = .ok frame ∧
      encodeFrames z c (base + batch.length) batches = .ok rest := by
  rw [encodeFrames] at h
  split at h
  · cases h
  next frame hframe =>
    cases hrest : encodeFrames z c (base + batch.length) batches with rw [hrest] at h
    | error e => exact absurd h (by simp [Except.map])
    | ok rest => exact ⟨frame, rest, (Except.ok.inj h).symm, hframe, rfl⟩

theorem encodeFrames_take (h : encodeFrames z c base batches = .ok frames) (k : ℕ) :
    encodeFrames z c base (batches.take k) = .ok (frames.take k) := by
  induction batches generalizing base frames k with
  | nil =>
    cases h
    simp [encodeFrames]
  | cons batch batches ih =>
    obtain ⟨frame, rest, rfl, hframe, hrest⟩ := encodeFrames_cons h
    cases k with
    | zero => simp [encodeFrames]
    | succ k => simp [encodeFrames, hframe, ih hrest k, Except.map]

/-- Encoded batches are laid out, all intact, wherever their bytes stand. -/
theorem laid_piecesFrom (h : encodeFrames z c base batches = .ok frames)
    (hfit : base + batches.flatten.length < 2 ^ 63) (front rest : Bytes) :
    Laid z (front ++ (frames.flatten ++ rest)) front.length base
        (piecesFrom front.length base batches frames) (front.length + frames.flatten.length)
        (base + batches.flatten.length) ∧ (∀ p ∈ piecesFrom front.length base batches frames, p.lost = false) ∧
      (piecesFrom front.length base batches frames).flatMap Piece.records = batches.flatten := by
  induction batches generalizing base frames front with
  | nil =>
    cases h
    exact ⟨⟨⟨rfl, le_rfl⟩, by simp [piecesFrom], by simp [piecesFrom], by simp [piecesFrom]⟩,
      by simp [piecesFrom], rfl⟩
  | cons batch batches ih =>
    obtain ⟨frame, frames, rfl, hframe, hrest⟩ := encodeFrames_cons h
    rw [flatten_cons, length_append] at hfit
    obtain ⟨hlaid, hall, hrecords⟩ := ih hrest (by omega) (front ++ frame)
    have hfile : front ++ frame ++ (frames.flatten ++ rest) =
        front ++ ((frame :: frames).flatten ++ rest) := by simp
    rw [hfile, length_append] at hlaid
    rw [length_append] at hall hrecords
    have hstop : front.length + frame.length + frames.flatten.length =
        front.length + (frame :: frames).flatten.length := by simp; omega
    have hnext : base + batch.length + batches.flatten.length =
        base + (batch :: batches).flatten.length := by simp; omega
    rw [hstop, hnext] at hlaid
    have hat : HoldsAt (front ++ ((frame :: frames).flatten ++ rest)) front.length frame := by
      refine ⟨frames.flatten ++ rest, ?_⟩
      simp
    refine ⟨⟨⟨rfl, le_rfl, hlaid.chain⟩, ?_, ?_, ?_⟩, ?_, ?_⟩
    · intro p hp
      rcases mem_cons.mp hp with rfl | hp
      · exact ⟨⟨c, hframe⟩, by simp only; omega⟩
      · exact hlaid.frames p hp
    · intro p hp hl
      rcases mem_cons.mp hp with rfl | hp
      · exact hat
      · exact hlaid.intact p hp hl
    · intro p hp hl
      rcases mem_cons.mp hp with rfl | hp
      · cases hl
      · exact hlaid.blank p hp hl
    · intro p hp
      rcases mem_cons.mp hp with rfl | hp
      · rfl
      · exact hall p hp
    · simp [piecesFrom, hrecords]

/-- Contiguous pieces serve every offset of their records. -/
theorem exists_serving_piecesFrom (pos base : ℕ) (hlen : batches.length = frames.length) {i : ℕ} {record : Bytes}
    (hi : batches.flatten[i]? = some record) : ∃ p ∈ piecesFrom pos base batches frames, p.Serves (base + i) ∧
      p.records[base + i - p.base]? = some record := by
  induction batches generalizing pos base frames i with
  | nil => exact absurd hi (by simp)
  | cons batch batches ih =>
    cases frames with
    | nil => exact absurd hlen (by simp)
    | cons frame frames =>
      rw [flatten_cons, getElem?_append] at hi
      split at hi
      next hlt =>
        refine ⟨⟨pos, base, batch, frame, false⟩, .head _, ⟨rfl, ?_, ?_⟩, ?_⟩
        · exact Nat.le_add_right _ _
        · simp only [Piece.next]
          omega
        · simpa using hi
      next hge =>
        obtain ⟨p, hp, hs, hr⟩ := ih (pos + frame.length) (base + batch.length)
          (show batches.length = frames.length by simpa using hlen) hi
        have hoff : base + batch.length + (i - batch.length) = base + i := by omega
        rw [hoff] at hs hr
        exact ⟨p, .tail _ hp, hs, hr⟩

theorem length_eq_of_encodeFrames (h : encodeFrames z c base batches = .ok frames) :
    batches.length = frames.length := by
  induction batches generalizing base frames with
  | nil =>
    cases h
    rfl
  | cons batch batches ih =>
    obtain ⟨frame, rest, rfl, -, hrest⟩ := encodeFrames_cons h
    simp [ih hrest]

/-- The prefix is its whole frames and a proper part of at most one more. -/
theorem take_flatten_eq (frames : List Bytes) (n : ℕ) :
    ∃ torn, frames.flatten.take n = (frames.take (wholeFrames frames n)).flatten ++ torn ∧
      (torn = [] ∨ ∃ frame m, frames[wholeFrames frames n]? = some frame ∧ m < frame.length ∧ torn = frame.take m) := by
  induction frames generalizing n with
  | nil => exact ⟨[], by simp, .inl rfl⟩
  | cons f fs ih =>
    rw [wholeFrames]
    split
    next hle =>
      obtain ⟨torn, heq, hcase⟩ := ih (n - f.length)
      refine ⟨torn, ?_, ?_⟩
      · rw [flatten_cons, take_append, heq, take_of_length_le hle]
        simp
      · simpa using hcase
    next hlt =>
      refine ⟨f.take n, ?_, .inr ⟨f, n, by simp, by omega, rfl⟩⟩
      rw [flatten_cons, take_append_of_le_length (by omega)]
      simp

variable {records : List Bytes}

/-- A frame cut short fails its verification. -/
theorem verify_torn {base m : ℕ} {frame : Bytes}
    (hf : IsFrame z base records frame) (front : Bytes) (hm : m < frame.length) :
    ∃ e, verifyFrameAtBuffered (front ++ frame.take m) front.length = .error e := by
  obtain ⟨h, payload, hp⟩ := hf.parts
  have hread (i k : ℕ) : readAt (front ++ frame.take m) (front.length + i) k =
      ((frame.take m).drop i).take k := by
    simp [readAt, ← drop_drop]
  have hlen := hp.length_eq
  have h27 : headerSize = 27 := rfl
  have hraw : ∃ e, readFrameRaw (front ++ frame.take m) front.length = .error e := by
    have hhdr := hread 0 headerSize
    rw [add_zero, drop_zero, take_take] at hhdr
    unfold readFrameRaw
    simp only [hhdr]
    by_cases hshort : (frame.take (min headerSize m)).length < headerSize
    · exact ⟨_, if_pos hshort⟩
    rw [length_take] at hshort
    have hmin : min headerSize m = headerSize := by omega
    have hheader : frame.take headerSize = encodeHeader h := by
      rw [hp.bytes_eq, take_append_of_le_length (by rw [encodeHeader_length]),
        take_of_length_le (by rw [encodeHeader_length])]
    have hpayload : (readAt (front ++ frame.take m) (front.length + headerSize)
        h.compressed.toNat).length < h.compressed.toNat := by
      rw [hread]
      simp only [length_take, length_drop, hp.compressed]
      omega
    rw [hmin, hheader, if_neg (by rw [encodeHeader_length]; omega), decodeHeader_encodeHeader hp.inRange]
    simp only [bind, Except.bind, if_pos hpayload]
    exact ⟨_, rfl⟩
  obtain ⟨e, he⟩ := hraw
  exact ⟨e, by rw [verifyFrameAtBuffered_eq, he]; rfl⟩

theorem isFrame_of_encodeFrames (h : encodeFrames z c base batches = .ok frames)
    (hfit : base + batches.flatten.length < 2 ^ 63) {k : ℕ} {frame : Bytes}
    (hk : frames[k]? = some frame) : ∃ b records, IsFrame z b records frame := by
  induction batches generalizing base frames k with
  | nil =>
    cases h
    cases hk
  | cons batch batches ih =>
    obtain ⟨f, rest, rfl, hf, hrest⟩ := encodeFrames_cons h
    rw [flatten_cons, length_append] at hfit
    cases k with
    | zero =>
      cases hk
      exact ⟨base, batch, ⟨c, hf⟩, by omega⟩
    | succ k => exact ih hrest (by omega) (by simpa using hk)

theorem piecesFrom_next (pos base : ℕ) (hlen : batches.length = frames.length) :
    ((piecesFrom pos base batches frames).getLast?.map Piece.next).getD base = base + batches.flatten.length := by
  induction batches generalizing pos base frames with
  | nil => simp [piecesFrom]
  | cons batch batches ih =>
    cases frames with
    | nil => exact absurd hlen (by simp)
    | cons frame frames =>
      have hrec := ih (pos + frame.length) (base + batch.length)
        (show batches.length = frames.length by simpa using hlen)
      rw [piecesFrom, getLast?_cons, flatten_cons, length_append]
      cases hlast : (piecesFrom (pos + frame.length) (base + batch.length) batches frames).getLast?
        with
      | none =>
        rw [hlast] at hrec
        simp only [map_none, getD_none] at hrec
        simp only [getD_none, map_some, getD_some, Piece.next]
        omega
      | some q =>
        rw [hlast] at hrec
        simp only [map_some, getD_some] at hrec ⊢
        omega

section Walk

variable {z : Zstd} {o : Options} {base : ℕ} {batches : List (List Bytes)} {frames : List Bytes}

section

variable (henc : encodeFrames z .none base batches = .ok frames) (hfit : base + batches.flatten.length < 2 ^ 63)
include henc hfit

/-- What the walk has found when it has passed the whole frames. -/
theorem walk_whole (rest : Bytes) (w : Walked) (hw : w = ⟨openSegment ⟨base, frames.flatten ++ rest, 0, 0⟩, 0, []⟩) :
    ∃ fuel w', (frames.flatten ++ rest).length < frames.flatten.length + fuel ∧
      walkLoop o (frames.flatten ++ rest).length ((frames.flatten ++ rest).length + 1) 0 w =
        walkLoop o (frames.flatten ++ rest).length fuel frames.flatten.length w' ∧
      w'.segment = { w.segment with nextOffset := base + batches.flatten.length } ∧
      max w'.nextOffset w'.segment.nextOffset = base + batches.flatten.length ∧
      w'.entries = ((piecesFrom 0 base batches frames).map (Piece.entry base)).foldl (appendSparseIndexEntry o) [] := by
  have hlen := length_eq_of_encodeFrames henc
  obtain ⟨hlaid, hall, -⟩ := laid_piecesFrom henc hfit [] rest
  simp only [nil_append, length_nil, zero_add] at hlaid hall
  have hfile : w.segment.file = frames.flatten ++ rest := hw ▸ rfl
  have hbase : w.segment.baseOffset = base := hw ▸ rfl
  have hnext : w.segment.nextOffset = base := hw ▸ rfl
  obtain ⟨fuel, hfuel, hwalk⟩ := (hfile ▸ hlaid).walkLoop_eq (o := o)
    (show frames.flatten.length ≤ (frames.flatten ++ rest).length by simp) hall
    ((frames.flatten ++ rest).length + 1) (by omega)
  have hseg := foldl_step_segment o w (piecesFrom 0 base batches frames)
  rw [hnext, piecesFrom_next 0 base hlen] at hseg
  refine ⟨fuel, _, hfuel, hwalk, hseg, ?_, ?_⟩
  · have hlog := hlaid.chain.foldl_step_nextOffset o w (hw ▸ Nat.zero_le _)
    have hlast := piecesFrom_next 0 base hlen
    rw [hseg, hlog]
    cases hcase : (piecesFrom 0 base batches frames).getLast? with
    | none =>
      rw [hw]
      simp
    | some q =>
      rw [hcase] at hlast
      simp only [map_some, getD_some] at hlast ⊢
      omega
  · rw [foldl_step_entries, hbase, hw]

/-- A store over one segment laid out as the frames serves their records. -/
theorem read_whole {seg : Segment} (hfile : seg.file = frames.flatten) (hsize : seg.sizeBytes = frames.flatten.length)
    (hbase : seg.baseOffset = base) (hnext : seg.nextOffset = base + batches.flatten.length)
    {i : ℕ} {record : Bytes} (hi : batches.flatten[i]? = some record) :
    (readSegmentShared z o (setSegmentIndexLocked o (Store.ofSegments [] seg) base
      (((piecesFrom 0 base batches frames).map (Piece.entry base)).foldl
        (appendSparseIndexEntry o) [])) (base + i)).1 = .ok record := by
  subst hbase
  obtain ⟨hlaid, hall, -⟩ := laid_piecesFrom henc hfit [] []
  simp only [nil_append, length_nil, zero_add, append_nil] at hlaid hall
  have hok : StoreOk z (Store.ofSegments [] seg) fun _ =>
      piecesFrom 0 seg.baseOffset batches frames := by
    refine storeOk_ofSegments (by simp) (by simp) fun s hs => ?_
    rw [nil_append, mem_singleton] at hs
    rw [hs, hfile, hsize, hnext]
    exact hlaid
  have hmem : seg ∈ (Store.ofSegments [] seg).segments := active_mem _
  have hidx := indexOk_walk o seg.baseOffset hlaid.chain hall
  obtain ⟨hset, hsegs, -⟩ := setSegmentIndexLocked_ok hok hmem hidx
  obtain ⟨p, hp, hs, hr⟩ := exists_serving_piecesFrom 0 seg.baseOffset (length_eq_of_encodeFrames henc) hi
  exact readSegmentShared_eq hset (hsegs ▸ hmem) hp hs hr

end

/-- A walk that ends with the whole frames as its file recovers them. -/
theorem recoversWhole_of_walk {n k : ℕ} (hk : k = wholeFrames frames n)
    (henc : encodeFrames z .none base (batches.take k) = .ok (frames.take k))
    (hfit : base + (batches.take k).flatten.length < 2 ^ 63) {w : Walked} {r : Store × ℕ}
    (hr : r = (setSegmentIndexLocked o (Store.ofSegments [] w.segment) w.segment.baseOffset w.entries,
      max w.nextOffset w.segment.nextOffset)) (hfile : w.segment.file = (frames.take k).flatten)
    (hsize : w.segment.sizeBytes = (frames.take k).flatten.length) (hbase : w.segment.baseOffset = base)
    (hsegNext : w.segment.nextOffset = base + (batches.take k).flatten.length)
    (hlogNext : max w.nextOffset w.segment.nextOffset = base + (batches.take k).flatten.length)
    (hentries : w.entries = ((piecesFrom 0 base (batches.take k) (frames.take k)).map
      (Piece.entry base)).foldl (appendSparseIndexEntry o) []) : RecoversWhole z o base batches frames n r := by
  subst hk
  have hactive : r.1.active = w.segment := by
    rw [hr]
    exact setSegmentIndexLocked_active o _ _ _
  refine ⟨by rw [hactive, hfile], by rw [hactive, hsize, wholeEnd], by rw [hactive, hsegNext],
    by rw [hr, hlogNext], fun i record hi => ?_⟩
  rw [hr, hentries, hbase]
  exact read_whole henc hfit hfile hsize hbase hsegNext hi

end Walk

/-- Walking a segment cut after `n` bytes keeps exactly its whole frames if and only if no valid
frame starts inside the torn one. -/
theorem walkActiveSegment_recoversWhole_iff (z : Zstd) (o : Options) (base : ℕ)
    (batches : List (List Bytes)) (frames : List Bytes) (henc : encodeFrames z .none base batches = .ok frames)
    (hfit : base + batches.flatten.length < 2 ^ 63) (n : ℕ) : RecoversWhole z o base batches frames n
        (walkActiveSegment o (Store.ofSegments [] (openSegment (cutSegment base frames n))) 0) ↔
      ∀ p, wholeEnd frames n < p → ¬ValidAt (frames.flatten.take n) p := by
  obtain ⟨torn, hcut, htorn⟩ := take_flatten_eq frames n
  set k := wholeFrames frames n with hk
  have henc' := encodeFrames_take henc k
  have hfit' : base + (batches.take k).flatten.length < 2 ^ 63 := by
    have hsplit := congrArg length (congrArg flatten (take_append_drop k batches))
    rw [flatten_append, length_append] at hsplit
    omega
  set start := (frames.take k).flatten.length with hstart
  have hend : wholeEnd frames n = start := rfl
  obtain ⟨fuel, w, hfuel, hwalk, hseg, hnext, hentries⟩ := walk_whole (o := o) henc' hfit' torn _ rfl
  rw [← hcut, ← hstart] at hfuel hwalk
  rw [← hcut] at hseg
  have hwfile : w.segment.file = frames.flatten.take n := hseg ▸ rfl
  have hwsize : w.segment.sizeBytes = (frames.flatten.take n).length := hseg ▸ rfl
  have hwbase : w.segment.baseOffset = base := hseg ▸ rfl
  have hwnext : w.segment.nextOffset = base + (batches.take k).flatten.length := hseg ▸ rfl
  have hsize : (frames.flatten.take n).length = start + torn.length := by
    rw [hcut, length_append]
  have hresult (w' : Walked) (hw' : walkLoop o (frames.flatten.take n).length fuel start w = w') :
      walkActiveSegment o (Store.ofSegments [] (openSegment (cutSegment base frames n))) 0 =
        (setSegmentIndexLocked o (Store.ofSegments [] w'.segment) w'.segment.baseOffset w'.entries,
          max w'.nextOffset w'.segment.nextOffset) := by
    rw [← hw', ← hwalk]
    rfl
  obtain ⟨fuel, rfl⟩ : ∃ fuel', fuel = fuel' + 1 := ⟨fuel - 1, by omega⟩
  rcases eq_zero_or_pos torn.length with hempty | hpos
  · -- The cut falls between two frames: the walk ends there and nothing is left to search.
    rw [length_eq_zero_iff.mp hempty, append_nil] at hcut
    constructor
    · intro _ p hp hv
      have := hv.headerSize_le
      omega
    · intro _
      have hstop : walkLoop o (frames.flatten.take n).length (fuel + 1) start w = w := by
        rw [walkLoop, if_pos (by omega)]
      exact recoversWhole_of_walk hk henc' hfit' (hresult w hstop) (hwfile.trans hcut)
        (hwsize.trans (by omega)) hwbase hwnext hnext hentries
  obtain ⟨e, hverify⟩ : ∃ e, verifyFrameAtBuffered w.segment.file start = .error e := by
    rcases htorn with rfl | ⟨frame, m, hframe, hm, rfl⟩
    · cases hpos
    obtain ⟨b, records, hisFrame⟩ := isFrame_of_encodeFrames henc hfit hframe
    rw [hwfile, hcut]
    exact verify_torn hisFrame _ hm
  have hstep := walkLoop_torn o fuel (show start < (frames.flatten.take n).length by omega) hverify
  have hfirst := nextValidFramePos_isFirst w.segment.file (start + 1) (frames.flatten.take n).length (by omega)
  set next := nextValidFramePos w.segment.file (start + 1) (frames.flatten.take n).length
  constructor
  · intro hrec p hp hv
    have hp27 := hv.headerSize_le
    have h27 : headerSize = 27 := rfl
    rcases hfirst.found with hnone | ⟨hge, hlt, -⟩
    · exact hfirst.none_before p (by omega) (by omega) (by omega) (hwfile ▸ hv)
    -- The walk resumes past the tear, so it keeps more than the whole frames.
    rw [if_pos (by omega)] at hstep
    have hkept := walkLoop_sizeBytes_ge o (frames.flatten.take n).length fuel next w hwsize
    have hrecSize := hrec.size
    rw [hresult _ hstep, setSegmentIndexLocked_active] at hrecSize
    dsimp only [Store.ofSegments] at hrecSize
    omega
  · intro hnone
    have hbound := hfirst.eq_bound fun i hi _ => hwfile ▸ hnone i (by omega)
    rw [if_neg (by omega)] at hstep
    refine recoversWhole_of_walk hk henc' hfit' (hresult _ hstep) ?_ rfl hwbase hwnext hnext hentries
    rw [Segment.truncate, hwfile, resize_of_le (by omega), hcut, take_left]

/-- An uncompressed frame. -/
def storedFrame (records : List Bytes) (base : ℕ) : Bytes :=
  match encodeFrame .stored .none records base with
  | .ok frame => frame
  | .error _ => []

theorem encodeFrames_storedFrame (h : (encodeFrame .stored .none records base).isOk = true)
    (hrest : encodeFrames .stored .none (base + records.length) batches = .ok frames) :
    encodeFrames .stored .none base (records :: batches) = .ok (storedFrame records base :: frames) := by
  rw [encodeFrames, storedFrame]
  cases hframe : encodeFrame .stored .none records base with
  | error e =>
    rw [hframe] at h
    exact absurd h (by simp [Except.isOk, Except.toBool])
  | ok frame =>
    rw [hrest]
    rfl

/-- Two frames, the second cut behind its header: the first stays. -/
theorem walkActiveSegment_cut_header : RecoversWhole .stored defaultOptions 4 [[[1]], [[2]]]
      [storedFrame [[1]] 4, storedFrame [[2]] 5] 59 (walkActiveSegment defaultOptions (Store.ofSegments []
        (openSegment (cutSegment 4 [storedFrame [[1]] 4, storedFrame [[2]] 5] 59))) 0) := by
  refine (walkActiveSegment_recoversWhole_iff .stored defaultOptions 4 [[[1]], [[2]]]
    [storedFrame [[1]] 4, storedFrame [[2]] 5] (encodeFrames_storedFrame (by decide +kernel)
      (encodeFrames_storedFrame (by decide +kernel) rfl)) (by decide) 59).mpr fun p hp hv => ?_
  have hend : wholeEnd [storedFrame [[1]] 4, storedFrame [[2]] 5] 59 = 32 := by decide +kernel
  have := hv.headerSize_le
  have h27 : headerSize = 27 := rfl
  rw [length_take] at this
  omega

/-- A record that holds a frame of offset 7 and one more byte. -/
def embeddingRecord : Bytes :=
  storedFrame [[1]] 7 ++ [0]

/-- The frame of that record, one byte short: the walk takes the inner frame for one of the
segment, keeps the torn bytes and goes on at the inner frame's offsets. -/
theorem walkActiveSegment_takes_embedded_frame :
    encodeFrames .stored .none 0 [[embeddingRecord]] = .ok [storedFrame [embeddingRecord] 0] ∧
      wholeFrames [storedFrame [embeddingRecord] 0] 63 = 0 ∧
      (walkActiveSegment defaultOptions (Store.ofSegments [] (openSegment
        (cutSegment 0 [storedFrame [embeddingRecord] 0] 63))) 0).1.active.sizeBytes = 63 ∧
      (walkActiveSegment defaultOptions (Store.ofSegments [] (openSegment
        (cutSegment 0 [storedFrame [embeddingRecord] 0] 63))) 0).2 = 8 ∧
      ¬RecoversWhole .stored defaultOptions 0 [[embeddingRecord]] [storedFrame [embeddingRecord] 0] 63
        (walkActiveSegment defaultOptions (Store.ofSegments [] (openSegment
          (cutSegment 0 [storedFrame [embeddingRecord] 0] 63))) 0) := by
  have hsize : (walkActiveSegment defaultOptions (Store.ofSegments [] (openSegment
      (cutSegment 0 [storedFrame [embeddingRecord] 0] 63))) 0).1.active.sizeBytes = 63 := by
    decide +kernel
  have hwhole : wholeFrames [storedFrame [embeddingRecord] 0] 63 = 0 := by decide +kernel
  refine ⟨encodeFrames_storedFrame (by decide +kernel) rfl, hwhole, hsize, by decide +kernel, fun hrec => ?_⟩
  have hzero := hrec.size
  rw [hsize, wholeEnd, hwhole] at hzero
  exact absurd hzero (by decide)

end Narad.Storage
