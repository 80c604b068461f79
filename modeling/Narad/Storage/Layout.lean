import Narad.Storage.Read

/-!
# The layout of a segment file

A segment's bytes are described by its pieces: the frames written to it and not truncated since,
one after the other from the start of the file. A piece is lost when the file was cut below it
while the log still counts its bytes; what is left of a lost piece reads as zero bytes or as the
end of the file. Offsets grow from piece to piece but may skip.

Over a laid-out segment every header walk of the code is the corresponding list operation on the
pieces: lost pieces are stepped over by the magic search, intact ones by their headers.
-/

namespace Narad.Storage

open Lib List

variable {ps : List Piece}

/-- A frame written to a segment: where, for which offsets, and its bytes. -/
structure Piece where
  pos : ℕ
  base : ℕ
  records : List Bytes
  bytes : Bytes
  lost : Bool
  deriving DecidableEq

namespace Piece

/-- The position just after the piece. -/
def stop (p : Piece) : ℕ :=
  p.pos + p.bytes.length

/-- The offset just after the piece's records. -/
def next (p : Piece) : ℕ :=
  p.base + p.records.length

/-- The index entry of the piece. -/
def entry (segmentBase : ℕ) (p : Piece) : IndexEntry :=
  ⟨segmentBase, p.base, p.records.length, p.pos, p.bytes.length⟩

/-- The piece holds the record at `offset` and is on disk. -/
def Serves (p : Piece) (offset : ℕ) : Prop :=
  p.lost = false ∧ p.base ≤ offset ∧ offset < p.next

instance (p : Piece) (offset : ℕ) : Decidable (p.Serves offset) :=
  inferInstanceAs (Decidable (_ ∧ _ ∧ _))

end Piece

/-- The pieces follow each other from position `pos` to `size`, with offsets growing from `off` to
at most `next`. -/
def Chain (pos off : ℕ) : List Piece → ℕ → ℕ → Prop
  | [], size, next => pos = size ∧ off ≤ next
  | p :: ps, size, next => p.pos = pos ∧ off ≤ p.base ∧ Chain p.stop p.next ps size next

/-- The part of a segment file from `pos` to `size` is laid out as `ps`. -/
structure Laid (z : Zstd) (file : Bytes) (pos off : ℕ) (ps : List Piece) (size next : ℕ) : Prop where
  chain : Chain pos off ps size next
  frames : ∀ p ∈ ps, IsFrame z p.base p.records p.bytes
  intact : ∀ p ∈ ps, p.lost = false → HoldsAt file p.pos p.bytes
  blank : ∀ p ∈ ps, p.lost = true → Blank file p.pos p.stop

namespace Chain

variable {pos off size next : ℕ} {p : Piece} {ps a b : List Piece}

theorem append : Chain pos off (a ++ b) size next ↔ ∃ m k, Chain pos off a m k ∧ Chain m k b size next := by
  induction a generalizing pos off with
  | nil =>
    constructor
    · intro h
      exact ⟨pos, off, ⟨rfl, le_rfl⟩, h⟩
    · rintro ⟨m, k, ⟨rfl, hk⟩, hb⟩
      cases b with
      | nil => exact ⟨hb.1, hk.trans hb.2⟩
      | cons q b => exact ⟨hb.1, hk.trans hb.2.1, hb.2.2⟩
  | cons q a ih =>
    constructor
    · rintro ⟨hpos, hoff, hrest⟩
      obtain ⟨m, k, ha, hb⟩ := ih.mp hrest
      exact ⟨m, k, ⟨hpos, hoff, ha⟩, hb⟩
    · rintro ⟨m, k, ⟨hpos, hoff, ha⟩, hb⟩
      exact ⟨hpos, hoff, ih.mpr ⟨m, k, ha, hb⟩⟩

theorem le (h : Chain pos off ps size next) : pos ≤ size ∧ off ≤ next := by
  induction ps generalizing pos off with
  | nil => exact ⟨h.1.le, h.2⟩
  | cons q ps ih =>
    have hq := ih h.2.2
    have hpos := h.1
    have hoff := h.2.1
    simp only [Piece.stop, Piece.next] at hq
    omega

theorem bounds (h : Chain pos off ps size next) (hp : p ∈ ps) :
    pos ≤ p.pos ∧ p.stop ≤ size ∧ off ≤ p.base ∧ p.next ≤ next := by
  obtain ⟨a, b, rfl⟩ := append_of_mem hp
  obtain ⟨m, k, ha, hpos, hoff, hb⟩ := append.mp h
  have h1 := ha.le
  have h2 := hb.le
  omega

/-- Around a piece, the pieces before end at it and the pieces after start past it. -/
theorem split (h : Chain pos off (a ++ p :: b) size next) :
    Chain pos off a p.pos p.base ∧ Chain p.stop p.next b size next := by
  obtain ⟨m, k, ha, hpos, hoff, hb⟩ := append.mp h
  refine ⟨?_, hb⟩
  rw [hpos]
  have : Chain pos off (a ++ []) m p.base := append.mpr ⟨m, k, ha, rfl, hoff⟩
  simpa using this

variable {q : Piece}

theorem before (h : Chain pos off (a ++ p :: b) size next) (hq : q ∈ a) : q.stop ≤ p.pos ∧ q.next ≤ p.base := by
  have := h.split.1.bounds hq
  omega

theorem after (h : Chain pos off (a ++ p :: b) size next) (hq : q ∈ b) : p.stop ≤ q.pos ∧ p.next ≤ q.base := by
  have := h.split.2.bounds hq
  omega

/-- Two pieces with a common offset are the same piece. -/
theorem eq_of_covers (h : Chain pos off ps size next) {o : ℕ} (hp : p ∈ ps) (hq : q ∈ ps)
    (hpo : p.base ≤ o ∧ o < p.next) (hqo : q.base ≤ o ∧ o < q.next) : p = q := by
  obtain ⟨a, b, rfl⟩ := append_of_mem hp
  rcases mem_append.mp hq with hq | hq
  · have := h.before hq
    omega
  rcases mem_cons.mp hq with rfl | hq
  · rfl
  · have := h.after hq
    omega

end Chain

namespace Laid

variable {z : Zstd} {file : Bytes} {pos off size next : ℕ} {p : Piece} {ps a b : List Piece}

theorem split (h : Laid z file pos off (a ++ b) size next) :
    ∃ m k, Laid z file pos off a m k ∧ Laid z file m k b size next := by
  obtain ⟨m, k, ha, hb⟩ := Chain.append.mp h.chain
  exact ⟨m, k, ⟨ha, fun p hp => h.frames p (mem_append_left b hp), fun p hp => h.intact p (mem_append_left b hp),
      fun p hp => h.blank p (mem_append_left b hp)⟩,
    ⟨hb, fun p hp => h.frames p (mem_append_right a hp), fun p hp => h.intact p (mem_append_right a hp),
      fun p hp => h.blank p (mem_append_right a hp)⟩⟩

theorem tail (h : Laid z file pos off (p :: ps) size next) : Laid z file p.stop p.next ps size next :=
  ⟨h.chain.2.2, fun q hq => h.frames q (.tail _ hq), fun q hq => h.intact q (.tail _ hq),
    fun q hq => h.blank q (.tail _ hq)⟩

section

variable (h : Laid z file pos off ps size next)
include h

theorem pos_lt_stop (hp : p ∈ ps) : p.pos + headerSize < p.stop := by
  have := (h.frames p hp).headerSize_lt
  unfold Piece.stop
  omega

theorem stop_le_length (hp : p ∈ ps) (hl : p.lost = false) : p.stop ≤ file.length :=
  (h.intact p hp hl).end_le (h.frames p hp).ne_nil

theorem base_lt_next (hp : p ∈ ps) : p.base < p.next := by
  have := length_pos_iff.mpr (h.frames p hp).records_ne_nil
  unfold Piece.next
  omega

/-- A run of lost pieces is blank. -/
theorem blank_run (hl : ∀ p ∈ ps, p.lost = true) : Blank file pos size := by
  induction ps generalizing pos off with
  | nil =>
    intro i x hi hlt
    have := h.chain.1
    omega
  | cons q ps ih =>
    intro i x hi hlt hx
    by_cases hcase : i < q.stop
    · exact h.blank q (.head _) (hl q (.head _)) i x (h.chain.1 ▸ hi) hcase hx
    · exact ih h.tail (fun p hp => hl p (.tail _ hp)) i x (by omega) hlt hx

end

/-- The header walk steps over an intact piece. -/
theorem intact_head (h : Laid z file pos off (p :: ps) size next) (hl : p.lost = false) :
    ∃ hd, frameHeaderAt file pos = .ok (hd, p.stop) ∧ hd.baseOffset = p.base ∧
      hd.recordCount.toNat = p.records.length := by
  obtain ⟨hd, payload, hparts⟩ := (h.frames p (.head _)).parts
  have hat := h.intact p mem_cons_self hl
  refine ⟨hd, ?_, hparts.base_eq, by simp [hparts.count]⟩
  rw [← h.chain.1]
  exact hparts.frameHeaderAt_eq hat

/-- A full header of zero bytes has no magic. -/
theorem frameHeaderAt_blank {stop : ℕ} (hblank : Blank file pos stop) (hstop : pos < stop)
    (hlen : pos + headerSize ≤ file.length) : frameHeaderAt file pos = .error .badMagic := by
  have h27 : headerSize = 27 := rfl
  have hread : ¬(readAt file pos headerSize).length < headerSize := by
    rw [readAt_length]
    omega
  have hbyte : (readAt file pos headerSize)[0]? ≠ some magicByte0 := by
    rw [getElem?_readAt, if_pos (by omega)]
    intro hx
    exact absurd (hblank pos _ le_rfl hstop hx) (by decide)
  unfold frameHeaderAt
  simp only [if_neg hread, decodeHeader, if_pos (Or.inl hbyte), bind, Except.bind]

theorem not_magicAt_of_blank {a b i : ℕ} (hblank : Blank file a b) (ha : a ≤ i) (hb : i < b) : ¬MagicAt file i := by
  intro hm
  exact absurd (hblank i _ ha hb hm.1) (by decide)

/-- At a lost piece the walk either meets the end of the file, with nothing intact after it, or
searches on to the next intact piece. -/
theorem lost_head (h : Laid z file pos off (p :: ps) size next) (hl : p.lost = true) :
    (frameHeaderAt file pos = .error .unexpectedEOF ∧ ∀ q ∈ ps, q.lost = true) ∨
      (frameHeaderAt file pos = .error .badMagic ∧ ∃ losts rest m k, ps = losts ++ rest ∧ (∀ q ∈ losts, q.lost = true) ∧
          Laid z file m k rest size next ∧ pos < m ∧ nextMagicInSegment file (pos + 1) size = m) := by
  have hpos := h.chain.1
  have hstop := h.pos_lt_stop (.head _)
  have hsize := (h.chain.bounds (p := p) (.head _)).2.1
  by_cases hlen : pos + headerSize ≤ file.length
  · right
    have hblank := h.blank p (.head _) hl
    rw [hpos] at hblank
    refine ⟨frameHeaderAt_blank hblank (by omega) hlen, ?_⟩
    obtain ⟨m, k, hlosts, hrest⟩ :=
      (takeWhile_append_dropWhile (p := fun q : Piece => q.lost) (l := ps) ▸ h.tail).split
    have hall : ∀ q ∈ ps.takeWhile fun q => q.lost, q.lost = true := fun q hq => mem_takeWhile_imp hq
    have hrun := hlosts.blank_run hall
    have hm := hlosts.chain.le.1
    have hmagic : ∀ i, pos ≤ i → i < m → ¬MagicAt file i := by
      intro i hi hlt
      by_cases hcase : i < p.stop
      · exact not_magicAt_of_blank hblank hi hcase
      · exact not_magicAt_of_blank hrun (by omega) hlt
    have hfirst := nextMagicInSegment_isFirst file (pos + 1) size (by omega)
    refine ⟨_, _, m, k, (takeWhile_append_dropWhile).symm, hall, hrest, by omega, ?_⟩
    cases hcons : ps.dropWhile fun q => q.lost with
    | nil =>
      rw [hcons] at hrest
      have hmsize := hrest.chain.1
      rw [hmsize]
      exact hfirst.eq_bound fun i hi hb => hmagic i (by omega) (by omega)
    | cons q rest =>
      have hq : q.lost = false := by
        have := head?_dropWhile_not (fun q : Piece => q.lost) ps
        rw [hcons] at this
        simpa using this
      rw [hcons] at hrest
      have hqpos := hrest.chain.1
      have hqstop := hrest.pos_lt_stop (.head _)
      have hqsize := (hrest.chain.bounds (p := q) (.head _)).2.1
      have h27 : headerSize = 27 := rfl
      refine hfirst.eq_of_first (by omega) (by omega) ?_ fun j hj hlt => hmagic j (by omega) hlt
      have hat := hrest.intact q (.head _) hq
      rw [HoldsAt.iff_getElem?, hqpos] at hat
      have hlong := (hrest.frames q (.head _)).headerSize_lt
      have hmag := (hrest.frames q (.head _)).magic
      exact ⟨(hat 0 (by omega)).trans hmag.1, (hat 1 (by omega)).trans hmag.2⟩
  · left
    refine ⟨?_, fun q hq => ?_⟩
    · unfold frameHeaderAt
      have hshort : (readAt file pos headerSize).length < headerSize := by
        have h27 : headerSize = 27 := rfl
        rw [readAt_length]
        omega
      rw [if_pos hshort]
    · by_contra hq'
      have hqlost : q.lost = false := by simpa using hq'
      have h1 := h.tail.stop_le_length hq hqlost
      have h2 := h.tail.chain.bounds hq
      have h3 := h.tail.pos_lt_stop hq
      omega

end Laid

/-- The piece that serves `offset`, as a walk reports it. -/
def servingEntry (segmentBase offset : ℕ) (ps : List Piece) : Option (IndexEntry × ℕ) :=
  (ps.find? fun p => decide (p.Serves offset)).map fun p => (p.entry segmentBase, offset - p.base)

variable {segmentBase offset : ℕ}

theorem servingEntry_cons_of_not {p : Piece} (ps : List Piece)
    (h : ¬p.Serves offset) : servingEntry segmentBase offset (p :: ps) = servingEntry segmentBase offset ps := by
  simp [servingEntry, h]

theorem servingEntry_eq_none (h : ∀ p ∈ ps, ¬p.Serves offset) : servingEntry segmentBase offset ps = none := by
  simpa [servingEntry] using h

theorem servingEntry_append_of_not {a : List Piece} (b : List Piece)
    (h : ∀ p ∈ a, ¬p.Serves offset) : servingEntry segmentBase offset (a ++ b) = servingEntry segmentBase offset b := by
  induction a with
  | nil => rfl
  | cons p a ih =>
    rw [cons_append, servingEntry_cons_of_not _ (h p (.head _)), ih fun q hq => h q (.tail _ hq)]

/-- In a chain the entry reported for an offset is that of the piece serving it. -/
theorem Chain.servingEntry_eq {pos off size next segmentBase o : ℕ} {p : Piece}
    (h : Chain pos off ps size next) (hp : p ∈ ps) (hs : p.Serves o) :
    servingEntry segmentBase o ps = some (p.entry segmentBase, o - p.base) := by
  cases hfind : ps.find? fun p => decide (p.Serves o) with
  | none =>
    rw [find?_eq_none] at hfind
    exact absurd hs (by simpa using hfind p hp)
  | some q =>
    have hq : q.Serves o := by simpa using find?_some hfind
    have heq := h.eq_of_covers (mem_of_find?_eq_some hfind) hp hq.2 hs.2
    simp [servingEntry, hfind, heq]

variable {seg : Segment}

theorem entryAt_eq {h : FrameHeader} {p : Piece} {pos : ℕ}
    (hbase : h.baseOffset = p.base) (hcount : h.recordCount.toNat = p.records.length)
    (hpos : p.pos = pos) : entryAt seg h pos p.stop = p.entry seg.baseOffset := by
  subst hpos
  simp [entryAt, Piece.entry, hbase, hcount, Piece.stop]

/-- The forward walk from the start of a laid-out part reports the piece serving the offset. -/
theorem Laid.scanFrom_eq {z : Zstd} {pos off next : ℕ}
    (h : Laid z seg.file pos off ps seg.sizeBytes next) (o fuel : ℕ) (hfuel : seg.sizeBytes < pos + fuel) :
    scanFrom seg o fuel pos = servingEntry seg.baseOffset o ps := by
  -- Induction on the number of pieces: a resync may skip several at once.
  induction hn : ps.length using Nat.strong_induction_on generalizing pos off ps fuel with
  | _ n ih =>
    cases ps with
    | nil =>
      have hpos := h.chain.1
      cases fuel with
      | zero => omega
      | succ fuel =>
        rw [scanFrom, if_pos (by omega)]
        rfl
    | cons p ps =>
      subst hn
      have hpos := h.chain.1
      have hstop := h.pos_lt_stop (.head _)
      have hsize := (h.chain.bounds (p := p) (.head _)).2.1
      cases fuel with
      | zero => omega
      | succ fuel =>
        rw [scanFrom, if_neg (by omega)]
        cases hl : p.lost with
        | false =>
          obtain ⟨hd, hhead, hbase, hcount⟩ := h.intact_head hl
          simp only [hhead, if_neg (not_lt.mpr hsize), entryAt_eq hbase hcount hpos, hbase, Int.toNat_natCast]
          by_cases hcov : p.base ≤ o ∧ o < p.next
          · rw [if_pos (show (p.entry seg.baseOffset).Covers o from hcov), h.chain.servingEntry_eq (.head _) ⟨hl, hcov⟩]
          rw [if_neg (show ¬(p.entry seg.baseOffset).Covers o from hcov),
            servingEntry_cons_of_not _ fun hs => hcov hs.2]
          by_cases hlt : o < p.base
          · rw [if_pos hlt, servingEntry_eq_none]
            intro q hq hs
            have h1 := h.tail.chain.bounds hq
            have h2 := h.base_lt_next (p := p) (.head _)
            have h3 := hs.2.1
            omega
          · rw [if_neg hlt]
            exact ih ps.length (by simp) h.tail fuel (by omega) rfl
        | true =>
          have hnot : ¬p.Serves o := fun hs => by simp [Piece.Serves, hl] at hs
          rw [servingEntry_cons_of_not _ hnot]
          rcases h.lost_head hl with ⟨hhead, hall⟩ | ⟨hhead, losts, rest, m, k, rfl, hall, hrest, hm, hmag⟩
          · rw [hhead, servingEntry_eq_none fun q hq hs => by simp [Piece.Serves, hall q hq] at hs]
          rw [hhead, servingEntry_append_of_not _
            fun q hq hs => by simp [Piece.Serves, hall q hq] at hs]
          simp only [hmag]
          exact ih rest.length (by rw [length_cons, length_append]; omega) hrest fuel (by omega) rfl

/-- The index scan keeps sparse anchors of the intact pieces. -/
theorem Laid.scanIndexLoop_eq {z : Zstd} {o : Options} {pos off next : ℕ}
    (h : Laid z seg.file pos off ps seg.sizeBytes next) (fuel : ℕ)
    (entries : List IndexEntry) (hfuel : seg.sizeBytes < pos + fuel) : scanIndexLoop o seg fuel pos entries =
      ((ps.filter fun p => !p.lost).map (Piece.entry seg.baseOffset)).foldl (appendSparseIndexEntry o) entries := by
  induction hn : ps.length using Nat.strong_induction_on generalizing pos off ps fuel entries with
  | _ n ih =>
    cases ps with
    | nil =>
      have hpos := h.chain.1
      cases fuel with
      | zero => omega
      | succ fuel =>
        rw [scanIndexLoop, if_pos (by omega)]
        rfl
    | cons p ps =>
      subst hn
      have hpos := h.chain.1
      have hstop := h.pos_lt_stop (.head _)
      have hsize := (h.chain.bounds (p := p) (.head _)).2.1
      cases fuel with
      | zero => omega
      | succ fuel =>
        rw [scanIndexLoop, if_neg (by omega)]
        cases hl : p.lost with
        | false =>
          obtain ⟨hd, hhead, hbase, hcount⟩ := h.intact_head hl
          simp only [hhead, if_neg (not_lt.mpr hsize), entryAt_eq hbase hcount hpos]
          rw [ih ps.length (by simp) h.tail fuel _ (by omega) rfl]
          simp [hl]
        | true =>
          rcases h.lost_head hl with ⟨hhead, hall⟩ | ⟨hhead, losts, rest, m, k, rfl, hall, hrest, hm, hmag⟩
          · have hnil : ps.filter (fun p => !p.lost) = [] := by
              rw [filter_eq_nil_iff]
              intro q hq
              simp [hall q hq]
            simp [hhead, hl, hnil]
          have hnil : losts.filter (fun p => !p.lost) = [] := by
            rw [filter_eq_nil_iff]
            intro q hq
            simp [hall q hq]
          rw [hhead]
          simp only [hmag]
          rw [ih rest.length (by rw [length_cons, length_append]; omega) hrest fuel entries (by omega) rfl]
          simp [hl, hnil]

end Narad.Storage
