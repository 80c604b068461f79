import Narad.Storage.Flusher

/-!
# Frame boundaries

The walk for the first frame at or above an offset, over a laid-out segment: it splits the pieces
into those before the position it reports and those from there on, and nothing below the offset is
among the latter. Over a segment whose pieces are all on disk and skip no offset the split is exact.
-/

namespace Narad.Storage

open Lib List

variable {offset pos off : ℕ} {ps : List Piece}

/-- The pieces follow each other in positions and in offsets, with nothing skipped. -/
def Tight (pos off : ℕ) : List Piece → ℕ → ℕ → Prop
  | [], size, next => pos = size ∧ off = next
  | p :: ps, size, next => p.pos = pos ∧ p.base = off ∧ Tight p.stop p.next ps size next

namespace Tight

variable {pos off size next : ℕ} {p : Piece} {ps a b : List Piece}

theorem chain (h : Tight pos off ps size next) : Chain pos off ps size next := by
  induction ps generalizing pos off with
  | nil => exact ⟨h.1, h.2.le⟩
  | cons p ps ih => exact ⟨h.1, h.2.1.ge, ih h.2.2⟩

theorem append : Tight pos off (a ++ b) size next ↔ ∃ m k, Tight pos off a m k ∧ Tight m k b size next := by
  induction a generalizing pos off with
  | nil =>
    constructor
    · intro h
      exact ⟨pos, off, ⟨rfl, rfl⟩, h⟩
    · rintro ⟨m, k, ⟨rfl, rfl⟩, hb⟩
      exact hb
  | cons p a ih =>
    constructor
    · rintro ⟨hpos, hoff, hrest⟩
      obtain ⟨m, k, ha, hb⟩ := ih.mp hrest
      exact ⟨m, k, ⟨hpos, hoff, ha⟩, hb⟩
    · rintro ⟨m, k, ⟨hpos, hoff, ha⟩, hb⟩
      exact ⟨hpos, hoff, ih.mpr ⟨m, k, ha, hb⟩⟩

section

variable (h : Tight pos off ps size next)
include h

/-- Every offset in the range of the pieces is one of a piece. -/
theorem exists_covers {o : ℕ} (hlow : off ≤ o) (hhigh : o < next) : ∃ p ∈ ps, p.base ≤ o ∧ o < p.next := by
  induction ps generalizing pos off with
  | nil =>
    have := h.2
    omega
  | cons p ps ih =>
    have hbase := h.2.1
    by_cases hlt : o < p.next
    · exact ⟨p, .head _, by omega, hlt⟩
    · obtain ⟨q, hq, hcov⟩ := ih h.2.2 (by omega)
      exact ⟨q, .tail _ hq, hcov⟩

theorem snoc (hpos : p.pos = size) (hbase : p.base = next) : Tight pos off (ps ++ [p]) p.stop p.next :=
  append.mpr ⟨size, next, h, hpos, hbase, rfl, rfl⟩

/-- The pieces determine where they end. -/
theorem unique {size' next' : ℕ} (h' : Tight pos off ps size' next') : size = size' ∧ next = next' := by
  induction ps generalizing pos off with
  | nil => exact ⟨h.1.symm.trans h'.1, h.2.symm.trans h'.2⟩
  | cons p ps ih => exact ih h.2.2 h'.2.2

end

end Tight

/-- Every segment is a run of frames that are all on disk and skip no offset. -/
structure Whole (s : Store) (lay : ℕ → List Piece) : Prop where
  tight : ∀ seg ∈ s.segments, Tight 0 seg.baseOffset (lay seg.baseOffset) seg.sizeBytes seg.nextOffset
  intact : ∀ seg ∈ s.segments, ∀ p ∈ lay seg.baseOffset, p.lost = false

/-- The offset starts a frame of the active segment, or ends its last one, if it lies in it. -/
def AtBoundary (s : Store) (lay : ℕ → List Piece) (offset : ℕ) : Prop :=
  s.active.baseOffset ≤ offset → ∃ a b pos, lay s.active.baseOffset = a ++ b ∧
    Tight 0 s.active.baseOffset a pos offset

/-- The answer `r` of a boundary walk: the pieces split at the position reported, the offset
reported lies between, and whatever is below `offset` stays below the cut. -/
structure BoundaryAt (seg : Segment) (offset pos off : ℕ) (r : ℕ × ℕ) (a b : List Piece) : Prop where
  chain : Chain pos off a r.2 r.1
  le : r.1 ≤ seg.nextOffset
  ge : offset ≤ seg.nextOffset → offset ≤ r.1
  above : ∀ p ∈ b, offset ≤ p.base
  exact : (∀ p ∈ a ++ b, p.lost = false) → Tight pos off (a ++ b) seg.sizeBytes seg.nextOffset →
    (∀ p ∈ a, p.base < offset) ∧ Tight pos off a r.2 r.1

variable {seg : Segment}

theorem BoundaryAt.cons {r : ℕ × ℕ} {p : Piece}
    {a b : List Piece} (h : BoundaryAt seg offset p.stop p.next r a b) (hpos : p.pos = pos)
    (hoff : off ≤ p.base) (hlt : p.base < offset) : BoundaryAt seg offset pos off r (p :: a) b := by
  refine ⟨⟨hpos, hoff, h.chain⟩, h.le, h.ge, h.above, fun hall htight => ?_⟩
  obtain ⟨hbelow, ha⟩ := h.exact (fun q hq => hall q (.tail _ hq)) htight.2.2
  refine ⟨fun q hq => ?_, hpos, htight.2.1, ha⟩
  rcases mem_cons.mp hq with rfl | hq
  · exact hlt
  · exact hbelow q hq

/-- A walk that starts at a piece, seen from the start of the segment. -/
theorem BoundaryAt.prepend {r : ℕ × ℕ} {p : Piece}
    {front a b rest : List Piece} (h : BoundaryAt seg offset p.pos p.base r a b) (hab : p :: rest = a ++ b)
    (hchain : Chain pos off (front ++ p :: rest) seg.sizeBytes seg.nextOffset)
    (hbelow : ∀ q ∈ front, q.base < offset) : BoundaryAt seg offset pos off r (front ++ a) b := by
  refine ⟨Chain.append.mpr ⟨p.pos, p.base, hchain.split.1, h.chain⟩, h.le, h.ge, h.above, fun hall htight => ?_⟩
  rw [append_assoc, ← hab] at htight
  obtain ⟨m, k, hfront, hrest⟩ := Tight.append.mp htight
  obtain ⟨rfl, rfl, -⟩ := id hrest
  obtain ⟨hlow, ha⟩ := h.exact (fun q hq => hall q (by simp_all)) (hab ▸ hrest)
  refine ⟨fun q hq => ?_, Tight.append.mpr ⟨p.pos, p.base, hfront, ha⟩⟩
  rcases mem_append.mp hq with hq | hq
  · exact hbelow q hq
  · exact hlow q hq

/-- With every piece kept the reported end is the segment's. -/
theorem boundaryAt_all (h : Chain pos off ps seg.sizeBytes seg.nextOffset)
    (hbelow : (∀ p ∈ ps, p.lost = false) → ∀ p ∈ ps, p.base < offset) :
    BoundaryAt seg offset pos off (seg.nextOffset, seg.sizeBytes) ps [] := by
  refine ⟨h, le_rfl, id, by simp, fun hall htight => ?_⟩
  rw [append_nil] at hall htight
  exact ⟨hbelow hall, htight⟩

/-- With no piece kept the cut is at the start. -/
theorem boundaryAt_none {offset pos off boundary : ℕ} (hoff : off ≤ boundary) (hle : boundary ≤ seg.nextOffset)
    (hge : offset ≤ seg.nextOffset → offset ≤ boundary) (habove : ∀ p ∈ ps, offset ≤ p.base)
    (hexact : (∀ p ∈ ps, p.lost = false) → Tight pos off ps seg.sizeBytes seg.nextOffset →
      off = boundary) : BoundaryAt seg offset pos off (boundary, pos) [] ps :=
  ⟨⟨rfl, hoff⟩, hle, hge, habove, fun hall htight => ⟨by simp, rfl, hexact hall htight⟩⟩

/-- The walk from the start of a laid-out part, when what lies below the offset is in the file. -/
theorem Laid.boundaryLoop_spec {z : Zstd} (h : Laid z seg.file pos off ps seg.sizeBytes seg.nextOffset)
    (hkept : ∀ p ∈ ps, p.base < offset → p.stop ≤ seg.file.length) (fuel : ℕ) (hfuel : seg.sizeBytes < pos + fuel) :
    ∃ a b, ps = a ++ b ∧ BoundaryAt seg offset pos off (boundaryLoop seg offset fuel pos) a b := by
  induction ps generalizing pos off fuel with
  | nil =>
    have hpos := h.chain.1
    cases fuel with
    | zero => omega
    | succ fuel =>
      rw [boundaryLoop, if_pos (by omega)]
      exact ⟨[], [], rfl, boundaryAt_all h.chain (by simp)⟩
  | cons p ps ih =>
    have hpos := h.chain.1
    have hoff := h.chain.2.1
    have hstop := h.pos_lt_stop (.head _)
    have hb := h.chain.bounds (p := p) (.head _)
    have hnext := h.base_lt_next (p := p) (.head _)
    -- Once one piece is at or above the offset, all that follow are.
    have habove (hle : offset ≤ p.base) : ∀ q ∈ p :: ps, offset ≤ q.base := by
      intro q hq
      rcases mem_cons.mp hq with rfl | hq
      · exact hle
      · have := h.tail.chain.bounds hq
        omega
    cases fuel with
    | zero => omega
    | succ fuel =>
      rw [boundaryLoop, if_neg (by omega)]
      cases hl : p.lost with
      | false =>
        obtain ⟨hd, hhead, hbase, -⟩ := h.intact_head hl
        simp only [hhead, if_neg (Nat.not_lt.mpr hb.2.1), hbase, Int.toNat_natCast]
        by_cases hle : offset ≤ p.base
        · rw [if_pos (by exact_mod_cast hle), ← hpos]
          refine ⟨[], p :: ps, rfl, ?_⟩
          rw [hpos]
          exact boundaryAt_none hoff (by omega) (fun _ => hle) (habove hle) fun _ htight => htight.2.1.symm
        · rw [if_neg (by exact_mod_cast hle)]
          obtain ⟨a, b, rfl, hab⟩ := ih h.tail (fun q hq => hkept q (.tail _ hq)) fuel (by omega)
          exact ⟨p :: a, b, rfl, hab.cons hpos hoff (by omega)⟩
      | true =>
        rcases h.lost_head hl with ⟨hhead, -⟩ | ⟨hhead, -⟩
        · -- The file ends inside this piece, so the piece is above the offset.
          simp only [hhead]
          have hle : offset ≤ p.base := by
            by_contra hlt
            have := hkept p (.head _) (by omega)
            have hlen : pos + headerSize ≤ seg.file.length := by omega
            have hblank := h.blank p (.head _) hl
            rw [hpos] at hblank
            rw [frameHeaderAt_blank hblank (by omega) hlen] at hhead
            cases hhead
          refine ⟨[], p :: ps, rfl, boundaryAt_none (by omega) le_rfl id (habove hle) fun hall _ => ?_⟩
          have := hall p (.head _)
          simp [hl] at this
        · simp only [hhead]
          refine ⟨p :: ps, [], by simp, boundaryAt_all h.chain fun hall => ?_⟩
          have := hall p (.head _)
          simp [hl] at this

/-- The walk from the best anchor. -/
theorem frameBoundaryAtOrAboveLocked_spec {z : Zstd} {s : Store} {lay : ℕ → List Piece}
    (h : StoreOk z s lay) (hseg : seg ∈ s.segments) {offset : ℕ}
    (hkept : ∀ p ∈ lay seg.baseOffset, p.base < offset → p.stop ≤ seg.file.length) :
    ∃ a b, lay seg.baseOffset = a ++ b ∧ BoundaryAt seg offset 0 seg.baseOffset
      (frameBoundaryAtOrAboveLocked s seg offset) a b := by
  have hlaid := h.laid seg hseg
  unfold frameBoundaryAtOrAboveLocked
  split
  next hle =>
    refine ⟨[], lay seg.baseOffset, rfl, boundaryAt_none le_rfl hlaid.chain.le.2 (fun _ => hle)
      (fun p hp => ?_) fun _ _ => rfl⟩
    have := hlaid.chain.bounds hp
    omega
  · split
    next hge =>
      refine ⟨lay seg.baseOffset, [], by simp, boundaryAt_all hlaid.chain fun _ p hp => ?_⟩
      have h1 := hlaid.chain.bounds hp
      have h2 := hlaid.base_lt_next hp
      omega
    · dsimp only
      cases hidx : s.segmentIndexes.lookup seg.baseOffset with
      | none => exact hlaid.boundaryLoop_spec hkept _ (by simp)
      | some idx =>
        rw [Option.bind_some]
        cases hanchor : indexAnchorForOffset idx.entries offset with
        | none => exact hlaid.boundaryLoop_spec hkept _ (by simp)
        | some e =>
          have hok := h.index seg hseg idx hidx
          obtain ⟨he, hle⟩ := indexAnchorForOffset_some (hok.sorted hlaid.chain) hanchor
          obtain ⟨p, hp, rfl⟩ := mem_map.mp (hok.sub.subset he)
          obtain ⟨front, rest, hsplit⟩ := append_of_mem hp
          rw [hsplit] at hlaid hkept ⊢
          have hat : Laid z seg.file p.pos p.base (p :: rest) seg.sizeBytes seg.nextOffset := by
            obtain ⟨m, k, -, hrest⟩ := hlaid.split
            exact { hrest with chain := ⟨rfl, le_rfl, hrest.chain.2.2⟩ }
          obtain ⟨a, b, hab, hspec⟩ := hat.boundaryLoop_spec
            (fun q hq => hkept q (mem_append_right front hq)) (seg.sizeBytes + 1) (by omega)
          refine ⟨front ++ a, b, by rw [append_assoc, hab], hspec.prepend hab hlaid.chain ?_⟩
          intro q hq
          have h1 := hlaid.chain.before hq
          have h2 := hlaid.base_lt_next (mem_append_left _ hq)
          simp only [Piece.entry] at hle
          omega

end Narad.Storage
