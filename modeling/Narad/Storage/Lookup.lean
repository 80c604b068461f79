import Narad.Storage.Layout
import Mathlib.Data.List.Chain

/-!
# The store serves the records of its layout

`StoreOk` ties the log's files, indexes and caches to one layout of pieces per segment: every
segment is laid out as its pieces, every retained index is a sparse selection of them that starts
no later than the first intact one, and every cached position or decoded frame is that of a piece.

Under it a lookup can only end at a piece that covers the offset, and it does end there when the
piece is on disk, whichever mixture of caches, anchors and rebuilt indexes it goes through.
-/

namespace Narad.Storage

open Lib List

variable {o : ℕ}

/-- A sparse index of a laid-out segment. -/
structure IndexOk (base : ℕ) (ps : List Piece) (entries : List IndexEntry) : Prop where
  sub : entries.Sublist (ps.map (Piece.entry base))
  covers : ∀ p ∈ ps, p.lost = false → ∃ e ∈ entries, e.framePos ≤ p.pos

/-- The entry locates a piece of the layout. -/
def Locates (s : Store) (lay : ℕ → List Piece) (e : IndexEntry) (p : Piece) : Prop :=
  ∃ seg ∈ s.segments, p ∈ lay seg.baseOffset ∧ e = p.entry seg.baseOffset

structure StoreOk (z : Zstd) (s : Store) (lay : ℕ → List Piece) : Prop where
  linked : s.segments.IsChain fun a b => a.nextOffset = b.baseOffset
  nonempty : ∀ seg ∈ s.sealed, seg.baseOffset < seg.nextOffset
  laid : ∀ seg ∈ s.segments, Laid z seg.file 0 seg.baseOffset (lay seg.baseOffset) seg.sizeBytes seg.nextOffset
  index : ∀ seg ∈ s.segments, ∀ idx, s.segmentIndexes.lookup seg.baseOffset = some idx →
    IndexOk seg.baseOffset (lay seg.baseOffset) idx.entries
  indexed : ∀ base idx, s.segmentIndexes.lookup base = some idx → ∃ seg ∈ s.segments, seg.baseOffset = base
  nav : ∀ e ∈ s.navCache, ∃ p, Locates s lay e p
  cache : ∀ f ∈ s.frameCache, ∃ seg ∈ s.segments, ∃ p ∈ lay seg.baseOffset,
    f.key = ⟨seg.baseOffset, p.pos⟩ ∧ f.recs = p.records

variable {ps : List Piece}

theorem Chain.pairwise {pos off size next : ℕ} (h : Chain pos off ps size next) :
    ps.Pairwise fun a b => a.stop ≤ b.pos ∧ a.next ≤ b.base := by
  induction ps generalizing pos off with
  | nil => exact List.Pairwise.nil
  | cons p ps ih =>
    refine pairwise_cons.mpr ⟨fun q hq => ?_, ih h.2.2⟩
    have := h.2.2.bounds hq
    exact ⟨this.1, this.2.2.1⟩

variable {seg : Segment}

theorem mem_segments {s : Store} : seg ∈ s.segments ↔ seg ∈ s.sealed ∨ seg = s.active := by
  simp [Store.segments]

theorem active_mem (s : Store) : s.active ∈ s.segments := by
  simp [Store.segments]

namespace StoreOk

variable {z : Zstd} {s : Store} {lay : ℕ → List Piece}

section

variable (h : StoreOk z s lay)
include h

theorem base_le_next (hseg : seg ∈ s.segments) : seg.baseOffset ≤ seg.nextOffset :=
  (h.laid seg hseg).chain.le.2

/-- Segments come in order of their offsets. -/
theorem pairwise : s.segments.Pairwise fun a b => a.nextOffset ≤ b.baseOffset := by
  have hle : ∀ seg ∈ s.segments, seg.baseOffset ≤ seg.nextOffset := fun seg => h.base_le_next
  have hlink := h.linked
  generalize s.segments = l at hle hlink
  induction l with
  | nil => exact List.Pairwise.nil
  | cons a l ih =>
    have hl := ih (fun seg hseg => hle seg (.tail _ hseg)) hlink.tail
    refine pairwise_cons.mpr ⟨fun b hb => ?_, hl⟩
    cases l with
    | nil => exact absurd hb (by simp)
    | cons c l =>
      have hac : a.nextOffset = c.baseOffset := (isChain_cons_cons.mp hlink).1
      rcases mem_cons.mp hb with rfl | hb
      · omega
      have h1 := (pairwise_cons.mp hl).1 b hb
      have h2 := hle c (by simp)
      omega

/-- No two segments start at the same offset. -/
theorem eq_of_base_eq {a b : Segment} (ha : a ∈ s.segments)
    (hb : b ∈ s.segments) (heq : a.baseOffset = b.baseOffset) : a = b := by
  have hne : s.segments.Pairwise fun a b => a.baseOffset ≠ b.baseOffset := by
    have hp := h.pairwise
    unfold Store.segments at hp ⊢
    rw [pairwise_append] at hp ⊢
    refine ⟨hp.1.imp_of_mem fun ha _ hab => ?_, pairwise_singleton .., fun a ha b hb => ?_⟩
    · have := h.nonempty _ ha
      omega
    · have h1 := h.nonempty a ha
      have h2 := hp.2.2 a ha b hb
      omega
  exact inj_on_of_nodup_map (pairwise_map.mpr hne) ha hb heq

theorem findSegmentLocked_eq (hseg : seg ∈ s.segments) : findSegmentLocked s seg.baseOffset = some seg := by
  unfold findSegmentLocked
  cases hfind : s.segments.find? fun x => decide (x.baseOffset = seg.baseOffset) with
  | none =>
    rw [find?_eq_none] at hfind
    simpa using hfind seg hseg
  | some x =>
    have hx : x.baseOffset = seg.baseOffset := by simpa using find?_some hfind
    rw [h.eq_of_base_eq (mem_of_find?_eq_some hfind) hseg hx]

/-- The segment found for an offset is one whose range holds it. -/
theorem findSegmentForOffset_some (hfind : findSegmentForOffsetLocked s o = some seg) :
    seg ∈ s.segments ∧ seg.baseOffset ≤ o ∧ o < seg.nextOffset := by
  have hp : s.segments.Pairwise fun a b =>
      decide (o < a.nextOffset) = true → decide (o < b.nextOffset) = true := by
    refine List.Pairwise.imp_of_mem (fun {a b} _ hb hab hlt => ?_) h.pairwise
    have := h.base_le_next hb
    simp only [decide_eq_true_eq] at hlt ⊢
    omega
  obtain ⟨a, b, hab, -, hb, hsearch⟩ := exists_search_split _ _ hp
  unfold findSegmentForOffsetLocked at hfind
  rw [hsearch] at hfind
  split at hfind
  next x hx =>
    have hxb : x ∈ b := by
      rw [hab, getElem?_append_right le_rfl] at hx
      exact mem_of_getElem? hx
    split at hfind <;> cases hfind
    exact ⟨hab ▸ mem_append_right a hxb, by omega, by simpa using hb _ hxb⟩
  · cases hfind

theorem findSegmentForOffset_eq (hseg : seg ∈ s.segments) (hlow : seg.baseOffset ≤ o) (hhigh : o < seg.nextOffset) :
    findSegmentForOffsetLocked s o = some seg := by
  obtain ⟨a, b, hab⟩ := append_of_mem hseg
  have hp := h.pairwise
  rw [hab] at hp
  have hbefore : ∀ x ∈ a, decide (o < x.nextOffset) = false := by
    intro x hx
    have := (pairwise_append.mp hp).2.2 x hx seg (by simp)
    simp only [decide_eq_false_iff_not]
    omega
  have hafter : ∀ x ∈ seg :: b, decide (o < x.nextOffset) = true := by
    intro x hx
    rcases mem_cons.mp hx with rfl | hx
    · simpa using hhigh
    have h1 := (pairwise_cons.mp (pairwise_append.mp hp).2.1).1 x hx
    have h2 := h.base_le_next (hab ▸ mem_append_right a (.tail _ hx))
    simp only [decide_eq_true_eq]
    omega
  unfold findSegmentForOffsetLocked
  rw [hab, search_append hbefore hafter]
  simp [Nat.not_lt.mpr hlow]

end

end StoreOk

theorem appendSparseIndexEntry_sublist (o : Options) (entries : List IndexEntry) (e : IndexEntry) :
    (appendSparseIndexEntry o entries e).Sublist (entries ++ [e]) := by
  unfold appendSparseIndexEntry
  split
  · exact List.Sublist.refl _
  · exact sublist_append_left entries [e]

theorem appendSparseIndexEntry_head (o : Options) (entries : List IndexEntry) (e : IndexEntry) :
    (appendSparseIndexEntry o entries e).head? = (entries ++ [e]).head? := by
  unfold appendSparseIndexEntry
  split
  · rfl
  next hkeep =>
    cases entries with
    | nil => exact absurd rfl hkeep
    | cons a entries => rfl

theorem foldl_sparse_sublist (o : Options) (l entries : List IndexEntry) :
    (l.foldl (appendSparseIndexEntry o) entries).Sublist (entries ++ l) := by
  induction l generalizing entries with
  | nil => simp
  | cons e l ih =>
    refine (ih _).trans ?_
    simpa using (appendSparseIndexEntry_sublist o entries e).append_right l

theorem foldl_sparse_head (o : Options) (l entries : List IndexEntry) :
    (l.foldl (appendSparseIndexEntry o) entries).head? = (entries ++ l).head? := by
  induction l generalizing entries with
  | nil => simp
  | cons e l ih =>
    have hhead := appendSparseIndexEntry_head o entries e
    rw [foldl_cons, ih, head?_append, hhead, head?_append, head?_append]
    cases entries <;> simp

variable {entries : List IndexEntry} {pos off size next base : ℕ}

/-- A sparse selection that keeps the first intact piece is a good index. -/
theorem IndexOk.of_head (hchain : Chain pos off ps size next)
    (hsub : entries.Sublist ((ps.filter fun p => !p.lost).map (Piece.entry base)))
    (hhead : entries.head? = ((ps.filter fun p => !p.lost).map (Piece.entry base)).head?) :
    IndexOk base ps entries := by
  refine ⟨hsub.trans (filter_sublist.map _), fun p hp hl => ?_⟩
  have hpair := hchain.pairwise.sublist (filter_sublist (p := fun p : Piece => !p.lost))
  have hmem : p ∈ ps.filter fun p => !p.lost := by simp [hp, hl]
  cases hcons : ps.filter fun p => !p.lost with
  | nil =>
    rw [hcons] at hmem
    cases hmem
  | cons q rest =>
    rw [hcons] at hhead hmem hpair
    refine ⟨q.entry base, mem_of_mem_head? (by simpa using hhead), ?_⟩
    rcases mem_cons.mp hmem with rfl | hmem
    · exact le_rfl
    have := ((pairwise_cons.mp hpair).1 p hmem).1
    simp only [Piece.entry, Piece.stop] at this ⊢
    omega

/-- Along a sorted index the entries above an offset come last. -/
theorem above_of_sorted (o : ℕ) (hsorted : entries.Pairwise fun a b => a.baseOffset ≤ b.baseOffset) :
    entries.Pairwise fun a b => decide (o < a.baseOffset) = true → decide (o < b.baseOffset) = true := by
  refine hsorted.imp fun hab hlt => ?_
  simp only [decide_eq_true_eq] at hlt ⊢
  omega

/-- The anchor chosen for an offset is one of the index at or below it. -/
theorem indexAnchorForOffset_some {e : IndexEntry} (hsorted : entries.Pairwise fun a b => a.baseOffset ≤ b.baseOffset)
    (h : indexAnchorForOffset entries o = some e) : e ∈ entries ∧ e.baseOffset ≤ o := by
  obtain ⟨a, b, rfl, ha, -, hsearch⟩ := exists_search_split _ _ (above_of_sorted o hsorted)
  unfold indexAnchorForOffset at h
  simp only [hsearch] at h
  split at h
  · cases h
  rw [getElem?_append_left (by omega)] at h
  have hmem := mem_of_getElem? h
  exact ⟨mem_append_left b hmem, by simpa using ha e hmem⟩

/-- There is an anchor for an offset as soon as the index has an entry at or below it. -/
theorem indexAnchorForOffset_isSome {e : IndexEntry}
    (hsorted : entries.Pairwise fun a b => a.baseOffset ≤ b.baseOffset) (he : e ∈ entries)
    (hle : e.baseOffset ≤ o) : (indexAnchorForOffset entries o).isSome := by
  obtain ⟨a, b, rfl, -, hb, hsearch⟩ := exists_search_split _ _ (above_of_sorted o hsorted)
  have hea : e ∈ a := by
    rcases mem_append.mp he with hea | heb
    · exact hea
    have := hb e heb
    simp only [decide_eq_true_eq] at this
    omega
  have hpos := length_pos_of_mem hea
  unfold indexAnchorForOffset
  simp only [hsearch]
  rw [if_neg (by omega), getElem?_append_left (by omega)]
  simp
  omega

theorem IndexOk.sorted (h : IndexOk base ps entries) (hchain : Chain pos off ps size next) :
    entries.Pairwise fun a b => a.baseOffset ≤ b.baseOffset := by
  refine List.Pairwise.sublist h.sub (pairwise_map.mpr (hchain.pairwise.imp fun hab => ?_))
  simp only [Piece.entry, Piece.next] at hab ⊢
  omega

end Narad.Storage
