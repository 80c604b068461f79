import Narad.Cluster.MoveSession

/-!
# The staged copy is exact

Every staged file is the beginning of the segment the source has shown under the same base offset, and
the cursor of a segment stands at the end of its staged file. One chunk keeps both, and so does opening
and cutting the staged copy; a fetch that fails after it has extended a begun segment leaves its cursor
behind, and the next pass then stages those bytes a second time.
-/

namespace Narad.Cluster

open Function (update update_apply update_of_ne update_self)
open Narad.Lib Narad.Storage List Option MoveSession

/-- The files are in order. -/
def Sorted (files : List SegmentFile) : Prop :=
  files.Pairwise fun f g => f.baseOffset < g.baseOffset

section

variable {files : List SegmentFile} {f : SegmentFile} {base b : ℕ} {data bytes : Bytes}

/-- The first file's bytes, or those of the rest. -/
theorem bytesOf_cons (f : SegmentFile) (files : List SegmentFile) (b : ℕ) :
    bytesOf (f :: files) b = if f.baseOffset = b then some f.bytes else bytesOf files b := by
  by_cases h : f.baseOffset = b <;> simp [bytesOf, h]

/-- Files listed first come first. -/
theorem bytesOf_append (xs ys : List SegmentFile) (b : ℕ) :
    bytesOf (xs ++ ys) b = (bytesOf xs b).or (bytesOf ys b) := by
  induction xs with
  | nil => rfl
  | cons f xs ih =>
    rw [cons_append, bytesOf_cons, bytesOf_cons, ih]
    split <;> rfl

/-- The bytes found are those of a file. -/
theorem exists_of_bytesOf (h : bytesOf files b = some bytes) : ∃ f ∈ files, f.baseOffset = b ∧ f.bytes = bytes := by
  rw [bytesOf, map_eq_some_iff] at h
  obtain ⟨f, hfind, rfl⟩ := h
  exact ⟨f, mem_of_find?_eq_some hfind, by simpa using find?_some hfind, rfl⟩

/-- In order, every file is found. -/
theorem Sorted.bytesOf_mem (h : Sorted files) (hf : f ∈ files) : bytesOf files f.baseOffset = some f.bytes := by
  induction files with
  | nil => cases hf
  | cons g rest ih =>
    rw [Sorted, pairwise_cons] at h
    rw [bytesOf_cons]
    rcases mem_cons.mp hf with rfl | hf
    · rw [if_pos rfl]
    have := h.1 f hf
    rw [if_neg (by omega)]
    exact ih h.2 hf

/-- A write sets one file. -/
theorem bytesOf_write (files : List SegmentFile) (base : ℕ) (data : Bytes) :
    bytesOf (writeSegmentFile files base data) = update (bytesOf files) base (some data) := by
  funext b
  induction files with
  | nil =>
    rw [writeSegmentFile, bytesOf_cons, update_apply]
    by_cases h : base = b
    · rw [if_pos h, if_pos h.symm]
    · rw [if_neg h, if_neg (Ne.symm h)]
  | cons f rest ih =>
    rw [writeSegmentFile, update_apply]
    split
    · rw [bytesOf_cons]
      by_cases h : base = b
      · rw [if_pos h, if_pos h.symm]
      · rw [if_neg h, if_neg (Ne.symm h)]
    split
    next heq =>
      rw [bytesOf_cons, bytesOf_cons]
      by_cases h : b = base
      · rw [if_pos (heq.symm.trans h.symm), if_pos h]
      · have hne : f.baseOffset ≠ b := fun hfb => h (hfb.symm.trans heq.symm)
        rw [if_neg hne, if_neg h, if_neg hne]
    next hne =>
      rw [bytesOf_cons, bytesOf_cons, ih, update_apply]
      by_cases h : b = base
      · have : f.baseOffset ≠ b := fun hfb => hne (h.symm.trans hfb.symm)
        rw [if_neg this, if_pos h, if_pos h]
      · rw [if_neg h, if_neg h]

/-- A write adds no file but its own. -/
theorem mem_write (h : f ∈ writeSegmentFile files base data) :
    f.baseOffset = base ∨ ∃ g ∈ files, g.baseOffset = f.baseOffset := by
  induction files with
  | nil =>
    rw [writeSegmentFile, mem_singleton] at h
    exact .inl (h ▸ rfl)
  | cons g rest ih =>
    rw [writeSegmentFile] at h
    split at h
    · rcases mem_cons.mp h with rfl | h
      · exact .inl rfl
      · exact .inr ⟨f, h, rfl⟩
    split at h
    · rcases mem_cons.mp h with rfl | h
      · exact .inr ⟨g, .head _, rfl⟩
      · exact .inr ⟨f, .tail _ h, rfl⟩
    rcases mem_cons.mp h with rfl | h
    · exact .inr ⟨f, .head _, rfl⟩
    rcases ih h with hbase | ⟨g', hg', heq⟩
    · exact .inl hbase
    · exact .inr ⟨g', .tail _ hg', heq⟩

/-- A write keeps the files in order. -/
theorem Sorted.write (h : Sorted files) (base : ℕ) (data : Bytes) : Sorted (writeSegmentFile files base data) := by
  induction files with
  | nil => exact pairwise_singleton _ _
  | cons g rest ih =>
    have hcons := pairwise_cons.mp h
    rw [writeSegmentFile]
    split
    next hlt =>
      refine pairwise_cons.mpr ⟨fun f hf => ?_, h⟩
      rcases mem_cons.mp hf with rfl | hf
      · exact hlt
      have := hcons.1 f hf
      simp only
      omega
    split
    · exact pairwise_cons.mpr ⟨hcons.1, hcons.2⟩
    next hge hne =>
      refine pairwise_cons.mpr ⟨fun f hf => ?_, ih hcons.2⟩
      rcases mem_write hf with hbase | ⟨g', hg', heq⟩
      · omega
      · have := hcons.1 g' hg'
        omega

end

section

variable {known known' : List SegmentFile} {info : Listing} {r : MoveSession.Round}

/-- The source's bytes only grow. -/
def Shown (known known' : List SegmentFile) : Prop :=
  ∀ b, (bytesOf known b).getD [] <+: (bytesOf known' b).getD []

/-- What is known shows itself. -/
theorem Shown.refl (known : List SegmentFile) : Shown known known :=
  fun _ => prefix_rfl

/-- Showing composes. -/
theorem Shown.trans {known'' : List SegmentFile} (h : Shown known known') (h' : Shown known' known'') :
    Shown known known'' :=
  fun b => (h b).trans (h' b)

/-- A listing that grows shows what was known, or more. -/
theorem Grows.shown (h : Grows known info) : Shown known (info.segments ++ known) := by
  intro b
  rw [bytesOf_append]
  cases hk : bytesOf known b with
  | none => exact nil_prefix
  | some bytes =>
    obtain ⟨k, hk', rfl, -⟩ := exists_of_bytesOf hk
    cases hi : bytesOf info.segments k.baseOffset with
    | none => rw [none_or]
    | some bytes' =>
      obtain ⟨f, hf, hbase, rfl⟩ := exists_of_bytesOf hi
      have := (h.2 k hk').1 f hf hbase
      rwa [hk] at this

/-- Noting a listing takes nothing back. -/
theorem note_shown (h : note known r = some known') : Shown known known' ∧ known ⊆ known' := by
  unfold note at h
  split at h
  · cases h
    exact ⟨.refl _, List.Subset.refl _⟩
  split at h
  next hgrows =>
    cases h
    exact ⟨hgrows.shown, subset_append_right _ _⟩
  · cases h

/-- Neither does noting several. -/
theorem notes_shown {rounds : List MoveSession.Round} (h : rounds.foldlM note known = some known') :
    Shown known known' ∧ known ⊆ known' := by
  induction rounds generalizing known with
  | nil =>
    cases h
    exact ⟨.refl _, List.Subset.refl _⟩
  | cons r rest ih =>
    rw [foldlM_cons, bind_eq_bind, bind_eq_some_iff] at h
    obtain ⟨k, hk, hrest⟩ := h
    obtain ⟨hshown, hsubset⟩ := note_shown hk
    obtain ⟨hshown', hsubset'⟩ := ih hrest
    exact ⟨hshown.trans hshown', List.Subset.trans hsubset hsubset'⟩

end

/-- Every staged file begins the segment of the source, and a segment with a cursor has a staged file. -/
structure Leads (known : List SegmentFile) (s : MoveSession) : Prop where
  sorted : Sorted s.staged
  leads : ∀ {b bytes}, bytesOf s.staged b = some bytes → bytes <+: (bytesOf known b).getD []
  begun : ∀ {b at'}, s.copied b = some at' → ∃ bytes, bytesOf s.staged b = some bytes
  bases : ∀ f ∈ s.staged, f.baseOffset = 0 ∨ ∃ k ∈ known, k.baseOffset = f.baseOffset

/-- Moreover a cursor stands at the end of its file, unless the segment is to be staged from the start. -/
structure Exact (known : List SegmentFile) (s : MoveSession) : Prop extends Leads known s where
  cursor : ∀ {b at' bytes}, s.copied b = some at' → bytesOf s.staged b = some bytes → 0 < at' → bytes.length = at'

section

variable {known known' : List SegmentFile} {s : MoveSession}

/-- What the source shows later does not undo a copy. -/
theorem Leads.mono (h : Leads known s) (hshown : Shown known known' ∧ known ⊆ known') : Leads known' s := by
  refine ⟨h.sorted, fun hb => (h.leads hb).trans (hshown.1 _), h.begun, fun f hf => ?_⟩
  rcases h.bases f hf with hzero | ⟨k, hk, heq⟩
  · exact .inl hzero
  · exact .inr ⟨k, hshown.2 hk, heq⟩

/-- What is copied stays exact as more is known. -/
theorem Exact.mono (h : Exact known s) (hshown : Shown known known' ∧ known ⊆ known') : Exact known' s :=
  ⟨h.toLeads.mono hshown, h.cursor⟩

/-- Between two calls the cursors are all that can be wrong. -/
theorem Leads.exact (h : Leads known s) (haligned : s.aligned = true) : Exact known s := by
  refine ⟨h, fun {b at' bytes} hc hb hpos => ?_⟩
  obtain ⟨f, hf, rfl, rfl⟩ := exists_of_bytesOf hb
  have hall := all_eq_true.mp haligned f hf
  rw [hc, all_some, decide_eq_true_eq] at hall
  exact hall hpos

variable {seg : SegmentFile} {files : List SegmentFile}

/-- One segment is staged anew, from the bytes the source has of it. -/
theorem Leads.restage (h : Leads known s) (hmem : seg ∈ known) (hsorted : Sorted files)
    (hother : ∀ b, b ≠ seg.baseOffset → bytesOf files b = bytesOf s.staged b)
    (hself : bytesOf files seg.baseOffset = bytesOf s.staged seg.baseOffset ∨
      ∃ bytes, bytesOf files seg.baseOffset = some bytes ∧ bytes <+: (bytesOf known seg.baseOffset).getD [])
    (hbases : ∀ f ∈ files, f.baseOffset = seg.baseOffset ∨ ∃ g ∈ s.staged, g.baseOffset = f.baseOffset) :
    Leads known { s with staged := files } := by
  -- The file of a segment is as before, or it is the new one.
  have hfile : ∀ b, bytesOf files b = bytesOf s.staged b ∨
      ∃ bytes, bytesOf files b = some bytes ∧ bytes <+: (bytesOf known b).getD [] := by
    intro b
    by_cases hb : b = seg.baseOffset
    · exact hb ▸ hself
    · exact .inl (hother b hb)
  refine ⟨hsorted, fun {b bytes} hb => ?_, fun {b c} hc => ?_, fun f hf => ?_⟩
  · rcases hfile b with hsame | ⟨bytes', hnew, hleads⟩
    · exact h.leads (hsame.symm.trans hb)
    · rwa [some.inj (hb.symm.trans hnew)]
  · rcases hfile b with hsame | ⟨bytes, hnew, -⟩
    · exact (h.begun hc).imp fun _ => hsame.trans
    · exact ⟨bytes, hnew⟩
  · rcases hbases f hf with hbase | ⟨g, hg, heq⟩
    · exact .inr ⟨seg, hmem, hbase.symm⟩
    · exact heq ▸ h.bases g hg

/-- The cursor of one segment is set to the end of its file. -/
theorem Leads.setCopied (h : Leads known s) {base at' : ℕ} {bytes : Bytes}
    (hcursor : ∀ {b c bytes}, b ≠ base → s.copied b = some c → bytesOf s.staged b = some bytes → 0 < c →
      bytes.length = c) (hself : bytesOf s.staged base = some bytes) (hlen : 0 < at' → bytes.length = at') :
    Exact known (s.setCopied base (some at')) := by
  refine ⟨⟨h.sorted, h.leads, fun {b c} hc => ?_, h.bases⟩, fun {b c bytes'} hc hb hpos => ?_⟩
  all_goals
    change update s.copied base _ b = some c at hc
    rw [update_apply] at hc
    split at hc
  next heq => exact ⟨bytes, heq ▸ hself⟩
  · exact h.begun hc
  next heq =>
    subst heq
    cases hc
    rw [some.inj (hb.symm.trans hself)]
    exact hlen hpos
  next hne => exact hcursor hne hc hb hpos

end

/-- What fetching a segment from `at'` does to the directory. -/
structure FetchedOk (chunkSize : ℕ) (seg : SegmentFile) (replies : List (Option ℕ)) (files : List SegmentFile)
    (at' : ℕ) (got : Fetched) : Prop where
  sorted : Sorted files → Sorted got.files
  other : ∀ b, b ≠ seg.baseOffset → bytesOf got.files b = bytesOf files b
  bases : ∀ f ∈ got.files, f.baseOffset = seg.baseOffset ∨ ∃ g ∈ files, g.baseOffset = f.baseOffset
  moved : (got.at' = at' ∧ got.files = files) ∨ (at' < got.at' ∧ got.at' ≤ seg.bytes.length ∧
      bytesOf got.files seg.baseOffset = some (seg.bytes.take got.at'))
  rest : ∀ reply ∈ got.replies, reply ∈ replies
  done : 0 < chunkSize → some 0 ∉ replies → got.failed = false → seg.bytes.length ≤ got.at'

/-- A read at the end of a prefix makes a longer one. -/
theorem take_append_readAt (bytes : Bytes) (at' n : ℕ) :
    bytes.take at' ++ readAt bytes at' n = bytes.take (at' + (readAt bytes at' n).length) := by
  rw [readAt, length_take, take_add, ← take_eq_take_min]

/-- The loop appends to the file what the replies carry. -/
theorem fetchLoop_ok (chunkSize : ℕ) (seg : SegmentFile) (replies : List (Option ℕ)) (files : List SegmentFile)
    (at' : ℕ) (hstart : 0 < at' → bytesOf files seg.baseOffset = some (seg.bytes.take at')) :
    FetchedOk chunkSize seg replies files at' (fetchLoop chunkSize seg replies files at') := by
  -- Nothing more is staged.
  have hstay : ∀ (all rest : List (Option ℕ)) (failed : Bool), (∀ reply ∈ rest, reply ∈ all) →
      (0 < chunkSize → some 0 ∉ all → failed = false → seg.bytes.length ≤ at') →
      FetchedOk chunkSize seg all files at' ⟨files, at', rest, failed⟩ :=
    fun all rest failed hrest hdone =>
      ⟨id, fun _ _ => rfl, fun f hf => .inr ⟨f, hf, rfl⟩, .inl ⟨rfl, rfl⟩, hrest, hdone⟩
  induction replies generalizing files at' with
  | nil => exact hstay _ _ _ nofun fun _ _ hfailed => by simpa using hfailed
  | cons reply replies ih =>
    rw [fetchLoop]
    split
    next hle => exact hstay _ _ _ (fun _ h => h) fun _ _ _ => hle
    rename_i hlt
    cases reply with
    | none => exact hstay _ _ _ (fun _ h => .tail _ h) nofun
    | some n =>
      dsimp only
      generalize hwant : min n (min chunkSize (seg.bytes.length - at')) = want
      split
      next hempty =>
        refine hstay _ _ _ (fun _ h => .tail _ h) fun hchunk hreplies _ => ?_
        -- A reply with bytes in it and a chunk size make progress.
        have hn : n ≠ 0 := fun h0 => hreplies (h0 ▸ .head _)
        have hlen := congrArg length hempty
        rw [readAt, length_take, length_drop, length_nil] at hlen
        omega
      rename_i hne
      have htake := take_append_readAt seg.bytes at' want
      have hpos : 0 < (readAt seg.bytes at' want).length := length_pos_iff.mpr hne
      have hbound : at' + (readAt seg.bytes at' want).length ≤ seg.bytes.length := by
        rw [readAt, length_take, length_drop]
        omega
      generalize readAt seg.bytes at' want = chunk at hne htake hpos hbound ⊢
      have hwritten : (if at' = 0 then writeSegmentFile files seg.baseOffset chunk
          else appendToSegmentFile files seg.baseOffset chunk) =
            writeSegmentFile files seg.baseOffset (seg.bytes.take (at' + chunk.length)) := by
        split
        next hzero => rw [← htake, hzero, take_zero, nil_append]
        · rw [appendToSegmentFile, hstart (by omega), getD_some, htake]
      rw [hwritten]
      have hself : bytesOf (writeSegmentFile files seg.baseOffset (seg.bytes.take (at' + chunk.length)))
          seg.baseOffset = some (seg.bytes.take (at' + chunk.length)) := by
        rw [bytesOf_write, update_self]
      obtain ⟨hsorted, hother, hbases, hmoved, hrest, hdone⟩ := ih _ (at' + chunk.length) (fun _ => hself)
        fun all rest failed hrest hdone =>
          ⟨id, fun _ _ => rfl, fun f hf => .inr ⟨f, hf, rfl⟩, .inl ⟨rfl, rfl⟩, hrest, hdone⟩
      refine ⟨fun hs => hsorted (hs.write _ _), fun b hb => ?_, fun f hf => ?_, .inr ?_,
        fun reply hr => .tail _ (hrest reply hr),
        fun hchunk hreplies => hdone hchunk fun h => hreplies (.tail _ h)⟩
      · rw [hother b hb, bytesOf_write, update_of_ne hb]
      · rcases hbases f hf with hbase | ⟨g, hg, heq⟩
        · exact .inl hbase
        rcases mem_write hg with hbase | ⟨g', hg', heq'⟩
        · exact .inl (heq.symm.trans hbase)
        · exact .inr ⟨g', hg', heq'.trans heq⟩
      · rcases hmoved with ⟨hat, hfiles⟩ | ⟨hlt', hle', hbytes'⟩
        · rw [hat, hfiles]
          exact ⟨by omega, hbound, hself⟩
        · exact ⟨by omega, hle', hbytes'⟩

section

variable {chunkSize : ℕ} {known : List SegmentFile} {s : MoveSession} {seg : SegmentFile} {at' : ℕ}
  {replies : List (Option ℕ)}

/-- What copying a segment leaves: the cursors are right again unless it fails. -/
structure CopiedOk (known : List SegmentFile) (s : MoveSession) (seg : SegmentFile) (replies : List (Option ℕ))
    (r : MoveSession × List (Option ℕ) × Except MoveError ℕ) : Prop where
  leads : Leads known r.1
  exact : ∀ n, r.2.2 = .ok n → Exact known r.1
  rest : ∀ reply ∈ r.2.1, reply ∈ replies
  other : ∀ b, b ≠ seg.baseOffset → r.1.copied b = s.copied b
  done : ∀ n, r.2.2 = .ok n → r.1.copied seg.baseOffset = some seg.bytes.length

section

variable (h : Exact known s) (hseg : bytesOf known seg.baseOffset = some seg.bytes)
include h hseg

/-- A fetch of one segment keeps the copy exact. -/
theorem Exact.fetchSegment (hmem : seg ∈ known) (hchunk : 0 < chunkSize) (hreplies : some 0 ∉ replies)
    (hcursor : s.copied seg.baseOffset = some at' ∨ (s.copied seg.baseOffset = none ∧ at' = 0 ∧ seg.bytes ≠ []))
    (hle : at' ≤ seg.bytes.length) : CopiedOk known s seg replies (s.fetchSegment chunkSize seg at' replies) := by
  have hstart : 0 < at' → bytesOf s.staged seg.baseOffset = some (seg.bytes.take at') := by
    intro hpos
    rcases hcursor with hcursor | ⟨-, rfl, -⟩
    · obtain ⟨bytes, hbytes⟩ := h.begun hcursor
      have hleads := h.leads hbytes
      rw [hseg, getD_some] at hleads
      rw [hbytes, ← h.cursor hcursor hbytes hpos]
      exact congrArg some (prefix_iff_eq_take.mp hleads)
    · exact absurd hpos (lt_irrefl 0)
  have hgot := fetchLoop_ok chunkSize seg replies s.staged at' hstart
  have hleads : Leads known { s with staged := (fetchLoop chunkSize seg replies s.staged at').files } := by
    refine h.toLeads.restage hmem (hgot.sorted h.sorted) hgot.other ?_ hgot.bases
    rcases hgot.moved with ⟨-, hfiles⟩ | ⟨-, -, hself⟩
    · exact .inl (by rw [hfiles])
    · exact .inr ⟨_, hself, by rw [hseg]; exact take_prefix _ _⟩
  unfold MoveSession.fetchSegment
  dsimp only
  split
  · exact ⟨hleads, nofun, hgot.rest, fun _ _ => rfl, nofun⟩
  rename_i hok
  have hfull := hgot.done hchunk hreplies (by simpa using hok)
  have hat : (fetchLoop chunkSize seg replies s.staged at').at' = seg.bytes.length := by
    rcases hgot.moved with ⟨hsame, -⟩ | ⟨-, hle', -⟩ <;> omega
  obtain ⟨bytes, hbytes, hlen⟩ : ∃ bytes, bytesOf (fetchLoop chunkSize seg replies s.staged at').files
      seg.baseOffset = some bytes ∧ (0 < seg.bytes.length → bytes.length = seg.bytes.length) := by
    rcases hgot.moved with ⟨hsame, hfiles⟩ | ⟨-, -, hself⟩
    · rw [hfiles]
      rcases hcursor with hcursor | ⟨-, hzero, hne⟩
      · obtain ⟨bytes, hbytes⟩ := h.begun hcursor
        have := h.cursor hcursor hbytes
        exact ⟨bytes, hbytes, by omega⟩
      · have := length_pos_iff.mpr hne
        omega
    · exact ⟨_, hself, fun _ => by rw [length_take]; omega⟩
  have hexact := hleads.setCopied (fun hb hc hbytes => h.cursor hc ((hgot.other _ hb).symm.trans hbytes)) hbytes hlen
  rw [hat]
  refine ⟨hexact.toLeads, fun _ _ => hexact, hgot.rest, fun b hb => update_of_ne hb _ _, fun n _ => ?_⟩
  exact update_self ..

/-- A cursor is never past what the source has shown. -/
theorem Exact.cursor_le (hc : s.copied seg.baseOffset = some at') : at' ≤ seg.bytes.length := by
  obtain ⟨bytes, hbytes⟩ := h.begun hc
  have hleads := (h.leads hbytes).length_le
  rw [hseg, getD_some] at hleads
  have := h.cursor hc hbytes
  omega

/-- So does the copy of one segment. -/
theorem Exact.copySegment (hmem : seg ∈ known) (hchunk : 0 < chunkSize) (hreplies : some 0 ∉ replies) :
    CopiedOk known s seg replies (s.copySegment chunkSize seg replies) := by
  unfold MoveSession.copySegment
  split
  next hnone =>
    split
    next hzero =>
      have hempty : seg.bytes = [] := length_eq_zero_iff.mp hzero
      have hother : ∀ b, b ≠ seg.baseOffset →
          bytesOf (writeSegmentFile s.staged seg.baseOffset []) b = bytesOf s.staged b := fun b hb => by
        rw [bytesOf_write, update_of_ne hb]
      have hself : bytesOf (writeSegmentFile s.staged seg.baseOffset []) seg.baseOffset = some [] := by
        rw [bytesOf_write, update_self]
      have hleads := h.toLeads.restage hmem (h.sorted.write _ _) hother (.inr ⟨[], hself, nil_prefix⟩)
        fun _ => mem_write
      have hexact := hleads.setCopied (fun hb hc hbytes => h.cursor hc ((hother _ hb).symm.trans hbytes))
        hself (absurd · (lt_irrefl 0))
      refine ⟨hexact.toLeads, fun _ _ => hexact, fun _ hr => hr, fun b hb => update_of_ne hb _ _, fun _ _ => ?_⟩
      rw [hempty]
      exact update_self ..
    next hlen =>
      exact h.fetchSegment hseg hmem hchunk hreplies
        (.inr ⟨hnone, rfl, fun hempty => hlen (hempty ▸ rfl)⟩) (Nat.zero_le _)
  next c hc =>
    have hle := h.cursor_le hseg hc
    rw [if_neg (by omega)]
    exact h.fetchSegment hseg hmem hchunk hreplies (.inl hc) hle

end

/-- What a pass leaves after the listed segments. -/
structure PassOk (known segs : List SegmentFile) (s : MoveSession) (r : MoveSession × Except MoveError ℕ) : Prop where
  leads : Leads known r.1
  exact : ∀ m, r.2 = .ok m → Exact known r.1
  other : ∀ b, (∀ seg ∈ segs, seg.baseOffset ≠ b) → r.1.copied b = s.copied b
  done : ∀ m, r.2 = .ok m → ∀ seg ∈ segs, r.1.copied seg.baseOffset = some seg.bytes.length

/-- So does the copy of all that are listed. -/
theorem Exact.copySegments (h : Exact known s) (hchunk : 0 < chunkSize) {segs : List SegmentFile}
    (hsegs : ∀ seg ∈ segs, bytesOf known seg.baseOffset = some seg.bytes ∧ seg ∈ known) (hsorted : Sorted segs)
    (hreplies : some 0 ∉ replies) (n : ℕ) : PassOk known segs s (s.copySegments chunkSize segs replies n) := by
  induction segs generalizing s replies n with
  | nil => exact ⟨h.toLeads, fun _ _ => h, fun _ _ => rfl, nofun⟩
  | cons seg rest ih =>
    obtain ⟨hbytes, hmem⟩ := hsegs seg (.head _)
    have hone := h.copySegment hbytes hmem hchunk hreplies
    obtain ⟨hfirst, hrest⟩ := pairwise_cons.mp hsorted
    rw [copySegments]
    split
    next s' replies' e heq =>
      rw [heq] at hone
      exact ⟨hone.leads, nofun, fun b hb => hone.other b (hb seg (.head _)).symm, nofun⟩
    next s' replies' m heq =>
      rw [heq] at hone
      obtain ⟨hleads, hexact, hother, hdone⟩ := ih (hone.exact m rfl) (fun seg hs => hsegs seg (.tail _ hs)) hrest
        (fun hr => hreplies (hone.rest _ hr)) (n + m)
      refine ⟨hleads, hexact, fun b hb => ?_, fun k hk seg' hseg' => ?_⟩
      · rw [hother b fun seg hs => hb seg (.tail _ hs)]
        exact hone.other b (hb seg (.head _)).symm
      · rcases mem_cons.mp hseg' with rfl | hseg'
        · rw [hother _ fun g hg => (ne_of_lt (hfirst g hg)).symm]
          exact hone.done m rfl
        · exact hdone k hk seg' hseg'

end

/-- Every listed segment is staged whole, and what else is staged comes before. -/
structure Complete (info : Listing) (files : List SegmentFile) : Prop where
  listed : Sorted info.segments
  whole : ∀ seg ∈ info.segments, bytesOf files seg.baseOffset = some seg.bytes
  before : ∀ f ∈ files, (∃ seg ∈ info.segments, seg.baseOffset = f.baseOffset) ∨
    ∀ seg ∈ info.segments, f.baseOffset < seg.baseOffset
  blank : info.segments = [] → ∀ f ∈ files, f.baseOffset = 0 ∧ f.bytes = []

section

variable {chunkSize : ℕ} {known known' : List SegmentFile} {s : MoveSession} {r : MoveSession.Round}

/-- A pass leaves a copy that leads, and an exact one if it ends well. -/
theorem Exact.pass (h : Exact known s) (hchunk : 0 < chunkSize) (hnote : note known r = some known')
    (hanswered : r.answered = true) :
    Leads known' (s.pass chunkSize r).1 ∧ ∀ n info, (s.pass chunkSize r).2 = .ok (n, info) →
      Exact known' (s.pass chunkSize r).1 ∧ Complete info (s.pass chunkSize r).1.staged := by
  unfold note at hnote
  unfold MoveSession.pass
  split
  next hnone =>
    rw [hnone] at hnote
    cases hnote
    exact ⟨h.toLeads, nofun⟩
  rename_i info hinfo
  rw [hinfo] at hnote
  simp only [ite_none_right_eq_some, some.injEq] at hnote
  obtain ⟨hgrows, rfl⟩ := hnote
  have hreplies : some 0 ∉ r.replies := by
    intro hmem
    have := all_eq_true.mp hanswered _ hmem
    simp at this
  have hmono : Exact (info.segments ++ known) { s with lastHWM := info.highWatermark, sawInfo := true } := by
    have := h.mono ⟨hgrows.shown, subset_append_right _ _⟩
    exact { this with }
  have hsegs : ∀ seg ∈ info.segments, bytesOf (info.segments ++ known) seg.baseOffset = some seg.bytes ∧
      seg ∈ info.segments ++ known := by
    intro seg hseg
    refine ⟨?_, mem_append_left _ hseg⟩
    rw [bytesOf_append, Sorted.bytesOf_mem hgrows.1 hseg, some_or]
  have hok := hmono.copySegments hchunk hsegs hgrows.1 hreplies 0
  split <;> rename_i heq <;> rw [heq] at hok
  · exact ⟨hok.leads, nofun⟩
  next s' n =>
    have hexact := hok.exact n rfl
    refine ⟨{ hexact with }, fun m info' hm => ⟨{ hexact with }, ?_⟩⟩
    simp only [Except.ok.injEq, Prod.mk.injEq] at hm
    obtain ⟨-, rfl⟩ := hm
    refine ⟨hgrows.1, fun seg hseg => ?_, fun f hf => ?_, fun hempty f hf => ?_⟩
    · have hcursor := hok.done n rfl seg hseg
      obtain ⟨bytes, hbytes⟩ := hexact.begun hcursor
      have hleads := hexact.leads hbytes
      rw [(hsegs seg hseg).1, getD_some] at hleads
      change bytesOf s'.staged seg.baseOffset = some seg.bytes
      rw [hbytes]
      refine congrArg some (hleads.eq_of_length_le ?_)
      have := hexact.cursor hcursor hbytes
      omega
    · have hknown : ∀ k ∈ info.segments ++ known, (∃ seg ∈ info.segments, seg.baseOffset = k.baseOffset) ∨
          ∀ seg ∈ info.segments, k.baseOffset < seg.baseOffset := by
        intro k hk
        rcases mem_append.mp hk with hk | hk
        · exact .inl ⟨k, hk, rfl⟩
        cases hb : bytesOf info.segments k.baseOffset with
        | some bytes =>
          obtain ⟨seg, hseg, hbase, -⟩ := exists_of_bytesOf hb
          exact .inl ⟨seg, hseg, hbase⟩
        | none => exact .inr ((hgrows.2 k hk).2 hb).2
      rcases hexact.bases f hf with hzero | ⟨k, hk, hbase⟩
      · by_cases hlisted : ∃ seg ∈ info.segments, seg.baseOffset = f.baseOffset
        · exact .inl hlisted
        refine .inr fun seg hseg => ?_
        have hne : seg.baseOffset ≠ f.baseOffset := fun heq => hlisted ⟨seg, hseg, heq⟩
        omega
      · rw [← hbase]
        exact hknown k hk
    · have hknown : known = [] := eq_nil_iff_forall_not_mem.mpr fun k hk =>
        ((hgrows.2 k hk).2 (hempty ▸ rfl)).1 hempty
      have hnone : info.segments ++ known = [] := by rw [hempty, hknown, append_nil]
      rw [hnone] at hexact
      refine ⟨?_, prefix_nil.mp (hexact.leads (hexact.sorted.bytesOf_mem hf))⟩
      rcases hexact.bases f hf with hzero | ⟨k, hk, -⟩
      · exact hzero
      · cases hk

variable {rounds : List MoveSession.Round}

section

variable (h : Exact known s) (hchunk : 0 < chunkSize) (hnotes : rounds.foldlM note known = some known')
include h hchunk hnotes

/-- However the passes end, the staged files still begin the source's segments: a pass that fails ends
the call. -/
theorem Exact.catchUpLoop (hanswered : ∀ r ∈ rounds, r.answered = true)
    {lagBytes maxRounds stallRounds passes : ℕ} {best : Option ℕ} {stalls : ℕ} :
    Leads known' (s.catchUpLoop chunkSize lagBytes maxRounds stallRounds rounds passes best stalls).1 := by
  induction rounds generalizing s known passes best stalls with
  | nil =>
    cases hnotes
    exact h.toLeads
  | cons r rest ih =>
    rw [foldlM_cons, bind_eq_bind, bind_eq_some_iff] at hnotes
    obtain ⟨k, hk, hrest⟩ := hnotes
    obtain ⟨hleads, hpass⟩ := h.pass hchunk hk (hanswered r (.head _))
    have hstop := hleads.mono (notes_shown hrest)
    rw [catchUpLoop]
    split <;> rename_i heq <;> rw [heq] at hpass hstop
    · exact hstop
    next s' n info =>
      have hgo := @ih k s' (hpass n info rfl).1 hrest fun r hr => hanswered r (.tail _ hr)
      dsimp only
      repeat' split
      all_goals first | exact hgo | exact hstop

/-- The drain ends with everything of the last listing staged. -/
theorem Exact.drainLoop (hanswered : ∀ r ∈ rounds, r.answered = true) (lapsed : Bool) (last : Option Listing) :
    Leads known' (s.drainLoop chunkSize lapsed rounds last).1 ∧
      ∀ info, (s.drainLoop chunkSize lapsed rounds last).2 = .ok info →
        Exact known' (s.drainLoop chunkSize lapsed rounds last).1 ∧
          Complete info (s.drainLoop chunkSize lapsed rounds last).1.staged := by
  induction rounds generalizing s known last with
  | nil =>
    cases hnotes
    exact ⟨h.toLeads, nofun⟩
  | cons r rest ih =>
    rw [foldlM_cons, bind_eq_bind, bind_eq_some_iff] at hnotes
    obtain ⟨k, hk, hrest⟩ := hnotes
    obtain ⟨hleads, hpass⟩ := h.pass hchunk hk (hanswered r (.head _))
    have hstop := hleads.mono (notes_shown hrest)
    rw [drainLoop]
    split <;> rename_i heq <;> rw [heq] at hpass hstop
    · exact ⟨hstop, nofun⟩
    next s' n info =>
      obtain ⟨hexact, hcomplete⟩ := hpass n info rfl
      split
      · refine ⟨hstop, fun info' hinfo' => ⟨hexact.mono (notes_shown hrest), ?_⟩⟩
        cases lapsed with
        | true => cases hinfo'
        | false =>
          cases hinfo'
          exact hcomplete
      · exact ih hexact hrest (fun r hr => hanswered r (.tail _ hr)) _

end

end

end Narad.Cluster
