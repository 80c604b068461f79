import Narad.Storage.Boundary

/-!
# What the flusher does to the files

The flusher changes the store by writing past the active segment's end, publishing the frame it
wrote, syncing, rolling and truncating. Each of these keeps the store good, for the layout that
`trimPieces` computes: pieces the active segment no longer counts are dropped, and pieces its file
no longer reaches are lost.
-/

namespace Narad.Storage

open Function (update update_apply update_eq_self update_of_ne update_self)
open Lib List Piece

variable {z : Zstd} {s s' : Store} {lay : ℕ → List Piece} {a b : List Piece} {pos off size next : ℕ} {seg : Segment}

/-- The pieces a segment still counts; those that its file was cut below are lost. -/
def trimPieces (seg : Segment) (ps : List Piece) : List Piece :=
  (ps.filter fun p => decide (p.pos < seg.sizeBytes)).map fun p =>
    { p with lost := p.lost || decide (seg.file.length < p.stop) }

variable {ps : List Piece}

theorem Laid.sameBelow {file file' : Bytes} (h : Laid z file pos off ps size next) (hsame : SameBelow size file file') :
    Laid z file' pos off ps size next := by
  refine ⟨h.chain, h.frames, fun p hp hl => ?_, fun p hp hl => ?_⟩
  · exact (h.intact p hp hl).sameBelow hsame (h.chain.bounds hp).2.1
  · exact Blank.sameBelow (h.blank p hp hl) hsame (h.chain.bounds hp).2.1

variable {p : Piece}

theorem mark_eq_self {len : ℕ} (h : p.lost = false → p.stop ≤ len) :
    { p with lost := p.lost || decide (len < p.stop) } = p := by
  have hkeep : (p.lost || decide (len < p.stop)) = p.lost := by
    cases hl : p.lost with
    | true => rfl
    | false => simpa using h hl
  rw [hkeep]

/-- Nothing is trimmed while the file reaches what the segment counts. -/
theorem Laid.trimPieces_eq {pos off next : ℕ}
    (h : Laid z seg.file pos off ps seg.sizeBytes next) : trimPieces seg ps = ps := by
  have hfilter : (ps.filter fun p => decide (p.pos < seg.sizeBytes)) = ps := by
    rw [filter_eq_self]
    intro p hp
    have h1 := h.chain.bounds hp
    have h2 := h.pos_lt_stop hp
    simp only [decide_eq_true_eq]
    omega
  rw [trimPieces, hfilter]
  exact (map_congr_left fun p hp => mark_eq_self (h.stop_le_length hp)).trans (map_id ps)

theorem StoreOk.sealed_lt (h : StoreOk z s lay) (hseg : seg ∈ s.sealed) : seg.baseOffset < s.active.baseOffset :=
  (h.nonempty seg hseg).trans_le ((pairwise_append.mp h.pairwise).2.2 seg hseg s.active (by simp))

/-- The active segment, its pieces and what is remembered of it change; the rest stays. -/
theorem StoreOk.replaceActive (h : StoreOk z s lay) (hsealed : s'.sealed = s.sealed)
    (hbase : s'.active.baseOffset = s.active.baseOffset)
    (hlaid : Laid z s'.active.file 0 s'.active.baseOffset ps s'.active.sizeBytes s'.active.nextOffset)
    (hindex : ∀ base idx, s'.segmentIndexes.lookup base = some idx →
      (base ≠ s.active.baseOffset ∧ s.segmentIndexes.lookup base = some idx) ∨
        (base = s.active.baseOffset ∧ IndexOk base ps idx.entries))
    (hnav : ∀ e ∈ s'.navCache, (e ∈ s.navCache ∧ e.segmentBaseOffset ≠ s.active.baseOffset) ∨
      ∃ p ∈ ps, e = p.entry s.active.baseOffset) (hcache : ∀ f ∈ s'.frameCache,
      (f ∈ s.frameCache ∧ f.key.segmentBase ≠ s.active.baseOffset) ∨
        ∃ p ∈ ps, f.key = ⟨s.active.baseOffset, p.pos⟩ ∧ f.recs = p.records) :
    StoreOk z s' (update lay s.active.baseOffset ps) := by
  have hactive : s'.active ∈ s'.segments := active_mem s'
  have hold : ∀ seg ∈ s.sealed, update lay s.active.baseOffset ps seg.baseOffset =
      lay seg.baseOffset := fun seg hseg => update_of_ne (h.sealed_lt hseg).ne _ _
  have hnew : update lay s.active.baseOffset ps s'.active.baseOffset = ps := by
    rw [hbase]
    exact update_self _ _ _
  constructor
  · have hlink := h.linked
    simp only [Store.segments, hsealed] at hlink ⊢
    rw [isChain_append] at hlink ⊢
    refine ⟨hlink.1, by simp, fun a ha b hb => ?_⟩
    have hb' : b = s'.active := by simpa using hb.symm
    rw [hb', hbase]
    exact hlink.2.2 a ha s.active (by simp)
  · rw [hsealed]
    exact h.nonempty
  · intro seg hseg
    rcases mem_segments.mp hseg with hin | rfl
    · rw [hsealed] at hin
      rw [hold seg hin]
      exact h.laid seg (mem_segments.mpr (.inl hin))
    · rw [hnew]
      exact hlaid
  · intro seg hseg idx hidx
    rcases hindex _ _ hidx with ⟨hne, hidx'⟩ | ⟨heq, hok⟩
    · rw [update_of_ne hne]
      rcases mem_segments.mp hseg with hin | rfl
      · exact h.index seg (mem_segments.mpr (.inl (hsealed ▸ hin))) idx hidx'
      · exact absurd hbase hne
    · rw [heq, update_self]
      exact heq ▸ hok
  · intro base idx hidx
    rcases hindex base idx hidx with ⟨hne, hidx'⟩ | ⟨heq, -⟩
    · obtain ⟨seg, hseg, rfl⟩ := h.indexed base idx hidx'
      rcases mem_segments.mp hseg with hin | rfl
      · exact ⟨seg, mem_segments.mpr (.inl (hsealed ▸ hin)), rfl⟩
      · exact absurd rfl hne
    · exact ⟨s'.active, hactive, heq ▸ hbase⟩
  · intro e he
    rcases hnav e he with ⟨hmem, hne⟩ | ⟨p, hp, rfl⟩
    · obtain ⟨p, seg, hseg, hp, rfl⟩ := h.nav e hmem
      rcases mem_segments.mp hseg with hin | rfl
      · exact ⟨p, seg, mem_segments.mpr (.inl (hsealed ▸ hin)), by rwa [hold seg hin], rfl⟩
      · exact absurd rfl hne
    · exact ⟨p, s'.active, hactive, by rwa [hnew], hbase ▸ rfl⟩
  · intro f hf
    rcases hcache f hf with ⟨hmem, hne⟩ | ⟨p, hp, hkey, hrecs⟩
    · obtain ⟨seg, hseg, p, hp, hkey, hrecs⟩ := h.cache f hmem
      rcases mem_segments.mp hseg with hin | rfl
      · exact ⟨seg, mem_segments.mpr (.inl (hsealed ▸ hin)), p, by rwa [hold seg hin], hkey, hrecs⟩
      · rw [hkey] at hne
        exact absurd rfl hne
    · exact ⟨s'.active, hactive, p, by rwa [hnew], by rw [hkey, hbase], hrecs⟩

/-- Every old piece is still there, if only as a lost one. -/
def Persists (ps ps' : List Piece) : Prop :=
  ∀ p ∈ ps, ∃ p' ∈ ps', p'.pos = p.pos ∧ p'.base = p.base ∧ p'.records = p.records ∧ p'.bytes = p.bytes

theorem StoreOk.nav_of_persists (h : StoreOk z s lay)
    (hps : Persists (lay s.active.baseOffset) ps) {e : IndexEntry} (he : e ∈ s.navCache) :
    (e ∈ s.navCache ∧ e.segmentBaseOffset ≠ s.active.baseOffset) ∨ ∃ p ∈ ps, e = p.entry s.active.baseOffset := by
  by_cases hbase : e.segmentBaseOffset = s.active.baseOffset
  · obtain ⟨p, seg, hseg, hp, rfl⟩ := h.nav e he
    have heq : seg.baseOffset = s.active.baseOffset := hbase
    rw [heq] at hp ⊢
    obtain ⟨p', hp', hpos, hb, hrecs, hbytes⟩ := hps p hp
    exact .inr ⟨p', hp', by rw [entry, entry, hpos, hb, hrecs, hbytes]⟩
  · exact .inl ⟨he, hbase⟩

theorem StoreOk.cache_of_persists (h : StoreOk z s lay)
    (hps : Persists (lay s.active.baseOffset) ps) {f : CachedFrame} (hf : f ∈ s.frameCache) :
    (f ∈ s.frameCache ∧ f.key.segmentBase ≠ s.active.baseOffset) ∨
      ∃ p ∈ ps, f.key = ⟨s.active.baseOffset, p.pos⟩ ∧ f.recs = p.records := by
  by_cases hbase : f.key.segmentBase = s.active.baseOffset
  · obtain ⟨seg, hseg, p, hp, hkey, hrecs⟩ := h.cache f hf
    rw [hkey] at hbase
    have heq : seg.baseOffset = s.active.baseOffset := hbase
    rw [heq] at hp hkey
    obtain ⟨p', hp', hpos, -, hrecs', -⟩ := hps p hp
    exact .inr ⟨p', hp', by rw [hkey, hpos], by rw [hrecs, hrecs']⟩
  · exact .inl ⟨hf, hbase⟩

theorem mem_update_cases {base base' : ℕ} {p : Piece} (hp : p ∈ update lay base ps base') :
    base' = base ∧ p ∈ ps ∨ p ∈ lay base' := by
  rw [update_apply] at hp
  split at hp
  next heq => exact .inl ⟨heq, hp⟩
  · exact .inr hp

theorem mem_update_of {base base' : ℕ} {p : Piece} (hp : p ∈ lay base') (hps : base' = base → p ∈ ps) :
    p ∈ update lay base ps base' := by
  rw [update_apply]
  split
  next heq => exact hps heq
  · exact hp

theorem Persists.refl (ps : List Piece) : Persists ps ps :=
  fun p hp => ⟨p, hp, rfl, rfl, rfl, rfl⟩

/-- The active segment changes, its indexed pieces and the caches stay. -/
theorem StoreOk.setActive (h : StoreOk z s lay) {active : Segment}
    (hbase : active.baseOffset = s.active.baseOffset) (hps : Persists (lay s.active.baseOffset) ps)
    (hlaid : Laid z active.file 0 active.baseOffset ps active.sizeBytes active.nextOffset)
    (hindex : ∀ entries, IndexOk s.active.baseOffset (lay s.active.baseOffset) entries →
      IndexOk s.active.baseOffset ps entries) :
    StoreOk z { s with active := active } (update lay s.active.baseOffset ps) := by
  refine h.replaceActive rfl hbase hlaid (fun base idx hidx => ?_)
    (fun e he => h.nav_of_persists hps he) fun f hf => h.cache_of_persists hps hf
  by_cases heq : base = s.active.baseOffset
  · subst heq
    exact .inr ⟨rfl, hindex _ (h.index s.active (active_mem s) idx hidx)⟩
  · exact .inl ⟨heq, hidx⟩

/-- The active segment's file changes only where no piece is. -/
theorem StoreOk.setActiveFile (h : StoreOk z s lay) {active : Segment}
    (hbase : active.baseOffset = s.active.baseOffset) (hsize : active.sizeBytes = s.active.sizeBytes)
    (hnext : active.nextOffset = s.active.nextOffset)
    (hsame : SameBelow s.active.sizeBytes s.active.file active.file) : StoreOk z { s with active := active } lay := by
  have hlaid := (h.laid s.active (active_mem s)).sameBelow hsame
  have := h.setActive hbase (Persists.refl _) (by rw [hbase, hsize, hnext]; exact hlaid) fun _ hok => hok
  rwa [update_eq_self] at this

/-- A write of a frame, failed or not, touches nothing below the segment's size. -/
theorem writeActive_sameBelow (s : Store) (outcome : WriteOutcome) (bytes : Bytes) :
    SameBelow s.active.sizeBytes s.active.file (writeActive s outcome bytes).active.file := by
  cases outcome with
  | ok => exact sameBelow_writeAt _ _ le_rfl
  | fails written truncated =>
    have hwrite := sameBelow_writeAt s.active.file (bytes.take written) (le_refl s.active.sizeBytes)
    cases truncated with
    | false => exact hwrite
    | true => exact hwrite.trans (sameBelow_resize _ le_rfl)

theorem writeActive_length (s : Store) (outcome : WriteOutcome) (bytes : Bytes) :
    s.active.sizeBytes ≤ (writeActive s outcome bytes).active.file.length := by
  unfold writeActive
  cases outcome with
  | ok =>
    simp only [writeAt_length]
    omega
  | fails written truncated =>
    simp only
    split
    · simp
    · simp only [writeAt_length]
      omega

/-- The active segment's pieces are indexed unless all of them are lost. -/
def ActiveIndexed (s : Store) (lay : ℕ → List Piece) : Prop :=
  s.segmentIndexes.lookup s.active.baseOffset = none → ∀ p ∈ lay s.active.baseOffset, p.lost = true

theorem Chain.snoc (h : Chain pos off ps size next) (hpos : p.pos = size) (hbase : next ≤ p.base) :
    Chain pos off (ps ++ [p]) p.stop p.next :=
  Chain.append.mpr ⟨size, next, h, hpos, hbase, rfl, le_rfl⟩

theorem Laid.snoc {file : Bytes} (h : Laid z file pos off ps size next) (hpos : p.pos = size) (hbase : next ≤ p.base)
    (hframe : IsFrame z p.base p.records p.bytes) (hlost : p.lost = false)
    (hat : HoldsAt file p.pos p.bytes) : Laid z file pos off (ps ++ [p]) p.stop p.next := by
  refine ⟨h.chain.snoc hpos hbase, fun q hq => ?_, fun q hq hl => ?_, fun q hq hl => ?_⟩
  all_goals rcases mem_append.mp hq with hq | hq
  · exact h.frames q hq
  · rw [mem_singleton.mp hq]
    exact hframe
  · exact h.intact q hq hl
  · rw [mem_singleton.mp hq]
    exact hat
  · exact h.blank q hq hl
  · rw [mem_singleton.mp hq, hlost] at hl
    cases hl

variable {entries : List IndexEntry}

/-- The anchor of a new frame goes to the end of the index. -/
theorem IndexOk.snoc {o : Options} {base size next : ℕ}
    (h : IndexOk base ps entries) (hchain : Chain 0 base ps size next) (hpos : p.pos = size) :
    IndexOk base (ps ++ [p]) (appendSparseIndexEntry o entries (p.entry base)) := by
  have hsub := appendSparseIndexEntry_sublist o entries (p.entry base)
  have hhead := appendSparseIndexEntry_head o entries (p.entry base)
  have hmono : ∀ e ∈ entries, e ∈ appendSparseIndexEntry o entries (p.entry base) := by
    intro e he
    unfold appendSparseIndexEntry
    split
    · exact mem_append_left _ he
    · exact he
  refine ⟨?_, fun q hq hl => ?_⟩
  · rw [map_append]
    exact hsub.trans (h.sub.append (List.Sublist.refl _))
  · rcases mem_append.mp hq with hq | hq
    · obtain ⟨e, he, hle⟩ := h.covers q hq hl
      exact ⟨e, hmono e he, hle⟩
    rw [mem_singleton.mp hq]
    cases entries with
    | nil => exact ⟨p.entry base, mem_of_mem_head? (by simpa using hhead), le_rfl⟩
    | cons e entries =>
      obtain ⟨q', hq', rfl⟩ := mem_map.mp (h.sub.subset (.head _))
      have hb := hchain.bounds hq'
      refine ⟨_, hmono _ (.head _), ?_⟩
      simp only [entry, stop] at hb ⊢
      omega

/-- The piece that the flusher publishes. -/
def publishedPiece (s : Store) (bytes : Bytes) (n : ℕ) (b : Batch) : Piece :=
  ⟨s.active.sizeBytes, b.baseOffset, b.records.take n, bytes, false⟩

/-- Publishing the frame written at the end of the active segment. -/
theorem publishFrame_ok {o : Options} {l : Log} (h : StoreOk z l.store lay)
    (hidx : ActiveIndexed l.store lay) {bytes : Bytes} {n : ℕ} {b : Batch} (e : Env)
    (hn : n ≤ b.records.length) (hframe : IsFrame z b.baseOffset (b.records.take n) bytes)
    (hbase : l.store.active.nextOffset = b.baseOffset)
    (hat : HoldsAt l.store.active.file l.store.active.sizeBytes bytes) :
    StoreOk z (publishFrame o l e bytes n b).2.store (update lay l.store.active.baseOffset
          (lay l.store.active.baseOffset ++ [publishedPiece l.store bytes n b])) ∧
      (publishFrame o l e bytes n b).2.store.segmentIndexes.lookup l.store.active.baseOffset ≠ none := by
  set p := publishedPiece l.store bytes n b with hp
  have hlen : (b.records.take n).length = n := by simp [hn]
  have hlaid := h.laid l.store.active (active_mem l.store)
  have hentry : (publishFrame o l e bytes n b).1 = p.entry l.store.active.baseOffset := by
    simp [publishFrame, entry, hp, publishedPiece, hlen]
  set idx := (l.store.segmentIndexes.lookup l.store.active.baseOffset).getD ⟨[], 0⟩ with hidxdef
  have hindex : IndexOk l.store.active.baseOffset (lay l.store.active.baseOffset) idx.entries := by
    cases hlookup : l.store.segmentIndexes.lookup l.store.active.baseOffset with rw [hidxdef, hlookup]
    | none => exact ⟨nil_sublist _, fun p hp hl => absurd (hidx hlookup p hp) (by simp [hl])⟩
    | some i => exact h.index l.store.active (active_mem l.store) i hlookup
  set active : Segment := { l.store.active with
    firstWriteAt := some (l.store.active.firstWriteAt.getD e.now)
    sizeBytes := l.store.active.sizeBytes + bytes.length
    nextOffset := b.baseOffset + n } with hactive
  have hput : IndexPut { l.store with active := active } (publishFrame o l e bytes n b).2.store
      l.store.active.baseOffset
      (appendSparseIndexEntry o idx.entries (p.entry l.store.active.baseOffset)) := by
    rw [← hentry]
    exact putSegmentIndex_put _ _ _ _
  have hnext : active.nextOffset = p.next := by simp [hactive, hp, publishedPiece, Piece.next, hlen]
  have hpersists : Persists (lay l.store.active.baseOffset) (lay l.store.active.baseOffset ++ [p]) :=
    fun q hq => ⟨q, mem_append_left _ hq, rfl, rfl, rfl, rfl⟩
  obtain ⟨stored, hstored, hentries⟩ := hput.stored
  refine ⟨h.replaceActive hput.sealed (by rw [hput.active]) ?_ (fun base i hi => ?_)
    (fun x hx => ?_) fun f hf => ?_, by rw [hstored]; simp⟩
  · rw [hput.active]
    change Laid z active.file 0 active.baseOffset _ active.sizeBytes active.nextOffset
    rw [hnext]
    exact hlaid.snoc rfl hbase.le hframe rfl hat
  · by_cases heq : base = l.store.active.baseOffset
    · refine .inr ⟨heq, ?_⟩
      subst heq
      obtain rfl : stored = i := by rw [hstored] at hi; exact Option.some.inj hi
      rw [hentries]
      exact hindex.snoc hlaid.chain rfl
    · rcases hput.subset base i hi with hold | ⟨heq', -⟩
      · exact .inl ⟨heq, hold⟩
      · exact absurd heq' heq
  · rw [hput.nav] at hx
    exact h.nav_of_persists hpersists hx
  · rw [hput.cache] at hf
    exact h.cache_of_persists hpersists hf

theorem rollStore_segments (s : Store) :
    (rollStore s).segments = s.segments ++ [createSegment s.active.nextOffset] := by
  simp [rollStore, Store.segments]

/-- The next segment gets a base of its own. -/
theorem StoreOk.base_ne_next (h : StoreOk z s lay) (hne : s.active.baseOffset < s.active.nextOffset)
    (hseg : seg ∈ s.segments) : seg.baseOffset ≠ s.active.nextOffset := by
  rcases mem_segments.mp hseg with hin | rfl
  · exact ((h.sealed_lt hin).trans hne).ne
  · exact hne.ne

/-- Sealing a segment that holds records and starting one after it. -/
theorem rollStore_ok (h : StoreOk z s lay) (hne : s.active.baseOffset < s.active.nextOffset) :
    StoreOk z (rollStore s) (update lay s.active.nextOffset []) ∧
      ActiveIndexed (rollStore s) (update lay s.active.nextOffset []) := by
  have hsegs := rollStore_segments s
  have hold : ∀ seg ∈ s.segments, update lay s.active.nextOffset [] seg.baseOffset = lay seg.baseOffset :=
    fun seg hseg => update_of_ne (h.base_ne_next hne hseg) _ _
  have hin : ∀ {seg : Segment}, seg ∈ s.segments → seg ∈ (rollStore s).segments := by
    intro seg hseg
    rw [hsegs]
    exact mem_append_left _ hseg
  refine ⟨⟨?_, fun seg hseg => ?_, fun seg hseg => ?_, fun seg hseg idx hidx => ?_,
    fun base idx hidx => ?_, fun e he => ?_, fun f hf => ?_⟩, fun _ p hp => ?_⟩
  · rw [hsegs, isChain_append]
    refine ⟨h.linked, by simp, fun a ha b hb => ?_⟩
    have ha' : a = s.active := by simpa [Store.segments] using ha.symm
    have hb' : b = createSegment s.active.nextOffset := by simpa using hb.symm
    rw [ha', hb']
    rfl
  · rcases mem_append.mp hseg with hin | hin
    · exact h.nonempty seg hin
    · rw [mem_singleton.mp hin]
      exact hne
  · rw [hsegs] at hseg
    rcases mem_append.mp hseg with hin | hin
    · rw [hold seg hin]
      exact h.laid seg hin
    rw [mem_singleton.mp hin]
    simp only [createSegment, update_self]
    exact ⟨⟨rfl, le_rfl⟩, by simp, by simp, by simp⟩
  · rw [hsegs] at hseg
    rcases mem_append.mp hseg with hin | hin
    · rw [hold seg hin]
      exact h.index seg hin idx hidx
    obtain ⟨seg', hseg', hbase⟩ := h.indexed _ idx hidx
    rw [mem_singleton.mp hin] at hbase
    exact absurd hbase (h.base_ne_next hne hseg')
  · obtain ⟨seg, hseg, hbase⟩ := h.indexed base idx hidx
    exact ⟨seg, hin hseg, hbase⟩
  · obtain ⟨p, seg, hseg, hp, rfl⟩ := h.nav e he
    exact ⟨p, seg, hin hseg, by rwa [hold seg hseg], rfl⟩
  · obtain ⟨seg, hseg, p, hp, hkey, hrecs⟩ := h.cache f hf
    exact ⟨seg, hin hseg, p, by rwa [hold seg hseg], hkey, hrecs⟩
  · simp only [rollStore, createSegment, update_self] at hp
    cases hp

theorem Chain.pos_unique {pos off m k m' k' : ℕ} (h : Chain pos off ps m k) (h' : Chain pos off ps m' k') : m = m' := by
  induction ps generalizing pos off with
  | nil => exact h.1.symm.trans h'.1
  | cons p ps ih => exact ih h.2.2 h'.2.2

theorem Chain.le_pos_of_append {off m k size next : ℕ}
    (h : Chain 0 off (a ++ b) size next) (ha : Chain 0 off a m k) : m ≤ size ∧ ∀ p ∈ b, m ≤ p.pos := by
  obtain ⟨m', k', ha', hb⟩ := Chain.append.mp h
  obtain rfl := ha.pos_unique ha'
  exact ⟨hb.le.1, fun p hp => (hb.bounds hp).1⟩

/-- The piece after its file was cut below it. -/
def Piece.lose (p : Piece) : Piece :=
  { p with lost := true }

section Cut

variable {file : Bytes} {off size next m k : ℕ} {a b : List Piece}

theorem Laid.cut (h : Laid z file 0 off (a ++ b) size next) (ha : Chain 0 off a m k) :
    Laid z (resize file m) 0 off a m k := by
  have hsame := sameBelow_resize file (le_refl m)
  refine ⟨ha, fun p hp => h.frames p (mem_append_left b hp), fun p hp hl => ?_, fun p hp hl => ?_⟩
  · exact (h.intact p (mem_append_left b hp) hl).sameBelow hsame (ha.bounds hp).2.1
  · exact Blank.sameBelow (h.blank p (mem_append_left b hp) hl) hsame (ha.bounds hp).2.1

theorem Chain.map_lose (h : Chain m k b size next) : Chain m k (b.map Piece.lose) size next := by
  induction b generalizing m k with
  | nil => exact h
  | cons p b ih => exact ⟨h.1, h.2.1, ih h.2.2⟩

/-- The file is cut at `m` and the pieces from there on still count. -/
theorem Laid.cutFile (h : Laid z file 0 off (a ++ b) size next) (ha : Chain 0 off a m k) :
    Laid z (resize file m) 0 off (a ++ b.map Piece.lose) size next := by
  have hcut := h.cut ha
  obtain ⟨-, hpos⟩ := h.chain.le_pos_of_append ha
  obtain ⟨m', k', ha', hb⟩ := Chain.append.mp h.chain
  refine ⟨Chain.append.mpr ⟨m', k', ha', hb.map_lose⟩, fun p hp => ?_, fun p hp hl => ?_, fun p hp hl => ?_⟩
  all_goals rcases mem_append.mp hp with hp | hp
  · exact hcut.frames p hp
  · obtain ⟨q, hq, rfl⟩ := mem_map.mp hp
    exact h.frames q (mem_append_right a hq)
  · exact hcut.intact p hp hl
  · obtain ⟨q, hq, rfl⟩ := mem_map.mp hp
    exact absurd hl (by simp [lose])
  · exact hcut.blank p hp hl
  · obtain ⟨q, hq, rfl⟩ := mem_map.mp hp
    exact blank_of_length_le (by rw [resize_length]; exact hpos q hq)

theorem trimPieces_cut (h : Laid z file 0 off (a ++ b) size next)
    (ha : Chain 0 off a m k) (hsize : seg.sizeBytes = m) (hfile : seg.file = resize file m) :
    trimPieces seg (a ++ b) = a := by
  have hb : (b.filter fun p => decide (p.pos < seg.sizeBytes)) = [] := by
    rw [filter_eq_nil_iff]
    intro p hp
    have := (h.chain.le_pos_of_append ha).2 p hp
    simp only [decide_eq_true_eq]
    omega
  have hsplit : trimPieces seg (a ++ b) = trimPieces seg a := by
    rw [trimPieces, filter_append, hb, append_nil, trimPieces]
  have hcut := h.cut ha
  rw [← hfile, ← hsize] at hcut
  rw [hsplit, hcut.trimPieces_eq]

theorem trimPieces_cutFile (seg : Segment) (h : Laid z file 0 off (a ++ b) size next)
    (ha : Chain 0 off a m k) (hsize : seg.sizeBytes = size) (hfile : seg.file = resize file m) :
    trimPieces seg (a ++ b) = a ++ b.map Piece.lose := by
  obtain ⟨hle, hpos⟩ := h.chain.le_pos_of_append ha
  have hall (ps : List Piece) (hps : ∀ p ∈ ps, p ∈ a ++ b) :
      (ps.filter fun p => decide (p.pos < seg.sizeBytes)) = ps := by
    rw [filter_eq_self]
    intro p hp
    have h1 := h.chain.bounds (hps p hp)
    have h2 := h.pos_lt_stop (hps p hp)
    simp only [decide_eq_true_eq]
    omega
  have hcut := h.cut ha
  have hlen : seg.file.length = m := by rw [hfile, resize_length]
  rw [trimPieces, hall _ fun p hp => hp, map_append]
  congr 1
  · refine (map_congr_left fun p hp => mark_eq_self fun hl => ?_).trans (map_id a)
    rw [hfile]
    exact hcut.stop_le_length hp hl
  · refine map_congr_left fun p hp => ?_
    have h1 := hpos p hp
    have h2 := h.pos_lt_stop (mem_append_right a hp)
    simp only [lose, hlen]
    have : decide (m < p.stop) = true := by simp; omega
    rw [this, Bool.or_true]

end Cut

/-- In a sorted index, dropping the anchors at the end past `pos` drops them all. -/
theorem rdropWhile_eq_filter {pos : ℕ} (hsorted : entries.Pairwise fun a b => a.framePos ≤ b.framePos) :
    (entries.rdropWhile fun e => decide (pos ≤ e.framePos)) = entries.filter fun e => decide (e.framePos < pos) := by
  induction entries using reverseRecOn with
  | nil => rfl
  | append_singleton entries e ih =>
    rw [pairwise_append] at hsorted
    rw [rdropWhile_concat, filter_append]
    by_cases hpos : pos ≤ e.framePos
    · rw [if_pos (by simpa using hpos), ih hsorted.1]
      simp [not_lt.mpr hpos]
    have hall : (entries.filter fun e => decide (e.framePos < pos)) = entries := by
      rw [filter_eq_self]
      intro x hx
      have := hsorted.2.2 x hx e (by simp)
      simp only [decide_eq_true_eq]
      omega
    rw [if_neg (by simpa using hpos), hall]
    simp [not_le.mp hpos]

theorem IndexOk.cut {base off size next m k : ℕ}
    {file : Bytes} (h : IndexOk base (a ++ b) entries) (hlaid : Laid z file 0 off (a ++ b) size next)
    (ha : Chain 0 off a m k) : IndexOk base a (entries.rdropWhile fun e => decide (m ≤ e.framePos)) := by
  obtain ⟨-, hpos⟩ := hlaid.chain.le_pos_of_append ha
  have hlt : ∀ p ∈ a, p.pos < m := by
    intro p hp
    have h1 := ha.bounds hp
    have h2 := hlaid.pos_lt_stop (mem_append_left b hp)
    omega
  have hsorted : entries.Pairwise fun a b => a.framePos ≤ b.framePos := by
    refine List.Pairwise.sublist h.sub (pairwise_map.mpr (hlaid.chain.pairwise.imp fun {x y} hxy => ?_))
    simp only [entry, stop] at hxy ⊢
    omega
  have hkeep : (((a ++ b).map (entry base)).filter fun e => decide (e.framePos < m)) =
      a.map (entry base) := by
    rw [map_append, filter_append]
    have h1 : ((a.map (entry base)).filter fun e => decide (e.framePos < m)) = a.map (entry base) := by
      rw [filter_eq_self]
      intro e he
      obtain ⟨p, hp, rfl⟩ := mem_map.mp he
      exact decide_eq_true (hlt p hp)
    have h2 : ((b.map (entry base)).filter fun e => decide (e.framePos < m)) = [] := by
      rw [filter_eq_nil_iff]
      intro e he
      obtain ⟨p, hp, rfl⟩ := mem_map.mp he
      exact fun hlt => not_lt.mpr (hpos p hp) (of_decide_eq_true hlt)
    rw [h1, h2, append_nil]
  rw [rdropWhile_eq_filter hsorted]
  refine ⟨hkeep ▸ h.sub.filter _, fun p hp hl => ?_⟩
  obtain ⟨e, he, hle⟩ := h.covers p (mem_append_left b hp) hl
  have := hlt p hp
  exact ⟨e, mem_filter.mpr ⟨he, by simp; omega⟩, hle⟩

theorem truncateIndexLocked_lookup (s : Store) (base pos b : ℕ) :
    (truncateIndexLocked s base pos).segmentIndexes.lookup b =
      if b = base then (s.segmentIndexes.lookup b).map fun idx =>
        { idx with entries := idx.entries.rdropWhile fun e => decide (pos ≤ e.framePos) }
      else s.segmentIndexes.lookup b := by
  unfold truncateIndexLocked
  by_cases hb : b = base
  · subst hb
    cases hl : s.segmentIndexes.lookup b with
    | none => simp [hl]
    | some idx => simp
  · rw [if_neg hb]
    cases hl : s.segmentIndexes.lookup base with
    | none => rfl
    | some idx => exact AList.lookup_insert_ne hb

theorem truncateIndexLocked_eq (s : Store) (base pos : ℕ) : truncateIndexLocked s base pos =
      { s with segmentIndexes := (truncateIndexLocked s base pos).segmentIndexes } := by
  unfold truncateIndexLocked
  split <;> rfl

theorem cutActive_segments (s : Store) (boundary pos : ℕ) : (cutActive s boundary pos).sealed = s.sealed ∧
      (cutActive s boundary pos).active = s.active.cut boundary pos := by
  unfold cutActive
  dsimp only
  rw [truncateIndexLocked_eq]
  exact ⟨rfl, rfl⟩

/-- Cutting the active segment where a walk for a boundary ended. -/
theorem cutActive_ok (h : StoreOk z s lay) {boundary pos : ℕ}
    (hab : lay s.active.baseOffset = a ++ b) (ha : Chain 0 s.active.baseOffset a pos boundary) :
    StoreOk z (cutActive s boundary pos) (update lay s.active.baseOffset a) ∧ (ActiveIndexed s lay →
        ActiveIndexed (cutActive s boundary pos) (update lay s.active.baseOffset a)) := by
  have hlaid := h.laid s.active (active_mem s)
  rw [hab] at hlaid
  have hlookup (base : ℕ) := truncateIndexLocked_lookup
    { s with active := s.active.cut boundary pos } s.active.baseOffset pos base
  have hcut : cutActive s boundary pos = { s with
      active := s.active.cut boundary pos
      segmentIndexes := (cutActive s boundary pos).segmentIndexes
      navCache := navInvalidateSegment s.navCache s.active.baseOffset
      frameCache := frameInvalidateSegment s.frameCache s.active.baseOffset } := by
    unfold cutActive
    dsimp only
    rw [truncateIndexLocked_eq]
  have hactive := congrArg Store.active hcut
  refine ⟨h.replaceActive (hcut ▸ rfl) (hactive ▸ rfl) ?_ (fun base idx hidx => ?_)
    (fun e he => ?_) fun f hf => ?_, fun hidx hnone p hp => ?_⟩
  · rw [hactive]
    exact hlaid.cut ha
  · have hidx := (hlookup base).symm.trans hidx
    by_cases hbase : base = s.active.baseOffset
    · rw [if_pos hbase] at hidx
      obtain ⟨idx', hidx', rfl⟩ := Option.map_eq_some_iff.mp hidx
      refine .inr ⟨hbase, ?_⟩
      subst hbase
      have hok := h.index s.active (active_mem s) idx' hidx'
      rw [hab] at hok
      exact hok.cut hlaid ha
    · rw [if_neg hbase] at hidx
      exact .inl ⟨hbase, hidx⟩
  · rw [hcut] at he
    exact .inl (by simpa [navInvalidateSegment] using he)
  · rw [hcut] at hf
    exact .inl (by simpa [frameInvalidateSegment] using hf)
  · have hbase : (cutActive s boundary pos).active.baseOffset = s.active.baseOffset := by
      rw [hactive]
      rfl
    rw [hbase, update_self] at hp
    rw [hbase] at hnone
    have hnone := (hlookup _).symm.trans hnone
    rw [if_pos rfl, Option.map_eq_none_iff] at hnone
    exact hidx hnone p (hab ▸ mem_append_left b hp)

/-- Cutting only the active segment's file. -/
theorem cutFileOnly_ok (h : StoreOk z s lay) {boundary pos : ℕ}
    (hab : lay s.active.baseOffset = a ++ b) (ha : Chain 0 s.active.baseOffset a pos boundary) :
    StoreOk z (cutFileOnly s pos) (update lay s.active.baseOffset (a ++ b.map Piece.lose)) ∧
      (ActiveIndexed s lay → ActiveIndexed (cutFileOnly s pos)
        (update lay s.active.baseOffset (a ++ b.map Piece.lose))) := by
  have hlaid := h.laid s.active (active_mem s)
  rw [hab] at hlaid
  refine ⟨h.setActive rfl (fun p hp => ?_) (hlaid.cutFile ha) fun entries hok => ?_, fun hidx hnone p hp => ?_⟩
  · rw [hab] at hp
    rcases mem_append.mp hp with hp | hp
    · exact ⟨p, mem_append_left _ hp, rfl, rfl, rfl, rfl⟩
    · exact ⟨p.lose, mem_append_right a (mem_map_of_mem hp), rfl, rfl, rfl, rfl⟩
  · rw [hab] at hok
    refine ⟨?_, fun p hp hl => ?_⟩
    · have : (b.map lose).map (entry s.active.baseOffset) = b.map (entry s.active.baseOffset) := by
        rw [map_map]
        rfl
      rw [map_append, this, ← map_append]
      exact hok.sub
    · rcases mem_append.mp hp with hp | hp
      · exact hok.covers p (mem_append_left b hp) hl
      · obtain ⟨q, hq, rfl⟩ := mem_map.mp hp
        exact absurd hl (by simp [lose])
  · have hp' : p ∈ a ++ b.map lose := by
      simpa [cutFileOnly] using hp
    rcases mem_append.mp hp' with hpa | hpb
    · exact hidx hnone p (hab ▸ mem_append_left b hpa)
    · obtain ⟨q, hq, rfl⟩ := mem_map.mp hpb
      rfl

end Narad.Storage
