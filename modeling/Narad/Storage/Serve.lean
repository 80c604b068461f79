import Narad.Storage.Resolve

/-!
# Reading a record from the segments

The lookup's sections, one by one and run together, and the fetch from the decoded-frame cache or
the file. The result of this module is `readSegmentShared_eq`: over a good store, reading an offset
that a piece on disk serves returns that piece's record and leaves a good store.
-/

namespace Narad.Storage

open Lib List Option

variable {z : Zstd} {opts : Options} {s : Store} {lay : ℕ → List Piece} {o : ℕ}

/-- A lookup between two of its sections: the segment it names exists, and what it scanned is a
sealed segment's index. -/
def LookupOk (opts : Options) (s : Store) : Lookup → Prop
  | .probe => True
  | .rescan base => ∃ seg ∈ s.sealed, seg.baseOffset = base
  | .install base none => ∃ seg ∈ s.segments, seg.baseOffset = base
  | .install base (some entries) =>
    ∃ seg ∈ s.sealed, seg.baseOffset = base ∧ entries = scanSegmentIndex opts seg

/-- What a section of a lookup must do. -/
structure LookupGood (z : Zstd) (opts : Options) (s : Store) (lay : ℕ → List Piece) (o : ℕ)
    (r : LookupResult × Store) : Prop where
  ok : StoreOk z r.2 lay
  sealed : r.2.sealed = s.sealed
  active : r.2.active = s.active
  found : ∀ e i, r.1 = .found e i → ∃ p, Found s lay o e i p
  next : ∀ l, r.1 = .continue_ l → LookupOk opts r.2 l

variable {r : Option (IndexEntry × ℕ) × Store}

theorem Resolves.sealed (h : Resolves z s lay o r) : r.2.sealed = s.sealed := by
  rw [h.same]

theorem Resolves.active (h : Resolves z s lay o r) : r.2.active = s.active := by
  rw [h.same]

variable {p : Piece} {e : IndexEntry}

theorem Found.of_files {s' : Store} {i : ℕ}
    (h : Found s lay o e i p) (hsealed : s'.sealed = s.sealed) (hactive : s'.active = s.active) :
    Found s' lay o e i p := by
  have hsegs : s'.segments = s.segments := by simp [Store.segments, hsealed, hactive]
  obtain ⟨⟨seg, hseg, hp⟩, hrest⟩ := h
  exact ⟨⟨seg, hsegs ▸ hseg, hp⟩, hrest⟩

theorem probeIndex_spec (h : StoreOk z s lay) : LookupGood z opts s lay o (probeIndex s o) := by
  obtain ⟨hres, -⟩ := findIndexLocked_spec (o := o) h
  unfold probeIndex
  rcases hfind : findIndexLocked s o with ⟨r, s'⟩
  rw [hfind] at hres
  have hsealed : s'.sealed = s.sealed := hres.sealed
  have hactive : s'.active = s.active := hres.active
  cases r with
  | some r =>
    refine ⟨hres.ok, hsealed, hactive, fun e i heq => ?_, nofun⟩
    cases heq
    exact hres.sound _ _ rfl
  | none =>
    dsimp only
    split
    · exact ⟨hres.ok, hsealed, hactive, nofun, nofun⟩
    next seg hseg =>
      obtain ⟨hmem, -, -⟩ := hres.ok.findSegmentForOffset_some hseg
      have hmem' : seg ∈ s'.segments := hmem
      split
      next hcold =>
        refine ⟨hres.ok, hsealed, hactive, nofun, fun l heq => ?_⟩
        cases heq
        rcases mem_segments.mp hmem' with hsealed' | rfl
        · exact ⟨seg, hsealed', rfl⟩
        · exact absurd rfl hcold.1
      · refine ⟨hres.ok, hsealed, hactive, nofun, fun l heq => ?_⟩
        cases heq
        exact ⟨seg, hmem', rfl⟩

variable {seg : Segment}

/-- Installing a rebuilt index keeps the store good and leaves the segment indexed. -/
theorem installIndex_spec (h : StoreOk z s lay) (hseg : seg ∈ s.segments) {scanned : Option (List IndexEntry)}
    (hscan : ∀ entries ∈ scanned, entries = scanSegmentIndex opts seg) :
    StoreOk z (installIndex opts s seg scanned) lay ∧ (installIndex opts s seg scanned).sealed = s.sealed ∧
      (installIndex opts s seg scanned).active = s.active ∧ ((∃ p ∈ lay seg.baseOffset, p.lost = false) →
        ((installIndex opts s seg scanned).segmentIndexes.lookup seg.baseOffset).isSome) := by
  have hentries : scanned.getD (scanSegmentIndex opts seg) = scanSegmentIndex opts seg := by
    cases scanned with
    | none => rfl
    | some entries => exact hscan entries rfl
  unfold installIndex
  by_cases hnone : s.segmentIndexes.lookup seg.baseOffset = none
  · rw [if_pos hnone, hentries]
    obtain ⟨hok, hsegs, hsome⟩ := setSegmentIndexLocked_ok h hseg (h.laid seg hseg).rebuilt_indexOk
    obtain ⟨hsealed, hactive⟩ := append_inj' hsegs rfl
    exact ⟨hok, hsealed, singleton_injective hactive, hsome⟩
  · rw [if_neg hnone]
    exact ⟨h, rfl, rfl, fun _ => ne_none_iff_isSome.mp hnone⟩

theorem lookupStep_spec (h : StoreOk z s lay) {l : Lookup} (hl : LookupOk opts s l) :
    LookupGood z opts s lay o (lookupStep opts s o l) := by
  cases l with
  | probe => exact probeIndex_spec h
  | rescan base =>
    obtain ⟨seg, hseg, rfl⟩ := hl
    rw [lookupStep, h.findSegmentLocked_eq (mem_segments.mpr (.inl hseg))]
    refine ⟨h, rfl, rfl, nofun, fun l heq => ?_⟩
    cases heq
    exact ⟨seg, hseg, rfl, rfl⟩
  | install base scanned =>
    have hseg : ∃ seg ∈ s.segments, seg.baseOffset = base ∧
        ∀ entries ∈ scanned, entries = scanSegmentIndex opts seg := by
      cases scanned with
      | none =>
        obtain ⟨seg, hseg, hbase⟩ := hl
        exact ⟨seg, hseg, hbase, by simp⟩
      | some entries =>
        obtain ⟨seg, hseg, hbase, hentries⟩ := hl
        exact ⟨seg, mem_segments.mpr (.inl hseg), hbase, fun e he => by cases he; exact hentries⟩
    obtain ⟨seg, hseg, rfl, hscan⟩ := hseg
    obtain ⟨hok, hsealed, hactive, -⟩ := installIndex_spec h hseg hscan
    obtain ⟨hres, -⟩ := findIndexLocked_spec (o := o) hok
    rw [lookupStep, h.findSegmentLocked_eq hseg]
    dsimp only
    rcases hfind : findIndexLocked (installIndex opts s seg scanned) o with ⟨r, s'⟩
    rw [hfind] at hres
    have hsealed' : s'.sealed = s.sealed := hres.sealed.trans hsealed
    have hactive' : s'.active = s.active := hres.active.trans hactive
    cases r with
    | none => exact ⟨hres.ok, hsealed', hactive', nofun, nofun⟩
    | some r =>
      refine ⟨hres.ok, hsealed', hactive', fun e i heq => ?_, nofun⟩
      cases heq
      obtain ⟨p, hp⟩ := hres.sound _ _ rfl
      exact ⟨p, hp.of_files hsealed.symm hactive.symm⟩

/-- A found entry is that of the piece serving the offset. -/
theorem Found.eq_serving (h : StoreOk z s lay) {i : ℕ} {p q : Piece}
    (hf : Found s lay o e i p) (hseg : seg ∈ s.segments) (hq : q ∈ lay seg.baseOffset) (hs : q.Serves o) :
    e = q.entry seg.baseOffset ∧ i = o - q.base := by
  obtain ⟨⟨seg', hseg', hp, rfl⟩, hlow, hhigh, rfl⟩ := hf
  have hb := (h.laid seg' hseg').chain.bounds hp
  have hb' := (h.laid seg hseg).chain.bounds hq
  have h1 := hs.2.1
  have h2 := hs.2.2
  have e1 := h.findSegmentForOffset_eq hseg' (o := o) (by omega) (by omega)
  have e2 := h.findSegmentForOffset_eq hseg (o := o) (by omega) (by omega)
  rw [e1] at e2
  obtain rfl := some.inj e2
  obtain rfl := (h.laid seg' hseg').chain.eq_of_covers hp hq ⟨hlow, hhigh⟩ hs.2
  exact ⟨rfl, rfl⟩

/-- An uninterrupted lookup finds the piece that serves the offset. -/
theorem lockIndexEntry_eq (opts : Options) (h : StoreOk z s lay) (hseg : seg ∈ s.segments)
    (hp : p ∈ lay seg.baseOffset) (hs : p.Serves o) :
    ∃ s', lockIndexEntry opts s o = (some (p.entry seg.baseOffset, o - p.base), s') ∧
      StoreOk z s' lay ∧ s'.sealed = s.sealed ∧ s'.active = s.active := by
  have hserved : ∃ q ∈ lay seg.baseOffset, q.Serves o := ⟨p, hp, hs⟩
  -- Once an index of the segment is installed the next section must find the piece.
  have hinstall (s1 : Store) (h1 : StoreOk z s1 lay) (hsealed : s1.sealed = s.sealed)
      (hactive : s1.active = s.active) (scanned : Option (List IndexEntry))
      (hscan : ∀ entries ∈ scanned, entries = scanSegmentIndex opts seg) (fuel : ℕ) :
      ∃ s', lookupLoop opts o (fuel + 1) s1 (.install seg.baseOffset scanned) =
          (some (p.entry seg.baseOffset, o - p.base), s') ∧
        StoreOk z s' lay ∧ s'.sealed = s.sealed ∧ s'.active = s.active := by
    have hseg1 : seg ∈ s1.segments := by
      rw [Store.segments, hsealed, hactive]
      exact hseg
    obtain ⟨hok, hsealed1, hactive1, hidx⟩ := installIndex_spec h1 hseg1 hscan
    obtain ⟨hres, hcomplete⟩ := findIndexLocked_spec (o := o) hok
    have hseg2 : seg ∈ (installIndex opts s1 seg scanned).segments := by
      rw [Store.segments, hsealed1, hactive1]
      exact hseg1
    have hsome := hcomplete seg hseg2 hserved (hidx ⟨p, hp, hs.1⟩)
    rw [lookupLoop, lookupStep, h1.findSegmentLocked_eq hseg1]
    dsimp only
    rcases hfind : findIndexLocked (installIndex opts s1 seg scanned) o with ⟨r, s'⟩
    rw [hfind] at hres hsome
    obtain ⟨⟨e, i⟩, rfl⟩ := isSome_iff_exists.mp hsome
    obtain ⟨q, hq⟩ := hres.sound _ _ rfl
    obtain ⟨rfl, rfl⟩ := hq.eq_serving hok hseg2 hp hs
    exact ⟨s', rfl, hres.ok, hres.sealed.trans (hsealed1.trans hsealed), hres.active.trans (hactive1.trans hactive)⟩
  obtain ⟨hres, hcomplete⟩ := findIndexLocked_spec (o := o) h
  unfold lockIndexEntry
  rw [lookupLoop, lookupStep, probeIndex]
  rcases hfind : findIndexLocked s o with ⟨r, s'⟩
  rw [hfind] at hres hcomplete
  have hsealed : s'.sealed = s.sealed := hres.sealed
  have hactive : s'.active = s.active := hres.active
  cases r with
  | some r =>
    obtain ⟨e, i⟩ := r
    obtain ⟨q, hq⟩ := hres.sound _ _ rfl
    obtain ⟨rfl, rfl⟩ := hq.eq_serving h hseg hp hs
    exact ⟨s', rfl, hres.ok, hsealed, hactive⟩
  | none =>
    have hseg' : seg ∈ s'.segments := by
      rw [Store.segments, hsealed, hactive]
      exact hseg
    have hb := (h.laid seg hseg).chain.bounds hp
    have h1 := hs.2.1
    have h2 := hs.2.2
    have hfor : findSegmentForOffsetLocked s' o = some seg :=
      hres.ok.findSegmentForOffset_eq hseg' (by omega) (by omega)
    simp only [hfor]
    by_cases hcold : seg.baseOffset ≠ s'.active.baseOffset ∧ s'.segmentIndexes.lookup seg.baseOffset = none
    · rw [if_pos hcold]
      dsimp only
      rw [lookupLoop, lookupStep, StoreOk.findSegmentLocked_eq hres.ok hseg']
      exact hinstall s' hres.ok hsealed hactive _ (fun entries he => by cases he; rfl) 0
    · rw [if_neg hcold]
      exact hinstall s' hres.ok hsealed hactive none (by simp) 1

variable {cache : List CachedFrame}

theorem StoreOk.withFrames (h : StoreOk z s lay)
    (hcache : ∀ f ∈ cache, f ∈ s.frameCache ∨ ∃ seg ∈ s.segments, ∃ p ∈ lay seg.baseOffset,
      f.key = ⟨seg.baseOffset, p.pos⟩ ∧ f.recs = p.records) : StoreOk z { s with frameCache := cache } lay :=
  h.of_caches rfl rfl (fun _ _ hidx => .inl hidx) (fun _ he => .inl he) hcache

theorem mem_framePutSized {key : FrameKey} {recs : List Bytes} {n : ℕ}
    {f : CachedFrame} (h : f ∈ framePutSized cache key recs n) : f ∈ cache ∨ (f.key = key ∧ f.recs = recs) := by
  unfold framePutSized at h
  split at h
  · exact .inl (mem_of_mem_moveToFront h)
  rcases mem_of_mem_pushFront h with rfl | hf
  · exact .inr ⟨rfl, rfl⟩
  · exact .inl hf

variable {pos off size next : ℕ} {ps : List Piece} {file : Bytes}

/-- Two pieces of a layout at one position are the same. -/
theorem Laid.eq_of_pos_eq {p q : Piece}
    (h : Laid z file pos off ps size next) (hp : p ∈ ps) (hq : q ∈ ps) (heq : p.pos = q.pos) : p = q := by
  obtain ⟨a, b, rfl⟩ := append_of_mem hp
  have h1 := h.pos_lt_stop hp
  have h2 := h.pos_lt_stop hq
  rcases mem_append.mp hq with hqa | hqb
  · have := h.chain.before hqa
    omega
  rcases mem_cons.mp hqb with rfl | hqb
  · rfl
  · have := h.chain.after hqb
    omega

section

variable (h : Laid z file pos off ps size next)
include h

/-- Reading at a lost piece fails. -/
theorem Laid.readFrameAt_lost (hp : p ∈ ps) (hl : p.lost = true) : ∃ e, readFrameAt z file p.pos = .error e := by
  have hraw : ∃ e, readFrameRaw file p.pos = .error e := by
    by_cases hlen : p.pos + headerSize ≤ file.length
    · have hstop := h.pos_lt_stop hp
      have hhead := Laid.frameHeaderAt_blank (h.blank p hp hl) (by omega) hlen
      unfold frameHeaderAt at hhead
      unfold readFrameRaw
      dsimp only at hhead ⊢
      split at hhead
      · cases hhead
      next hshort =>
        rw [if_neg hshort]
        cases hdec : decodeHeader (readAt file p.pos headerSize) with
        | error e => exact ⟨e, rfl⟩
        | ok hd =>
          rw [hdec] at hhead
          exact absurd hhead (by simp [bind, Except.bind, pure, Except.pure])
    · refine ⟨.unexpectedEOF, ?_⟩
      have h27 : headerSize = 27 := rfl
      have hshort : (readAt file p.pos headerSize).length < headerSize := by
        rw [readAt_length]
        omega
      unfold readFrameRaw
      rw [if_pos hshort]
  obtain ⟨e, he⟩ := hraw
  exact ⟨e, by simp [readFrameAt, he, bind, Except.bind]⟩

/-- A frame read from the file is the piece's, and the piece is on disk. -/
theorem Laid.readFrameAt_ok (hp : p ∈ ps) {hd : FrameHeader} {records : List Bytes}
    {stop : ℕ} (hread : readFrameAt z file p.pos = .ok (hd, records, stop)) : p.lost = false ∧ records = p.records := by
  cases hl : p.lost with
  | true =>
    obtain ⟨e, he⟩ := h.readFrameAt_lost hp hl
    rw [he] at hread
    cases hread
  | false =>
    obtain ⟨hd', payload, hparts⟩ := (h.frames p hp).parts
    rw [hparts.readFrameAt_eq (h.intact p hp hl)] at hread
    cases hread
    exact ⟨rfl, rfl⟩

end

theorem StoreOk.moved (h : StoreOk z s lay) (key : FrameKey) :
    StoreOk z { s with frameCache := (frameGet s.frameCache key).2 } lay :=
  h.withFrames fun _ hf => .inl (mem_of_mem_moveToFront hf)

/-- Serving a located frame keeps the store good, and serves the record when the frame is on
disk. -/
theorem fetchRecord_spec (h : StoreOk z s lay) (hloc : Locates s lay e p) (i : ℕ) :
    StoreOk z (fetchRecord z s e i).2 lay ∧
      (p.lost = false → ∀ r, p.records[i]? = some r → (fetchRecord z s e i).1 = .ok r) := by
  obtain ⟨seg, hseg, hp, rfl⟩ := hloc
  have hlaid := h.laid seg hseg
  have hmoved := h.moved (p.entry seg.baseOffset).key
  unfold fetchRecord
  rw [show (p.entry seg.baseOffset).segmentBaseOffset = seg.baseOffset from rfl, h.findSegmentLocked_eq hseg]
  dsimp only
  cases hget : (frameGet s.frameCache (p.entry seg.baseOffset).key).1 with
  | some recs =>
    refine ⟨hmoved, fun _ r hr => ?_⟩
    obtain ⟨f, hf, rfl⟩ := map_eq_some_iff.mp hget
    have hkey : f.key = (p.entry seg.baseOffset).key := by simpa using find?_some hf
    obtain ⟨seg', -, q, hq, hkey', hrecs⟩ := h.cache f (mem_of_find?_eq_some hf)
    rw [hkey'] at hkey
    have hbase : seg'.baseOffset = seg.baseOffset := congrArg FrameKey.segmentBase hkey
    have hpos : q.pos = p.pos := congrArg FrameKey.framePos hkey
    rw [hbase] at hq
    rw [hrecs, hlaid.eq_of_pos_eq hq hp hpos]
    simp [pickRecord, hr]
  | none =>
    dsimp only
    cases hread : readFrameAt z seg.file (p.entry seg.baseOffset).framePos with
    | error err =>
      refine ⟨hmoved, fun hl r hr => ?_⟩
      obtain ⟨hd, payload, hparts⟩ := (hlaid.frames p hp).parts
      have hok := hparts.readFrameAt_eq (hlaid.intact p hp hl)
      exact absurd (hok.symm.trans hread) (by simp)
    | ok res =>
      obtain ⟨hd, records, stop⟩ := res
      obtain ⟨hl, rfl⟩ := hlaid.readFrameAt_ok hp hread
      dsimp only
      cases hpick : pickRecord p.records i with
      | error err =>
        refine ⟨hmoved, fun _ r hr => ?_⟩
        simp [pickRecord, hr] at hpick
      | ok r =>
        refine ⟨hmoved.withFrames fun f hf => ?_, fun _ r' hr => ?_⟩
        · rcases mem_framePutSized hf with hold | ⟨hkey, hrecs⟩
          · exact .inl hold
          · exact .inr ⟨seg, hseg, p, hp, hkey, hrecs⟩
        · simp only [pickRecord, hr] at hpick
          rw [Except.ok.inj hpick]

/-- Reading an offset that a piece on disk serves returns the piece's record. -/
theorem readSegmentShared_eq (h : StoreOk z s lay) (hseg : seg ∈ s.segments) (hp : p ∈ lay seg.baseOffset)
    (hs : p.Serves o) {r : Bytes}
    (hr : p.records[o - p.base]? = some r) : (readSegmentShared z opts s o).1 = .ok r := by
  obtain ⟨s', hlock, hok, hsealed, hactive⟩ := lockIndexEntry_eq opts h hseg hp hs
  have hseg' : seg ∈ s'.segments := by
    rw [Store.segments, hsealed, hactive]
    exact hseg
  unfold readSegmentShared
  rw [hlock]
  exact (fetchRecord_spec hok ⟨seg, hseg', hp, rfl⟩ _).2 hs.1 r hr

end Narad.Storage
