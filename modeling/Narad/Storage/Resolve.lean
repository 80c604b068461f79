import Narad.Storage.Lookup

/-!
# Lookups end at the piece of the offset

Every operation of the read path leaves the files alone and changes the index map and the two
caches only by entries of pieces, so `StoreOk` survives it. Building on that: a lookup that finds
something finds the piece covering the offset, an uninterrupted lookup finds the piece whenever it
is on disk, and the fetch that follows returns its record.
-/

namespace Narad.Storage

open Lib List Option AList

variable {lay : ℕ → List Piece} {z : Zstd} {base o : ℕ}

/-- The entry of a piece that covers `offset`, with the record's number in it. -/
def Found (s : Store) (lay : ℕ → List Piece) (offset : ℕ) (e : IndexEntry) (idx : ℕ) (p : Piece) : Prop :=
  Locates s lay e p ∧ p.base ≤ offset ∧ offset < p.next ∧ idx = offset - p.base

/-- Everything the reads may change is as good as before. -/
theorem StoreOk.of_caches {s s' : Store} (h : StoreOk z s lay)
    (hsealed : s'.sealed = s.sealed) (hactive : s'.active = s.active)
    (hindex : ∀ base idx, s'.segmentIndexes.lookup base = some idx → s.segmentIndexes.lookup base = some idx ∨
        ∃ seg ∈ s.segments, seg.baseOffset = base ∧ IndexOk base (lay base) idx.entries)
    (hnav : ∀ e ∈ s'.navCache, e ∈ s.navCache ∨ ∃ p, Locates s lay e p)
    (hcache : ∀ f ∈ s'.frameCache, f ∈ s.frameCache ∨ ∃ seg ∈ s.segments, ∃ p ∈ lay seg.baseOffset,
      f.key = ⟨seg.baseOffset, p.pos⟩ ∧ f.recs = p.records) : StoreOk z s' lay := by
  have hsegs : s'.segments = s.segments := by simp [Store.segments, hsealed, hactive]
  constructor
  · rw [hsegs]
    exact h.linked
  · rw [hsealed]
    exact h.nonempty
  · rw [hsegs]
    exact h.laid
  · rw [hsegs]
    intro seg hseg idx hidx
    rcases hindex _ _ hidx with hold | ⟨seg', hseg', heq, hok⟩
    · exact h.index seg hseg idx hold
    · exact hok
  · rw [hsegs]
    intro base idx hidx
    rcases hindex _ _ hidx with hold | ⟨seg, hseg, heq, -⟩
    · exact h.indexed base idx hold
    · exact ⟨seg, hseg, heq⟩
  · intro e he
    unfold Locates
    rw [hsegs]
    rcases hnav e he with hold | hnew
    · exact h.nav e hold
    · exact hnew
  · rw [hsegs]
    intro f hf
    rcases hcache f hf with hold | hnew
    · exact h.cache f hold
    · exact hnew

variable {cache : List IndexEntry}

theorem StoreOk.withNav {s : Store} (h : StoreOk z s lay)
    (hnav : ∀ e ∈ cache, e ∈ s.navCache ∨ ∃ p, Locates s lay e p) : StoreOk z { s with navCache := cache } lay :=
  h.of_caches rfl rfl (fun _ _ hidx => .inl hidx) hnav fun _ hf => .inl hf

/-- The indexes of `s'` are some of those of `s`, that of `keep` and the active one's among them. -/
structure Pruned (s s' : Store) (keep : ℕ) : Prop where
  sealed : s'.sealed = s.sealed
  active : s'.active = s.active
  nav : s'.navCache = s.navCache
  cache : s'.frameCache = s.frameCache
  subset : ∀ base idx, s'.segmentIndexes.lookup base = some idx → s.segmentIndexes.lookup base = some idx
  kept : s'.segmentIndexes.lookup keep = s.segmentIndexes.lookup keep
  keptActive : s'.segmentIndexes.lookup s.active.baseOffset = s.segmentIndexes.lookup s.active.baseOffset

theorem oldestPrunable_ne {s : Store} {preserve victim : ℕ}
    (h : oldestPrunableSegmentIndexLocked s preserve = some victim) :
    victim ≠ preserve ∧ victim ≠ s.active.baseOffset := by
  have hfold (l : List (Sigma fun _ : ℕ => SegmentIndex)) (acc : Option (ℕ × ℕ))
      (hacc : ∀ v ∈ acc, v.1 ≠ preserve ∧ v.1 ≠ s.active.baseOffset) :
      ∀ v ∈ l.foldl (colderVictim preserve s.active.baseOffset) acc,
        v.1 ≠ preserve ∧ v.1 ≠ s.active.baseOffset := by
    induction l generalizing acc with
    | nil => exact hacc
    | cons entry l ih =>
      refine ih _ fun v hv => ?_
      unfold colderVictim at hv
      split at hv
      · exact hacc v hv
      next hne =>
        push Not at hne
        split at hv
        · cases hv
          exact hne
        split at hv
        · cases hv
          exact hne
        · exact hacc v hv
  unfold oldestPrunableSegmentIndexLocked at h
  obtain ⟨v, hv, rfl⟩ := map_eq_some_iff.mp h
  exact hfold _ none (by simp) v hv

theorem pruneLoop_pruned (preserve fuel : ℕ) (s : Store) : Pruned s (pruneLoop preserve fuel s) preserve := by
  induction fuel generalizing s with
  | zero => exact ⟨rfl, rfl, rfl, rfl, fun _ _ h => h, rfl, rfl⟩
  | succ fuel ih =>
    unfold pruneLoop
    split
    · split
      · exact ⟨rfl, rfl, rfl, rfl, fun _ _ h => h, rfl, rfl⟩
      next victim hvictim =>
        have hne := oldestPrunable_ne hvictim
        have hrec := ih { s with segmentIndexes := s.segmentIndexes.erase victim }
        refine ⟨hrec.sealed, hrec.active, hrec.nav, hrec.cache, fun base idx hidx => ?_, ?_, ?_⟩
        · have herased := hrec.subset base idx hidx
          by_cases hbase : base = victim
          · subst hbase
            exact absurd herased (by simp)
          · rwa [lookup_erase_ne hbase] at herased
        · rw [hrec.kept]
          exact lookup_erase_ne hne.1.symm
        · rw [hrec.keptActive]
          exact lookup_erase_ne hne.2.symm
    · exact ⟨rfl, rfl, rfl, rfl, fun _ _ h => h, rfl, rfl⟩

/-- Storing an index sets that index, drops some others and changes nothing else. -/
structure IndexPut (s s' : Store) (base : ℕ) (entries : List IndexEntry) : Prop where
  sealed : s'.sealed = s.sealed
  active : s'.active = s.active
  nav : s'.navCache = s.navCache
  cache : s'.frameCache = s.frameCache
  subset : ∀ b idx, s'.segmentIndexes.lookup b = some idx →
    s.segmentIndexes.lookup b = some idx ∨ (b = base ∧ idx.entries = entries)
  stored : ∃ idx, s'.segmentIndexes.lookup base = some idx ∧ idx.entries = entries
  keptActive : s.segmentIndexes.lookup s.active.baseOffset ≠ none →
    s'.segmentIndexes.lookup s.active.baseOffset ≠ none

theorem putSegmentIndex_put (s : Store) (base : ℕ) (entries : List IndexEntry) (lastUsed : ℕ) :
    IndexPut s (putSegmentIndex s base entries lastUsed) base entries := by
  unfold putSegmentIndex pruneSegmentIndexesLocked
  have htouch : touchSegmentIndexLocked
      { s with segmentIndexes := s.segmentIndexes.insert base ⟨entries, lastUsed⟩ } base =
        { s with
          indexClock := s.indexClock + 1
          segmentIndexes := (s.segmentIndexes.insert base ⟨entries, lastUsed⟩).insert base
            ⟨entries, s.indexClock + 1⟩ } := by
    simp [touchSegmentIndexLocked, lookup_insert]
  rw [htouch]
  have hp := pruneLoop_pruned base ((s.segmentIndexes.insert base ⟨entries, lastUsed⟩).insert base
      ⟨entries, s.indexClock + 1⟩).entries.length
    { s with
      indexClock := s.indexClock + 1
      segmentIndexes := (s.segmentIndexes.insert base ⟨entries, lastUsed⟩).insert base ⟨entries, s.indexClock + 1⟩ }
  refine ⟨hp.sealed, hp.active, hp.nav, hp.cache, fun b idx hidx => ?_, ?_, fun hsome => ?_⟩
  · have hin := hp.subset b idx hidx
    by_cases hb : b = base
    · subst hb
      rw [lookup_insert] at hin
      exact .inr ⟨rfl, by rw [← some.inj hin]⟩
    · rw [lookup_insert_ne hb, lookup_insert_ne hb] at hin
      exact .inl hin
  · exact ⟨_, hp.kept.trans (lookup_insert _), rfl⟩
  · have hkept := hp.keptActive
    rw [hkept]
    by_cases hbase : s.active.baseOffset = base
    · rw [hbase, lookup_insert]
      simp
    · rwa [lookup_insert_ne hbase, lookup_insert_ne hbase]

variable {seg : Segment} {entries : List IndexEntry}

theorem StoreOk.put {s s' : Store} (h : StoreOk z s lay) {base : ℕ} (hput : IndexPut s s' base entries)
    (hseg : seg ∈ s.segments) (hbase : seg.baseOffset = base)
    (hok : IndexOk base (lay base) entries) : StoreOk z s' lay := by
  refine h.of_caches hput.sealed hput.active (fun b idx hidx => ?_) (fun e he => ?_) fun f hf => ?_
  · rcases hput.subset b idx hidx with hold | ⟨rfl, hentries⟩
    · exact .inl hold
    · exact .inr ⟨seg, hseg, hbase, hentries ▸ hok⟩
  · exact .inl (hput.nav ▸ he)
  · exact .inl (hput.cache ▸ hf)

/-- The two sparsifications of a rebuilt index keep the first intact piece. -/
theorem Laid.rebuilt_indexOk {o : Options} {ps : List Piece}
    (h : Laid z seg.file 0 seg.baseOffset ps seg.sizeBytes seg.nextOffset) :
    IndexOk seg.baseOffset ps (sparseIndexEntries o (scanSegmentIndex o seg)) := by
  have hscan : scanSegmentIndex o seg =
      sparseIndexEntries o ((ps.filter fun p => !p.lost).map (Piece.entry seg.baseOffset)) :=
    h.scanIndexLoop_eq _ [] (by omega)
  refine IndexOk.of_head h.chain ?_ ?_
  · rw [hscan]
    exact (foldl_sparse_sublist o _ []).trans (foldl_sparse_sublist o _ [])
  · rw [hscan]
    unfold sparseIndexEntries
    rw [foldl_sparse_head, nil_append, foldl_sparse_head, nil_append]

theorem setSegmentIndexLocked_ok {o : Options} {s : Store} (h : StoreOk z s lay) (hseg : seg ∈ s.segments)
    (hok : IndexOk seg.baseOffset (lay seg.baseOffset) (sparseIndexEntries o entries)) :
    StoreOk z (setSegmentIndexLocked o s seg.baseOffset entries) lay ∧
      (setSegmentIndexLocked o s seg.baseOffset entries).segments = s.segments ∧
      ((∃ p ∈ lay seg.baseOffset, p.lost = false) →
        ((setSegmentIndexLocked o s seg.baseOffset entries).segmentIndexes.lookup seg.baseOffset).isSome) := by
  unfold setSegmentIndexLocked
  dsimp only
  split
  next hempty =>
    refine ⟨h.of_caches rfl rfl (fun b idx hidx => ?_) (fun e he => .inl he) fun f hf => .inl hf, rfl, ?_⟩
    · by_cases hb : b = seg.baseOffset
      · subst hb
        exact absurd hidx (by simp)
      · left
        rwa [lookup_erase_ne hb] at hidx
    · rintro ⟨p, hp, hl⟩
      obtain ⟨e, he, -⟩ := hok.covers p hp hl
      rw [isEmpty_iff.mp hempty] at he
      cases he
  · have hput := putSegmentIndex_put s seg.baseOffset (sparseIndexEntries o entries) 0
    refine ⟨h.put hput hseg rfl hok, by simp [Store.segments, hput.sealed, hput.active], fun _ => ?_⟩
    obtain ⟨idx, hidx, -⟩ := hput.stored
    rw [hidx]
    rfl

theorem setSegmentIndexLocked_active (o : Options) (s : Store) (base : ℕ)
    (entries : List IndexEntry) : (setSegmentIndexLocked o s base entries).active = s.active := by
  unfold setSegmentIndexLocked
  dsimp only
  split
  · rfl
  · exact (putSegmentIndex_put s base _ 0).active

variable {e : IndexEntry}

theorem bestAnchorLoop_some {l : List IndexEntry} {best : Option IndexEntry}
    (h : bestAnchorLoop base o l best = some e) :
    best = some e ∨ (e ∈ l ∧ e.segmentBaseOffset = base ∧ e.baseOffset ≤ o) := by
  induction l generalizing best with
  | nil => exact .inl h
  | cons x l ih =>
    unfold bestAnchorLoop at h
    split at h
    · rcases ih h with hb | ⟨he, hrest⟩
      · exact .inl hb
      · exact .inr ⟨.tail _ he, hrest⟩
    next hx =>
      push Not at hx
      split at h
      · cases h
        exact .inr ⟨.head _, hx⟩
      rcases ih h with hb | ⟨he, hrest⟩
      · split at hb
        · cases hb
          exact .inr ⟨.head _, hx⟩
        split at hb
        · cases hb
          exact .inr ⟨.head _, hx⟩
        · exact .inl hb
      · exact .inr ⟨.tail _ he, hrest⟩

theorem bestAnchor_subset {x : IndexEntry} (h : x ∈ (bestAnchor cache base o).2) : x ∈ cache := by
  unfold bestAnchor at h
  split at h
  · split at h
    · exact h
    split at h
    · exact mem_of_mem_moveToFront h
    · exact h
  · exact h

theorem bestAnchor_some (h : (bestAnchor cache base o).1 = some e) :
    e ∈ cache ∧ e.segmentBaseOffset = base ∧ e.baseOffset ≤ o := by
  unfold bestAnchor at h
  split at h
  next x hx =>
    split at h
    next hcov =>
      cases h
      exact ⟨mem_of_mem_head? hx, hcov.1, hcov.2.1⟩
    · split at h
      next best hbest =>
        cases h
        rcases bestAnchorLoop_some hbest with hnone | hin
        · cases hnone
        · exact hin
      · cases h
  · cases h

theorem mem_navPut {e x : IndexEntry} (h : x ∈ navPut cache e) : x = e ∨ x ∈ cache := by
  unfold navPut at h
  split at h
  · rcases mem_cons.mp h with rfl | hx
    · exact .inl rfl
    · exact .inr (mem_of_mem_eraseP hx)
  · exact mem_of_mem_pushFront h

/-- Only the navigation cache differs. -/
def SameButNav (s s' : Store) : Prop :=
  s' = { s with navCache := s'.navCache }

/-- What a section that resolves an offset must do. -/
structure Resolves (z : Zstd) (s : Store) (lay : ℕ → List Piece) (o : ℕ)
    (r : Option (IndexEntry × ℕ) × Store) : Prop where
  ok : StoreOk z r.2 lay
  same : SameButNav s r.2
  sound : ∀ e i, r.1 = some (e, i) → ∃ p, Found s lay o e i p

variable {z : Zstd} {s : Store} {lay : ℕ → List Piece} {o : ℕ}

section

variable (h : StoreOk z s lay)
include h

theorem resolveFromAnchorLocked_spec
    (hseg : seg ∈ s.segments) {p : Piece} (hp : p ∈ lay seg.baseOffset) (hle : p.base ≤ o) :
    Resolves z s lay o (resolveFromAnchorLocked s seg (p.entry seg.baseOffset) o) ∧
      ((∃ q ∈ lay seg.baseOffset, q.Serves o) →
        (resolveFromAnchorLocked s seg (p.entry seg.baseOffset) o).1.isSome) := by
  have hlaid := h.laid seg hseg
  obtain ⟨a, b, hab⟩ := append_of_mem hp
  have hlaid' := hab ▸ hlaid
  have hloc (q : Piece) (hq : q ∈ lay seg.baseOffset) : Locates s lay (q.entry seg.baseOffset) q :=
    ⟨seg, hseg, hq, rfl⟩
  have hnav (q : Piece) (hq : q ∈ lay seg.baseOffset) :
      StoreOk z { s with navCache := navPut s.navCache (q.entry seg.baseOffset) } lay := by
    refine h.withNav fun x hx => ?_
    rcases mem_navPut hx with rfl | hx
    · exact .inr ⟨q, hloc q hq⟩
    · exact .inl hx
  unfold resolveFromAnchorLocked
  by_cases hcov : (p.entry seg.baseOffset).Covers o
  · rw [if_pos hcov]
    refine ⟨⟨hnav p hp, rfl, fun e i heq => ?_⟩, fun _ => rfl⟩
    cases heq
    exact ⟨p, hloc p hp, hle, hcov.2, rfl⟩
  obtain ⟨m, k, -, hb⟩ := hlaid'.split
  have hscan : scanSegmentFromIndexAnchorLocked seg (p.entry seg.baseOffset) o =
      servingEntry seg.baseOffset o b := hb.tail.scanFrom_eq o _ (by omega)
  rw [if_neg hcov, hscan]
  have hmem (q : Piece) (hq : q ∈ b) : q ∈ lay seg.baseOffset := by
    rw [hab]
    exact mem_append_right a (.tail _ hq)
  cases hserve : servingEntry seg.baseOffset o b with
  | none =>
    refine ⟨⟨h, rfl, fun e i heq => absurd heq (by simp)⟩, ?_⟩
    rintro ⟨q, hq, hs⟩
    -- A serving piece lies after the anchor, where the walk would have met it.
    have hqb : q ∈ b := by
      rw [hab] at hq
      rcases mem_append.mp hq with hqa | hqpb
      · have h1 := hlaid'.chain.before hqa
        have h2 := hs.2.2
        omega
      · rcases mem_cons.mp hqpb with rfl | hqb
        · exact absurd hs.2 hcov
        · exact hqb
    have hmeet : servingEntry seg.baseOffset o b = some _ := hlaid'.chain.split.2.servingEntry_eq hqb hs
    rw [hserve] at hmeet
    cases hmeet
  | some r =>
    unfold servingEntry at hserve
    obtain ⟨q, hfind, rfl⟩ := map_eq_some_iff.mp hserve
    have hq := mem_of_find?_eq_some hfind
    have hs : q.Serves o := by simpa using find?_some hfind
    refine ⟨⟨hnav q (hmem q hq), rfl, fun e i heq => ?_⟩, fun _ => rfl⟩
    cases heq
    exact ⟨q, hloc q (hmem q hq), hs.2.1, hs.2.2, rfl⟩

/-- The anchor a lookup starts from is a piece at or below the offset, and there is one as soon as
the segment's index is loaded and a piece serves the offset. -/
theorem chooseAnchor_spec (hseg : seg ∈ s.segments) {cached : Option IndexEntry}
    (hcached : ∀ c ∈ cached, ∃ p ∈ lay seg.baseOffset, c = p.entry seg.baseOffset ∧ p.base ≤ o) :
    (∀ e, chooseAnchor (((s.segmentIndexes.lookup seg.baseOffset).map SegmentIndex.entries).getD []) cached o = some e →
      ∃ p ∈ lay seg.baseOffset, e = p.entry seg.baseOffset ∧ p.base ≤ o) ∧
    ((∃ q ∈ lay seg.baseOffset, q.Serves o) → (s.segmentIndexes.lookup seg.baseOffset).isSome →
      (chooseAnchor (((s.segmentIndexes.lookup seg.baseOffset).map
        SegmentIndex.entries).getD []) cached o).isSome) := by
  have hchain := (h.laid seg hseg).chain
  cases hidx : s.segmentIndexes.lookup seg.baseOffset with
  | none =>
    refine ⟨fun e he => hcached e ?_, fun _ hsome => absurd hsome (by simp)⟩
    simpa [chooseAnchor, indexAnchorForOffset] using he
  | some idx =>
    have hok := h.index seg hseg idx hidx
    have hsorted := hok.sorted hchain
    have hpiece (e : IndexEntry) (he : indexAnchorForOffset idx.entries o = some e) :
        ∃ p ∈ lay seg.baseOffset, e = p.entry seg.baseOffset ∧ p.base ≤ o := by
      obtain ⟨hmem, hle⟩ := indexAnchorForOffset_some hsorted he
      obtain ⟨p, hp, rfl⟩ := mem_map.mp (hok.sub.subset hmem)
      exact ⟨p, hp, rfl, hle⟩
    simp only [map_some, getD_some]
    unfold chooseAnchor
    constructor
    · intro e he
      split at he
      · exact hcached e he
      next anchor hanchor =>
        split at he
        · split at he
          · cases he
            exact hcached _ rfl
          · cases he
            exact hpiece _ hanchor
        · cases he
          exact hpiece _ hanchor
    · rintro ⟨q, hq, hs⟩ -
      obtain ⟨e, he, hpos⟩ := hok.covers q hq hs.1
      obtain ⟨p, hp, rfl⟩ := mem_map.mp (hok.sub.subset he)
      have hle : p.base ≤ o := by
        obtain ⟨a, b, hab⟩ := append_of_mem hq
        rw [hab] at hp hchain
        have h2 := hs.2.1
        rcases mem_append.mp hp with hpa | hpb
        · have h1 := hchain.before hpa
          have h3 : p.base ≤ p.next := Nat.le_add_right _ _
          omega
        rcases mem_cons.mp hpb with rfl | hpb
        · exact h2
        have h1 := hchain.after hpb
        have h3 := ((h.laid seg hseg).pos_lt_stop hq)
        simp only [Piece.entry] at hpos
        omega
      have hsome := indexAnchorForOffset_isSome hsorted he (show (p.entry _).baseOffset ≤ o from hle)
      obtain ⟨anchor, hanchor⟩ := isSome_iff_exists.mp hsome
      rw [hanchor]
      dsimp only
      split
      · split <;> rfl
      · rfl

/-- Resolving an offset under the lock: sound always, complete once the index is loaded. -/
theorem findIndexLocked_spec : Resolves z s lay o (findIndexLocked s o) ∧
      ∀ seg ∈ s.segments, (∃ q ∈ lay seg.baseOffset, q.Serves o) →
        (s.segmentIndexes.lookup seg.baseOffset).isSome → (findIndexLocked s o).1.isSome := by
  have hcover (seg : Segment) (hseg : seg ∈ s.segments) (q : Piece) (hq : q ∈ lay seg.baseOffset)
      (hs : q.Serves o) : findSegmentForOffsetLocked s o = some seg := by
    have hb := (h.laid seg hseg).chain.bounds hq
    have h1 := hs.2.1
    have h2 := hs.2.2
    exact h.findSegmentForOffset_eq hseg (by omega) (by omega)
  unfold findIndexLocked
  cases hfind : findSegmentForOffsetLocked s o with
  | none =>
    refine ⟨⟨h, rfl, fun e i heq => absurd heq (by simp)⟩, ?_⟩
    rintro seg hseg ⟨q, hq, hs⟩ -
    rw [hcover seg hseg q hq hs] at hfind
    cases hfind
  | some seg =>
    obtain ⟨hseg, -, -⟩ := h.findSegmentForOffset_some hfind
    have hunique (seg' : Segment) (hseg' : seg' ∈ s.segments)
        (hq : ∃ q ∈ lay seg'.baseOffset, q.Serves o) : seg' = seg := by
      obtain ⟨q, hq, hs⟩ := hq
      have := hcover seg' hseg' q hq hs
      rw [hfind] at this
      exact (some.inj this).symm
    dsimp only
    set s1 : Store := { s with navCache := (bestAnchor s.navCache seg.baseOffset o).2 } with hs1
    have h1 : StoreOk z s1 lay := h.withNav fun x hx => .inl (bestAnchor_subset hx)
    have hseg1 : seg ∈ s1.segments := hseg
    have hresolve (cached : Option IndexEntry)
        (hcached : ∀ c ∈ cached, ∃ p ∈ lay seg.baseOffset, c = p.entry seg.baseOffset ∧ p.base ≤ o)
        (r : Option (IndexEntry × ℕ) × Store)
        (hnone : chooseAnchor (((s1.segmentIndexes.lookup seg.baseOffset).map SegmentIndex.entries).getD [])
          cached o = none → r = (none, s1))
        (hanchor : ∀ anchor, chooseAnchor (((s1.segmentIndexes.lookup seg.baseOffset).map
          SegmentIndex.entries).getD []) cached o = some anchor → r = resolveFromAnchorLocked s1 seg anchor o) :
        Resolves z s lay o r ∧
        ∀ seg' ∈ s.segments, (∃ q ∈ lay seg'.baseOffset, q.Serves o) →
          (s.segmentIndexes.lookup seg'.baseOffset).isSome → r.1.isSome := by
      obtain ⟨hpiece, hsome⟩ := chooseAnchor_spec h1 hseg1 hcached
      cases hchoose : chooseAnchor (((s1.segmentIndexes.lookup seg.baseOffset).map
          SegmentIndex.entries).getD []) cached o with
      | none =>
        rw [hnone hchoose]
        refine ⟨⟨h1, rfl, fun e i heq => absurd heq (by simp)⟩, fun seg' hseg' hq hidx => ?_⟩
        obtain rfl := hunique seg' hseg' hq
        have := hsome hq hidx
        rw [hchoose] at this
        exact absurd this (by simp)
      | some anchor =>
        rw [hanchor anchor hchoose]
        obtain ⟨p, hp, rfl, hle⟩ := hpiece anchor hchoose
        obtain ⟨hres, hcomplete⟩ := resolveFromAnchorLocked_spec h1 hseg1 hp hle
        refine ⟨⟨hres.ok, ?_, hres.sound⟩, fun seg' hseg' hq _ => ?_⟩
        · have := hres.same
          unfold SameButNav at this ⊢
          rw [this]
        · obtain rfl := hunique seg' hseg' hq
          exact hcomplete hq
    cases hbest : (bestAnchor s.navCache seg.baseOffset o).1 with
    | none => exact hresolve none (by simp) _ (fun hno => by rw [hno]) fun anchor hsome => by rw [hsome]
    | some c =>
      obtain ⟨hc, hcbase, hcle⟩ := bestAnchor_some hbest
      obtain ⟨p, seg', -, hp, rfl⟩ := h.nav c hc
      have hb : seg'.baseOffset = seg.baseOffset := hcbase
      rw [hb] at hp ⊢
      dsimp only
      split
      next hlt =>
        refine ⟨⟨h1, rfl, fun e i heq => ?_⟩, fun _ _ _ _ => rfl⟩
        cases heq
        exact ⟨p, ⟨seg, hseg, hp, rfl⟩, hcle, hlt, rfl⟩
      · refine hresolve _ (fun c hc => ?_) _ (fun hno => by rw [hno]) fun anchor hsome => by rw [hsome]
        cases hc
        exact ⟨p, hp, rfl, hcle⟩

end

end Narad.Storage
