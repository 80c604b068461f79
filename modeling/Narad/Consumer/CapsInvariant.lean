import Narad.Consumer.CapsFollow

/-!
# What orderly interleavings preserve

`Orderly` lists what one step that is not a bad order can do, and `orderly_of_step` is its
inversion. Three invariants follow from it: `Sys.Sane` is the bookkeeping of versions and
identities; `Sys.Tracked` says that every live shard is registered, or about to be, and carries
caps at least as new as its topic's registered version unless a call in progress will bring it
there; and `Sys.Covered` says that a registered version can only be out of date while some later
pass is still due.
-/

namespace Narad.Consumer

open List Option Finmap
open Function (update)

variable {τ : Type*} {s s' : Sys τ}

variable (phase : Phase τ)

/-- A call that has stored the shard and not yet compared the version it read. -/
def Phase.Notes (L : LiveShard τ) (version : ℕ) : Prop :=
  phase = .noteLoad L.topic version (some L.id) ∨ phase = .noteStore L.topic version (some L.id) ∨
    ∃ cell, phase = .noteCompare L.topic version (some L.id) cell

/-- A call whose `RefreshCaps` will write caps of version `w` or later to the shard. -/
def Phase.Fixes (L : LiveShard τ) (w : ℕ) : Prop :=
  phase = .refresh L.topic ∨
    ∃ refresh, phase = .writing L.topic refresh ∧ w ≤ refresh.resolvedAt ∧ L.id ∈ refresh.todo

/-- A call that will bring the shard to version `w`, or will find that it has to. -/
def Phase.Serves (L : LiveShard τ) (w : ℕ) : Prop :=
  phase.Fixes L w ∨ ∃ version, phase.Notes L version ∧ version < w

variable {phase : Phase τ}

theorem Phase.not_serves_of_other (h : match phase with
      | .created .. | .resolved .. | .latestRead _ | .follow _ | .passing | .forget _ => True
      | _ => False) (L : LiveShard τ) (w : ℕ) : ¬ phase.Serves L w := by
  cases phase <;> simp [Phase.Serves, Phase.Fixes, Phase.Notes] at h ⊢

variable {refresh : Refresh}

/-- What a call in progress remembers is no newer than the state. -/
def Phase.Ok (records : τ → ℕ → Caps) (s : Sys τ) : Phase τ → Prop
  | .created topic _ version => version ≤ s.version topic
  | .resolved topic _ version caps resolvedAt =>
    version ≤ resolvedAt ∧ resolvedAt ≤ s.version topic ∧ caps = records topic resolvedAt
  | .noteLoad topic version stored | .noteStore topic version stored
  | .noteCompare topic version stored _ =>
    version ≤ s.version topic ∧ ∀ id, stored = some id → id < s.nextShard
  | .writing topic r => r.resolvedAt ≤ s.version topic ∧ r.caps = records topic r.resolvedAt
  | .latestRead latest | .follow latest => latest ≤ s.metadataVersion
  | .refresh _ | .passing | .forget _ => True

/-- What a pass remembers about the topic it is on. -/
structure Work.Ok (records : τ → ℕ → Caps) (version : τ → ℕ) (cells : τ → ℕ → ℕ) (nextCell : ℕ) (w : Work τ) :
    Prop where
  cell_lt : w.cell < nextCell
  cell_le : cells w.topic w.cell ≤ w.cur
  cur_le : w.cur ≤ version w.topic
  refresh_ok : ∀ refresh, w.refresh = some refresh → w.cur ≤ refresh.resolvedAt ∧
    refresh.resolvedAt ≤ version w.topic ∧ refresh.caps = records w.topic refresh.resolvedAt

variable {records : τ → ℕ → Caps}

theorem Phase.Ok.mono (h : phase.Ok records s) (hversion : ∀ topic, s.version topic ≤ s'.version topic)
    (hshard : s.nextShard ≤ s'.nextShard) (hmetadata : s.metadataVersion ≤ s'.metadataVersion) :
    phase.Ok records s' := by
  cases phase with
  | created topic partition version => exact le_trans h (hversion topic)
  | resolved topic partition version caps resolvedAt => exact ⟨h.1, h.2.1.trans (hversion topic), h.2.2⟩
  | noteLoad topic version stored | noteStore topic version stored
  | noteCompare topic version stored cell =>
    exact ⟨h.1.trans (hversion topic), fun id hid => (h.2 id hid).trans_le hshard⟩
  | writing topic r => exact ⟨h.1.trans (hversion topic), h.2⟩
  | latestRead latest | follow latest => exact le_trans h hmetadata
  | refresh topic | passing | forget topic => trivial

theorem Work.Ok.mono {w : Work τ} {version version' : τ → ℕ} {cells cells' : τ → ℕ → ℕ} {next next' : ℕ}
    (h : w.Ok records version cells next) (hversion : ∀ topic, version topic ≤ version' topic)
    (hcells : ∀ topic cell, cell < next → cells' topic cell = cells topic cell) (hnext : next ≤ next') :
    w.Ok records version' cells' next' where
  cell_lt := h.cell_lt.trans_le hnext
  cell_le := by rw [hcells _ _ h.cell_lt]; exact h.cell_le
  cur_le := h.cur_le.trans (hversion _)
  refresh_ok r hr := by
    obtain ⟨hcur, hle, hcaps⟩ := h.refresh_ok r hr
    exact ⟨hcur, hle.trans (hversion _), hcaps⟩

variable {calls : Finmap fun _ : ℕ => Phase τ} [DecidableEq τ]

/-- The possible effects of a step that is not a bad order, with what holds when it is taken. -/
inductive Orderly (records : τ → ℕ → Caps) (s : Sys τ) : Sys τ → Prop
  | change (topic) : Orderly records s { s with
      version := update s.version topic (s.version topic + 1)
      unpublished := s.unpublished + 1 }
  | publish (metadata unpublished) : s.metadataVersion < metadata →
      Orderly records s { s with unpublished := unpublished, metadataVersion := metadata }
  | goto (call phase) : (∀ old, s.calls.lookup call = some old → ∀ L w, ¬ old.Serves L w) →
      (∀ L v, ¬ phase.Notes L v) →
      (match phase with
        | .created topic _ version => version ≤ s.version topic
        | .resolved topic _ version caps resolvedAt => version ≤ resolvedAt ∧
            resolvedAt ≤ s.version topic ∧ caps = records topic resolvedAt
        | .latestRead latest | .follow latest => latest ≤ s.metadataVersion
        | _ => False) → Orderly records s (s.goto call phase)
  | returns (call old) : s.calls.lookup call = some old → (∀ L w, ¬ old.Serves L w) →
      Orderly records s (s.done call)
  | storeLost (call topic partition version caps resolvedAt) :
      s.calls.lookup call = some (.resolved topic partition version caps resolvedAt) →
      Orderly records s (s.goto call (.noteLoad topic version none))
  | storeWon (call topic partition version caps resolvedAt) :
      s.calls.lookup call = some (.resolved topic partition version caps resolvedAt) →
      Orderly records s ({ s with
        shards := { topic, partition, id := s.nextShard, caps, resolvedAt } :: s.shards
        nextShard := s.nextShard + 1 }.goto call (.noteLoad topic version (some s.nextShard)))
  | found (call topic version stored cell) : s.calls.lookup call = some (.noteLoad topic version stored) ∨
        s.calls.lookup call = some (.noteStore topic version stored) →
      s.capsSeen.lookup topic = some cell →
      Orderly records s (s.goto call (.noteCompare topic version stored cell))
  | missing (call topic version stored) : s.calls.lookup call = some (.noteLoad topic version stored) →
      s.capsSeen.lookup topic = none →
      Orderly records s (s.goto call (.noteStore topic version stored))
  | register (call topic version stored) : s.calls.lookup call = some (.noteStore topic version stored) →
      s.capsSeen.lookup topic = none → registersCovered s call = false →
      Orderly records s ({ s with
        cells := update s.cells topic (update (s.cells topic) s.nextCell version)
        nextCell := s.nextCell + 1
        capsSeen := s.capsSeen.insert topic s.nextCell }.done call)
  | newer (call topic version stored cell) :
      s.calls.lookup call = some (.noteCompare topic version stored cell) →
      version < s.cells topic cell → Orderly records s (s.goto call (.refresh topic))
  | kept (call topic version stored cell) :
      s.calls.lookup call = some (.noteCompare topic version stored cell) →
      s.cells topic cell ≤ version → missesPass s call = false → Orderly records s (s.done call)
  | refreshResolve (call topic) : s.calls.lookup call = some (.refresh topic) →
      Orderly records s (s.goto call (.writing topic (s.startRefresh records topic)))
  | refreshVisit (call topic refresh shard) : s.calls.lookup call = some (.writing topic refresh) →
      overwrites s topic shard refresh.resolvedAt = false →
      Orderly records s ((s.writeCaps topic shard refresh).goto call
        (.writing topic { refresh with todo := refresh.todo.filter (· ≠ shard) }))
  | lock (call latest) : s.calls.lookup call = some (.follow latest) → s.pass = none →
      Orderly records s ({ s with
        pass := some { latest, todo := s.capsSeen, failed := false, work := none } }.goto call .passing)
  | passSkip (p topic cell) : s.pass = some p → p.work = none → p.todo.lookup topic = some cell ∨
        p.todo.lookup topic = none ∧ s.capsSeen.lookup topic = some cell →
      s.cells topic cell = s.version topic →
      Orderly records s { s with pass := some { p with todo := p.todo.erase topic, work := none } }
  | passBegin (p topic cell) : s.pass = some p → p.work = none → p.todo.lookup topic = some cell ∨
        p.todo.lookup topic = none ∧ s.capsSeen.lookup topic = some cell →
      Orderly records s { s with pass := some { p with
        todo := p.todo.erase topic
        work := some { topic, cell, cur := s.version topic, refresh := none } } }
  | passResolve (p w) : s.pass = some p → p.work = some w → w.refresh = none →
      Orderly records s { s with pass := some { p with
        work := some { w with refresh := some (s.startRefresh records w.topic) } } }
  | passFail (p w) : s.pass = some p → p.work = some w →
      Orderly records s { s with pass := some { p with failed := true, work := none } }
  | passVisit (p w refresh shard) : s.pass = some p → p.work = some w → w.refresh = some refresh →
      overwrites s w.topic shard refresh.resolvedAt = false →
      Orderly records s { s.writeCaps w.topic shard refresh with
        pass := some { p with work := some { w with
          refresh := some { refresh with todo := refresh.todo.filter (· ≠ shard) } } } }
  | passStore (p w refresh) : s.pass = some p → p.work = some w → w.refresh = some refresh →
      refresh.todo = [] →
      Orderly records s { s with
        cells := update s.cells w.topic (update (s.cells w.topic) w.cell w.cur)
        pass := some { p with work := none } }
  | passFailed (call p retryAt) : s.pass = some p → p.work = none → s.calls.lookup call = some .passing →
      Orderly records s ({ s with pass := none, capsRetryAt := retryAt }.done call)
  | passComplete (call p) : s.pass = some p → p.work = none →
      (∀ topic ∈ p.todo.keys, s.capsSeen.lookup topic ≠ p.todo.lookup topic) →
      p.failed = false → s.calls.lookup call = some .passing →
      Orderly records s ({ s with pass := none, capsChecked := p.latest }.done call)
  | dropShards (call topic) : call ∉ s.calls → Orderly records s
      ({ s with shards := s.shards.filter fun L => L.topic ≠ topic }.goto call (.forget topic))
  | forgetCaps (call topic) : s.calls.lookup call = some (.forget topic) → forgetsLive s call = false →
      Orderly records s ({ s with capsSeen := s.capsSeen.erase topic }.done call)

/-- The bookkeeping of versions and identities. -/
structure Sys.Sane (records : τ → ℕ → Caps) (s : Sys τ) : Prop where
  id_lt : ∀ L ∈ s.shards, L.id < s.nextShard
  shard_caps : ∀ L ∈ s.shards, L.caps = records L.topic L.resolvedAt
  shard_le : ∀ L ∈ s.shards, L.resolvedAt ≤ s.version L.topic
  cell_le : ∀ topic cell, s.cells topic cell ≤ s.version topic
  seen_lt : ∀ topic cell, s.capsSeen.lookup topic = some cell → cell < s.nextCell
  calls_ok : ∀ call phase, s.calls.lookup call = some phase → phase.Ok records s
  latest_le : ∀ p, s.pass = some p → p.latest ≤ s.metadataVersion
  todo_lt : ∀ p, s.pass = some p → ∀ topic cell, p.todo.lookup topic = some cell → cell < s.nextCell
  work_ok : ∀ p, s.pass = some p → ∀ w, p.work = some w → w.Ok records s.version s.cells s.nextCell

/-- Inversion: what a possible step that is not a bad order does. -/
theorem orderly_of_step {label : Label τ}
    (hs : s.Sane records) (hbad : badOrder s label = false) (h : step records s label = some s') :
    Orderly records s s' := by
  cases label with simp only [step, stepSource, stepCreate, stepNote, stepPass, stepDrop] at h
  | change topic => cases h; exact .change topic
  | publish =>
    split at h
    · cases h; exact .publish _ _ (Nat.lt_succ_self _)
    · cases h
  | heartbeat => cases h; exact .publish _ s.unpublished (Nat.lt_succ_self _)
  | readVersion call topic partition =>
    split at h <;> cases h
    next hfree =>
      refine .goto call _ ?_ (by simp [Phase.Notes]) le_rfl
      intro old hold
      exact absurd (mem_of_lookup_eq_some hold) hfree
  | resolveCaps call ok =>
    split at h
    next topic partition version hcall =>
      have hok := hs.calls_ok _ _ hcall
      split at h <;> cases h
      · refine .goto call _ ?_ (by simp [Phase.Notes]) ⟨hok, le_rfl, rfl⟩
        intro old hold
        rw [hcall] at hold
        cases hold
        exact Phase.not_serves_of_other trivial
      · exact .returns call _ hcall (Phase.not_serves_of_other trivial)
    · cases h
  | storeShard call =>
    split at h
    next topic partition version caps resolvedAt hcall =>
      split at h <;> cases h
      · exact .storeLost call _ _ _ _ _ hcall
      · exact .storeWon call _ _ _ _ _ hcall
    · cases h
  | loadSeen call =>
    split at h
    next topic version stored hcall =>
      split at h <;> cases h
      · exact .found call _ _ _ _ (.inl hcall) ‹_›
      · exact .missing call _ _ _ hcall ‹_›
    · cases h
  | loadOrStoreSeen call =>
    split at h
    next topic version stored hcall =>
      split at h <;> cases h
      · exact .found call _ _ _ _ (.inr hcall) ‹_›
      · exact .register call _ _ _ hcall ‹_› hbad
    · cases h
  | compareSeen call =>
    split at h
    next topic version stored cell hcall =>
      split at h <;> cases h
      · exact .newer call _ _ _ _ hcall ‹_›
      · exact .kept call _ _ _ _ hcall (not_lt.1 ‹_›) hbad
    · cases h
  | refreshResolve call ok =>
    split at h
    next topic hcall =>
      simp only [badOrder, Bool.not_eq_false'] at hbad
      simp only [hbad, if_true, some.injEq] at h
      subst h
      exact .refreshResolve call topic hcall
    · cases h
  | refreshVisit call shard =>
    split at h <;> cases h
    next topic refresh hcall =>
      simp only [badOrder, hcall] at hbad
      exact .refreshVisit call topic refresh shard hcall hbad
  | refreshDone call =>
    split at h
    next topic refresh hcall =>
      split at h <;> cases h
      rename_i hnil
      refine .returns call _ hcall ?_
      rintro L w ((h' | ⟨refresh', h', -, hmem⟩) | ⟨v, (h' | h' | ⟨c, h'⟩), -⟩) <;> cases h'
      rw [hnil] at hmem
      cases hmem
    · cases h
  | readLatest call =>
    split at h <;> cases h
    next hfree =>
      refine .goto call _ ?_ (by simp [Phase.Notes]) le_rfl
      intro old hold
      exact absurd (mem_of_lookup_eq_some hold) hfree
  | compareChecked call =>
    split at h
    next latest hcall =>
      have hok := hs.calls_ok _ _ hcall
      split at h <;> cases h
      · exact .returns call _ hcall (Phase.not_serves_of_other trivial)
      · refine .goto call _ ?_ (by simp [Phase.Notes]) hok
        intro old hold
        rw [hcall] at hold
        cases hold
        exact Phase.not_serves_of_other trivial
    · cases h
  | lockCaps call now =>
    split at h
    next latest hcall =>
      split at h <;> cases h
      · exact .returns call _ hcall (Phase.not_serves_of_other trivial)
      next hfree => exact .lock call latest hcall (by simpa using fun h => hfree (.inr h))
    · cases h
  | passTopic topic =>
    split at h
    · cases h
    next p hp =>
      split at h
      next cell hwork hcell =>
        have hcell' : p.todo.lookup topic = some cell ∨
            p.todo.lookup topic = none ∧ s.capsSeen.lookup topic = some cell := by
          simpa [or_eq_some_iff] using hcell
        cases h
        split
        · exact .passSkip p topic cell hp hwork hcell' ‹_›
        · exact .passBegin p topic cell hp hwork hcell'
      · cases h
  | passResolve ok =>
    split at h
    · cases h
    next p hp =>
      split at h
      · cases h
      next w hw =>
        split_ifs at h with hrefresh hok <;> cases h
        · exact .passResolve p w hp hw (by simpa using hrefresh)
        · exact .passFail p w hp hw
  | passVisit shard =>
    split at h
    · cases h
    next p hp =>
      split at h
      · cases h
      next w hw =>
        split at h <;> cases h
        next refresh hrefresh =>
          simp only [badOrder, hp, bind_some, hw, hrefresh, any_some] at hbad
          exact .passVisit p w refresh shard hp hw hrefresh hbad
  | passStore =>
    split at h
    · cases h
    next p hp =>
      split at h
      · cases h
      next w hw =>
        split at h <;> cases h
        next htodo =>
          obtain ⟨refresh, hrefresh, hnil⟩ := map_eq_some_iff.1 htodo
          exact .passStore p w refresh hp hw hrefresh hnil
  | passFinish call now =>
    split at h
    next p hp hcall =>
      split_ifs at h with hdone hfailed <;> cases h
      · exact .passFailed call p _ hp hdone.1 hcall
      · exact .passComplete call p hp hdone.1 hdone.2 (by simpa using hfailed) hcall
    · cases h
  | dropShards call topic =>
    split at h <;> cases h
    exact .dropShards call topic ‹_›
  | forgetCaps call =>
    split at h <;> cases h
    exact .forgetCaps call _ ‹_› hbad

variable {s : Sys τ}

/-- Replacing the calls in progress keeps the bookkeeping when the new ones are in order. -/
theorem Sys.Sane.withCalls (hs : s.Sane records)
    (hcalls : ∀ call phase, calls.lookup call = some phase → phase.Ok records s) :
    Sys.Sane records { s with calls := calls } :=
  { hs with calls_ok := hcalls }

theorem Sys.Sane.goto (hs : s.Sane records) (call : ℕ) (hphase : phase.Ok records s) :
    (s.goto call phase).Sane records := by
  refine hs.withCalls fun other old h => ?_
  rcases lookup_insert_cases h with ⟨-, rfl⟩ | ⟨-, h⟩
  · exact hphase
  · exact hs.calls_ok other old h

theorem Sys.Sane.done (hs : s.Sane records) (call : ℕ) : (s.done call).Sane records :=
  hs.withCalls fun other old h => hs.calls_ok other old (lookup_erase_cases h).2

/-- Replacing the running pass keeps the bookkeeping when the new one is in order. -/
theorem Sys.Sane.withPass (hs : s.Sane records) {p : Pass τ} (hlatest : p.latest ≤ s.metadataVersion)
    (htodo : ∀ topic cell, p.todo.lookup topic = some cell → cell < s.nextCell)
    (hwork : ∀ w, p.work = some w → w.Ok records s.version s.cells s.nextCell) :
    Sys.Sane records { s with pass := some p } :=
  { hs with
    latest_le := by rintro _ ⟨⟩; exact hlatest
    todo_lt := by rintro _ ⟨⟩; exact htodo
    work_ok := by rintro _ ⟨⟩; exact hwork }

theorem mem_writeCaps {topic : τ} {shard : ℕ} {L' : LiveShard τ}
    (h : L' ∈ (s.writeCaps topic shard refresh).shards) : ∃ L ∈ s.shards, L'.topic = L.topic ∧ L'.id = L.id ∧
      ((L' = L ∧ ¬ (L.id = shard ∧ L.topic = topic)) ∨
        (L.id = shard ∧ L.topic = topic ∧ L'.caps = refresh.caps ∧ L'.resolvedAt = refresh.resolvedAt)) := by
  obtain ⟨L, hL, rfl⟩ := mem_map.1 h
  refine ⟨L, hL, ?_⟩
  split_ifs with hhit
  · exact ⟨rfl, rfl, .inr ⟨hhit.1, hhit.2, rfl, rfl⟩⟩
  · exact ⟨rfl, rfl, .inl ⟨rfl, hhit⟩⟩

/-- Writing resolved caps to a shard keeps the bookkeeping. -/
theorem Sys.Sane.writeCaps (hs : s.Sane records) {topic : τ} (shard : ℕ) (hle : refresh.resolvedAt ≤ s.version topic)
    (hcaps : refresh.caps = records topic refresh.resolvedAt) : (s.writeCaps topic shard refresh).Sane records :=
  { hs with
    id_lt L' hL' := by
      obtain ⟨L, hL, -, hid, -⟩ := mem_writeCaps hL'
      rw [hid]
      exact hs.id_lt L hL
    shard_caps L' hL' := by
      obtain ⟨L, hL, htopic, -, ⟨rfl, -⟩ | ⟨-, ht, hc, hr⟩⟩ := mem_writeCaps hL'
      · exact hs.shard_caps _ hL
      · rw [hc, hr, htopic, ht, hcaps]
    shard_le L' hL' := by
      obtain ⟨L, hL, htopic, -, ⟨rfl, -⟩ | ⟨-, ht, hc, hr⟩⟩ := mem_writeCaps hL'
      · exact hs.shard_le _ hL
      · rw [hr, htopic, ht]
        exact hle }

/-- The value of a cell after one cell was written. -/
theorem update_cells (s : Sys τ) (topic t : τ) (cell c value : ℕ) :
    update s.cells topic (update (s.cells topic) cell value) t c =
      if t = topic ∧ c = cell then value else s.cells t c := by
  by_cases ht : t = topic
  · subst ht
    by_cases hc : c = cell
    · subst hc; simp
    · simp [hc]
  · simp [ht]

/-- Storing a version in a cell of its topic keeps the cells at or below the versions. -/
theorem Sys.Sane.le_of_update (hs : s.Sane records) {topic : τ} (cell : ℕ) {version : ℕ}
    (hle : version ≤ s.version topic) (t : τ) (c : ℕ) :
    update s.cells topic (update (s.cells topic) cell version) t c ≤ s.version t := by
  rw [update_cells]
  split
  next h => exact h.1 ▸ hle
  · exact hs.cell_le t c

/-- A step keeps the bookkeeping. -/
theorem Orderly.sane (h : Orderly records s s') (hs : s.Sane records) : s'.Sane records := by
  cases h with
  | change topic =>
    have hle (t : τ) : s.version t ≤ update s.version topic (s.version topic + 1) t := by
      by_cases h : t = topic
      · subst h; simp
      · simp [h]
    exact { hs with
      shard_le := fun L hL => (hs.shard_le L hL).trans (hle _)
      cell_le := fun t c => (hs.cell_le t c).trans (hle t)
      calls_ok := fun c ph hc => (hs.calls_ok c ph hc).mono hle le_rfl le_rfl
      work_ok := fun p hp w hw => (hs.work_ok p hp w hw).mono hle (fun _ _ _ => rfl) le_rfl }
  | publish metadata unpublished hlt =>
    exact { hs with
      calls_ok := fun c ph hc => (hs.calls_ok c ph hc).mono (fun _ => le_rfl) le_rfl hlt.le
      latest_le := fun p hp => (hs.latest_le p hp).trans hlt.le }
  | goto call phase hold hnotes hok =>
    refine hs.goto call ?_
    cases phase <;> first | exact hok | exact hok.elim
  | returns call old hcall hserves => exact hs.done call
  | storeLost call topic partition version caps resolvedAt hcall =>
    obtain ⟨hver, hres, -⟩ := hs.calls_ok _ _ hcall
    exact hs.goto call ⟨hver.trans hres, fun id hid => by cases hid⟩
  | storeWon call topic partition version caps resolvedAt hcall =>
    obtain ⟨hver, hres, hcaps⟩ := hs.calls_ok _ _ hcall
    refine Sys.Sane.goto ?_ call ⟨hver.trans hres, fun id hid => ?_⟩
    · exact { hs with
        id_lt := forall_mem_cons.2 ⟨Nat.lt_succ_self _, fun L hL => (hs.id_lt L hL).trans (Nat.lt_succ_self _)⟩
        shard_caps := forall_mem_cons.2 ⟨hcaps, hs.shard_caps⟩
        shard_le := forall_mem_cons.2 ⟨hres, hs.shard_le⟩
        calls_ok := fun c ph hc =>
          (hs.calls_ok c ph hc).mono (fun _ => le_rfl) (Nat.le_succ _) le_rfl }
    · cases hid
      exact Nat.lt_succ_self _
  | found call topic version stored cell hcall hseen =>
    exact hs.goto call (hcall.elim (hs.calls_ok _ _) (hs.calls_ok _ _))
  | missing call topic version stored hcall hseen =>
    have hok := hs.calls_ok _ _ hcall
    exact hs.goto call hok
  | register call topic version stored hcall hseen hcovered =>
    obtain ⟨hver, -⟩ := hs.calls_ok _ _ hcall
    refine Sys.Sane.done ?_ call
    have hcells : ∀ t c, c < s.nextCell → update s.cells topic
        (update (s.cells topic) s.nextCell version) t c = s.cells t c := by
      intro t c hc
      rw [update_cells, if_neg fun h => hc.ne h.2]
    exact { hs with
      cell_le := hs.le_of_update s.nextCell hver
      seen_lt := by
        intro t c hc
        rcases lookup_insert_cases hc with ⟨-, rfl⟩ | ⟨-, hc⟩
        · exact Nat.lt_succ_self _
        · exact (hs.seen_lt t c hc).trans (Nat.lt_succ_self _)
      todo_lt := fun p hp t c hc => (hs.todo_lt p hp t c hc).trans (Nat.lt_succ_self _)
      work_ok := fun p hp w hw =>
        (hs.work_ok p hp w hw).mono (fun _ => le_rfl) hcells (Nat.le_succ _) }
  | newer call topic version stored cell hcall hnewer => exact hs.goto call trivial
  | kept call topic version stored cell hcall hkept hpass => exact hs.done call
  | refreshResolve call topic hcall => exact hs.goto call ⟨le_rfl, rfl⟩
  | refreshVisit call topic refresh shard hcall hover =>
    obtain ⟨hle, hcaps⟩ := hs.calls_ok _ _ hcall
    exact (hs.writeCaps shard hle hcaps).goto call ⟨hle, hcaps⟩
  | lock call latest hcall hpass =>
    refine Sys.Sane.goto (hs.withPass ?_ hs.seen_lt ?_) call trivial
    · exact hs.calls_ok _ _ hcall
    · nofun
  | passSkip p topic cell hp hwork hcell hcurrent =>
    exact hs.withPass (hs.latest_le p hp) (fun t c hc => hs.todo_lt p hp t c (lookup_erase_cases hc).2) nofun
  | passBegin p topic cell hp hwork hcell =>
    refine hs.withPass (hs.latest_le p hp) (fun t c hc => hs.todo_lt p hp t c (lookup_erase_cases hc).2) ?_
    rintro w ⟨⟩
    refine ⟨?_, hs.cell_le topic cell, le_rfl, by simp⟩
    exact hcell.elim (hs.todo_lt p hp topic cell) fun h => hs.seen_lt topic cell h.2
  | passResolve p w hp hw hrefresh =>
    have hok := hs.work_ok p hp w hw
    refine hs.withPass (hs.latest_le p hp) (hs.todo_lt p hp) ?_
    rintro w' ⟨⟩
    refine { hok with refresh_ok := ?_ }
    rintro r ⟨⟩
    exact ⟨hok.cur_le, le_rfl, rfl⟩
  | passFail p w hp hw => exact hs.withPass (hs.latest_le p hp) (hs.todo_lt p hp) nofun
  | passVisit p w refresh shard hp hw hrefresh hover =>
    have hok := hs.work_ok p hp w hw
    obtain ⟨hcur, hle, hcaps⟩ := hok.refresh_ok refresh hrefresh
    refine (hs.writeCaps shard hle hcaps).withPass (hs.latest_le p hp) (hs.todo_lt p hp) ?_
    rintro w' ⟨⟩
    refine { hok with refresh_ok := ?_ }
    rintro r ⟨⟩
    exact ⟨hcur, hle, hcaps⟩
  | passStore p w refresh hp hw hrefresh hnil =>
    have hpass : Sys.Sane records { s with pass := some { p with work := none } } :=
      hs.withPass (hs.latest_le p hp) (hs.todo_lt p hp) nofun
    exact { hpass with
      cell_le := hs.le_of_update w.cell (hs.work_ok p hp w hw).cur_le
      work_ok := by rintro q ⟨⟩ w' ⟨⟩ }
  | passFailed call p retryAt hp hwork hcall =>
    refine Sys.Sane.done ?_ call
    exact { hs with latest_le := nofun, todo_lt := nofun, work_ok := nofun }
  | passComplete call p hp hwork htodo hfailed hcall =>
    refine Sys.Sane.done ?_ call
    exact { hs with latest_le := nofun, todo_lt := nofun, work_ok := nofun }
  | dropShards call topic hcall =>
    refine Sys.Sane.goto ?_ call trivial
    exact { hs with
      id_lt := fun L hL => hs.id_lt L (mem_of_mem_filter hL)
      shard_caps := fun L hL => hs.shard_caps L (mem_of_mem_filter hL)
      shard_le := fun L hL => hs.shard_le L (mem_of_mem_filter hL) }
  | forgetCaps call topic hcall hlive =>
    refine Sys.Sane.done ?_ call
    exact { hs with
      seen_lt := fun t c hc => hs.seen_lt t c (lookup_erase_cases hc).2 }

end Narad.Consumer
