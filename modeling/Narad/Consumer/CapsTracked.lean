import Narad.Consumer.CapsInvariant

/-!
# Shards kept track of, and versions covered by a later pass

The two invariants that carry the result. `Sys.Tracked` speaks of the shards: each is registered
or about to be, and reaches its topic's registered version, now or through a call in progress.
`Sys.Covered` speaks of the registered versions: one that is out of date is still ahead of some
pass.
-/

namespace Narad.Consumer

open List Option Finmap Phase
open Function (update)

variable {τ : Type*}

variable (calls : Finmap fun _ : ℕ => Phase τ)

/-- The shard carries caps of version `w` or later, or a call in progress will see to it. -/
def Caught (L : LiveShard τ) (w : ℕ) : Prop :=
  w ≤ L.resolvedAt ∨ ∃ call phase, calls.lookup call = some phase ∧ phase.Serves L w

/-- A pass on the shard's topic has yet to resolve, or has yet to write to the shard. -/
def Work.Covers (work : Work τ) (L : LiveShard τ) : Prop :=
  ∀ refresh, work.refresh = some refresh → work.cur ≤ refresh.resolvedAt ∧ L.id ∈ refresh.todo

/-- A creator that stored the shard and has not seen a registration of its topic yet. -/
def Registering (L : LiveShard τ) : Prop :=
  ∃ call version, calls.lookup call = some (.noteLoad L.topic version (some L.id)) ∨
    calls.lookup call = some (.noteStore L.topic version (some L.id))

variable {calls : Finmap fun _ : ℕ => Phase τ} {L : LiveShard τ} {phase : Phase τ}

/-- One call moved from its phase `old` to `new`; `none` is no call in progress. -/
structure Moved (calls calls' : Finmap fun _ : ℕ => Phase τ) (call : ℕ) (old new : Option (Phase τ)) : Prop where
  before : calls.lookup call = old
  after : calls'.lookup call = new
  other : ∀ other, other ≠ call → calls'.lookup other = calls.lookup other

variable {calls' : Finmap fun _ : ℕ => Phase τ} {call : ℕ} {old new : Option (Phase τ)}

theorem Moved.insert (h : calls.lookup call = old) : Moved calls (calls.insert call phase) call old (some phase) :=
  ⟨h, lookup_insert _, fun _ hne => lookup_insert_of_ne _ hne⟩

theorem Moved.erase (h : calls.lookup call = old) : Moved calls (calls.erase call) call old none :=
  ⟨h, lookup_erase .., fun _ hne => lookup_erase_ne hne⟩

theorem Moved.cases (hm : Moved calls calls' call old new) {other : ℕ} (h : calls'.lookup other = some phase) :
    new = some phase ∨ calls.lookup other = some phase := by
  by_cases hne : other = call
  · exact .inl (hm.after.symm.trans (hne ▸ h))
  · exact .inr ((hm.other other hne).symm.trans h)

/-- A call that moves keeps a shard caught up if its new phase serves what its old one did. -/
theorem Caught.move {w : ℕ} (h : Caught calls L w) (hm : Moved calls calls' call old new)
    (hserves : ∀ phase, old = some phase → phase.Serves L w →
      w ≤ L.resolvedAt ∨ ∃ phase', new = some phase' ∧ phase'.Serves L w) : Caught calls' L w := by
  rcases h with h | ⟨other, served, hother, hserved⟩
  · exact .inl h
  by_cases hne : other = call
  · subst hne
    refine (hserves served (hm.before.symm.trans hother) hserved).imp_right ?_
    rintro ⟨phase', hnew, h⟩
    exact ⟨other, phase', hm.after.trans hnew, h⟩
  · exact .inr ⟨other, served, (hm.other other hne).trans hother, hserved⟩

/-- A phase that notes the shard and has not seen a registration of its topic. -/
def Phase.Registers (phase : Phase τ) (L : LiveShard τ) (version : ℕ) : Prop :=
  phase = .noteLoad L.topic version (some L.id) ∨ phase = .noteStore L.topic version (some L.id)

theorem Phase.Registers.notes {version : ℕ} (h : phase.Registers L version) : phase.Notes L version :=
  h.imp_right .inl

theorem Registering.move (h : Registering calls L) (hm : Moved calls calls' call old new)
    (hregisters : ∀ phase version, old = some phase → phase.Registers L version →
      ∃ phase', new = some phase' ∧ phase'.Registers L version) : Registering calls' L := by
  obtain ⟨other, version, h⟩ := h
  by_cases hne : other = call
  · subst hne
    have hphase : ∃ phase, calls.lookup other = some phase ∧ phase.Registers L version :=
      h.elim (fun h => ⟨_, h, .inl rfl⟩) fun h => ⟨_, h, .inr rfl⟩
    obtain ⟨phase, hlookup, hphase⟩ := hphase
    obtain ⟨phase', hnew, rfl | rfl⟩ := hregisters phase version (hm.before.symm.trans hlookup) hphase
    · exact ⟨other, version, .inl (hm.after.trans hnew)⟩
    · exact ⟨other, version, .inr (hm.after.trans hnew)⟩
  · refine ⟨other, version, ?_⟩
    rwa [hm.other other hne]

/-- Two records of the same shard are served alike. -/
theorem Caught.of_same {L L' : LiveShard τ} {w : ℕ}
    (h : Caught calls L w) (htopic : L'.topic = L.topic) (hid : L'.id = L.id)
    (hcaps : w ≤ L.resolvedAt → w ≤ L'.resolvedAt) : Caught calls L' w := by
  refine h.imp hcaps ?_
  rintro ⟨call, phase, hcall, hserves⟩
  refine ⟨call, phase, hcall, ?_⟩
  simpa only [Phase.Serves, Phase.Fixes, Phase.Notes, htopic, hid] using hserves

variable {topic : τ} {stored : Option ℕ}

/-- What a comparing call does for a shard: it noted it. -/
theorem Phase.notes_of_serves_noteCompare {version cell w : ℕ}
    (h : (Phase.noteCompare topic version stored cell).Serves L w) :
    topic = L.topic ∧ stored = some L.id ∧ version < w := by
  rcases h with (h | ⟨r, h, -⟩) | ⟨v, h | h | ⟨c, h⟩, hlt⟩
  · cases h
  · cases h
  · cases h
  · cases h
  · obtain ⟨rfl, rfl, rfl, rfl⟩ := noteCompare.inj h
    exact ⟨rfl, rfl, hlt⟩

variable [DecidableEq τ]

/-- Every live shard is kept track of. -/
structure Sys.Tracked (s : Sys τ) : Prop where
  registered : ∀ L ∈ s.shards, s.capsSeen.lookup L.topic = none → Registering s.calls L
  fresh : ∀ L ∈ s.shards, s.capsSeen.lookup L.topic = none → ∀ call phase version,
    s.calls.lookup call = some phase → phase.Notes L version → version ≤ L.resolvedAt
  comparing : ∀ L ∈ s.shards, ∀ call version cell,
    s.calls.lookup call = some (.noteCompare L.topic version (some L.id) cell) →
    s.capsSeen.lookup L.topic = some cell
  caught : ∀ L ∈ s.shards, ∀ cell, s.capsSeen.lookup L.topic = some cell → Caught s.calls L (s.cells L.topic cell)
  heading : ∀ L ∈ s.shards, ∀ p w, s.pass = some p → p.work = some w → w.topic = L.topic →
    s.capsSeen.lookup L.topic = some w.cell → Caught s.calls L w.cur ∨ w.Covers L

/-- A registered version that is out of date is ahead of some pass. -/
structure Sys.Covered (s : Sys τ) : Prop where
  checked_le : s.capsChecked ≤ s.metadataVersion
  checked : s.capsChecked = s.metadataVersion → s.unpublished = 0 → ∀ topic cell,
    s.capsSeen.lookup topic = some cell → s.cells topic cell = s.version topic
  running : ∀ p, s.pass = some p → (p.failed = true ∨ 0 < s.unpublished ∨ p.latest < s.metadataVersion) ∨
    ∀ topic cell, s.capsSeen.lookup topic = some cell →
      s.cells topic cell = s.version topic ∨ p.todo.lookup topic = some cell ∨
        ∃ w, p.work = some w ∧ w.topic = topic ∧ w.cell = cell ∧ w.cur = s.version topic

variable {s : Sys τ}

theorem registersCovered_eq_false {version : ℕ} (hcall : s.calls.lookup call = some (.noteStore topic version stored))
    (hseen : s.capsSeen.lookup topic = none) (h : registersCovered s call = false) :
    version = s.version topic ∨ 0 < s.unpublished ∨ s.capsChecked ≠ s.metadataVersion ∧
        ∀ p, s.pass = some p → p.failed = true ∨ p.latest ≠ s.metadataVersion := by
  simp only [registersCovered, hcall, hseen, decide_eq_false_iff_not, true_and, not_and, not_or,
    ne_eq, Option.any_eq_true] at h
  by_cases hversion : version = s.version topic
  · exact .inl hversion
  rcases Nat.eq_zero_or_pos s.unpublished with hzero | hpos
  · obtain ⟨hchecked, hpass⟩ := h hversion hzero
    refine .inr (.inr ⟨hchecked, fun p hp => ?_⟩)
    by_contra hcon
    rw [not_or, not_not, Bool.not_eq_true] at hcon
    exact hpass ⟨p, hp, by simp [hcon.1, hcon.2]⟩
  · exact .inr (.inl hpos)

variable {records : τ → ℕ → Caps}

section

variable (hc : s.Covered) {p : Pass τ} (hp : s.pass = some p)
include hc hp

/-- A pass turns to a topic: it is up to date, or becomes the one the pass is on. -/
theorem Sys.Covered.passTopic {topic : τ} {cell : ℕ} {work : Option (Work τ)} (hwork : p.work = none)
    (hcell : p.todo.lookup topic = some cell ∨ p.todo.lookup topic = none ∧ s.capsSeen.lookup topic = some cell)
    (hnew : s.cells topic cell = s.version topic ∨ ∃ w, work = some w ∧ w.topic = topic ∧
      w.cell = cell ∧ w.cur = s.version topic) :
    Sys.Covered { s with pass := some { p with todo := p.todo.erase topic, work := work } } := by
  refine ⟨hc.checked_le, hc.checked, ?_⟩
  rintro q ⟨⟩
  refine (hc.running p hp).imp_right fun hall t c htc => ?_
  rcases hall t c htc with h | h | ⟨w, hw, -⟩
  · exact .inl h
  · by_cases ht : t = topic
    · subst ht
      rcases hcell with hcell | ⟨hnone, -⟩
      · cases h.symm.trans hcell
        exact hnew.imp_right .inr
      · rw [hnone] at h
        cases h
    · exact .inr (.inl (by rwa [lookup_erase_ne ht]))
  · rw [hwork] at hw
    cases hw

/-- A pass goes on with its topic. -/
theorem Sys.Covered.passWork {w : Work τ} (hw : p.work = some w) (refresh : Option Refresh) :
    Sys.Covered { s with pass := some { p with work := some { w with refresh := refresh } } } := by
  refine ⟨hc.checked_le, hc.checked, ?_⟩
  rintro q ⟨⟩
  refine (hc.running p hp).imp_right fun hall t c htc => ?_
  refine (hall t c htc).imp_right (Or.imp_right ?_)
  rintro ⟨w', hw', h⟩
  cases hw.symm.trans hw'
  exact ⟨_, rfl, h⟩

end

/-- A step keeps every out-of-date version ahead of some pass. -/
theorem Orderly.covered {s s' : Sys τ} (h : Orderly records s s')
    (hs : s.Sane records) (hc : s.Covered) : s'.Covered := by
  cases h with
  | change topic =>
    exact ⟨hc.checked_le, fun _ hzero => absurd hzero (Nat.succ_ne_zero _),
      fun p hp => .inl (.inr (.inl (Nat.succ_pos _)))⟩
  | publish metadata unpublished hlt =>
    refine ⟨hc.checked_le.trans hlt.le, fun hchecked => ?_, fun p hp => ?_⟩
    · exact absurd hchecked (hc.checked_le.trans_lt hlt).ne
    · exact .inl (.inr (.inr ((hs.latest_le p hp).trans_lt hlt)))
  | goto | returns | storeLost | storeWon | found | missing | newer | kept | refreshResolve
  | refreshVisit | dropShards => exact { hc with }
  | register call topic version stored hcall hseen hcovered =>
    have hfresh := registersCovered_eq_false hcall hseen hcovered
    refine ⟨hc.checked_le, fun hchecked hzero t c htc => ?_, fun p hp => ?_⟩
    · change update s.cells topic _ t c = s.version t
      rw [update_cells]
      rcases lookup_insert_cases htc with ⟨rfl, rfl⟩ | ⟨ht, htc⟩
      · simp only [and_self, if_true]
        exact hfresh.elim id fun h => h.elim (fun h => absurd hzero h.ne') fun h => absurd hchecked h.1
      · simpa only [ht, false_and, if_false] using hc.checked hchecked hzero t c htc
    · rcases hfresh.symm with (h | h) | hversion
      · exact .inl (.inr (.inl h))
      · exact .inl ((h.2 p hp).imp_right fun h => .inr (lt_of_le_of_ne (hs.latest_le p hp) h))
      · refine (hc.running p hp).imp_right fun hall t c htc => ?_
        rcases lookup_insert_cases htc with ⟨rfl, rfl⟩ | ⟨ht, htc⟩
        · refine .inl ?_
          change update s.cells _ _ _ _ = s.version _
          rw [update_cells]
          simpa only [and_self, if_true] using hversion
        · refine (hall t c htc).imp_left fun h => ?_
          change update s.cells topic _ t c = s.version t
          rw [update_cells]
          simpa only [ht, false_and, if_false] using h
  | lock call latest hcall hpass =>
    refine ⟨hc.checked_le, hc.checked, ?_⟩
    rintro p ⟨⟩
    exact .inr fun t c htc => .inr (.inl htc)
  | passSkip p topic cell hp hwork hcell hcurrent => exact hc.passTopic hp hwork hcell (.inl hcurrent)
  | passBegin p topic cell hp hwork hcell => exact hc.passTopic hp hwork hcell (.inr ⟨_, rfl, rfl, rfl, rfl⟩)
  | passResolve p w hp hw hrefresh => exact hc.passWork hp hw _
  | passFail p w hp hw =>
    refine ⟨hc.checked_le, hc.checked, ?_⟩
    rintro q ⟨⟩
    exact .inl (.inl rfl)
  | passVisit p w refresh shard hp hw hrefresh hover =>
    exact { hc.passWork hp hw (some { refresh with todo := refresh.todo.filter (· ≠ shard) }) with }
  | passStore p w refresh hp hw hrefresh hnil =>
    have hok := hs.work_ok p hp w hw
    -- A cell that is up to date is not written to another version: the pass read it later.
    have hcurrent : s.cells w.topic w.cell = s.version w.topic → w.cur = s.version w.topic :=
      fun h => le_antisymm hok.cur_le (h ▸ hok.cell_le)
    refine ⟨hc.checked_le, fun hchecked hzero t c htc => ?_, ?_⟩
    · have hold := hc.checked hchecked hzero t c htc
      change update s.cells w.topic _ t c = s.version t
      rw [update_cells]
      split_ifs with hsame
      · obtain ⟨rfl, rfl⟩ := hsame
        exact hcurrent hold
      · exact hold
    · rintro q ⟨⟩
      refine (hc.running p hp).imp_right fun hall t c htc => ?_
      change update s.cells w.topic _ t c = s.version t ∨ _
      rw [update_cells]
      by_cases hsame : t = w.topic ∧ c = w.cell
      · obtain ⟨rfl, rfl⟩ := hsame
        simp only [and_self, if_true]
        rcases hall _ _ htc with h | h | ⟨w', hw', -, -, h⟩
        · exact .inl (hcurrent h)
        · exact .inr (.inl h)
        · cases hw.symm.trans hw'
          exact .inl h
      · rw [if_neg hsame]
        refine (hall t c htc).imp_right (Or.imp_right ?_)
        rintro ⟨w', hw', ht, hc', -⟩
        cases hw.symm.trans hw'
        exact absurd ⟨ht.symm, hc'.symm⟩ hsame
  | passFailed call p retryAt hp hwork hcall => exact ⟨hc.checked_le, hc.checked, nofun⟩
  | passComplete call p hp hwork htodo hfailed hcall =>
    refine ⟨hs.latest_le p hp, fun hchecked hzero t c htc => ?_, nofun⟩
    rcases hc.running p hp with (h | h | h) | hall
    · rw [hfailed] at h
      cases h
    · exact absurd hzero h.ne'
    · exact absurd hchecked h.ne
    · rcases hall t c htc with h | h | ⟨w, hw, -⟩
      · exact h
      · exact absurd (htc.trans h.symm) (htodo t (mem_keys.2 (mem_of_lookup_eq_some h)))
      · rw [hwork] at hw
        cases hw
  | forgetCaps call topic hcall hlive =>
    exact ⟨hc.checked_le, fun h₁ h₂ t c h => hc.checked h₁ h₂ t c (lookup_erase_cases h).2,
      fun p hp => (hc.running p hp).imp_right fun hall t c h => hall t c (lookup_erase_cases h).2⟩

/-- A version a shard has to reach: its topic's registered one, or the one a pass on it read. -/
def Sys.Wants (s : Sys τ) (L : LiveShard τ) (w : ℕ) : Prop :=
  (∃ cell, s.capsSeen.lookup L.topic = some cell ∧ w = s.cells L.topic cell) ∨
    ∃ p work, s.pass = some p ∧ p.work = some work ∧ work.topic = L.topic ∧ w = work.cur

theorem Sys.Sane.wants_le (hs : s.Sane records) {w : ℕ} (h : s.Wants L w) : w ≤ s.version L.topic := by
  rcases h with ⟨cell, -, rfl⟩ | ⟨p, work, hp, hwork, htopic, rfl⟩
  · exact hs.cell_le _ _
  · exact htopic ▸ (hs.work_ok p hp work hwork).cur_le

section

variable (ht : s.Tracked) (hm : Moved s.calls calls' call old new)
include ht hm

section

variable (hserves : ∀ L ∈ s.shards, ∀ w phase, s.Wants L w → old = some phase → phase.Serves L w →
  w ≤ L.resolvedAt ∨ ∃ phase', new = some phase' ∧ phase'.Serves L w)
include hserves

/-- A call moves, and its new phase does for the live shards what its old one did. -/
theorem Sys.Tracked.move (hnotes : ∀ L ∈ s.shards, ∀ v phase, new = some phase → phase.Notes L v →
      ∃ phase', old = some phase' ∧ phase'.Notes L v)
    (hregisters : ∀ L ∈ s.shards, s.capsSeen.lookup L.topic = none → ∀ phase v, old = some phase →
      phase.Registers L v → ∃ phase', new = some phase' ∧ phase'.Registers L v)
    (hcompare : ∀ L ∈ s.shards, ∀ v c, new = some (.noteCompare L.topic v (some L.id) c) →
      s.capsSeen.lookup L.topic = some c) : Sys.Tracked { s with calls := calls' } where
  registered L hL hnone := (ht.registered L hL hnone).move hm (hregisters L hL hnone)
  fresh L hL hnone other phase v hother hnote := by
    rcases hm.cases hother with h | h
    · obtain ⟨phase', hold, hnote'⟩ := hnotes L hL v phase h hnote
      exact ht.fresh L hL hnone call phase' v (hm.before.trans hold) hnote'
    · exact ht.fresh L hL hnone other phase v h hnote
  comparing L hL other v c hother := (hm.cases hother).elim (hcompare L hL v c) (ht.comparing L hL other v c)
  caught L hL c hc := (ht.caught L hL c hc).move hm fun phase => hserves L hL _ phase (.inl ⟨c, hc, rfl⟩)
  heading L hL p w hp hw htopic hc := (ht.heading L hL p w hp hw htopic hc).imp_left fun h =>
      h.move hm fun phase => hserves L hL _ phase (.inr ⟨p, w, hp, hw, htopic, rfl⟩)

/-- A call that is past its registration moves to a phase that notes no shard. -/
theorem Sys.Tracked.moveOn (hold : ∀ phase, old = some phase → ∀ L v, ¬ phase.Registers L v)
    (hnew : ∀ phase, new = some phase → ∀ L ∈ s.shards, ∀ v, ¬ phase.Notes L v) :
    Sys.Tracked { s with calls := calls' } :=
  ht.move hm hserves (fun L hL v phase h hnote => absurd hnote (hnew phase h L hL v))
    (fun L _ _ phase v h hreg => absurd hreg (hold phase h L v))
    fun L hL v c h => absurd (.inr (.inr ⟨c, rfl⟩)) (hnew _ h L hL v)

end

/-- A call that neither notes nor refreshes may move on to another such phase, or return. -/
theorem Sys.Tracked.moveOther (hold : ∀ phase, old = some phase → ∀ L w, ¬ phase.Serves L w)
    (hnew : ∀ phase, new = some phase → ∀ L ∈ s.shards, ∀ v, ¬ phase.Notes L v) :
    Sys.Tracked { s with calls := calls' } :=
  ht.moveOn hm (fun L _ w phase _ h hserves => absurd hserves (hold phase h L w))
    (fun phase h L v hreg => hold phase h L (v + 1) (.inr ⟨v, hreg.notes, Nat.lt_succ_self _⟩)) hnew

end

/-- A new shard is noted by its creator, and its caps are no older than the version the creator
read. -/
theorem Sys.Tracked.storeShard (hs : s.Sane records)
    (ht : s.Tracked) {call partition version : ℕ} {caps : Caps} {resolvedAt : ℕ}
    (hcall : s.calls.lookup call = some (.resolved topic partition version caps resolvedAt)) : Sys.Tracked ({ s with
      shards := { topic, partition, id := s.nextShard, caps, resolvedAt } :: s.shards
      nextShard := s.nextShard + 1 }.goto call (.noteLoad topic version (some s.nextShard))) := by
  obtain ⟨hver, -, -⟩ := hs.calls_ok _ _ hcall
  have hmoved : Sys.Tracked { s with
      calls := s.calls.insert call (.noteLoad topic version (some s.nextShard)) } := by
    refine ht.moveOther (.insert hcall) ?_ ?_
    · rintro old ⟨⟩
      exact not_serves_of_other trivial
    · rintro phase ⟨⟩ L hL v (h | h | ⟨c, h⟩)
      · have hid := some.inj (noteLoad.inj h).2.2
        exact absurd hid.symm (hs.id_lt L hL).ne
      · cases h
      · cases h
  -- No earlier call mentions the new shard's identity.
  have hnew : ∀ other old v, s.calls.lookup other = some old →
      ¬ old.Notes { topic, partition, id := s.nextShard, caps, resolvedAt } v := by
    rintro other old v hother (rfl | rfl | ⟨c, rfl⟩) <;>
      exact absurd ((hs.calls_ok _ _ hother).2 _ rfl) (lt_irrefl _)
  have hcaught : ∀ w, Caught (s.calls.insert call (.noteLoad topic version (some s.nextShard)))
      { topic, partition, id := s.nextShard, caps, resolvedAt } w := by
    intro w
    rcases (by omega : w ≤ resolvedAt ∨ version < w) with h | h
    · exact .inl h
    · exact .inr ⟨call, _, lookup_insert _, .inr ⟨version, .inl rfl, h⟩⟩
  refine ⟨forall_mem_cons.2 ⟨fun _ => ?_, hmoved.registered⟩,
    forall_mem_cons.2 ⟨fun _ other old v hother hnote => ?_, hmoved.fresh⟩,
    forall_mem_cons.2 ⟨fun other v c hother => ?_, hmoved.comparing⟩,
    forall_mem_cons.2 ⟨fun _ _ => hcaught _, hmoved.caught⟩,
    forall_mem_cons.2 ⟨fun _ _ _ _ _ _ => .inl (hcaught _), hmoved.heading⟩⟩
  · exact ⟨call, version, .inl (lookup_insert _)⟩
  · rcases lookup_insert_cases hother with ⟨-, rfl⟩ | ⟨-, hother⟩
    · rcases hnote with h | h | ⟨c, h⟩ <;> cases h
      exact hver
    · exact absurd hnote (hnew other old v hother)
  · rcases lookup_insert_cases hother with ⟨-, h⟩ | ⟨-, hother⟩
    · cases h
    · exact absurd (.inr (.inr ⟨c, rfl⟩)) (hnew other _ v hother)

/-- The first registration of a topic: its shards are noted by their creators, and those that read
an older version will find this one. -/
theorem Sys.Tracked.register (hs : s.Sane records) (ht : s.Tracked) {call version : ℕ}
    (hcall : s.calls.lookup call = some (.noteStore topic version stored))
    (hseen : s.capsSeen.lookup topic = none) : Sys.Tracked ({ s with
      cells := update s.cells topic (update (s.cells topic) s.nextCell version), nextCell := s.nextCell + 1
      capsSeen := s.capsSeen.insert topic s.nextCell }.done call) := by
  have hmoved := Moved.erase hcall
  have hold : ∀ L : LiveShard τ, L.topic ≠ topic → ∀ w, ¬ (noteStore topic version stored).Serves L w := by
    rintro L hne w ((h | ⟨r, h, -⟩) | ⟨v, h | h | ⟨c, h⟩, -⟩) <;> cases h
    exact hne rfl
  have hother : ∀ t, t ≠ topic → (s.capsSeen.insert topic s.nextCell).lookup t =
      s.capsSeen.lookup t := fun t hne => lookup_insert_of_ne _ hne
  have hnone : ∀ t, (s.capsSeen.insert topic s.nextCell).lookup t = none → t ≠ topic := by
    rintro t h rfl
    rw [lookup_insert] at h
    cases h
  refine ⟨?_, ?_, ?_, ?_, ?_⟩
  · intro L hL h
    have hne := hnone _ h
    refine (ht.registered L hL ((hother _ hne).symm.trans h)).move hmoved ?_
    rintro phase v ⟨⟩ hreg
    exact absurd (.inr ⟨v, hreg.notes, Nat.lt_succ_self _⟩) (hold L hne (v + 1))
  · intro L hL h other old v hcall' hnote
    have hseen' := (hother _ (hnone _ h)).symm.trans h
    exact ht.fresh L hL hseen' other old v (lookup_erase_cases hcall').2 hnote
  · intro L hL other v c hcall'
    have hseen' := ht.comparing L hL other v c (lookup_erase_cases hcall').2
    have hne : L.topic ≠ topic := fun h => by rw [h, hseen] at hseen'; cases hseen'
    exact (hother _ hne).trans hseen'
  · intro L hL c hc
    change Caught _ L (update s.cells topic _ L.topic c)
    change (s.capsSeen.insert topic s.nextCell).lookup L.topic = some c at hc
    rw [update_cells]
    by_cases hne : L.topic = topic
    · obtain rfl : s.nextCell = c := by
        rw [hne, lookup_insert] at hc
        exact some.inj hc
      rw [if_pos ⟨hne, rfl⟩]
      have hseen' : s.capsSeen.lookup L.topic = none := hne ▸ hseen
      obtain ⟨other, v, hnoting⟩ := ht.registered L hL hseen'
      have hnote : ∃ phase, s.calls.lookup other = some phase ∧ phase.Notes L v :=
        hnoting.elim (fun h => ⟨_, h, .inl rfl⟩) fun h => ⟨_, h, .inr (.inl rfl)⟩
      obtain ⟨phase, hphase, hnote⟩ := hnote
      have hle := ht.fresh L hL hseen' other phase v hphase hnote
      by_cases hlt : v < version
      · have hdiff : other ≠ call := by
          rintro rfl
          rw [hcall] at hphase
          cases hphase
          rcases hnote with h | h | ⟨c, h⟩
          · cases h
          · exact absurd (noteStore.inj h).2.1 hlt.ne'
          · cases h
        exact .inr ⟨other, phase, by rwa [Sys.done, lookup_erase_ne hdiff], .inr ⟨v, hnote, hlt⟩⟩
      · exact .inl ((not_lt.1 hlt).trans hle)
    · rw [if_neg fun h => hne h.1]
      rw [hother _ hne] at hc
      refine (ht.caught L hL c hc).move hmoved ?_
      rintro phase ⟨⟩ h
      exact absurd h (hold L hne _)
  · intro L hL p w hp hw htopic hc
    change (s.capsSeen.insert topic s.nextCell).lookup L.topic = some w.cell at hc
    by_cases hne : L.topic = topic
    · rw [hne, lookup_insert] at hc
      exact absurd (some.inj hc) (hs.work_ok p hp w hw).cell_lt.ne'
    rw [hother _ hne] at hc
    refine (ht.heading L hL p w hp hw htopic hc).imp_left fun h => h.move hmoved ?_
    rintro phase ⟨⟩ h
    exact absurd h (hold L hne _)

theorem heading_eq_some {p : Pass τ} {w : Work τ} (hp : s.pass = some p)
    (hw : p.work = some w) (htopic : w.topic = topic)
    (hcell : s.capsSeen.lookup topic = some w.cell) : s.heading topic = some w := by
  simp [Sys.heading, hp, hw, htopic, hcell]

/-- A creator that finds nothing newer registered leaves its shard caught up, unless it missed a
running pass. -/
theorem Sys.Tracked.kept (hs : s.Sane records) (ht : s.Tracked) {call version cell : ℕ}
    (hcall : s.calls.lookup call = some (.noteCompare topic version stored cell))
    (hkept : s.cells topic cell ≤ version) (hmiss : missesPass s call = false) : (s.done call).Tracked where
  registered L hL hnone := by
    refine (ht.registered L hL hnone).move (.erase hcall) ?_
    rintro phase v ⟨⟩ (h | h) <;> cases h
  fresh L hL hnone other old v hother hnote :=
    ht.fresh L hL hnone other old v (lookup_erase_cases hother).2 hnote
  comparing L hL other v c hother := ht.comparing L hL other v c (lookup_erase_cases hother).2
  caught L hL c hc := by
    refine (ht.caught L hL c hc).move (.erase hcall) ?_
    rintro phase ⟨⟩ hserves
    obtain ⟨rfl, rfl, hlt⟩ := notes_of_serves_noteCompare hserves
    have hcell := ht.comparing L hL call version cell hcall
    cases hcell.symm.trans hc
    exact absurd hkept (not_le.2 hlt)
  heading L hL p w hp hw htopic hc := by
    rcases ht.heading L hL p w hp hw htopic hc with h | h
    · by_cases hserves : (noteCompare topic version stored cell).Serves L w.cur
      · obtain ⟨rfl, rfl, -⟩ := notes_of_serves_noteCompare hserves
        by_cases hcur : w.cur ≤ L.resolvedAt
        · exact .inl (.inl hcur)
        refine .inr fun refresh hrefresh => ?_
        obtain ⟨hle, -, -⟩ := (hs.work_ok p hp w hw).refresh_ok refresh hrefresh
        refine ⟨hle, by_contra fun hout => ?_⟩
        have hhead : s.heading L.topic = some w := heading_eq_some hp hw htopic hc
        simp only [missesPass, hcall, hkept, true_and, hhead, any_some, hrefresh,
          decide_eq_false_iff_not, Bool.not_eq_true, List.any_eq_false] at hmiss
        exact hmiss L hL (by simpa using ⟨not_le.1 hcur, hout⟩)
      · refine .inl (h.move (.erase hcall) ?_)
        rintro phase ⟨⟩ hserves'
        exact absurd hserves' hserves
    · exact .inr h

/-- A creator that finds a newer version registered goes on to refresh the topic. -/
theorem Sys.Tracked.newer (ht : s.Tracked) {call version cell : ℕ}
    (hcall : s.calls.lookup call = some (.noteCompare topic version stored cell)) :
    (s.goto call (.refresh topic)).Tracked := by
  refine ht.moveOn (.insert hcall) ?_ ?_ ?_
  · rintro L hL w phase - ⟨⟩ hserves
    obtain ⟨rfl, -⟩ := notes_of_serves_noteCompare hserves
    exact .inr ⟨_, rfl, .inl (.inl rfl)⟩
  · rintro phase ⟨⟩ L v (h | h) <;> cases h
  · rintro phase ⟨⟩ L - v (h | h | ⟨c, h⟩) <;> cases h

theorem mem_shardsOf (h : L ∈ s.shards) : L.id ∈ s.shardsOf L.topic :=
  mem_map.2 ⟨L, mem_filter.2 ⟨h, by simp⟩, rfl⟩

/-- A `RefreshCaps` that has resolved finds every live shard of its topic. -/
theorem Sys.Tracked.refreshResolve (hs : s.Sane records)
    (ht : s.Tracked) (hcall : s.calls.lookup call = some (.refresh topic)) :
    (s.goto call (.writing topic (s.startRefresh records topic))).Tracked := by
  refine ht.moveOn (.insert hcall) ?_ ?_ ?_
  · rintro L hL w phase hwants ⟨⟩ ((h | ⟨r, h, -⟩) | ⟨v, h | h | ⟨c, h⟩, -⟩) <;> cases h
    exact .inr ⟨_, rfl, .inl (.inr ⟨_, rfl, hs.wants_le hwants, mem_shardsOf hL⟩)⟩
  · rintro phase ⟨⟩ L v (h | h) <;> cases h
  · rintro phase ⟨⟩ L - v (h | h | ⟨c, h⟩) <;> cases h

/-- A write that is not an overwrite of newer caps leaves the shard where it was, or where every
registered or upcoming version of its topic wants it. -/
theorem overwrites_eq_false {shard r : ℕ} (h : overwrites s topic shard r = false) (hL : L ∈ s.shards)
    (hid : L.id = shard) (htopic : L.topic = topic) :
    L.resolvedAt ≤ r ∨ (∃ cell, s.capsSeen.lookup topic = some cell ∧ s.cells topic cell ≤ r) ∧
      ∀ w, s.heading topic = some w → w.cur ≤ r := by
  by_cases hle : L.resolvedAt ≤ r
  · exact .inl hle
  have hany : s.shards.any (fun L => decide (L.id = shard ∧ L.topic = topic ∧ r < L.resolvedAt)) = true :=
    any_eq_true.2 ⟨L, hL, by simpa using ⟨hid, htopic, not_le.1 hle⟩⟩
  simp only [overwrites, hany, true_and, decide_eq_false_iff_not, not_not, Option.any_eq_true,
    Option.all_eq_true, decide_eq_true_eq] at h
  exact .inr h

variable {refresh : Refresh}

/-- A write that is not an overwrite of newer caps keeps every shard tracked. -/
theorem Sys.Tracked.writeCaps (ht : s.Tracked) {shard : ℕ}
    (hover : overwrites s topic shard refresh.resolvedAt = false) : (s.writeCaps topic shard refresh).Tracked where
  registered L' hL' hnone := by
    obtain ⟨L, hL, htopic, hid, -⟩ := mem_writeCaps hL'
    obtain ⟨call, v, h⟩ := ht.registered L hL (htopic ▸ hnone)
    refine ⟨call, v, ?_⟩
    rw [htopic, hid]
    exact h
  fresh L' hL' hnone call phase v hcall hnote := by
    obtain ⟨L, hL, htopic, hid, hwrite⟩ := mem_writeCaps hL'
    have hnone' : s.capsSeen.lookup L.topic = none := htopic ▸ hnone
    have hle := ht.fresh L hL hnone' call phase v hcall (by simpa only [Phase.Notes, htopic, hid] using hnote)
    rcases hwrite with ⟨rfl, -⟩ | ⟨hshard, ht', -, hres⟩
    · exact hle
    rcases overwrites_eq_false hover hL hshard ht' with h | ⟨⟨c, hc, -⟩, -⟩
    · exact hres ▸ hle.trans h
    · rw [← ht', hnone'] at hc
      cases hc
  comparing L' hL' call v c hcall := by
    obtain ⟨L, hL, htopic, hid, -⟩ := mem_writeCaps hL'
    rw [htopic, hid] at hcall
    rw [htopic]
    exact ht.comparing L hL call v c hcall
  caught L' hL' c hc := by
    obtain ⟨L, hL, htopic, hid, hwrite⟩ := mem_writeCaps hL'
    rw [htopic] at hc ⊢
    refine (ht.caught L hL c hc).of_same htopic hid fun hle => ?_
    rcases hwrite with ⟨rfl, -⟩ | ⟨hshard, ht', -, hres⟩
    · exact hle
    rcases overwrites_eq_false hover hL hshard ht' with h | ⟨⟨c', hc', hle'⟩, -⟩
    · exact hres ▸ hle.trans h
    · have hsame : c' = c := some.inj (hc'.symm.trans (ht' ▸ hc))
      exact hres ▸ ht' ▸ hsame ▸ hle'
  heading L' hL' p w hp hw hwtopic hc := by
    obtain ⟨L, hL, htopic, hid, hwrite⟩ := mem_writeCaps hL'
    rw [htopic] at hc hwtopic
    rcases ht.heading L hL p w hp hw hwtopic hc with h | h
    · refine .inl (h.of_same htopic hid fun hle => ?_)
      rcases hwrite with ⟨rfl, -⟩ | ⟨hshard, ht', -, hres⟩
      · exact hle
      rcases overwrites_eq_false hover hL hshard ht' with h | ⟨-, hall⟩
      · exact hres ▸ hle.trans h
      · exact hres ▸ hall w (heading_eq_some hp hw (hwtopic.trans ht') (ht' ▸ hc))
    · exact .inr fun r hr => ⟨(h r hr).1, hid ▸ (h r hr).2⟩

/-- The shard a refresh has just written to carries the caps it resolved. -/
theorem resolvedAt_writeCaps {shard : ℕ}
    {L' : LiveShard τ} (h : L' ∈ (s.writeCaps topic shard refresh).shards) (hid : L'.id = shard)
    (htopic : L'.topic = topic) : L'.resolvedAt = refresh.resolvedAt := by
  obtain ⟨L, -, htopic', hid', ⟨-, hmiss⟩ | ⟨-, -, -, hres⟩⟩ := mem_writeCaps h
  · exact absurd ⟨hid' ▸ hid, htopic' ▸ htopic⟩ hmiss
  · exact hres

/-- A creator's refresh that visits a shard has one shard less to visit. -/
theorem Sys.Tracked.refreshVisit (ht : s.Tracked) {call shard : ℕ}
    (hcall : s.calls.lookup call = some (.writing topic refresh))
    (hover : overwrites s topic shard refresh.resolvedAt = false) : ((s.writeCaps topic shard refresh).goto call
      (.writing topic { refresh with todo := refresh.todo.filter (· ≠ shard) })).Tracked := by
  refine (ht.writeCaps hover).moveOn (.insert hcall) ?_ ?_ ?_
  · rintro L hL w phase - ⟨⟩ ((h | ⟨r, h, hle, hmem⟩) | ⟨v, h | h | ⟨c, h⟩, -⟩) <;> cases h
    by_cases hid : L.id = shard
    · exact .inl ((resolvedAt_writeCaps hL hid rfl).symm ▸ hle)
    · exact .inr ⟨_, rfl, .inl (.inr ⟨_, rfl, hle, mem_filter.2 ⟨hmem, by simpa using hid⟩⟩)⟩
  · rintro phase ⟨⟩ L v (h | h) <;> cases h
  · rintro phase ⟨⟩ L - v (h | h | ⟨c, h⟩) <;> cases h

/-- A pass that ends, whatever it writes to `capsRetryAt` and `capsChecked`. -/
theorem Sys.Tracked.passDone (ht : s.Tracked) (hcall : s.calls.lookup call = some .passing)
    {retryAt : ℤ} {checked : ℕ} : Sys.Tracked ({ s with
      pass := none, capsRetryAt := retryAt, capsChecked := checked }.done call) := by
  have hpass : Sys.Tracked { s with pass := none, capsRetryAt := retryAt, capsChecked := checked } :=
    { ht with heading := nofun }
  refine hpass.moveOther (.erase hcall) ?_ nofun
  rintro phase ⟨⟩
  exact not_serves_of_other trivial

/-- Shards go, and registrations of topics that have none. -/
theorem Sys.Tracked.forget (ht : s.Tracked) {shards : List (LiveShard τ)} {seen : Finmap fun _ : τ => ℕ}
    (hkept : ∀ L ∈ shards, L ∈ s.shards ∧ seen.lookup L.topic = s.capsSeen.lookup L.topic) :
    Sys.Tracked { s with shards := shards, capsSeen := seen } := by
  refine ⟨fun L hL => ?_, fun L hL => ?_, fun L hL => ?_, fun L hL => ?_, fun L hL => ?_⟩
  all_goals
    obtain ⟨hmem, hseen⟩ := hkept L hL
    simp only [hseen]
  exacts [ht.registered L hmem, ht.fresh L hmem, ht.comparing L hmem, ht.caught L hmem, ht.heading L hmem]

/-- A step keeps every live shard tracked. -/
theorem Orderly.tracked {s s' : Sys τ} (h : Orderly records s s')
    (hs : s.Sane records) (ht : s.Tracked) : s'.Tracked := by
  cases h with
  | change topic => exact { ht with }
  | publish metadata unpublished hlt => exact { ht with }
  | goto call phase hold hnotes hok =>
    refine ht.moveOther (.insert rfl) hold ?_
    rintro phase ⟨⟩ L - v
    exact hnotes L v
  | returns call old hcall hserves =>
    refine ht.moveOther (.erase hcall) ?_ (by rintro _ ⟨⟩)
    rintro phase ⟨⟩
    exact hserves
  | storeLost call topic partition version caps resolvedAt hcall =>
    refine ht.moveOther (.insert hcall) ?_ ?_
    · rintro phase ⟨⟩
      exact not_serves_of_other trivial
    · rintro phase ⟨⟩ L - v (h | h | ⟨c, h⟩) <;> cases h
  | storeWon call topic partition version caps resolvedAt hcall => exact ht.storeShard hs hcall
  | found call topic version stored cell hcall hseen =>
    rcases hcall with hcall | hcall
    all_goals
      refine ht.move (.insert hcall) ?_ ?_ ?_ ?_
      · rintro L hL w phase - ⟨⟩ ((h | ⟨r, h, -⟩) | ⟨v, h | h | ⟨c, h⟩, hlt⟩) <;> cases h
        exact .inr ⟨_, rfl, .inr ⟨_, .inr (.inr ⟨cell, rfl⟩), hlt⟩⟩
      · rintro L hL v phase ⟨⟩ (h | h | ⟨c, h⟩) <;> cases h
        exact ⟨_, rfl, by simp [Phase.Notes]⟩
      · rintro L hL hnone phase v ⟨⟩ (h | h) <;> cases h
        exact absurd (hseen.symm.trans hnone) (by simp)
      · rintro L hL v c ⟨⟩
        exact hseen
  | missing call topic version stored hcall hseen =>
    refine ht.move (.insert hcall) ?_ ?_ ?_ (by rintro L hL v c ⟨⟩)
    · rintro L hL w phase - ⟨⟩ ((h | ⟨r, h, -⟩) | ⟨v, h | h | ⟨c, h⟩, hlt⟩) <;> cases h
      exact .inr ⟨_, rfl, .inr ⟨_, .inr (.inl rfl), hlt⟩⟩
    · rintro L hL v phase ⟨⟩ (h | h | ⟨c, h⟩) <;> cases h
      exact ⟨_, rfl, .inl rfl⟩
    · rintro L hL hnone phase v ⟨⟩ (h | h) <;> cases h
      exact ⟨_, rfl, .inr rfl⟩
  | register call topic version stored hcall hseen hcovered => exact ht.register hs hcall hseen
  | newer call topic version stored cell hcall hnewer => exact ht.newer hcall
  | kept call topic version stored cell hcall hkept hmiss => exact ht.kept hs hcall hkept hmiss
  | refreshResolve call topic hcall => exact ht.refreshResolve hs hcall
  | refreshVisit call topic refresh shard hcall hover => exact ht.refreshVisit hcall hover
  | lock call latest hcall hpass =>
    refine Sys.Tracked.moveOther { ht with heading := ?_ } (.insert hcall) ?_ ?_
    · rintro L hL p w ⟨⟩ ⟨⟩
    · rintro phase ⟨⟩
      exact not_serves_of_other trivial
    · rintro phase ⟨⟩ L - v (h | h | ⟨c, h⟩) <;> cases h
  | passSkip p topic cell hp hwork hcell hcurrent =>
    exact { ht with heading := by rintro L hL q w ⟨⟩ ⟨⟩ }
  | passBegin p topic cell hp hwork hcell =>
    refine { ht with heading := ?_ }
    rintro L hL q w ⟨⟩ ⟨⟩ - -
    right
    rintro r ⟨⟩
  | passResolve p w hp hw hrefresh =>
    refine { ht with heading := ?_ }
    rintro L hL q w' ⟨⟩ ⟨⟩ htopic -
    refine .inr ?_
    rintro r ⟨⟩
    refine ⟨(hs.work_ok p hp w hw).cur_le, ?_⟩
    change L.id ∈ s.shardsOf w.topic
    rw [show w.topic = L.topic from htopic]
    exact mem_shardsOf hL
  | passFail p w hp hw =>
    exact { ht with heading := by rintro L hL q w' ⟨⟩ ⟨⟩ }
  | passVisit p w refresh shard hp hw hrefresh hover =>
    obtain ⟨hcur, -, -⟩ := (hs.work_ok p hp w hw).refresh_ok refresh hrefresh
    refine { ht.writeCaps hover with heading := ?_ }
    rintro L hL q w' ⟨⟩ ⟨⟩ htopic hcell
    rcases (ht.writeCaps hover).heading L hL p w hp hw htopic hcell with h | h
    · exact .inl h
    by_cases hid : L.id = shard
    · exact .inl (.inl ((resolvedAt_writeCaps hL hid htopic.symm).symm ▸ hcur))
    refine .inr ?_
    rintro r ⟨⟩
    exact ⟨hcur, mem_filter.2 ⟨(h refresh hrefresh).2, by simpa using hid⟩⟩
  | passStore p w refresh hp hw hrefresh hnil =>
    refine ⟨ht.registered, ht.fresh, ht.comparing, ?_, ?_⟩
    · intro L hL c hc
      change Caught s.calls L (update s.cells w.topic _ L.topic c)
      rw [update_cells]
      split_ifs with hsame
      · obtain ⟨htopic, rfl⟩ := hsame
        refine (ht.heading L hL p w hp hw htopic.symm hc).resolve_right fun h => ?_
        have hmem := (h refresh hrefresh).2
        rw [hnil] at hmem
        cases hmem
      · exact ht.caught L hL c hc
    · rintro L hL q w' ⟨⟩ ⟨⟩
  | passFailed call p retryAt hp hwork hcall => exact ht.passDone hcall
  | passComplete call p hp hwork htodo hfailed hcall => exact ht.passDone hcall
  | dropShards call topic hcall =>
    refine (ht.forget fun L hL => ⟨mem_of_mem_filter hL, rfl⟩).moveOther (.insert (lookup_eq_none.2 hcall))
      (by rintro _ ⟨⟩) ?_
    · rintro phase ⟨⟩ L - v (h | h | ⟨c, h⟩) <;> cases h
  | forgetCaps call topic hcall hlive =>
    simp only [forgetsLive, hcall, List.any_eq_false, decide_eq_true_eq] at hlive
    refine (ht.forget fun L hL => ⟨hL, lookup_erase_ne fun h => hlive L hL h⟩).moveOther (.erase hcall) ?_
      (by rintro _ ⟨⟩)
    rintro phase ⟨⟩
    exact not_serves_of_other trivial

end Narad.Consumer
