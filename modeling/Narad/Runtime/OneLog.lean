import Mathlib
import Narad.Runtime.LogSteps

/-!
# One open log a partition, one commit at a time

What holds in every state that the partition-log manager can reach, whatever operations run, however
they interleave and however the files behave. The locks rank by partition, the guard above every mutex:
a thread waits only for a lock above those it holds, so no set of threads waits in a circle.
-/

namespace Narad.Runtime

open Function (update)
open Lib List Option

namespace State

variable {s s' : State} {i : ℕ}

/-- An idle thread begins an operation. -/
theorem InOrder.start (h : s.InOrder) (hidle : (s.threads i).pc = .idle) (op : Op) : (s.start i op).InOrder := by
  have hbare := (h.locks.ok i).fits
  rw [hidle] at hbare
  -- a thread that begins without a lock, or to lock the one partition it needs
  have hbegin : ∀ pc : Pc, pc.stage = .bare ∨
      pc.stage = .locking (Thread.needs { op := op, pc := pc, began := s.clock }) →
      (Thread.needs { op := op, pc := pc, began := s.clock }).Pairwise (fun a b => a.idx < b.idx) →
      pc.pending = [] → (s.setThread i { op := op, pc := pc, began := s.clock }).InOrder := by
    intro pc hstage hneeds hpending
    exact Runtime.InOrder.resume h hidle rfl rfl (Thread.resumes_bare ⟨rfl, rfl, rfl⟩ hbare.1.symm
      hstage hneeds nofun hpending (le_refl _))
  cases op with
  | get key =>
    refine Runtime.InOrder.resume h hidle rfl rfl
      ⟨⟨⟨rfl, rfl, rfl⟩, List.Pairwise.nil, nofun, fun _ => rfl, nofun⟩, rfl, hbare.1.symm, rfl, le_refl _⟩
  | getMany topic idxs =>
    have hserve : (s.serve (idxs.filterMap fun idx => (s.openEntry ⟨topic, idx⟩).map LogEntry.log)
      s.clock).InOrder := by
      refine Runtime.InOrder.serve h _ ?_ (le_refl _)
      intro l hl
      obtain ⟨idx, -, hidx⟩ := mem_filterMap.mp hl
      obtain ⟨e, he, rfl⟩ := map_eq_some_iff.mp hidx
      obtain ⟨hmem, -, hc⟩ := openEntry_eq_some he
      exact h.logs.live e hmem hc
    simp only [State.start]
    split
    · exact Runtime.InOrder.resume hserve hidle rfl rfl (Thread.resumes_empty hbare.1)
    · exact Runtime.InOrder.resume hserve hidle rfl rfl
        ⟨⟨⟨rfl, rfl, rfl⟩, List.Pairwise.nil, nofun, fun _ => rfl, nofun⟩, rfl,
        hbare.1.symm, rfl, le_refl _⟩
  | withProduceLock | closePartition | replacePartitionDir =>
    exact hbegin _ (.inr rfl) (pairwise_singleton _ _) rfl
  | closeTopic | closeAll => exact hbegin _ (.inl rfl) List.Pairwise.nil rfl
  | evictIdleOnce idleAfter => exact hbegin _ (.inl rfl) (pairwise_singleton _ _) rfl
  | purgeTopic topic id =>
    refine Runtime.InOrder.resume h hidle rfl rfl
      ⟨⟨⟨rfl, rfl, rfl⟩, List.Pairwise.nil, nofun, nofun, nofun⟩, rfl, hbare.1.symm, rfl, le_refl _⟩

/-- Nothing depends on the order in which the maps are kept. -/
theorem InOrder.reorder (h : s.InOrder) {logs : List LogEntry} {produceSync : List Mutex}
    (hlogs : logs.Perm s.logs) (hsync : produceSync.Perm s.produceSync) :
    ({ s with logs := logs, produceSync := produceSync } : State).InOrder := by
  refine ⟨⟨h.locks.ok, ?_, ?_, h.locks.guards⟩, ⟨?_, ?_, ?_, ?_, ?_, h.logs.served, h.logs.began⟩⟩
  · intro i
    exact (h.locks.holds i).frame rfl rfl (fun m _ hm => hsync.mem_iff.mpr hm) fun _ _ hg hu => ⟨hg, hu⟩
  · exact (hsync.map _).nodup_iff.mpr h.locks.mutexes
  · intro i
    have hsees := h.logs.sees i
    refine ⟨fun l hl e he => hsees.claims l hl e (hlogs.mem_iff.mp he), ?_⟩
    have hsure := hsees.sure
    cases hpc : (s.threads i).pc <;> rw [hpc] at hsure <;> first
      | trivial
      | exact fun e he => hsure e (hlogs.mem_iff.mp he)
      | exact ⟨fun e he => hsure.1 e (hlogs.mem_iff.mp he), hsure.2⟩
      | exact fun ho e he => hsure ho e (hlogs.mem_iff.mp he)
      | exact ⟨fun ho e he => hsure.1 ho e (hlogs.mem_iff.mp he), hsure.2⟩
  · exact (hlogs.map _).nodup_iff.mpr h.logs.keys
  · exact fun e he => h.logs.closing e (hlogs.mem_iff.mp he)
  · exact fun e he => h.logs.live e (hlogs.mem_iff.mp he)
  · intro l hl
    refine (h.logs.opened l hl).imp_left ?_
    rintro ⟨e, he, hel⟩
    exact ⟨e, hlogs.mem_iff.mpr he, hel⟩

theorem InOrder.effect (h : s.InOrder) {label : Label} (heffect : s.effect label = some s') : s'.InOrder := by
  cases label with
  | start i op =>
    simp only [State.effect] at heffect
    split at heffect <;> cases heffect
    exact h.start ‹_› op
  | go i outcome => exact h.act heffect
  | change | bump | tick =>
    cases heffect
    exact h
  | reorder logs produceSync =>
    simp only [State.effect] at heffect
    split at heffect <;> cases heffect
    next hperm => exact h.reorder (isPerm_iff.mp hperm.1) (isPerm_iff.mp hperm.2)

theorem InOrder.step (h : s.InOrder) {label : Label} (hstep : s.step label = some s') : s'.InOrder := by
  obtain ⟨s₁, heffect, rfl⟩ := map_eq_some_iff.mp hstep
  have hok := h.effect heffect
  exact ⟨hok.locks, hok.logs.tick⟩

theorem InOrder.init (metastore versions : Bool) :
    ({ metastore := metastore, versions := versions } : State).InOrder where
  locks :=
    { ok := fun _ => Thread.Ok.empty
      holds := fun _ => ⟨by simp [Thread.mutexes, Pc.pending], nodup_nil, nofun, by simp, nofun⟩
      mutexes := nodup_nil
      guards := nodup_nil }
  logs :=
    { sees := fun _ => ⟨nofun, trivial⟩
      keys := nodup_nil
      closing := nofun
      live := nofun
      opened := nofun
      served := nofun
      began := fun _ => le_refl _ }

/-- The lock a thread is blocked on. -/
def waits (s : State) (i : ℕ) : Option (Mutex ⊕ TopicGuard) :=
  match (s.threads i).pc with
  | .waitMutex m _ | .retire m _ => some (.inl m)
  | .waitGuard g => some (.inr g)
  | _ => none

def holder (s : State) : Mutex ⊕ TopicGuard → Option ℕ
  | .inl m => s.mutexHolder m
  | .inr g => s.guardHolder g

/-- Mutexes rank by partition, and guards above them. -/
def rank : Mutex ⊕ TopicGuard → WithTop ℤ
  | .inl m => m.key.idx
  | .inr _ => ⊤

theorem waits_eq_some {l : Mutex ⊕ TopicGuard} (h : s.waits i = some l) :
    (∃ m rest, (s.threads i).pc = .waitMutex m rest ∧ l = .inl m) ∨
      (∃ m todo, (s.threads i).pc = .retire m todo ∧ l = .inl m) ∨
      ∃ g, (s.threads i).pc = .waitGuard g ∧ l = .inr g := by
  unfold waits at h
  split at h
  next m rest hpc => exact .inl ⟨m, rest, hpc, (some.inj h).symm⟩
  next m todo hpc => exact .inr (.inl ⟨m, todo, hpc, (some.inj h).symm⟩)
  next g hpc => exact .inr (.inr ⟨g, hpc, (some.inj h).symm⟩)
  next => cases h

theorem InOrder.rank_lt (h : s.InOrder) {l l' : Mutex ⊕ TopicGuard} (hheld : s.holder l = some i)
    (hwaits : s.waits i = some l') : rank l < rank l' := by
  have hok := h.locks.ok i
  have hfits := hok.fits
  have hasc := hok.ascending
  cases l with
  | inr g =>
    -- a thread that holds a guard waits for nothing
    have hguard := ((h.locks.holds i).guard g).mp hheld
    obtain ⟨m, rest, hpc, -⟩ | ⟨m, todo, hpc, -⟩ | ⟨g', hpc, -⟩ := waits_eq_some hwaits <;> rw [hpc] at hfits
    all_goals simp [Pc.stage, Thread.Fits, hguard] at hfits
  | inl m =>
    have hm := ((h.locks.holds i).mutex m).mp hheld
    obtain ⟨m', rest, hpc, rfl⟩ | ⟨m', todo, hpc, rfl⟩ | ⟨g', hpc, rfl⟩ := waits_eq_some hwaits
    · have hm : m ∈ (s.threads i).held := by simpa [Thread.mutexes, hpc, Pc.pending] using hm
      rw [hpc] at hfits
      rw [← hfits.1] at hasc
      have := (pairwise_append.mp hasc).2.2 m.key (mem_map_of_mem hm) m'.key (.head _)
      exact WithTop.coe_lt_coe.mpr this
    · rw [hpc] at hfits
      simp [Thread.mutexes, hpc, Pc.pending, hfits.1] at hm
    · exact WithTop.coe_lt_top _

/-- What the manager promises of a state. -/
structure Safe (s : State) : Prop where
  /-- No two logs are open on one directory. -/
  one_log : ∀ l l', s.phase l = .opened → s.phase l' = .opened → l.key = l'.key → l = l'
  /-- No two commits of a partition overlap. -/
  one_commit : ∀ i j key, (s.threads i).pc = .running → (s.threads i).op = .withProduceLock key →
    (s.threads j).pc = .running → (s.threads j).op = .withProduceLock key → i = j
  /-- A log that one of these closes has claimed is not the log of a running commit. -/
  no_close_under_commit : ∀ i j l, (s.threads i).betweenCommits = true → l ∈ (s.threads i).claimed →
    (s.threads j).pc = .running → (s.threads j).got ≠ some l
  /-- A Get returns no log whose Close had finished when the Get began. -/
  no_closed_log : ∀ l began n, (l, began) ∈ s.served → s.phase l = .closed n → began ≤ n
  no_circular_wait : ∀ threads : Finset ℕ, ¬CircularWait s.waits s.holder threads

/-- A running commit holds the mutex of its partition. -/
theorem InOrder.running (h : s.InOrder) (hpc : (s.threads i).pc = .running) :
    ∃ key, (s.threads i).op = .withProduceLock key ∧ ∃ m ∈ (s.threads i).held, m.key = key := by
  have hok := h.locks.ok i
  obtain ⟨key, hop⟩ := hok.running hpc
  have hfits := hok.fits
  rw [hpc] at hfits
  have hkey : key ∈ (s.threads i).held.map Mutex.key := by
    rw [hfits.1]
    simp [Thread.needs, hop]
  obtain ⟨m, hm, rfl⟩ := mem_map.mp hkey
  exact ⟨_, hop, m, hm, rfl⟩

theorem InOrder.one_log (h : s.InOrder) {l l' : Log} (hl : s.phase l = .opened) (hl' : s.phase l' = .opened)
    (hkey : l.key = l'.key) : l = l' := by
  -- an open under way has no entry in its place
  have hnone : ∀ {i version id l}, (s.threads i).pc = .install version id l →
      (∀ e ∈ s.logs, e.log.key ≠ l.key) ∧ l.key = (s.threads i).key ∧ ∃ g, (s.threads i).guard = some g := by
    intro i version id l hpc
    have hsure := (h.logs.sees i).sure
    have hfits := (h.locks.ok i).fits
    rw [hpc] at hsure hfits
    obtain ⟨-, ⟨g, hguard, -⟩, -⟩ := hfits
    exact ⟨hsure.2.1 ▸ hsure.1, hsure.2.1, g, hguard⟩
  rcases h.logs.opened l hl with ⟨e, he, rfl⟩ | ⟨i, version, id, hi⟩ <;>
    rcases h.logs.opened l' hl' with ⟨e', he', rfl⟩ | ⟨j, version', id', hj⟩
  · rw [inj_on_of_nodup_map h.logs.keys he he' hkey]
  · exact absurd hkey ((hnone hj).1 e he)
  · exact absurd hkey.symm ((hnone hi).1 e' he')
  · obtain ⟨-, hikey, g, hig⟩ := hnone hi
    obtain ⟨-, hjkey, g', hjg⟩ := hnone hj
    have hsame : i = j := h.locks.guard_alone hig hjg (by rw [Thread.topic, ← hikey, hkey, hjkey]; rfl)
    rw [hsame, hj] at hi
    cases hi
    rfl

theorem InOrder.no_close_under_commit (h : s.InOrder) {i j : ℕ} {l : Log}
    (hcloses : (s.threads i).betweenCommits = true) (hl : l ∈ (s.threads i).claimed)
    (hj : (s.threads j).pc = .running) : (s.threads j).got ≠ some l := by
  intro hgot
  obtain ⟨key, hop, m, hm, hmkey⟩ := h.running hj
  have hkey := (h.locks.ok j).got key l hop hgot
  have hfits := (h.locks.ok i).fits
  cases hstage : (s.threads i).pc.stage <;> rw [hstage] at hfits <;>
    simp only [Thread.Fits, ne_nil_of_mem hl, and_false, false_and] at hfits
  have hneeds := (hfits.2.2 l hl).2 hcloses
  rw [← hfits.1] at hneeds
  obtain ⟨m', hm', hmkey'⟩ := mem_map.mp hneeds
  have hij : i = j := h.locks.mutex_alone hm' hm (by rw [hmkey', hkey, hmkey])
  rw [hij, Thread.betweenCommits, hop] at hcloses
  cases hcloses

theorem InOrder.safe (h : s.InOrder) : s.Safe where
  one_log := fun _ _ hl hl' hkey => h.one_log hl hl' hkey
  one_commit := by
    intro i j key hi hopi hj hopj
    obtain ⟨keyi, hopi', m, hm, hmkey⟩ := h.running hi
    obtain ⟨keyj, hopj', m', hm', hmkey'⟩ := h.running hj
    rw [hopi] at hopi'
    rw [hopj] at hopj'
    cases hopi'
    cases hopj'
    exact h.locks.mutex_alone hm hm' (by rw [hmkey, hmkey'])
  no_close_under_commit := fun _ _ _ hcloses hl hj => h.no_close_under_commit hcloses hl hj
  no_closed_log := fun l began n hmem hclosed => (h.logs.served (l, began) hmem).2 n hclosed
  no_circular_wait := Lib.no_circular_wait rank fun _ _ _ hheld hwaits => h.rank_lt hheld hwaits

end State

/-- However the operations interleave, every state they reach is safe. -/
theorem one_open_log_one_commit (metastore versions : Bool) {labels : List Label} {s : State}
    (hrun : runWith State.step { metastore := metastore, versions := versions } labels = some s) : s.Safe := by
  have hstep : ∀ s label s', State.InOrder s → (fun _ _ => true : State → Label → Bool) s label = true →
      State.step s label = some s' → State.InOrder s' := fun _ _ _ h _ hs => h.step hs
  exact (run_induction hstep (State.InOrder.init metastore versions) (cleanRun_true _ labels) hrun).safe

/-- A commit runs on the log it has opened while a close of the partition waits for its mutex. -/
def commitAndClose : List Label :=
  [Label.change "t" (some "a"), .start 0 (.withProduceLock ⟨"t", 0⟩)] ++
    List.replicate 15 (Label.go 0 .ok) ++ [Label.start 1 (.closePartition ⟨"t", 0⟩), .go 1 .ok]

def afterCommitAndClose : State :=
  (runWith State.step { metastore := true, versions := true } commitAndClose).get (by decide +kernel)

theorem commitAndClose_safe :
    (afterCommitAndClose.threads 0).pc = .running ∧ (afterCommitAndClose.threads 0).got = some ⟨⟨"t", 0⟩, 0⟩ ∧
      afterCommitAndClose.waits 1 = some (.inl ⟨⟨"t", 0⟩, 0⟩) ∧ afterCommitAndClose.Safe :=
  ⟨by decide +kernel, by decide +kernel, by decide +kernel, one_open_log_one_commit true true
      (some_get (x := runWith State.step { metastore := true, versions := true } commitAndClose)
        (by decide +kernel)).symm⟩

/-- When no operation is under way nothing is left over: no lock is held, no entry is half closed, and the
logs that are open are those of the map. -/
theorem nothing_left_at_rest (metastore versions : Bool) {labels : List Label} {s : State}
    (hrun : runWith State.step { metastore := metastore, versions := versions } labels = some s)
    (hidle : ∀ i, (s.threads i).pc = .idle) : (∀ m, s.mutexHolder m = none) ∧ (∀ g, s.guardHolder g = none) ∧
      (∀ e ∈ s.logs, e.closing = false ∧ s.phase e.log = .opened) ∧
      ∀ l, s.phase l = .opened → ∃ e ∈ s.logs, e.log = l := by
  have h : s.InOrder := run_induction (fun _ _ _ h _ hs => State.InOrder.step h hs)
    (State.InOrder.init metastore versions) (cleanRun_true _ labels) hrun
  have hbare (i : ℕ) : (s.threads i).held = [] ∧ (s.threads i).guard = none ∧ (s.threads i).claimed = [] := by
    have hfits := (h.locks.ok i).fits
    rwa [hidle i] at hfits
  refine ⟨fun m => ?_, fun g => ?_, fun e he => ?_, fun l hl => ?_⟩
  · refine eq_none_iff_forall_ne_some.mpr fun i hi => ?_
    have hm := ((h.locks.holds i).mutex m).mp hi
    simp [Thread.mutexes, (hbare i).1, hidle i, Pc.pending] at hm
  · refine eq_none_iff_forall_ne_some.mpr fun i hi => ?_
    cases (hbare i).2.1.symm.trans (((h.locks.holds i).guard g).mp hi)
  · have hlive : e.closing = false := by
      by_contra hclosing
      obtain ⟨i, hi⟩ := h.logs.closing e he (by simpa using hclosing)
      simp [(hbare i).2.2] at hi
    exact ⟨hlive, h.logs.live e he hlive⟩
  · refine (h.logs.opened l hl).resolve_right ?_
    rintro ⟨i, version, id, hi⟩
    cases (hidle i).symm.trans hi

/-- A commit has opened the log of its partition, which stays open after it. -/
def committedOnce : Option State :=
  runWith State.step { metastore := true, versions := true }
    ([Label.change "t" (some "a"), .start 0 (.withProduceLock ⟨"t", 0⟩)] ++ List.replicate 18 (Label.go 0 .ok))

theorem committedOnce_holds_nothing :
    ∃ s, committedOnce = some s ∧ s.phase ⟨⟨"t", 0⟩, 0⟩ = .opened ∧ ∀ m, s.mutexHolder m = none := by
  have hrun := (some_get (x := committedOnce) (by decide +kernel)).symm
  refine ⟨_, hrun, by decide +kernel, (nothing_left_at_rest true true hrun fun i => ?_).1⟩
  cases i with
  | zero => decide +kernel
  | succ i => rfl

end Narad.Runtime
