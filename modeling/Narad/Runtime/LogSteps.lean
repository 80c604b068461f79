import Narad.Lib.Waits
import Narad.Runtime.LogsInvariant

/-!
# Every step keeps the locks and the log map in order

One lemma for each kind of step, then the run. What follows for every reachable state is stated at the
end: one open log a partition, one commit at a time, no close under a running commit, no closed log
returned, no circular wait.
-/

namespace Narad.Runtime

open Function (update)
open Lib List Thread InOrder State

variable {m : Mutex} {id : String} {g : TopicGuard}

namespace Thread

/-- A thread that holds the mutexes it needs and has no guard. -/
structure Between (t : Thread) : Prop where
  held : t.held.map Mutex.key = t.needs
  guard : t.guard = none
  claimed : t.claimed = []
  ascending : t.needs.Pairwise fun a b => a.idx < b.idx
  got : ∀ key l, t.op = .withProduceLock key → t.got = some l → l.key = key

/-- What a thread goes on as, with the same mutexes and no guard. -/
structure Resumes (t t' : Thread) (clock : ℕ) : Prop where
  ok : t'.Ok
  free : t'.pc.stage.free = true
  held : t'.held = t.held
  pending : t'.pc.pending = []
  began : t'.began ≤ clock

variable {t : Thread} {clock : ℕ}

theorem resumes_empty (hheld : t.held = []) : t.Resumes {} clock where
  ok := Ok.empty
  free := rfl
  held := hheld.symm
  pending := rfl
  began := Nat.zero_le _

section

variable (h : t.Between)
include h

theorem Between.held_nil (hneeds : t.needs = []) : t.held = [] :=
  map_eq_nil_iff.mp (h.held.trans hneeds)

theorem Between.locked (pc : Pc) (began : ℕ) (hstage : pc.stage = .locked) (hreads : pc.reads = true → t.gets = true)
    (hrunning : pc = .running → ∃ key, t.op = .withProduceLock key) :
    ({ t with pc := pc, began := began } : Thread).Ok where
  fits := by
    rw [show ({ t with pc := pc, began := began } : Thread).pc.stage = .locked from hstage]
    exact ⟨h.held, h.guard, h.claimed⟩
  ascending := h.ascending
  got := h.got
  reads := hreads
  running := hrunning

theorem Between.unlocking : ({ t with pc := .unlock } : Thread).Ok where
  fits := ⟨h.guard, h.claimed⟩
  ascending := h.ascending
  got := h.got
  reads := nofun
  running := nofun

/-- A thread that holds no mutex goes on without one. -/
theorem Between.bare (hheld : t.held = []) (pc : Pc) (hstage : pc.stage = .bare) :
    ({ t with pc := pc } : Thread).Ok where
  fits := by
    rw [show ({ t with pc := pc } : Thread).pc.stage = .bare from hstage]
    exact ⟨hheld, h.guard, h.claimed⟩
  ascending := h.ascending
  got := h.got
  reads := by
    intro hreads
    cases pc <;> simp_all [Pc.stage, Pc.reads]
  running := by
    rintro rfl
    cases hstage

theorem Between.returned (hgets : t.gets = true) (hbegan : t.began ≤ clock) : t.Resumes (t.returned clock) clock := by
  unfold Thread.returned
  split
  next key hop =>
    split
    · exact ⟨h.locked .running t.began rfl nofun fun _ => ⟨key, hop⟩, rfl, rfl, rfl, hbegan⟩
    · exact ⟨h.unlocking, rfl, rfl, rfl, hbegan⟩
  next topic idxs hop =>
    have hheld : t.held = [] := h.held_nil (by simp [needs, hop])
    split
    · exact
        { ok :=
            { fits := ⟨by simp [needs, hop, hheld], h.guard, h.claimed⟩
              ascending := by simp [needs, hop]
              got := nofun
              reads := by simp [gets, hop]
              running := nofun }
          free := rfl
          held := rfl
          pending := rfl
          began := le_refl _ }
    · exact resumes_empty hheld
  next hproduce hmany =>
    cases hop : t.op <;> simp only [gets, hop, Bool.false_eq_true] at hgets
    case get => exact resumes_empty (h.held_nil (by simp [needs, hop]))
    case getMany => exact absurd hop (hmany _ _)
    case withProduceLock => exact absurd hop (hproduce _)

theorem Between.unguarded (hbegan : t.began ≤ clock) : t.Resumes (t.unguarded clock) clock := by
  unfold Thread.unguarded
  split
  next hop => exact h.returned (by simp [gets, hop]) hbegan
  next hop => exact h.returned (by simp [gets, hop]) hbegan
  next hop => exact h.returned (by simp [gets, hop]) hbegan
  next hop =>
    have hheld : t.held = [] := h.held_nil (by simp [needs, hop])
    split
    · exact ⟨h.bare hheld .retireScan rfl, rfl, rfl, rfl, hbegan⟩
    · exact resumes_empty hheld
  next => exact ⟨h.unlocking, rfl, rfl, rfl, hbegan⟩

end

theorem Ok.ascending_topics (h : t.Ok) (topics : List String) (pc : Pc) :
    ({ t with topics := topics, pc := pc } : Thread).needs.Pairwise fun a b => a.idx < b.idx := by
  have hneeds := h.ascending
  cases hop : t.op <;> simp_all [needs, pairwise_map, key]

/-- A thread that holds nothing goes on without a lock, or to lock the one partition it needs. -/
theorem resumes_bare {t' : Thread} (hfits : t'.held = [] ∧ t'.guard = none ∧ t'.claimed = [])
    (hheld : t'.held = t.held) (hstage : t'.pc.stage = .bare ∨ t'.pc.stage = .locking t'.needs)
    (hneeds : t'.needs.Pairwise fun a b => a.idx < b.idx)
    (hgot : ∀ key l, t'.op = .withProduceLock key → t'.got = some l → l.key = key)
    (hpending : t'.pc.pending = []) (hbegan : t'.began ≤ clock) : t.Resumes t' clock where
  ok :=
    { fits := by
        rcases hstage with hstage | hstage <;> rw [hstage]
        · exact hfits
        · exact ⟨by simp [hfits.1], hfits.2⟩
      ascending := hneeds
      got := hgot
      reads := by
        intro hreads
        cases hpc : t'.pc <;> simp_all [Pc.stage, Pc.reads]
      running := by
        intro hpc
        rw [hpc] at hstage
        simp [Pc.stage] at hstage }
  free := by rcases hstage with hstage | hstage <;> rw [hstage] <;> rfl
  held := hheld
  pending := hpending
  began := hbegan

/-- All mutexes are given back. -/
theorem resumes_unlocked (h : t.Ok) (hpc : t.pc = .unlock) (hheld : t.held = []) (hbegan : t.began ≤ clock) :
    t.Resumes t.unlocked clock := by
  have hfits := h.fits
  rw [hpc] at hfits
  have hbare := And.intro hheld hfits
  have hneeds := h.ascending
  unfold unlocked
  split
  next hop =>
    refine resumes_bare hbare rfl (.inl ?_) hneeds h.got ?_ hbegan <;> dsimp only <;> split <;> rfl
  next hop =>
    split
    · split <;> exact resumes_bare hbare rfl (.inl rfl) (h.ascending_topics _ _) h.got rfl hbegan
    · exact resumes_bare hbare rfl (.inl rfl) hneeds h.got rfl hbegan
  next hop => exact resumes_bare hbare rfl (.inl rfl) hneeds h.got rfl hbegan
  next hop =>
    split
    · exact resumes_empty hheld
    next l rest _ =>
      have hone : ({ t with candidates := l :: rest, pc := .fetchMutex l.key [] } : Thread).needs = [l.key] := by
        simp [needs, hop, key]
      refine resumes_bare hbare rfl (.inr ?_) ?_ h.got rfl hbegan
      · rw [hone]
        rfl
      · rw [hone]
        exact pairwise_singleton _ _
  next => exact resumes_empty hheld

/-- What retires mutexes holds nothing else. -/
theorem resumes_retireNext (hok : t.Ok) (hfits : t.Fits .bare) (hbegan : t.began ≤ clock) (todo : List Mutex) :
    t.Resumes (t.retireNext todo) clock := by
  cases todo with
  | nil => exact resumes_empty hfits.1
  | cons m todo => exact ⟨⟨hfits, hok.ascending, hok.got, nofun, nofun⟩, rfl, rfl, rfl, hbegan⟩

end Thread

theorem Thread.Ok.between {t : Thread} (h : t.Ok)
    (hstage : t.pc.stage = .locked ∨ ∃ g, t.pc.stage = .counted g) : t.Between := by
  have hfits := h.fits
  rcases hstage with hstage | ⟨g, hstage⟩ <;> rw [hstage] at hfits
  · exact ⟨hfits.1, hfits.2.1, hfits.2.2, h.ascending, h.got⟩
  · exact ⟨hfits.1, hfits.2.1, hfits.2.2.1, h.ascending, h.got⟩

namespace State

variable {s : State} {key : LogKey} {e : LogEntry}

theorem entry_eq_some (h : s.entry key = some e) : e ∈ s.logs ∧ e.log.key = key :=
  ⟨mem_of_find?_eq_some h, by simpa using find?_some h⟩

theorem openEntry_eq_some (h : s.openEntry key = some e) : e ∈ s.logs ∧ e.log.key = key ∧ e.closing = false := by
  obtain ⟨hentry, hopen⟩ := Option.filter_eq_some_iff.mp h
  refine ⟨(entry_eq_some hentry).1, (entry_eq_some hentry).2, ?_⟩
  simp only [Bool.and_eq_true, Bool.not_eq_true'] at hopen
  exact hopen.1

theorem openPartitions_ascending (topic : String) (hkeys : (s.logs.map fun e => e.log.key).Nodup) :
    (s.openPartitions topic).Pairwise (· < ·) := by
  have hnodup : ((s.logs.filter fun e => e.log.key.topic = topic).map fun e => e.log.key.idx).Nodup := by
    refine (List.Nodup.of_map _ hkeys |>.filter _).map_on ?_
    intro a ha b hb hidx
    obtain ⟨ha, hta⟩ := mem_filter.mp ha
    obtain ⟨hb, htb⟩ := mem_filter.mp hb
    refine inj_on_of_nodup_map hkeys ha hb ?_
    have htopic : a.log.key.topic = b.log.key.topic :=
      (of_decide_eq_true hta).trans (of_decide_eq_true htb).symm
    cases hk : a.log.key
    cases hk' : b.log.key
    simp_all
  have hsorted := pairwise_mergeSort' (α := ℤ) (· ≤ ·)
    ((s.logs.filter fun e => e.log.key.topic = topic).map fun e => e.log.key.idx)
  have hne := (mergeSort_perm ((s.logs.filter fun e => e.log.key.topic = topic).map
    fun e => e.log.key.idx) (fun a b : ℤ => decide (a ≤ b))).nodup_iff.mpr hnodup
  exact (hsorted.and hne).imp fun h => lt_of_le_of_ne h.1 h.2

end State

variable {pc : Pc}

namespace InOrder

variable {k : Locks} {m : LogMap} {threads : ℕ → Thread} {clock : ℕ} {i : ℕ} {t' : Thread}

section

variable (h : InOrder k m threads clock)
include h

/-- A thread without a guard goes on without one. -/
theorem relock {k' : Locks} (hlocks : LocksOk k' (update threads i t'))
    (hguard : (threads i).guard = none) (hguard' : t'.guard = none) (hbegan : t'.began ≤ clock) :
    InOrder k' m (update threads i t') clock := by
  have hok : t'.Ok := by simpa using hlocks.ok i
  obtain ⟨hclaimed, hstage, -⟩ := (h.locks.ok i).of_guard_none hguard
  exact ⟨hlocks, h.logs.set (Sees.of_guard_none hok hguard')
    ((hok.of_guard_none hguard').1.trans hclaimed.symm) (fun _ _ _ he => hstage (he ▸ rfl)) hbegan⟩

/-- A thread goes on with its mutexes and without a guard. -/
theorem resume (hpc : (threads i).pc = pc) (hfree : pc.stage.free = true) (hpending : pc.pending = [])
    (hres : (threads i).Resumes t' clock) : InOrder k m (update threads i t') clock := by
  subst hpc
  obtain ⟨hguard, -, href⟩ := (h.locks.ok i).guard_of_free hfree
  obtain ⟨hguard', -, href'⟩ := hres.ok.guard_of_free hres.free
  refine h.relock ?_ hguard hguard' hres.began
  exact h.locks.set hres.ok hres.held (hres.pending.trans hpending.symm) (hguard'.trans hguard.symm)
    (href'.trans href.symm)

/-- A thread goes on under the guard. -/
theorem within (hstage : (threads i).pc.stage = .guarded)
    (hinstall : ∀ version id l, (threads i).pc ≠ .install version id l) (hok : t'.Ok)
    (hstage' : t'.pc.stage = .guarded) (hheld : t'.held = (threads i).held)
    (hguard : t'.guard = (threads i).guard) (hclaimed : t'.claimed = (threads i).claimed)
    (hbegan : t'.began = (threads i).began) (hsure : t'.Sure m t'.pc) : InOrder k m (update threads i t') clock := by
  have hnone : t'.claimed = [] := by
    have := hok.fits
    rw [hstage'] at this
    exact this.2.2
  refine ⟨?_, ?_⟩
  · refine h.locks.set hok hheld ?_ hguard ?_
    · rw [Pc.pending_of_guarded (.inl hstage), Pc.pending_of_guarded (.inl hstage')]
    · simp only [ref, hstage, hstage', hguard]
  · exact h.logs.set ⟨by simp [hnone], hsure⟩ hclaimed hinstall (hbegan ▸ h.logs.began i)

/-- Open logs are returned by Gets. -/
theorem serve (ls : List Log) {began : ℕ} (hopen : ∀ l ∈ ls, m.phase l = .opened)
    (hbegan : began ≤ clock) : InOrder k { m with served := ls.map (·, began) ++ m.served } threads clock :=
  ⟨h.locks, h.logs.serve hopen hbegan⟩

/-- Under the guard, an entry that the thread has not claimed is not being closed. -/
theorem live_of_guard (hguard : (threads i).guard = some g)
    (hclaimed : (threads i).claimed = []) {e : LogEntry} (he : e ∈ m.logs)
    (htopic : e.log.key.topic = (threads i).topic) : e.closing = false := by
  by_contra hc
  obtain ⟨j, hj, hmem⟩ := h.logs.closing_other (i := i) he (by simpa using hc) (by simp [hclaimed])
  have hfits := (h.locks.ok j).fits
  cases hstage : (threads j).pc.stage <;> rw [hstage] at hfits <;>
    simp only [Thread.Fits, ne_nil_of_mem hmem, and_false, false_and] at hfits
  obtain ⟨-, ⟨g', hguard', -⟩, hall⟩ := hfits
  exact hj (h.locks.guard_alone hguard' hguard ((hall _ hmem).1.symm.trans htopic))

variable {after : After}

/-- A thread under the guard claims entries. -/
theorem claim (hstage : (threads i).pc.stage = .guarded)
    (hinstall : ∀ version id l, (threads i).pc ≠ .install version id l) {p : LogEntry → Bool}
    {covered : Bool} (hp : ∀ e, p e = true → e.log.key.topic = (threads i).topic)
    (hall : after.opens = true → ∀ e, e.log.key.topic = (threads i).topic → p e = true)
    (hneeds : (threads i).betweenCommits = true → ∀ e ∈ m.logs, p e = true → e.log.key ∈ (threads i).needs)
    (hreads : after.opens = true → (threads i).gets = true) :
    InOrder k { m with logs := m.logs.map fun e => if p e then { e with closing := true } else e }
      (update threads i { threads i with
        covered := covered, claimed := (m.logs.filter p).map LogEntry.log, closeErr := false,
        pc := .closeLog after }) clock := by
  obtain ⟨hheld, ⟨g, hguard, htopic⟩, hclaimed⟩ := hstage ▸ (h.locks.ok i).fits
  refine ⟨h.locks.set ?_ rfl ?_ rfl ?_, ?_⟩
  · refine ⟨⟨hheld, ⟨g, hguard, htopic⟩, ?_⟩, (h.locks.ok i).ascending, (h.locks.ok i).got, hreads, nofun⟩
    intro l hl
    obtain ⟨e, he, rfl⟩ := mem_map.mp hl
    obtain ⟨he, hpe⟩ := mem_filter.mp he
    exact ⟨hp e hpe, fun hb => hneeds hb e he hpe⟩
  · exact (Pc.pending_of_guarded (.inl hstage)).symm
  · simp only [ref, hstage]
    rfl
  · refine h.logs.claim h.locks (by simp [hguard]) ?_ hp hall hclaimed hinstall rfl rfl rfl
    exact h.logs.began i

/-- Steps of a thread that holds claims. -/
theorem closing_fits (hstage : (threads i).pc.stage = .closing) :
    (threads i).guard.isSome = true ∧ ∀ l ∈ (threads i).claimed, l.key.topic = (threads i).topic := by
  obtain ⟨-, ⟨g, hguard, -⟩, hall⟩ := hstage ▸ (h.locks.ok i).fits
  exact ⟨by simp [hguard], fun l hl => (hall l hl).1⟩

variable {l : Log}

theorem closeLog (hpc : (threads i).pc = .closeLog after) {rest : List Log}
    (hclaimed : (threads i).claimed = l :: rest) {closeErr : Bool} :
    InOrder k { m with phase := update m.phase l (.closed clock) }
      (update threads i { threads i with closeErr := closeErr, pc := .dropEntry after }) clock := by
  have hstage : (threads i).pc.stage = .closing := hpc ▸ rfl
  obtain ⟨hguard, htopic⟩ := h.closing_fits hstage
  refine ⟨h.locks.set ?_ rfl ?_ rfl ?_, ?_⟩
  · refine (h.locks.ok i).move (hpc ▸ rfl) (fun hreads => (h.locks.ok i).reads ?_) nofun (h.locks.ok i).got
    rw [hpc]
    exact hreads
  · exact (Pc.pending_of_guarded (.inr hstage)).symm
  · simp only [ref, hstage]
    rfl
  · refine h.logs.close h.locks hguard ?_ hclaimed (htopic l (by simp [hclaimed])) hpc rfl hclaimed rfl
    exact h.logs.began i

theorem dropEntry (hpc : (threads i).pc = .dropEntry after) {rest : List Log}
    (hclaimed : (threads i).claimed = l :: rest) : InOrder k { m with logs := m.logs.filter fun e => e.log ≠ l }
      (update threads i { threads i with claimed := rest, pc := .closeLog after }) clock := by
  have hstage : (threads i).pc.stage = .closing := hpc ▸ rfl
  obtain ⟨hguard, htopic⟩ := h.closing_fits hstage
  have hok := h.locks.ok i
  refine ⟨h.locks.set ?_ rfl ?_ rfl ?_, ?_⟩
  · have hfits := hok.fits
    rw [hstage] at hfits
    refine ⟨⟨hfits.1, hfits.2.1, ?_⟩, hok.ascending, hok.got, fun hreads => hok.reads ?_, nofun⟩
    · intro l' hl'
      exact hfits.2.2 l' (hclaimed ▸ .tail _ hl')
    · rw [hpc]
      exact hreads
  · exact (Pc.pending_of_guarded (.inr hstage)).symm
  · simp only [ref, hstage]
    rfl
  · refine h.logs.drop h.locks hguard ?_ hclaimed (htopic l (by simp [hclaimed])) hpc rfl rfl rfl
    exact h.logs.began i

/-- All claimed logs are closed: an open finds no entry left in its way. -/
theorem closed (hpc : (threads i).pc = .closeLog after) (hclaimed : (threads i).claimed = []) :
    InOrder k m (update threads i { threads i with pc := after.pc }) clock := by
  have hstage : (threads i).pc.stage = .closing := hpc ▸ rfl
  have hafter : after.pc.stage = .guarded := by cases after <;> rfl
  have hok := h.locks.ok i
  have hfits := hok.fits
  rw [hstage] at hfits
  have hsure := (h.logs.sees i).sure
  rw [hpc] at hsure
  refine ⟨h.locks.set ?_ rfl ?_ rfl ?_, h.logs.set ⟨by simp [hclaimed], ?_⟩ rfl (by simp [hpc]) (h.logs.began i)⟩
  · refine ⟨?_, hok.ascending, hok.got, ?_, ?_⟩
    · show Thread.Fits _ after.pc.stage
      rw [hafter]
      exact ⟨hfits.1, hfits.2.1, hclaimed⟩
    · intro hreads
      refine hok.reads ?_
      rw [hpc]
      cases after <;> first | rfl | cases hreads
    · cases after <;> nofun
  · rw [Pc.pending_of_guarded (.inr hstage)]
    exact Pc.pending_of_guarded (.inl hafter)
  · simp only [ref, hstage, hafter]
  · have hnone : after.opens = true → ∀ e ∈ m.logs, e.log.key ≠ (threads i).key := by
      intro hopens e he hkey
      have := hsure hopens e he (hkey ▸ rfl)
      simp [hclaimed] at this
    cases after with
    | ensure | quarantine => exact hnone rfl
    | release | swap | remove => trivial

theorem newLog {version : ℕ} (hpc : (threads i).pc = .newLog version id) (hl : l.key = (threads i).key) {n : ℕ} :
    InOrder k { m with phase := update m.phase l .opened, nextLog := n }
      (update threads i { threads i with pc := .install version id l }) clock := by
  have hstage : (threads i).pc.stage = .guarded := hpc ▸ rfl
  obtain ⟨-, ⟨g, hguard, -⟩, hclaimed⟩ := hstage ▸ (h.locks.ok i).fits
  refine ⟨h.locks.set ?_ rfl ?_ rfl ?_, ?_⟩
  · exact (h.locks.ok i).goto (hpc ▸ rfl) (fun _ => (h.locks.ok i).reads (hpc ▸ rfl)) nofun
  · exact (Pc.pending_of_guarded (.inl hstage)).symm
  · simp only [ref, hstage]
    rfl
  · refine h.logs.openLog h.locks (by simp [hguard]) ?_ hl hclaimed hpc rfl hclaimed rfl
    exact h.logs.began i

theorem install {version : ℕ} (hpc : (threads i).pc = .install version id l) : InOrder k { m with
      logs := { log := l, incarnation := id } :: m.logs.filter fun e => e.log.key ≠ l.key
      served := (l, (threads i).began) :: m.served }
      (update threads i { threads i with got := some l, pc := .releaseGuard }) clock := by
  have hstage : (threads i).pc.stage = .guarded := hpc ▸ rfl
  obtain ⟨-, ⟨g, hguard, -⟩, hclaimed⟩ := hstage ▸ (h.locks.ok i).fits
  have hsure := (h.logs.sees i).sure
  rw [hpc] at hsure
  refine ⟨h.locks.set ?_ rfl ?_ rfl ?_, ?_⟩
  · refine (h.locks.ok i).move (hpc ▸ rfl) nofun nofun ?_
    intro key l' hop hl'
    cases hl'
    rw [hsure.2.1, Thread.key, hop]
  · exact (Pc.pending_of_guarded (.inl hstage)).symm
  · simp only [ref, hstage]
    rfl
  · refine h.logs.install h.locks (by simp [hguard]) ?_ hclaimed hpc hclaimed rfl
    exact h.logs.began i

end

end InOrder

namespace State.InOrder

variable {s s' : State} {i : ℕ} {outcome : Outcome}

section

variable (h : s.InOrder)
include h

/-- A thread goes on under the guard, in its own pc only. -/
theorem goto (hstage : (s.threads i).pc.stage = .guarded)
    (hinstall : ∀ version id l, (s.threads i).pc ≠ .install version id l) (hstage' : pc.stage = .guarded)
    (hreads : pc.reads = true → (s.threads i).gets = true)
    (hsure : Thread.Sure s.toLogMap { s.threads i with pc := pc } pc) :
    (s.setThread i { s.threads i with pc := pc }).InOrder := by
  refine h.within hstage hinstall ?_ hstage' rfl rfl rfl rfl hsure
  refine (h.locks.ok i).goto (hstage'.trans hstage.symm) hreads ?_
  rintro rfl
  cases hstage'

/-- A thread without locks collects topics. -/
theorem topics {old : Pc} (hpc : (s.threads i).pc = old) (hstage : old.stage = .bare) (hpending : old.pending = [])
    {topics : List String} (hstage' : pc.stage = .bare) (hpending' : pc.pending = []) :
    (s.setThread i { s.threads i with topics := topics, pc := pc }).InOrder := by
  have hok := h.locks.ok i
  have hbare := hok.fits
  rw [hpc, hstage] at hbare
  refine resume h hpc (hstage ▸ rfl) hpending (resumes_bare hbare rfl (.inl hstage')
    (hok.ascending_topics _ _) hok.got hpending' (h.logs.began i))

section

variable (hact : s.act i outcome = some s')
include hact

theorem fast (hpc : (s.threads i).pc = .fast) : s'.InOrder := by
  have hok := h.locks.ok i
  have hbetween := hok.between (.inl (hpc ▸ rfl))
  simp only [act, hpc] at hact
  split at hact <;> cases hact
  next e he =>
    obtain ⟨hmem, hkey, hc⟩ := openEntry_eq_some he
    have hserve := InOrder.serve h [e.log] (by simpa using h.logs.live e hmem hc) (h.logs.began i)
    have hres : Thread.Between { s.threads i with got := some e.log } :=
      { hbetween with
        got := by
          intro key l hop hl
          cases hl
          rw [hkey, Thread.key, hop] }
    have hres := hres.returned (hok.reads (hpc ▸ rfl)) (h.logs.began i)
    exact hserve.resume hpc rfl rfl { hres with }
  next =>
    exact resume h hpc rfl rfl ⟨hok.goto (hpc ▸ rfl) nofun nofun, rfl, rfl, rfl, h.logs.began i⟩

theorem list (hpc : (s.threads i).pc = .list) : s'.InOrder := by
  have hok := h.locks.ok i
  have hbare := hok.fits
  rw [hpc] at hbare
  simp only [act, hpc] at hact
  have hneeds : ∀ pc, (needs { s.threads i with
      idxs := s.openPartitions (s.threads i).topic, covered := false, pc := pc }).Pairwise
        fun a b => a.idx < b.idx := by
    intro pc
    have hsorted := openPartitions_ascending (s.threads i).topic h.logs.keys
    cases hop : (s.threads i).op <;> simp [needs, hop, pairwise_map, hsorted]
  split at hact <;> cases hact
  next hnil =>
    refine resume h hpc rfl rfl ⟨⟨⟨?_, hbare.2⟩, hneeds _, hok.got, nofun, nofun⟩, rfl, rfl, rfl, h.logs.began i⟩
    rw [hbare.1]
    exact hnil.symm
  next key rest hcons =>
    exact resume h hpc rfl rfl (resumes_bare hbare rfl
      (.inr (congrArg Stage.locking hcons.symm)) (hneeds _) hok.got rfl (h.logs.began i))

theorem scan (hpc : (s.threads i).pc = .scan) : s'.InOrder := by
  have hok := h.locks.ok i
  have hbare := hok.fits
  rw [hpc] at hbare
  simp only [act, hpc] at hact
  split at hact
  next idleAfter hop =>
    split at hact <;> cases hact
    next => exact resume h hpc rfl rfl (resumes_empty hbare.1)
    next l rest _ =>
      have hone : needs { s.threads i with
          cutoff := s.now - idleAfter, candidates := l :: rest, pc := .fetchMutex l.key [] } = [l.key] := by
        simp [needs, hop, key]
      refine resume h hpc rfl rfl (resumes_bare hbare rfl (.inr ?_) ?_ hok.got rfl (h.logs.began i))
      · rw [hone]
        rfl
      · rw [hone]
        exact pairwise_singleton _ _
  next => cases hact

variable {rest : List LogKey}

theorem fetchMutex {key : LogKey} (hpc : (s.threads i).pc = .fetchMutex key rest) : s'.InOrder := by
  have hok := h.locks.ok i
  have hguard := (hok.guard_of_free (hpc ▸ rfl)).1
  simp only [act, hpc] at hact
  split at hact <;> cases hact
  next m hm =>
    have hkey : m.key = key := by simpa using find?_some hm
    refine resume h hpc rfl rfl ⟨hok.goto ?_ nofun nofun, rfl, rfl, rfl, h.logs.began i⟩
    rw [hpc, ← hkey]
    rfl
  next hnone =>
    refine h.relock (h.locks.mint ?_ (by rfl) ?_ (by rfl) ?_ ?_) hguard hguard (h.logs.began i)
    · exact hok.goto (hpc ▸ rfl) nofun nofun
    · rw [hpc]; rfl
    · intro m hm
      simpa using find?_eq_none.mp hnone m hm
    · simp only [ref, hpc]
      rfl

theorem waitMutex (hpc : (s.threads i).pc = .waitMutex m rest) : s'.InOrder := by
  have hok := h.locks.ok i
  have hguard := (hok.guard_of_free (hpc ▸ rfl)).1
  simp only [act, hpc] at hact
  split at hact
  next hfree =>
    cases hact
    refine h.relock (h.locks.lock (hok.goto ?_ nofun nofun) hfree rfl ?_ rfl rfl ?_) hguard hguard (h.logs.began i)
    · rw [hpc]; rfl
    · rw [hpc]; rfl
    · simp only [ref, hpc]
      rfl
  next => cases hact

theorem checkMutex (hpc : (s.threads i).pc = .checkMutex m rest) : s'.InOrder := by
  have hok := h.locks.ok i
  obtain ⟨hheld, hguard, hclaimed⟩ := hpc ▸ hok.fits
  have href : (s.threads i).ref = (s.threads i).guard := by
    simp only [ref, hpc]
    rfl
  simp only [act, hpc] at hact
  split at hact
  next hm =>
    have hm : m ∈ s.produceSync := mem_of_find?_eq_some hm
    split at hact <;> cases hact
    next =>
      have hbetween : Thread.Between { s.threads i with held := (s.threads i).held ++ [m] } :=
        ⟨map_append ▸ hheld, hguard, hclaimed, hok.ascending, hok.got⟩
      unfold locked
      split
      next key hop =>
        refine h.relock (h.locks.keep (hbetween.locked .fast s.clock rfl ?_ (by simp)) hm ?_ rfl rfl rfl href.symm)
          hguard hguard (le_refl _)
        · have hop : (s.threads i).op = .withProduceLock key := hop
          simp [gets, hop]
        · rw [hpc]; rfl
      next =>
        refine h.relock (h.locks.keep (hbetween.locked .fetchGuard _ rfl (by rintro ⟨⟩) (by simp)) hm ?_ rfl rfl rfl
          href.symm) hguard hguard (h.logs.began i)
        rw [hpc]; rfl
    next key rest =>
      refine h.relock (h.locks.keep ?_ hm ?_ rfl rfl rfl href.symm) hguard hguard (h.logs.began i)
      · refine ⟨⟨?_, hguard, hclaimed⟩, hok.ascending, hok.got, (by rintro ⟨⟩), by simp⟩
        rw [map_append, append_assoc]
        exact hheld
      · rw [hpc]; rfl
  next =>
    cases hact
    refine h.relock (h.locks.set (hok.goto ?_ (by rintro ⟨⟩) (by simp)) rfl ?_ rfl href.symm) hguard hguard
      (h.logs.began i)
    · rw [hpc]; rfl
    · rw [hpc]; rfl

theorem dropMutex (hpc : (s.threads i).pc = .dropMutex m rest) : s'.InOrder := by
  have hok := h.locks.ok i
  have hguard := (hok.guard_of_free (hpc ▸ rfl)).1
  simp only [act, hpc] at hact
  cases hact
  refine h.relock (h.locks.unlock (hok.goto ?_ nofun nofun) ?_ (fun _ hm => hm) rfl ?_) hguard hguard (h.logs.began i)
  · rw [hpc]; rfl
  · exact ⟨(s.threads i).held, [], by simp [mutexes, hpc, Pc.pending], by simp [mutexes, Pc.pending]⟩
  · simp only [ref, hpc]
    rfl

theorem fetchGuard (hpc : (s.threads i).pc = .fetchGuard) : s'.InOrder := by
  have hok := h.locks.ok i
  obtain ⟨hheld, hguard, hclaimed⟩ := hpc ▸ hok.fits
  simp only [act, hpc] at hact
  split at hact <;> cases hact
  next g hg =>
    have htopic : g.topic = (s.threads i).topic := by simpa using find?_some hg
    refine h.relock (h.locks.countOn ?_ rfl ?_ rfl (mem_of_find?_eq_some hg) rfl) hguard hguard (h.logs.began i)
    · exact ⟨⟨hheld, hguard, hclaimed, htopic⟩, hok.ascending, hok.got, nofun, nofun⟩
    · rw [hpc]; rfl
  next hnone =>
    refine h.relock (h.locks.countNew ?_ (by rfl) ?_ (by rfl) ?_ rfl) hguard hguard (h.logs.began i)
    · exact ⟨⟨hheld, hguard, hclaimed, rfl⟩, hok.ascending, hok.got, nofun, nofun⟩
    · rw [hpc]; rfl
    · intro g hg
      simpa using find?_eq_none.mp hnone g hg

theorem waitGuard (hpc : (s.threads i).pc = .waitGuard g) : s'.InOrder := by
  have hok := h.locks.ok i
  obtain ⟨hheld, hguard, hclaimed, htopic⟩ := hpc ▸ hok.fits
  simp only [act, hpc] at hact
  split at hact
  next hfree =>
    cases hact
    refine ⟨h.locks.lockGuard ?_ rfl ?_ hfree hguard rfl ?_ rfl,
      h.logs.set ⟨?_, trivial⟩ rfl (by simp [hpc]) (h.logs.began i)⟩
    · exact ⟨⟨hheld, ⟨g, rfl, htopic⟩, hclaimed⟩, hok.ascending, hok.got, nofun, nofun⟩
    · rw [hpc]; rfl
    · simp only [ref, hpc, Pc.stage]
    · simp [hclaimed]
  next => cases hact

theorem releaseGuard (hpc : (s.threads i).pc = .releaseGuard) : s'.InOrder := by
  have hok := h.locks.ok i
  obtain ⟨hheld, ⟨g, hguard, htopic⟩, hclaimed⟩ := hpc ▸ hok.fits
  simp only [act, hpc, hguard] at hact
  cases hact
  refine ⟨h.locks.unlockGuard ?_ rfl ?_ hguard rfl ?_, h.logs.set ⟨?_, trivial⟩ rfl (by simp [hpc]) (h.logs.began i)⟩
  · exact ⟨⟨hheld, rfl, hclaimed, htopic⟩, hok.ascending, hok.got, nofun, nofun⟩
  · rw [hpc]; rfl
  · simp only [ref, hpc, Pc.stage, hguard]
  · simp [hclaimed]

theorem dropRef (hpc : (s.threads i).pc = .dropRef g) : s'.InOrder := by
  have hok := h.locks.ok i
  have hbetween := hok.between (.inr ⟨g, hpc ▸ rfl⟩)
  have hres := hbetween.unguarded (h.logs.began i)
  obtain ⟨hguard, -, href⟩ := hres.ok.guard_of_free hres.free
  simp only [act, hpc] at hact
  cases hact
  refine h.relock (h.locks.dropRef hres.ok hres.held ?_ ?_ ?_ href) hbetween.guard hguard hres.began
  · rw [hres.pending, hpc]
    rfl
  · rw [hguard, hbetween.guard]
  · simp only [ref, hpc, Pc.stage]

theorem unlock (hpc : (s.threads i).pc = .unlock) : s'.InOrder := by
  have hok := h.locks.ok i
  have hfits := hpc ▸ hok.fits
  simp only [act, hpc] at hact
  split at hact <;> cases hact
  next hnil =>
    exact resume h hpc rfl rfl (resumes_unlocked hok hpc hnil (h.logs.began i))
  next m rest hcons =>
    refine h.relock (h.locks.unlock ?_ ?_ ?_ rfl ?_) hfits.1 hfits.1 (h.logs.began i)
    · exact ⟨hfits, hok.ascending, hok.got, nofun, nofun⟩
    · exact ⟨[], rest, by simp [mutexes, hpc, Pc.pending, hcons], by simp [mutexes, Pc.pending]⟩
    · intro m' hm'
      rw [hcons]
      exact .tail _ hm'
    · simp only [ref, hpc]

variable {todo : List Mutex}

theorem retire (hpc : (s.threads i).pc = .retire m todo) : s'.InOrder := by
  have hok := h.locks.ok i
  have hguard := (hok.guard_of_free (hpc ▸ rfl)).1
  simp only [act, hpc] at hact
  split at hact
  next hfree =>
    cases hact
    refine h.relock (h.locks.lock (hok.goto ?_ nofun nofun) hfree rfl ?_ rfl rfl ?_) hguard hguard (h.logs.began i)
    · rw [hpc]; rfl
    · rw [hpc]; rfl
    · simp only [ref, hpc]
      rfl
  next => cases hact

theorem retireDelete (hpc : (s.threads i).pc = .retireDelete m todo) : s'.InOrder := by
  have hok := h.locks.ok i
  have hfits := hpc ▸ hok.fits
  have hok' : Thread.Ok { s.threads i with pc := .retireUnlock m todo } := hok.goto (hpc ▸ rfl) nofun nofun
  have hpending : (s.threads i).pc.pending = [m] := hpc ▸ rfl
  have href : (s.threads i).ref = (s.threads i).guard := by
    simp only [ref, hpc]
    rfl
  by_cases hm : s.mutexOf m.key = some m
  · simp only [act, hpc, if_pos hm] at hact
    cases hact
    refine h.relock (h.locks.retire hok' hpending hfits.1 hfits.1 rfl rfl href.symm ?_) hfits.2.1 hfits.2.1
      (h.logs.began i)
    exact mem_of_find?_eq_some hm
  · simp only [act, hpc, if_neg hm] at hact
    cases hact
    exact h.relock (h.locks.set hok' rfl hpending.symm rfl href.symm) hfits.2.1 hfits.2.1 (h.logs.began i)

theorem retireUnlock (hpc : (s.threads i).pc = .retireUnlock m todo) : s'.InOrder := by
  have hok := h.locks.ok i
  have hfits := hpc ▸ hok.fits
  have hres := resumes_retireNext hok hfits (h.logs.began i) todo
  obtain ⟨hguard, -, href⟩ := hres.ok.guard_of_free hres.free
  simp only [act, hpc] at hact
  cases hact
  refine h.relock (h.locks.unlock hres.ok ?_ ?_ ?_ ?_) hfits.2.1 hguard hres.began
  · refine ⟨[], [], ?_, ?_⟩
    · simp [mutexes, hfits.1, hpc, Pc.pending]
    · simp [mutexes, hres.held, hfits.1, hres.pending]
  · simp [hres.held]
  · rw [hguard, hfits.2.1]
  · rw [href]
    simp only [ref, hpc]
    exact hfits.2.1.symm

end

/-- What a close claims is of its topic; a close between commits claims what it has locked. -/
theorem underGuard (hpc : (s.threads i).pc = .guarded) : (s.underGuard i (s.threads i) outcome).InOrder := by
  have hstage : (s.threads i).pc.stage = .guarded := hpc ▸ rfl
  have hinstall : ∀ version id l, (s.threads i).pc ≠ .install version id l := by simp [hpc]
  have hrelease : (s.setThread i { s.threads i with pc := .releaseGuard }).InOrder :=
    h.goto hstage hinstall rfl nofun trivial
  have hone : ∀ {key : LogKey}, key.topic = (s.threads i).topic → key ∈ (s.threads i).needs → ∀ after : After,
      after.opens = false → (s.close i (s.threads i) (fun e => e.log.key = key) after).InOrder := by
    intro key htopic hneeds after hafter
    refine InOrder.claim h hstage hinstall ?_ ?_ ?_ (by simp [hafter])
    · intro e he
      rw [of_decide_eq_true he, htopic]
    · simp [hafter]
    · intro _ e _ he
      rw [of_decide_eq_true he]
      exact hneeds
  have hall : s.onlyOpen (s.threads i).topic (s.threads i).idxs = true →
      (s.threads i).needs = (s.threads i).idxs.map (fun idx => ⟨(s.threads i).topic, idx⟩) →
      (s.close i { s.threads i with covered := true } (fun e => e.log.key.topic = (s.threads i).topic)
        .release).InOrder := by
    intro honly hneeds
    refine InOrder.claim h hstage hinstall (fun e he => of_decide_eq_true he) nofun ?_ nofun
    intro _ e he ht
    have ht : e.log.key.topic = (s.threads i).topic := of_decide_eq_true ht
    have hidx := all_eq_true.mp honly e he
    simp only [ht, ne_eq, not_true_eq_false, decide_false, Bool.false_or, decide_eq_true_eq] at hidx
    rw [hneeds]
    exact mem_map.mpr ⟨_, hidx, by rw [← ht]⟩
  have hagain : (s.setThread i { s.threads i with covered := false, pc := .releaseGuard }).InOrder := by
    refine h.within hstage hinstall ?_ rfl rfl rfl rfl rfl trivial
    exact (h.locks.ok i).move (hstage ▸ rfl) nofun nofun (h.locks.ok i).got
  unfold State.underGuard
  split
  next hop => exact h.goto hstage hinstall rfl (fun _ => by simp [gets, hop]) trivial
  next hop => exact h.goto hstage hinstall rfl (fun _ => by simp [gets, hop]) trivial
  next hop => exact h.goto hstage hinstall rfl (fun _ => by simp [gets, hop]) trivial
  next hop =>
    split
    · exact hall ‹_› (by simp [needs, hop])
    · exact hagain
  next hop =>
    split
    · exact hall ‹_› (by simp [needs, hop])
    · exact hagain
  next key hop => exact hone (by simp [Thread.topic, Thread.key, hop]) (by simp [Thread.needs, hop]) _ rfl
  next key hop => exact hone (by simp [Thread.topic, Thread.key, hop]) (by simp [Thread.needs, hop]) _ rfl
  next hop =>
    split
    · exact hrelease
    split
    · exact hone rfl (by simp [needs, hop]) _ rfl
    · exact hrelease
  next topic id hop =>
    have htopic : (s.threads i).topic = topic := by simp [Thread.topic, Thread.key, hop]
    split
    · refine InOrder.claim h hstage hinstall ?_ nofun ?_ nofun
      · intro e he
        rw [of_decide_eq_true he, htopic]
      · simp [betweenCommits, hop]
    · exact hrelease

/-- A close that belongs to a Get takes the whole topic. -/
theorem claimTopic (hstage : (s.threads i).pc.stage = .guarded) (hreads : (s.threads i).pc.reads = true)
    (hinstall : ∀ version id l, (s.threads i).pc ≠ .install version id l) (after : After) :
    (s.close i (s.threads i) (fun e => e.log.key.topic = (s.threads i).topic) after).InOrder := by
  have hgets := (h.locks.ok i).reads hreads
  refine InOrder.claim h hstage hinstall (fun e he => of_decide_eq_true he) (fun _ e ht => decide_eq_true ht) ?_
    fun _ => hgets
  intro hb
  cases hop : (s.threads i).op <;> simp [gets, betweenCommits, hop] at hgets hb

variable {version : ℕ}

theorem openRecord (hpc : (s.threads i).pc = .openRecord version) (hact : s.act i outcome = some s') : s'.InOrder := by
  have hstage : (s.threads i).pc.stage = .guarded := hpc ▸ rfl
  have hgets := (h.locks.ok i).reads (hpc ▸ rfl)
  simp only [act, hpc] at hact
  split at hact
  · split at hact
    · cases hact
      exact h.goto hstage (by simp [hpc]) rfl nofun trivial
    · cases hact
      refine h.goto hstage (by simp [hpc]) ?_ (fun _ => hgets) ?_ <;> split <;> first | rfl | trivial
  · cases hact
    exact h.goto hstage (by simp [hpc]) rfl (fun _ => hgets) trivial

theorem openEntry (hpc : (s.threads i).pc = .openEntry version id) (hact : s.act i outcome = some s') : s'.InOrder := by
  have hstage : (s.threads i).pc.stage = .guarded := hpc ▸ rfl
  have hinstall : ∀ version id l, (s.threads i).pc ≠ .install version id l := by simp [hpc]
  have hok := h.locks.ok i
  obtain ⟨-, ⟨g, hguard, -⟩, hclaimed⟩ := hstage ▸ hok.fits
  have hreads : (s.threads i).pc.reads = true := hpc ▸ rfl
  simp only [act, hpc] at hact
  split at hact
  next hnone =>
    cases hact
    exact h.goto hstage hinstall rfl (fun _ => hok.reads hreads) (fun e he => by simpa [Thread.key] using find?_eq_none.mp hnone e he)
  next e he =>
    obtain ⟨hmem, hkey⟩ := entry_eq_some he
    have hc : e.closing = false := live_of_guard h hguard hclaimed hmem (hkey ▸ rfl)
    split at hact <;> cases hact
    · have hserve := InOrder.serve h [e.log] (by simpa using h.logs.live e hmem hc) (h.logs.began i)
      refine hserve.within hstage hinstall ?_ rfl rfl rfl rfl rfl trivial
      refine hok.move (hpc ▸ rfl) nofun nofun ?_
      intro key l hop hl
      cases hl
      rw [hkey, Thread.key, hop]
    · exact h.claimTopic hstage hreads hinstall (.ensure version id)

theorem ensure (hpc : (s.threads i).pc = .ensure version id) (hact : s.act i outcome = some s') : s'.InOrder := by
  have hstage : (s.threads i).pc.stage = .guarded := hpc ▸ rfl
  have hinstall : ∀ version id l, (s.threads i).pc ≠ .install version id l := by simp [hpc]
  have hreads : (s.threads i).pc.reads = true := hpc ▸ rfl
  have hgets := (h.locks.ok i).reads hreads
  have hsure := (h.logs.sees i).sure
  rw [hpc] at hsure
  simp only [act, hpc] at hact
  split at hact
  · cases hact
    exact h.goto hstage hinstall rfl (fun _ => hgets) hsure
  split at hact
  · split at hact
    · cases hact
      exact h.goto hstage hinstall rfl (fun _ => hgets) hsure
    split at hact
    · cases hact
      exact h.goto hstage hinstall rfl (fun _ => hgets) hsure
    · cases hact
      exact h.claimTopic hstage hreads hinstall (.quarantine version id)
  · cases hact
    exact h.goto hstage hinstall rfl nofun trivial

/-- Writing the marker changes nothing that a thread relies on. -/
theorem setMarker (hstage : (s.threads i).pc.stage = .guarded)
    (hinstall : ∀ version id l, (s.threads i).pc ≠ .install version id l) {covered : Bool} {marker : Option String}
    {next : Pc} (hstage' : next.stage = .guarded) (hreads : next.reads = true → (s.threads i).gets = true)
    (hsure : Thread.Sure s.toLogMap (s.threads i) next) :
    (s.setMarker i { s.threads i with covered := covered } marker outcome next).InOrder := by
  have hrun : next ≠ .running := by
    rintro rfl
    cases hstage'
  have hok := h.locks.ok i
  by_cases ho : outcome = .ok
  · simp only [State.setMarker, ho, if_true]
    refine h.within hstage hinstall (hok.move (hstage'.trans hstage.symm) hreads hrun hok.got) hstage'
      rfl rfl rfl rfl ?_
    show Thread.Sure _ _ next
    cases next <;> exact hsure
  · simp only [State.setMarker, ho, if_false]
    refine h.within hstage hinstall ?_ rfl rfl rfl rfl rfl trivial
    exact hok.move (hstage ▸ rfl) nofun nofun hok.got

/-- Every step of a thread. -/
theorem act (hact : s.act i outcome = some s') : s'.InOrder := by
  have hok := h.locks.ok i
  have hreads := hok.reads
  have hsure := (h.logs.sees i).sure
  cases hpc : (s.threads i).pc
  case fast => exact h.fast hact hpc
  case list => exact h.list hact hpc
  case scan => exact h.scan hact hpc
  case fetchMutex => exact h.fetchMutex hact hpc
  case waitMutex => exact h.waitMutex hact hpc
  case checkMutex => exact h.checkMutex hact hpc
  case dropMutex => exact h.dropMutex hact hpc
  case fetchGuard => exact h.fetchGuard hact hpc
  case waitGuard => exact h.waitGuard hact hpc
  case openRecord => exact h.openRecord hpc hact
  case openEntry => exact h.openEntry hpc hact
  case ensure => exact h.ensure hpc hact
  case releaseGuard => exact h.releaseGuard hact hpc
  case dropRef => exact h.dropRef hact hpc
  case unlock => exact h.unlock hact hpc
  case retire => exact h.retire hact hpc
  case retireDelete => exact h.retireDelete hact hpc
  case retireUnlock => exact h.retireUnlock hact hpc
  all_goals
    rw [hpc] at hsure hreads
    simp only [State.act, hpc] at hact
  case idle => cases hact
  case names =>
    cases hact
    exact h.topics hpc rfl rfl rfl rfl
  case guardNames =>
    split at hact <;> cases hact <;> exact h.topics hpc rfl rfl rfl rfl
  case guarded =>
    cases hact
    exact h.underGuard hpc
  case quarantine version id =>
    have hstage : (s.threads i).pc.stage = .guarded := hpc ▸ rfl
    split at hact <;> cases hact
    · exact h.goto hstage (by simp [hpc]) rfl nofun trivial
    · exact h.setMarker hstage (by simp [hpc]) rfl (fun _ => hreads rfl) hsure
  case mark version id =>
    cases hact
    exact h.setMarker (hpc ▸ rfl) (by simp [hpc]) rfl (fun _ => hreads rfl) hsure
  case newLog version id =>
    split at hact <;> cases hact
    · exact newLog h hpc rfl
    · exact h.goto (hpc ▸ rfl) (by simp [hpc]) rfl nofun trivial
  case install version id l =>
    cases hact
    exact install h hpc
  case closeLog after =>
    split at hact <;> cases hact
    · exact closed h hpc ‹_›
    · exact closeLog h hpc ‹_›
  case dropEntry after =>
    split at hact <;> cases hact
    exact dropEntry h hpc ‹_›
  case swap =>
    cases hact
    exact h.goto (hpc ▸ rfl) (by simp [hpc]) rfl nofun trivial
  case remove =>
    cases hact
    exact h.setMarker (hpc ▸ rfl) (by simp [hpc]) rfl nofun trivial
  case running =>
    cases hact
    have hbetween := hok.between (.inl (hpc ▸ rfl))
    exact resume h hpc rfl rfl ⟨hbetween.unlocking, rfl, rfl, rfl, h.logs.began i⟩
  case retireScan =>
    cases hact
    have hfits := hok.fits
    rw [hpc] at hfits
    exact resume h hpc rfl rfl (resumes_retireNext hok hfits (h.logs.began i) _)

end

end State.InOrder

end Narad.Runtime
