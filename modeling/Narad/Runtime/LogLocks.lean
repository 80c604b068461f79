import Narad.Runtime.Logs

/-!
# Who holds which lock

`Fits` says what a thread holds at each stage of its operation: the mutexes of the partitions it needs,
in partition order, then the topic's guard. `Holds` relates one thread to the lock table. A mutex that
a thread has checked stays in the map as long as the thread holds it, and a guard that a thread counts
on stays the topic's guard, so neither is ever held twice under two identities.
-/

namespace Narad.Runtime

open List Option
open Function (update)

variable {t : Thread}

/-- How far an operation has come with its locks. -/
inductive Stage where
  | bare
  | locking (todo : List LogKey)
  | locked
  | counted (g : TopicGuard)
  | guarded
  | closing
  | unlocking

/-- No guard is involved. -/
def Stage.free : Stage → Bool
  | .bare | .locking _ | .locked | .unlocking => true
  | .counted _ | .guarded | .closing => false

def Pc.stage : Pc → Stage
  | .idle | .list | .scan | .names | .guardNames => .bare
  | .retireScan | .retire .. | .retireDelete .. | .retireUnlock .. => .bare
  | .fetchMutex key rest => .locking (key :: rest)
  | .waitMutex m rest | .checkMutex m rest | .dropMutex m rest => .locking (m.key :: rest)
  | .fast | .fetchGuard | .running => .locked
  | .waitGuard g | .dropRef g => .counted g
  | .guarded | .openRecord _ | .openEntry .. | .ensure .. | .quarantine .. | .mark .. | .newLog .. => .guarded
  | .install .. | .swap | .remove | .releaseGuard => .guarded
  | .closeLog _ | .dropEntry _ => .closing
  | .unlock => .unlocking

/-- The mutex a thread has locked and not yet checked, or is about to give back. -/
def Pc.pending : Pc → List Mutex
  | .checkMutex m _ | .dropMutex m _ | .retireDelete m _ | .retireUnlock m _ => [m]
  | _ => []

/-- The close belongs to an open, which goes on in the topic's directory. -/
def After.opens : After → Bool
  | .ensure .. | .quarantine .. => true
  | _ => false

/-- The steps of a Get. -/
def Pc.reads : Pc → Bool
  | .fast | .openRecord _ | .openEntry .. | .ensure .. | .quarantine .. | .mark .. | .newLog .. | .install .. => true
  | .closeLog after | .dropEntry after => after.opens
  | _ => false

variable {pc : Pc}

theorem Pc.pending_of_guarded (h : pc.stage = .guarded ∨ pc.stage = .closing) : pc.pending = [] := by
  cases pc <;> first | rfl | simp [Pc.stage] at h

namespace Thread

def mutexes (t : Thread) : List Mutex :=
  t.held ++ t.pc.pending

/-- The guard a thread is counted on. -/
def ref (t : Thread) : Option TopicGuard :=
  match t.pc.stage with
  | .counted g => some g
  | _ => t.guard

def gets (t : Thread) : Bool :=
  match t.op with
  | .get _ | .getMany .. | .withProduceLock _ => true
  | _ => false

/-- The closes that wait out a commit. -/
def betweenCommits (t : Thread) : Bool :=
  match t.op with
  | .closeTopic _ | .closeAll | .closePartition _ | .replacePartitionDir _ | .evictIdleOnce _ => true
  | _ => false

def Fits (t : Thread) : Stage → Prop
  | .bare => t.held = [] ∧ t.guard = none ∧ t.claimed = []
  | .locking todo => t.held.map Mutex.key ++ todo = t.needs ∧ t.guard = none ∧ t.claimed = []
  | .locked => t.held.map Mutex.key = t.needs ∧ t.guard = none ∧ t.claimed = []
  | .counted g => t.held.map Mutex.key = t.needs ∧ t.guard = none ∧ t.claimed = [] ∧ g.topic = t.topic
  | .guarded =>
    t.held.map Mutex.key = t.needs ∧ (∃ g, t.guard = some g ∧ g.topic = t.topic) ∧ t.claimed = []
  | .closing =>
    t.held.map Mutex.key = t.needs ∧ (∃ g, t.guard = some g ∧ g.topic = t.topic) ∧
      ∀ l ∈ t.claimed, l.key.topic = t.topic ∧ (t.betweenCommits = true → l.key ∈ t.needs)
  | .unlocking => t.guard = none ∧ t.claimed = []

structure Ok (t : Thread) : Prop where
  fits : t.Fits t.pc.stage
  ascending : t.needs.Pairwise fun a b => a.idx < b.idx
  got : ∀ key l, t.op = .withProduceLock key → t.got = some l → l.key = key
  reads : t.pc.reads = true → t.gets = true
  running : t.pc = .running → ∃ key, t.op = .withProduceLock key

theorem Ok.empty : ({} : Thread).Ok where
  fits := ⟨rfl, rfl, rfl⟩
  ascending := List.Pairwise.nil
  got := nofun
  reads := nofun
  running := nofun

theorem Ok.guard_of_free (h : t.Ok) (hfree : t.pc.stage.free = true) :
    t.guard = none ∧ t.claimed = [] ∧ t.ref = none := by
  have hfits := h.fits
  rw [Thread.ref]
  cases hstage : t.pc.stage <;> rw [hstage] at hfits hfree <;> simp only [Stage.free, reduceCtorEq] at hfree
  case unlocking => exact ⟨hfits.1, hfits.2, hfits.1⟩
  all_goals exact ⟨hfits.2.1, hfits.2.2, hfits.2.1⟩

theorem Ok.ref_of_guard (h : t.Ok) {g : TopicGuard} (hguard : t.guard = some g) :
    t.ref = some g ∧ g.topic = t.topic := by
  have hfits := h.fits
  rw [Thread.ref]
  cases hstage : t.pc.stage <;> rw [hstage] at hfits <;>
    simp only [Thread.Fits, hguard, reduceCtorEq, false_and, and_false, some.injEq] at hfits
  all_goals
    obtain ⟨-, ⟨g', rfl, htopic⟩, -⟩ := hfits
    exact ⟨hguard, htopic⟩

/-- A thread goes on within a stage. -/
theorem Ok.move (h : t.Ok) {covered closeErr : Bool} {got : Option Log}
    (hstage : pc.stage = t.pc.stage) (hreads : pc.reads = true → t.gets = true) (hrun : pc ≠ .running)
    (hgot : ∀ key l, t.op = .withProduceLock key → got = some l → l.key = key) :
    ({ t with pc := pc, covered := covered, closeErr := closeErr, got := got } : Thread).Ok where
  fits := by
    have hfits := h.fits
    rw [← hstage] at hfits
    show Thread.Fits _ pc.stage
    cases hpc : pc.stage <;> rw [hpc] at hfits <;> exact hfits
  ascending := h.ascending
  got := hgot
  reads := hreads
  running := fun hpc => absurd hpc hrun

theorem Ok.goto (h : t.Ok) (hstage : pc.stage = t.pc.stage)
    (hreads : pc.reads = true → t.gets = true) (hrun : pc ≠ .running) : ({ t with pc := pc } : Thread).Ok :=
  h.move hstage hreads hrun h.got

end Thread

/-- What the lock table says about one thread. -/
structure Holds (k : Locks) (i : ℕ) (t : Thread) : Prop where
  mutex : ∀ m, k.mutexHolder m = some i ↔ m ∈ t.mutexes
  nodup : t.mutexes.Nodup
  valid : ∀ m ∈ t.held, m ∈ k.produceSync
  guard : ∀ g, k.guardHolder g = some i ↔ t.guard = some g
  ref : ∀ g, t.ref = some g → g ∈ k.guards ∧ i ∈ k.users g

namespace Holds

variable {k k' : Locks} {i j : ℕ} {t t' : Thread} {m : Mutex} {g : TopicGuard}

section

variable (h : Holds k i t) (hheld : t'.held = t.held) (hpending : t'.pc.pending = t.pc.pending)
include h hheld hpending

/-- The thread has the mutexes it had. -/
theorem same_mutexes (hmutex : k'.mutexHolder = k.mutexHolder) (hvalid : k'.produceSync = k.produceSync)
    (hguard : ∀ g, k'.guardHolder g = some i ↔ t'.guard = some g)
    (href : ∀ g, t'.ref = some g → g ∈ k'.guards ∧ i ∈ k'.users g) : Holds k' i t' := by
  have hmutexes : t'.mutexes = t.mutexes := by rw [Thread.mutexes, Thread.mutexes, hheld, hpending]
  exact
    { mutex := fun m => by rw [hmutexes, hmutex, h.mutex m]
      nodup := hmutexes ▸ h.nodup
      valid := hvalid ▸ hheld ▸ h.valid
      guard := hguard
      ref := href }

/-- Nothing the table knows of the thread has changed. -/
theorem congr (hguard : t'.guard = t.guard) (href : t'.ref = t.ref) : Holds k i t' :=
  h.same_mutexes hheld hpending rfl rfl (fun g => hguard ▸ h.guard g) fun g => href ▸ h.ref g

end

/-- The holders are the same, and the maps keep what the thread relies on. -/
theorem frame (h : Holds k i t) (hmutex : k'.mutexHolder = k.mutexHolder)
    (hguard : k'.guardHolder = k.guardHolder) (hvalid : ∀ m ∈ t.held, m ∈ k.produceSync → m ∈ k'.produceSync)
    (href : ∀ g, t.ref = some g → g ∈ k.guards → i ∈ k.users g → g ∈ k'.guards ∧ i ∈ k'.users g) : Holds k' i t where
  mutex := fun m => hmutex ▸ h.mutex m
  nodup := h.nodup
  valid := fun m hm => hvalid m hm (h.valid m hm)
  guard := fun g => hguard ▸ h.guard g
  ref := fun g hg => href g hg (h.ref g hg).1 (h.ref g hg).2

/-- The thread locks a free mutex. -/
theorem lock (h : Holds k i t) (hfree : k.mutexHolder m = none) (hheld : t'.held = t.held)
    (hbefore : t.pc.pending = []) (hafter : t'.pc.pending = [m]) (hguard : t'.guard = t.guard)
    (href : t'.ref = t.ref) : Holds { k with mutexHolder := update k.mutexHolder m (some i) } i t' := by
  have hm : m ∉ t.mutexes := fun hm => by simpa [hfree] using (h.mutex m).mpr hm
  have hmutexes : t'.mutexes = t.mutexes ++ [m] := by
    simp [Thread.mutexes, hheld, hbefore, hafter]
  exact
    { mutex := by
        intro m'
        rw [hmutexes, mem_append, mem_singleton, ← h.mutex m']
        by_cases hm' : m' = m <;> simp [hm']
      nodup := by
        rw [hmutexes]
        exact nodup_append.mpr ⟨h.nodup, nodup_singleton m, by
          intro a ha b hb
          rw [mem_singleton.mp hb]
          exact fun hab => hm (hab ▸ ha)⟩
      valid := hheld ▸ h.valid
      guard := fun g => hguard ▸ h.guard g
      ref := fun g => href ▸ h.ref g }

/-- Another thread locks a free mutex or gives its own back. -/
theorem mutex_other {o : Option ℕ} (h : Holds k j t) (hbefore : k.mutexHolder m ≠ some j) (hafter : o ≠ some j) :
    Holds { k with mutexHolder := update k.mutexHolder m o } j t :=
  { h with
    mutex := by
      intro m'
      rw [← h.mutex m']
      by_cases hm' : m' = m
      · simp [hm', hbefore, hafter]
      · simp [hm'] }

/-- The thread gives a mutex back. -/
theorem unlock (h : Holds k i t) (hsplit : ∃ a b, t.mutexes = a ++ m :: b ∧ t'.mutexes = a ++ b)
    (hheld : ∀ m' ∈ t'.held, m' ∈ t.held) (hguard : t'.guard = t.guard) (href : t'.ref = t.ref) :
    Holds { k with mutexHolder := update k.mutexHolder m none } i t' := by
  obtain ⟨a, b, hbefore, hafter⟩ := hsplit
  have hnodup := h.nodup
  rw [hbefore, nodup_middle] at hnodup
  exact
    { mutex := by
        intro m'
        rw [hafter]
        by_cases hm' : m' = m
        · simpa [hm'] using (nodup_cons.mp hnodup).1
        have := h.mutex m'
        rw [hbefore] at this
        simpa [hm'] using this
      nodup := hafter ▸ (nodup_cons.mp hnodup).2
      valid := fun m' hm' => h.valid m' (hheld m' hm')
      guard := fun g => hguard ▸ h.guard g
      ref := fun g => href ▸ h.ref g }

theorem guard_lock (h : Holds k i t) (hbefore : t.guard = none)
    (hafter : t'.guard = some g) (hheld : t'.held = t.held) (hpending : t'.pc.pending = t.pc.pending)
    (href : t.ref = some g) (href' : t'.ref = some g) :
    Holds { k with guardHolder := update k.guardHolder g (some i) } i t' := by
  refine h.same_mutexes hheld hpending rfl rfl (fun g' => ?_) fun g' hg' => h.ref g' (by rw [href, ← href', hg'])
  by_cases hg : g' = g
  · simp [hg, hafter]
  have := h.guard g'
  simp only [hbefore, reduceCtorEq, iff_false] at this
  simp [hg, hafter, this, Ne.symm hg]

theorem guard_other {o : Option ℕ} (h : Holds k j t) (hbefore : k.guardHolder g ≠ some j) (hafter : o ≠ some j) :
    Holds { k with guardHolder := update k.guardHolder g o } j t :=
  { h with
    guard := by
      intro g'
      rw [← h.guard g']
      by_cases hg : g' = g
      · simp [hg, hbefore, hafter]
      · simp [hg] }

theorem guard_unlock (h : Holds k i t) (hbefore : t.guard = some g) (hafter : t'.guard = none)
    (hheld : t'.held = t.held) (hpending : t'.pc.pending = t.pc.pending) (href : t'.ref = t.ref) :
    Holds { k with guardHolder := update k.guardHolder g none } i t' := by
  refine h.same_mutexes hheld hpending rfl rfl (fun g' => ?_) fun g => href ▸ h.ref g
  by_cases hg : g' = g
  · simp [hg, hafter]
  have := h.guard g'
  rw [hbefore, some_inj] at this
  simp [hg, hafter, this, Ne.symm hg]

end Holds

/-- Both maps have one value a key, and every thread holds what the table says. -/
structure LocksOk (k : Locks) (threads : ℕ → Thread) : Prop where
  ok : ∀ i, (threads i).Ok
  holds : ∀ i, Holds k i (threads i)
  mutexes : (k.produceSync.map Mutex.key).Nodup
  guards : (k.guards.map TopicGuard.topic).Nodup

namespace LocksOk

variable {k k' : Locks} {threads : ℕ → Thread} {i j : ℕ} {t' : Thread} {m m' : Mutex} {g g' : TopicGuard}

theorem write (h : LocksOk k threads) (hok : t'.Ok) (hown : Holds k' i t')
    (hothers : ∀ j, j ≠ i → Holds k j (threads j) → Holds k' j (threads j))
    (hmutexes : (k'.produceSync.map Mutex.key).Nodup) (hguards : (k'.guards.map TopicGuard.topic).Nodup) :
    LocksOk k' (update threads i t') where
  ok := by
    intro j
    by_cases hj : j = i
    · simpa [hj] using hok
    · simpa [hj] using h.ok j
  holds := by
    intro j
    by_cases hj : j = i
    · simpa [hj] using hown
    · simpa [hj] using hothers j hj (h.holds j)
  mutexes := hmutexes
  guards := hguards

/-- A thread moves on with the locks it has. -/
theorem set (h : LocksOk k threads) (hok : t'.Ok) (hheld : t'.held = (threads i).held)
    (hpending : t'.pc.pending = (threads i).pc.pending) (hguard : t'.guard = (threads i).guard)
    (href : t'.ref = (threads i).ref) : LocksOk k (update threads i t') :=
  h.write hok ((h.holds i).congr hheld hpending hguard href) (fun _ _ hj => hj) h.mutexes h.guards

section Moves

variable (h : LocksOk k threads) (hok : t'.Ok)
include h hok

theorem lock (hfree : k.mutexHolder m = none) (hheld : t'.held = (threads i).held)
    (hbefore : (threads i).pc.pending = []) (hafter : t'.pc.pending = [m])
    (hguard : t'.guard = (threads i).guard) (href : t'.ref = (threads i).ref) :
    LocksOk { k with mutexHolder := update k.mutexHolder m (some i) } (update threads i t') :=
  h.write hok ((h.holds i).lock hfree hheld hbefore hafter hguard href)
    (fun _ hne hj => hj.mutex_other (by simp [hfree]) (by simp [hne.symm])) h.mutexes h.guards

/-- The mutex just locked is the one in the map. -/
theorem keep (hm : m ∈ k.produceSync) (hbefore : (threads i).pc.pending = [m])
    (hheld : t'.held = (threads i).held ++ [m]) (hafter : t'.pc.pending = [])
    (hguard : t'.guard = (threads i).guard) (href : t'.ref = (threads i).ref) : LocksOk k (update threads i t') := by
  have hi := h.holds i
  have hmutexes : t'.mutexes = (threads i).mutexes := by simp [Thread.mutexes, hbefore, hheld, hafter]
  refine h.write hok ?_ (fun _ _ hj => hj) h.mutexes h.guards
  exact
    { mutex := fun m => hmutexes ▸ hi.mutex m
      nodup := hmutexes ▸ hi.nodup
      valid := by
        intro m' hm'
        rw [hheld] at hm'
        rcases mem_append.mp hm' with hm' | hm'
        · exact hi.valid m' hm'
        · rw [mem_singleton.mp hm']
          exact hm
      guard := fun g => hguard ▸ hi.guard g
      ref := fun g => href ▸ hi.ref g }

theorem unlock (hsplit : ∃ a b, (threads i).mutexes = a ++ m :: b ∧ t'.mutexes = a ++ b)
    (hheld : ∀ m' ∈ t'.held, m' ∈ (threads i).held) (hguard : t'.guard = (threads i).guard)
    (href : t'.ref = (threads i).ref) :
    LocksOk { k with mutexHolder := update k.mutexHolder m none } (update threads i t') := by
  have hmine : k.mutexHolder m = some i := by
    obtain ⟨a, b, hbefore, -⟩ := hsplit
    refine ((h.holds i).mutex m).mpr ?_
    simp [hbefore]
  exact h.write hok ((h.holds i).unlock hsplit hheld hguard href)
    (fun _ hne hj => hj.mutex_other (by simp [hmine, hne.symm]) (by simp)) h.mutexes h.guards

/-- A mutex is only retired by a thread that has locked it, so no thread relies on it. -/
theorem retire (hpending : (threads i).pc.pending = [m]) (hbare : (threads i).held = []) (hheld : t'.held = [])
    (hafter : t'.pc.pending = [m]) (hguard : t'.guard = (threads i).guard) (href : t'.ref = (threads i).ref)
    (hm : m ∈ k.produceSync) :
    LocksOk { k with produceSync := k.produceSync.filter fun m' => m'.key ≠ m.key } (update threads i t') := by
  have hmine : k.mutexHolder m = some i := by
    refine ((h.holds i).mutex m).mpr ?_
    simp [Thread.mutexes, hpending]
  have hown : Holds k i t' :=
    (h.holds i).congr (hheld.trans hbare.symm) (hafter.trans hpending.symm) hguard href
  refine h.write hok (hown.frame rfl rfl ?_ fun _ _ hg hu => ⟨hg, hu⟩) ?_ ?_ h.guards
  · intro m' hm'
    simp [hheld] at hm'
  · intro j hne hj
    refine hj.frame rfl rfl ?_ fun _ _ hg hu => ⟨hg, hu⟩
    intro m' hm' hmem
    refine mem_filter.mpr ⟨hmem, ?_⟩
    by_contra hkey
    have hsame : m' = m := inj_on_of_nodup_map h.mutexes hmem hm (by simpa using hkey)
    have htheirs := (hj.mutex m').mpr (mem_append_left _ hm')
    rw [hsame, hmine] at htheirs
    exact hne (some_inj.mp htheirs).symm
  · exact h.mutexes.sublist ((filter_sublist).map _)

section

variable (hheld : t'.held = (threads i).held) (hpending : t'.pc.pending = (threads i).pc.pending)
include hheld hpending

theorem lockGuard (hfree : k.guardHolder g = none) (hbefore : (threads i).guard = none)
    (hafter : t'.guard = some g) (href : (threads i).ref = some g) (href' : t'.ref = some g) :
    LocksOk { k with guardHolder := update k.guardHolder g (some i) } (update threads i t') :=
  h.write hok ((h.holds i).guard_lock hbefore hafter hheld hpending href href')
    (fun _ hne hj => hj.guard_other (by simp [hfree]) (by simp [hne.symm])) h.mutexes h.guards

theorem unlockGuard (hbefore : (threads i).guard = some g) (hafter : t'.guard = none) (href : t'.ref =
    (threads i).ref) : LocksOk { k with guardHolder := update k.guardHolder g none } (update threads i t') :=
  h.write hok ((h.holds i).guard_unlock hbefore hafter hheld hpending href)
    (fun _ hne hj => hj.guard_other (by simp [((h.holds i).guard g).mpr hbefore, hne.symm]) (by simp))
    h.mutexes h.guards

variable (hguard : t'.guard = (threads i).guard)
include hguard

theorem mint {n : ℕ} (hnew : ∀ m' ∈ k.produceSync, m'.key ≠ m.key) (href : t'.ref = (threads i).ref) :
    LocksOk { k with produceSync := m :: k.produceSync, nextMutex := n } (update threads i t') := by
  have hgrow : ∀ j t, Holds k j t → Holds { k with produceSync := m :: k.produceSync, nextMutex := n } j t :=
    fun j t hj => hj.frame rfl rfl (fun _ _ hm => .tail _ hm) (fun _ _ hg hu => ⟨hg, hu⟩)
  refine h.write hok (hgrow i t' ((h.holds i).congr hheld hpending hguard href)) (fun j _ => hgrow j _) ?_ h.guards
  refine nodup_cons.mpr ⟨?_, h.mutexes⟩
  intro hmem
  obtain ⟨m', hm', hkey⟩ := mem_map.mp hmem
  exact hnew m' hm' hkey

theorem countOn (hg : g ∈ k.guards) (href : t'.ref = some g) :
    LocksOk { k with users := update k.users g (i :: k.users g) } (update threads i t') := by
  have hi := h.holds i
  refine h.write hok ?_ ?_ h.mutexes h.guards
  · refine hi.same_mutexes hheld hpending rfl rfl (fun g => hguard ▸ hi.guard g) fun g' hg' => ?_
    rw [href, some_inj] at hg'
    subst hg'
    simp [hg]
  · intro j hne hj
    refine hj.frame rfl rfl (fun _ _ hm => hm) ?_
    intro g' _ hg' hu
    refine ⟨hg', ?_⟩
    by_cases hsame : g' = g
    · subst hsame
      simp [hu]
    · simpa [hsame] using hu

theorem countNew {n : ℕ} (hnew : ∀ g' ∈ k.guards, g'.topic ≠ g.topic) (href : t'.ref = some g) :
    LocksOk { k with guards := g :: k.guards, users := update k.users g [i], nextGuard := n }
      (update threads i t') := by
  have hi := h.holds i
  refine h.write hok ?_ ?_ h.mutexes ?_
  · refine hi.same_mutexes hheld hpending rfl rfl (fun g => hguard ▸ hi.guard g) fun g' hg' => ?_
    rw [href, some_inj] at hg'
    subst hg'
    simp
  · intro j hne hj
    refine hj.frame rfl rfl (fun _ _ hm => hm) ?_
    intro g' _ hg' hu
    have hsame : g' ≠ g := fun hsame => hnew g' hg' (by rw [hsame])
    exact ⟨.tail _ hg', by simpa [hsame] using hu⟩
  · refine nodup_cons.mpr ⟨?_, h.guards⟩
    intro hmem
    obtain ⟨g', hg', htopic⟩ := mem_map.mp hmem
    exact hnew g' hg' htopic

/-- The last user of a guard takes it out of the map. -/
theorem dropRef (href : (threads i).ref = some g) (href' : t'.ref = none) : LocksOk { k with
      users := update k.users g ((k.users g).erase i)
      guards := if (k.users g).erase i = [] then k.guards.filter fun g' => g'.topic ≠ g.topic else k.guards }
      (update threads i t') := by
  have hi := h.holds i
  refine h.write hok ?_ ?_ h.mutexes ?_
  · exact hi.same_mutexes hheld hpending rfl rfl (fun g => hguard ▸ hi.guard g) (by simp [href'])
  · intro j hne hj
    refine hj.frame rfl rfl (fun _ _ hm => hm) ?_
    intro g' _ hg' hu
    -- another thread that counts on the topic's guard counts on this one
    have hmine : g ∈ k.guards := (hi.ref g href).1
    have husers : g' = g → j ∈ (k.users g).erase i := fun hsame =>
      (mem_erase_of_ne hne).mpr (hsame ▸ hu)
    constructor
    · show g' ∈ if _ then _ else _
      split
      next hempty =>
        refine mem_filter.mpr ⟨hg', ?_⟩
        by_contra htopic
        have hsame := inj_on_of_nodup_map h.guards hg' hmine (by simpa using htopic)
        have := husers hsame
        simp [hempty] at this
      · exact hg'
    · by_cases hsame : g' = g
      · subst hsame
        simpa using husers rfl
      · simpa [hsame] using hu
  · show (map _ (if _ then _ else _)).Nodup
    split
    · exact h.guards.sublist ((filter_sublist).map _)
    · exact h.guards

end

end Moves

theorem mutex_alone (h : LocksOk k threads) (hi : m ∈ (threads i).held) (hj : m' ∈ (threads j).held)
    (hkey : m.key = m'.key) : i = j := by
  have hm : m = m' := inj_on_of_nodup_map h.mutexes ((h.holds i).valid m hi) ((h.holds j).valid m' hj) hkey
  have hi' := ((h.holds i).mutex m).mpr (mem_append_left _ hi)
  have hj' := ((h.holds j).mutex m').mpr (mem_append_left _ hj)
  rw [hm, hj'] at hi'
  exact (some_inj.mp hi').symm

theorem guard_alone (h : LocksOk k threads) (hi : (threads i).guard = some g) (hj : (threads j).guard = some g')
    (htopic : (threads i).topic = (threads j).topic) : i = j := by
  obtain ⟨hrefi, htopici⟩ := (h.ok i).ref_of_guard hi
  obtain ⟨hrefj, htopicj⟩ := (h.ok j).ref_of_guard hj
  have hg : g = g' := inj_on_of_nodup_map h.guards ((h.holds i).ref g hrefi).1
    ((h.holds j).ref g' hrefj).1 (by rw [htopici, htopicj, htopic])
  have hi' := ((h.holds i).guard g).mpr hi
  have hj' := ((h.holds j).guard g').mpr hj
  rw [hg, hj'] at hi'
  exact (some_inj.mp hi').symm

end LocksOk

end Narad.Runtime
