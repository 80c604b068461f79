import Narad.Runtime.LogLocks

/-!
# The log map under its locks

A topic's entries are added, claimed and dropped only under the topic's guard. `Sees` says what a thread
relies on while it is there: a claimed entry is marked, and an open under way has no entry in its place.
`LogsOk` relates the map to the threads: a log is open exactly while it is in the map or about to be put
there, and an entry being closed is some thread's claim.
-/

namespace Narad.Runtime

open List
open Function (update update_of_ne update_self)

namespace Thread

/-- What an operation under the guard has made sure of. -/
def Sure (m : LogMap) (t : Thread) : Pc → Prop
  | .ensure .. | .quarantine .. | .mark .. | .newLog .. => ∀ e ∈ m.logs, e.log.key ≠ t.key
  | .install _ _ l => (∀ e ∈ m.logs, e.log.key ≠ t.key) ∧ l.key = t.key ∧ m.phase l = .opened
  | .closeLog after => after.opens = true → ∀ e ∈ m.logs, e.log.key.topic = t.topic → e.log ∈ t.claimed
  | .dropEntry after =>
    (after.opens = true → ∀ e ∈ m.logs, e.log.key.topic = t.topic → e.log ∈ t.claimed) ∧
      ∀ l ∈ t.claimed.head?, m.phase l ≠ .opened
  | _ => True

end Thread

structure Sees (m : LogMap) (t : Thread) : Prop where
  claims : ∀ l ∈ t.claimed, ∀ e ∈ m.logs, e.log = l → e.closing = true
  sure : t.Sure m t.pc

/-- The map has changed in one topic only. -/
structure Touches (m m' : LogMap) (topic : String) : Prop where
  logs : ∀ e, e.log.key.topic ≠ topic → (e ∈ m'.logs ↔ e ∈ m.logs)
  phase : ∀ l, l.key.topic ≠ topic → m'.phase l = m.phase l

structure LogsOk (m : LogMap) (threads : ℕ → Thread) (clock : ℕ) : Prop where
  sees : ∀ i, Sees m (threads i)
  keys : (m.logs.map fun e => e.log.key).Nodup
  closing : ∀ e ∈ m.logs, e.closing = true → ∃ i, e.log ∈ (threads i).claimed
  live : ∀ e ∈ m.logs, e.closing = false → m.phase e.log = .opened
  opened : ∀ l, m.phase l = .opened →
    (∃ e ∈ m.logs, e.log = l) ∨ ∃ i version id, (threads i).pc = .install version id l
  served : ∀ p ∈ m.served, p.2 ≤ clock ∧ ∀ n, m.phase p.1 = .closed n → p.2 ≤ n
  began : ∀ i, (threads i).began ≤ clock

structure InOrder (k : Locks) (m : LogMap) (threads : ℕ → Thread) (clock : ℕ) : Prop where
  locks : LocksOk k threads
  logs : LogsOk m threads clock

abbrev State.InOrder (s : State) : Prop :=
  Runtime.InOrder s.toLocks s.toLogMap s.threads s.clock

variable {t : Thread}

theorem Thread.Ok.of_guard_none (hok : t.Ok) (hguard : t.guard = none) :
    t.claimed = [] ∧ t.pc.stage ≠ .guarded ∧ t.pc.stage ≠ .closing := by
  have hfits := hok.fits
  cases hstage : t.pc.stage <;> rw [hstage] at hfits <;> simp_all [Thread.Fits]

/-- Without the guard a thread relies on nothing. -/
theorem Sees.of_guard_none {m : LogMap} (hok : t.Ok) (hguard : t.guard = none) : Sees m t := by
  have hfits := hok.fits
  refine ⟨by simp [(hok.of_guard_none hguard).1], ?_⟩
  cases hpc : t.pc <;> first | trivial | (rw [hpc] at hfits; simp [Pc.stage, Thread.Fits, hguard] at hfits)

/-- What a thread relies on is of its own topic. -/
theorem Sees.frame {m m' : LogMap} {topic : String} (h : Sees m t) (hok : t.Ok)
    (htouch : Touches m m' topic) (htopic : t.topic ≠ topic) : Sees m' t := by
  have hentry : ∀ e, e.log.key.topic = t.topic → (e ∈ m'.logs ↔ e ∈ m.logs) :=
    fun e he => htouch.logs e (he ▸ htopic)
  have hkey : (∀ e ∈ m.logs, e.log.key ≠ t.key) → ∀ e ∈ m'.logs, e.log.key ≠ t.key :=
    fun hall e he hk => hall e ((hentry e (hk ▸ rfl)).mp he) hk
  have hall : (∀ e ∈ m.logs, e.log.key.topic = t.topic → e.log ∈ t.claimed) →
      ∀ e ∈ m'.logs, e.log.key.topic = t.topic → e.log ∈ t.claimed :=
    fun hall e he ht => hall e ((hentry e ht).mp he) ht
  have hfits := hok.fits
  have hsure := h.sure
  constructor
  · intro l hl e he hel
    have ht : l.key.topic = t.topic := by
      cases hstage : t.pc.stage <;> rw [hstage] at hfits <;>
        simp only [Thread.Fits, ne_nil_of_mem hl, and_false, false_and] at hfits
      exact (hfits.2.2 l hl).1
    exact h.claims l hl e ((hentry e (by rw [hel, ht])).mp he) hel
  · cases hpc : t.pc <;> rw [hpc] at hsure <;> try trivial
    case ensure => exact hkey hsure
    case quarantine => exact hkey hsure
    case mark => exact hkey hsure
    case newLog => exact hkey hsure
    case install version id l =>
      refine ⟨hkey hsure.1, hsure.2.1, ?_⟩
      rw [htouch.phase l (by rw [hsure.2.1]; exact htopic)]
      exact hsure.2.2
    case closeLog after => exact fun hopens => hall (hsure hopens)
    case dropEntry after =>
      refine ⟨fun hopens => hall (hsure.1 hopens), ?_⟩
      intro l hl
      rw [hpc] at hfits
      have hmem : l ∈ t.claimed := mem_of_mem_head? hl
      rw [htouch.phase l (by rw [(hfits.2.2 l hmem).1]; exact htopic)]
      exact hsure.2 l hl

namespace LogsOk

variable {m m' : LogMap} {threads : ℕ → Thread} {clock : ℕ} {i : ℕ} {t' : Thread}

/-- A thread moves on and the map stays. -/
theorem set (h : LogsOk m threads clock) (hsees : Sees m t') (hclaimed : t'.claimed = (threads i).claimed)
    (hinstall : ∀ version id l, (threads i).pc ≠ .install version id l) (hbegan : t'.began ≤ clock) :
    LogsOk m (update threads i t') clock :=
  { h with
    sees := by
      intro j
      by_cases hj : j = i
      · simpa [hj] using hsees
      · simpa [hj] using h.sees j
    closing := by
      intro e he hclosing
      obtain ⟨j, hj⟩ := h.closing e he hclosing
      refine ⟨j, ?_⟩
      by_cases hji : j = i
      · subst hji
        simpa [hclaimed] using hj
      · simpa [hji] using hj
    opened := by
      intro l hl
      refine (h.opened l hl).imp_right ?_
      rintro ⟨j, version, id, hj⟩
      have hji : j ≠ i := fun hji => hinstall version id l (hji ▸ hj)
      exact ⟨j, version, id, by simpa [hji] using hj⟩
    began := by
      intro j
      by_cases hj : j = i
      · simpa [hj] using hbegan
      · simpa [hj] using h.began j }

/-- Open logs are returned by Gets. -/
theorem serve (h : LogsOk m threads clock) {ls : List Log} {began : ℕ} (hopen : ∀ l ∈ ls, m.phase l = .opened)
    (hbegan : began ≤ clock) : LogsOk { m with served := ls.map (·, began) ++ m.served } threads clock :=
  { h with
    sees := fun j => ⟨(h.sees j).claims, by
      have := (h.sees j).sure
      cases hpc : (threads j).pc <;> rw [hpc] at this <;> exact this⟩
    served := by
      intro p hp
      rcases mem_append.mp hp with hp | hp
      · obtain ⟨l, hl, rfl⟩ := mem_map.mp hp
        refine ⟨hbegan, fun n hn => ?_⟩
        rw [hopen l hl] at hn
        cases hn
      · exact h.served p hp }

/-- What the others rely on is not of the topic whose guard a thread holds. -/
theorem others (h : LogsOk m threads clock) {k : Locks} (hlocks : LocksOk k threads)
    (hguard : (threads i).guard.isSome = true) (htouch : Touches m m' (threads i).topic) {j : ℕ} (hj : j ≠ i) :
    Sees m' (threads j) := by
  obtain ⟨g, hg⟩ := Option.isSome_iff_exists.mp hguard
  cases hguard' : (threads j).guard with
  | none => exact Sees.of_guard_none (hlocks.ok j) hguard'
  | some g' =>
    refine (h.sees j).frame (hlocks.ok j) htouch fun htopic => ?_
    exact hj (hlocks.guard_alone hguard' hg htopic)

section Moves

variable {k : Locks} (h : LogsOk m threads clock) (hlocks : LocksOk k threads)
  (hguard : (threads i).guard.isSome = true) (hbegan : t'.began ≤ clock)
include h hlocks hguard hbegan

/-- A thread that holds the guard changes the entries and logs of its topic. -/
theorem write (htouch : Touches m m' (threads i).topic) (hsees : Sees m' t')
    (hkeys : (m'.logs.map fun e => e.log.key).Nodup) (hclosing : ∀ e ∈ m'.logs, e.closing = true →
      e.log ∈ t'.claimed ∨ ∃ j, j ≠ i ∧ e.log ∈ (threads j).claimed)
    (hlive : ∀ e ∈ m'.logs, e.closing = false → m'.phase e.log = .opened)
    (hopened : ∀ l, m'.phase l = .opened → (∃ e ∈ m'.logs, e.log = l) ∨
      (∃ version id, t'.pc = .install version id l) ∨ ∃ j version id, j ≠ i ∧ (threads j).pc = .install version id l)
    (hserved : ∀ p ∈ m'.served, p.2 ≤ clock ∧ ∀ n, m'.phase p.1 = .closed n → p.2 ≤ n) :
    LogsOk m' (update threads i t') clock where
  sees := by
    intro j
    by_cases hj : j = i
    · simpa [hj] using hsees
    · simpa [hj] using h.others hlocks hguard htouch hj
  keys := hkeys
  closing := by
    intro e he hc
    rcases hclosing e he hc with hmine | ⟨j, hj, htheirs⟩
    · exact ⟨i, by simpa using hmine⟩
    · exact ⟨j, by simpa [hj] using htheirs⟩
  live := hlive
  opened := by
    intro l hl
    refine (hopened l hl).imp_right ?_
    rintro (⟨version, id, hmine⟩ | ⟨j, version, id, hj, htheirs⟩)
    · exact ⟨i, version, id, by simpa using hmine⟩
    · exact ⟨j, version, id, by simpa [hj] using htheirs⟩
  served := hserved
  began := by
    intro j
    by_cases hj : j = i
    · simpa [hj] using hbegan
    · simpa [hj] using h.began j

omit hguard hbegan hlocks in
theorem closing_other {e : LogEntry} (he : e ∈ m.logs) (hc : e.closing = true) (hnot : e.log ∉ (threads i).claimed) :
    ∃ j, j ≠ i ∧ e.log ∈ (threads j).claimed := by
  obtain ⟨j, hj⟩ := h.closing e he hc
  exact ⟨j, fun hji => hnot (hji ▸ hj), hj⟩

omit hguard hbegan hlocks in
theorem opened_other {l : Log} (hl : m.phase l = .opened)
    (hinstall : ∀ version id l, (threads i).pc ≠ .install version id l) :
    (∃ e ∈ m.logs, e.log = l) ∨ ∃ j version id, j ≠ i ∧ (threads j).pc = .install version id l := by
  refine (h.opened l hl).imp_right ?_
  rintro ⟨j, version, id, hj⟩
  exact ⟨j, version, id, fun hji => hinstall version id l (hji ▸ hj), hj⟩

variable {after : After}

/-- Entries of the topic are claimed; for an open, all of them. -/
theorem claim {p : LogEntry → Bool} (hp : ∀ e, p e = true → e.log.key.topic = (threads i).topic)
    (hall : after.opens = true → ∀ e, e.log.key.topic = (threads i).topic → p e = true)
    (hclaimed : (threads i).claimed = []) (hinstall : ∀ version id l, (threads i).pc ≠ .install version id l)
    (htopic : t'.topic = (threads i).topic) (hclaimed' : t'.claimed = (m.logs.filter p).map LogEntry.log)
    (hpc : t'.pc = .closeLog after) :
    LogsOk { m with logs := m.logs.map fun e => if p e then { e with closing := true } else e }
      (update threads i t') clock := by
  have hlog : ∀ e : LogEntry, (if p e then { e with closing := true } else e).log = e.log := by
    intro e
    split <;> rfl
  have hin : ∀ e ∈ m.logs, p e = true → e.log ∈ t'.claimed := by
    intro e he hpe
    rw [hclaimed']
    exact mem_map_of_mem (mem_filter.mpr ⟨he, hpe⟩)
  refine h.write hlocks hguard hbegan ?_ ⟨?_, ?_⟩ ?_ ?_ ?_ ?_ h.served
  · refine ⟨fun e he => ?_, fun _ _ => rfl⟩
    rw [mem_map]
    constructor
    · rintro ⟨e', he', rfl⟩
      rw [hlog] at he
      have : p e' = false := Bool.eq_false_iff.mpr fun hpe => he (hp e' hpe)
      simpa [this] using he'
    · intro he'
      have : p e = false := Bool.eq_false_iff.mpr fun hpe => he (hp e hpe)
      exact ⟨e, he', by simp [this]⟩
  · intro l hl e he hel
    obtain ⟨e', he', rfl⟩ := mem_map.mp he
    rw [hclaimed'] at hl
    obtain ⟨e₀, he₀, rfl⟩ := mem_map.mp hl
    obtain ⟨he₀, hpe⟩ := mem_filter.mp he₀
    rw [hlog] at hel
    have hsame : e' = e₀ := inj_on_of_nodup_map h.keys he' he₀ (hel ▸ rfl)
    rw [hsame, if_pos hpe]
  · rw [hpc]
    intro hopens e he ht
    obtain ⟨e', he', rfl⟩ := mem_map.mp he
    rw [hlog] at ht ⊢
    exact hin e' he' (hall hopens e' (ht.trans htopic))
  · rw [map_map]
    have hkey : (fun e : LogEntry => e.log.key) ∘ (fun e => if p e then { e with closing := true } else e) =
        fun e => e.log.key := by
      funext e
      rw [Function.comp_apply, hlog]
    rw [hkey]
    exact h.keys
  · intro e he hc
    obtain ⟨e', he', rfl⟩ := mem_map.mp he
    rw [hlog]
    by_cases hpe : p e' = true
    · exact .inl (hin e' he' hpe)
    · rw [if_neg hpe] at hc
      exact .inr (h.closing_other he' hc (by simp [hclaimed]))
  · intro e he hc
    obtain ⟨e', he', rfl⟩ := mem_map.mp he
    by_cases hpe : p e' = true
    · rw [if_pos hpe] at hc
      cases hc
    · rw [if_neg hpe] at hc ⊢
      exact h.live e' he' hc
  · intro l hl
    refine (h.opened_other hl hinstall).imp ?_ .inr
    rintro ⟨e, he, rfl⟩
    exact ⟨_, mem_map_of_mem he, hlog e⟩

variable {l : Log}

/-- The first claimed log is closed. -/
theorem close {rest : List Log} (hclaimed : (threads i).claimed = l :: rest)
    (hl : l.key.topic = (threads i).topic) (hpc : (threads i).pc = .closeLog after)
    (htopic : t'.topic = (threads i).topic) (hclaimed' : t'.claimed = l :: rest) (hpc' : t'.pc = .dropEntry after) :
    LogsOk { m with phase := update m.phase l (.closed clock) } (update threads i t') clock := by
  have hsees := h.sees i
  have hphase : ∀ l', update m.phase l (.closed clock) l' = .opened → l' ≠ l ∧ m.phase l' = .opened := by
    intro l' hl'
    by_cases hsame : l' = l
    · simp [hsame] at hl'
    · exact ⟨hsame, by simpa [hsame] using hl'⟩
  refine h.write hlocks hguard hbegan ?_ ⟨?_, ?_⟩ h.keys ?_ ?_ ?_ ?_
  · refine ⟨fun _ _ => Iff.rfl, fun l' hl' => ?_⟩
    exact update_of_ne (fun hsame => hl' (by rw [hsame, hl])) _ _
  · rw [hclaimed', ← hclaimed]
    exact hsees.claims
  · rw [hpc']
    have hsure := hsees.sure
    rw [hpc] at hsure
    refine ⟨fun hopens e he ht => ?_, ?_⟩
    · rw [hclaimed', ← hclaimed]
      exact hsure hopens e he (ht.trans htopic)
    · simp [hclaimed']
  · intro e he hc
    by_cases hmem : e.log ∈ (threads i).claimed
    · exact .inl (by rw [hclaimed', ← hclaimed]; exact hmem)
    · exact .inr (h.closing_other he hc hmem)
  · intro e he hc
    have hne : e.log ≠ l := by
      intro hsame
      have := hsees.claims l (by simp [hclaimed]) e he hsame
      rw [hc] at this
      cases this
    show update m.phase l _ e.log = _
    rw [update_of_ne hne]
    exact h.live e he hc
  · intro l' hl'
    have hl' := (hphase l' hl').2
    exact (h.opened_other hl' (by simp [hpc])).imp_right .inr
  · intro p hp
    refine ⟨(h.served p hp).1, fun n hn => ?_⟩
    by_cases hsame : p.1 = l
    · simp only [hsame, update_self, Phase.closed.injEq] at hn
      exact hn ▸ (h.served p hp).1
    · exact (h.served p hp).2 n (by simpa [hsame] using hn)

/-- The entry of the closed log is dropped. -/
theorem drop {rest : List Log} (hclaimed : (threads i).claimed = l :: rest)
    (hl : l.key.topic = (threads i).topic) (hpc : (threads i).pc = .dropEntry after)
    (htopic : t'.topic = (threads i).topic) (hclaimed' : t'.claimed = rest) (hpc' : t'.pc = .closeLog after) :
    LogsOk { m with logs := m.logs.filter fun e => e.log ≠ l } (update threads i t') clock := by
  have hsees := h.sees i
  have hsure := hsees.sure
  rw [hpc] at hsure
  have hmem : ∀ e, e ∈ m.logs.filter (fun e => e.log ≠ l) ↔ e ∈ m.logs ∧ e.log ≠ l := by simp
  have hrest : ∀ e : LogEntry, e.log ≠ l → e.log ∈ (threads i).claimed → e.log ∈ t'.claimed := by
    intro e hne hin
    rw [hclaimed] at hin
    rw [hclaimed']
    exact (mem_cons.mp hin).resolve_left hne
  refine h.write hlocks hguard hbegan ?_ ⟨?_, ?_⟩ ?_ ?_ ?_ ?_ h.served
  · refine ⟨fun e he => ?_, fun _ _ => rfl⟩
    rw [hmem]
    exact and_iff_left fun hsame => he (by rw [hsame, hl])
  · intro l' hl' e he hel
    exact hsees.claims l' (by rw [hclaimed]; exact .tail _ (hclaimed' ▸ hl')) e ((hmem e).mp he).1 hel
  · rw [hpc']
    intro hopens e he ht
    obtain ⟨he, hne⟩ := (hmem e).mp he
    exact hrest e hne (hsure.1 hopens e he (ht.trans htopic))
  · exact h.keys.sublist ((filter_sublist).map _)
  · intro e he hc
    obtain ⟨he, hne⟩ := (hmem e).mp he
    by_cases hin : e.log ∈ (threads i).claimed
    · exact .inl (hrest e hne hin)
    · exact .inr (h.closing_other he hc hin)
  · intro e he hc
    exact h.live e ((hmem e).mp he).1 hc
  · intro l' hl'
    refine (h.opened_other hl' (by simp [hpc])).imp ?_ .inr
    rintro ⟨e, he, rfl⟩
    refine ⟨e, (hmem e).mpr ⟨he, fun hsame => ?_⟩, rfl⟩
    exact hsure.2 l (by simp [hclaimed]) (hsame ▸ hl')

/-- A log is opened where no entry is. -/
theorem openLog {version n : ℕ} {id : String} (hl : l.key = (threads i).key)
    (hclaimed : (threads i).claimed = []) (hpc : (threads i).pc = .newLog version id)
    (hkey : t'.key = (threads i).key) (hclaimed' : t'.claimed = []) (hpc' : t'.pc = .install version id l) :
    LogsOk { m with phase := update m.phase l .opened, nextLog := n } (update threads i t') clock := by
  have hsure := (h.sees i).sure
  rw [hpc] at hsure
  refine h.write hlocks hguard hbegan ?_ ⟨by simp [hclaimed'], ?_⟩ h.keys ?_ ?_ ?_ ?_
  · refine ⟨fun _ _ => Iff.rfl, fun l' hl' => ?_⟩
    exact update_of_ne (fun hsame => hl' (by rw [hsame, hl]; rfl)) _ _
  · rw [hpc']
    exact ⟨hkey ▸ hsure, hl.trans hkey.symm, update_self ..⟩
  · intro e he hc
    exact .inr (h.closing_other he hc (by simp [hclaimed]))
  · intro e he hc
    have hne : e.log ≠ l := fun hsame => hsure e he (by rw [hsame, hl])
    show update m.phase l _ e.log = _
    rw [update_of_ne hne]
    exact h.live e he hc
  · intro l' hl'
    by_cases hsame : l' = l
    · exact .inr (.inl ⟨version, id, by rw [hpc', hsame]⟩)
    · have hl' : m.phase l' = .opened := by simpa [hsame] using hl'
      exact (h.opened_other hl' (by simp [hpc])).imp_right .inr
  · intro p hp
    refine ⟨(h.served p hp).1, fun n hn => ?_⟩
    by_cases hsame : p.1 = l
    · simp [hsame] at hn
    · exact (h.served p hp).2 n (by simpa [hsame] using hn)

/-- The opened log gets its entry and is returned. -/
theorem install {version : ℕ} {id : String} (hclaimed : (threads i).claimed = [])
    (hpc : (threads i).pc = .install version id l) (hclaimed' : t'.claimed = []) (hpc' : t'.pc = .releaseGuard) :
    LogsOk { m with
      logs := { log := l, incarnation := id } :: m.logs.filter fun e => e.log.key ≠ l.key
      served := (l, (threads i).began) :: m.served } (update threads i t') clock := by
  have hsure := (h.sees i).sure
  rw [hpc] at hsure
  obtain ⟨hnone, hl, hphase⟩ := hsure
  have hmem : ∀ e, e ∈ { log := l, incarnation := id } :: m.logs.filter (fun e => e.log.key ≠ l.key) ↔
      e = { log := l, incarnation := id } ∨ e ∈ m.logs := by
    intro e
    rw [mem_cons, mem_filter]
    refine or_congr_right (and_iff_left_of_imp fun he => ?_)
    simpa [hl] using hnone e he
  refine h.write hlocks hguard hbegan ?_ ⟨by simp [hclaimed'], by rw [hpc']; trivial⟩ ?_ ?_ ?_ ?_ ?_
  · refine ⟨fun e he => ?_, fun _ _ => rfl⟩
    rw [hmem]
    exact or_iff_right fun hsame => he (by rw [hsame, hl]; rfl)
  · refine nodup_cons.mpr ⟨?_, h.keys.sublist ((filter_sublist).map _)⟩
    simp
  · intro e he hc
    rcases (hmem e).mp he with rfl | he
    · cases hc
    · exact .inr (h.closing_other he hc (by simp [hclaimed]))
  · intro e he hc
    rcases (hmem e).mp he with rfl | he
    · exact hphase
    · exact h.live e he hc
  · intro l' hl'
    rcases h.opened l' hl' with ⟨e, he, rfl⟩ | ⟨j, version', id', hj⟩
    · exact .inl ⟨e, (hmem e).mpr (.inr he), rfl⟩
    by_cases hji : j = i
    · subst hji
      rw [hpc] at hj
      cases hj
      exact .inl ⟨_, (hmem _).mpr (.inl rfl), rfl⟩
    · exact .inr (.inr ⟨j, version', id', hji, hj⟩)
  · intro p hp
    rcases mem_cons.mp hp with rfl | hp
    · refine ⟨h.began i, fun n hn => ?_⟩
      rw [hphase] at hn
      cases hn
    · exact h.served p hp

end Moves

theorem tick (h : LogsOk m threads clock) : LogsOk m threads (clock + 1) :=
  { h with
    served := fun p hp => ⟨Nat.le_succ_of_le (h.served p hp).1, (h.served p hp).2⟩
    began := fun i => Nat.le_succ_of_le (h.began i) }

end LogsOk

end Narad.Runtime
