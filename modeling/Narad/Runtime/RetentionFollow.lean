import Narad.Runtime.Logs

/-!
# Retention alters and the open logs

An alter writes the topic's record, publishes the topic's version and then the metadata version. A Get off
the fast path and a topic's part of the background pass read the version and then the record, under the
topic's guard, and put the record's bound on the open logs. The pass first reads the metadata version and
scans the open logs for those whose topic version has moved.

Topics are neither deleted nor recreated here. What holds a guard is part of the topic, since there is at
most one; the fast path of a Get changes nothing and is left out.
-/

namespace Narad.Runtime.Retention

open Function (update update_apply update_self)
open Lib Option

/-- An entry of the log map, and the revision of the topic's record that its age bound is of. -/
structure Entry where
  maxAge : ℤ
  revision : ℕ
  version : ℕ
  closing : Bool := false

/-- What holds a topic's guard. -/
inductive Job where
  | get (idx : ℤ)
  | close (idx : ℤ)
  | follow
  deriving DecidableEq

inductive Stage where
  | guarded
  | versionRead (version : ℕ)
  | recordRead (version revision : ℕ)
  | apply (version revision : ℕ) (todo : List ℤ)
  | store (version revision : ℕ) (idx : ℤ) (todo : List ℤ)
  | opened (version revision : ℕ)
  | claimed

inductive PassStage where
  | begun
  | scan (todo : List LogKey)
  | loaded (key : LogKey) (version : ℕ) (todo : List LogKey)
  | next
  | following (topic : String)
  deriving DecidableEq

/-- A background pass: the metadata version it read, and the topics it has found stale. -/
structure Pass where
  latest : ℕ
  stage : PassStage := .begun
  stale : List String := []
  complete : Bool := true

structure State where
  /-- How often each topic's record was written, and the version published for it. -/
  written : String → ℕ := fun _ => 0
  topicVersion : String → ℕ := fun _ => 0
  metadataVersion : ℕ := 0
  /-- The alter under way, and whether its topic version is published. -/
  applying : Option (String × Bool) := none
  logs : LogKey → Option Entry := fun _ => none
  keys : List LogKey := []
  holder : String → Option (Job × Stage) := fun _ => none
  pass : Option Pass := none
  /-- The metadata version the last complete pass ran against. -/
  seen : Option ℕ := none

inductive Label where
  | write (topic : String)
  | publish
  | lock (topic : String) (job : Job)
  | hold (topic : String) (ok : Bool)
  | tick
  | visit (key : LogKey)
  | pass

/-- The bound a log has under a record's retention. -/
def bound (retentionMs : ℤ) : ℤ :=
  max ((retentionMs * 1000000).bmod 18446744073709551616) 0

variable (retentionMs : String → ℕ → ℤ)

namespace State

variable (s : State)

/-- The pass reads the log map, so nothing is added to it, claimed or dropped. -/
def scanning : Bool :=
  s.pass.any fun p => match p.stage with
    | .scan _ | .loaded .. => true
    | _ => false

def setLog (key : LogKey) (e : Option Entry) : State :=
  { s with logs := update s.logs key e }

def goto (topic : String) (job : Job) (stage : Stage) : State :=
  { s with holder := update s.holder topic (some (job, stage)) }

/-- The guard is released, and a pass goes on to its next topic. -/
def unlock (topic : String) (job : Job) (ok : Bool) : State :=
  { s with
    holder := update s.holder topic none
    pass := if job = .follow then s.pass.map fun p => { p with stage := .next, complete := p.complete && ok }
      else s.pass }

variable (t : String)

/-- The partitions of the topic whose logs are open. -/
def idxs : List ℤ :=
  (s.keys.filter fun k => k.topic = t && (s.logs k).any (!·.closing)).map LogKey.idx

/-- The next step of what holds the topic's guard: `openGuarded`, a close, or `followTopic`. -/
def hold (ok : Bool) : Option State :=
  match s.holder t with
  | some (.close idx, .guarded) =>
    if s.scanning then none else match s.logs ⟨t, idx⟩ with
    | none => some (s.unlock t (.close idx) ok)
    | some e => some ((s.setLog ⟨t, idx⟩ (some { e with closing := true })).goto t (.close idx) .claimed)
  | some (.close idx, .claimed) =>
    if s.scanning then none else some ((s.setLog ⟨t, idx⟩ none).unlock t (.close idx) ok)
  | some (job, .guarded) => some (s.goto t job (.versionRead (s.topicVersion t)))
  | some (job, .versionRead v) =>
    some (if ok then s.goto t job (.recordRead v (s.written t)) else s.unlock t job false)
  | some (.get idx, .recordRead v r) =>
    some (if (s.logs ⟨t, idx⟩).isSome then s.goto t (.get idx) (.apply v r [idx])
      else if ok then s.goto t (.get idx) (.opened v r) else s.unlock t (.get idx) false)
  | some (job, .recordRead v r) => some (s.goto t job (.apply v r (s.idxs t)))
  | some (job, .apply v r (idx :: todo)) =>
    let e := (s.logs ⟨t, idx⟩).map fun e => { e with maxAge := bound (retentionMs t r), revision := r }
    some ((s.setLog ⟨t, idx⟩ e).goto t job (.store v r idx todo))
  | some (job, .apply _ _ []) => some (s.unlock t job true)
  | some (job, .store v r idx todo) =>
    let e := (s.logs ⟨t, idx⟩).map fun e => { e with version := v }
    some ((s.setLog ⟨t, idx⟩ e).goto t job (.apply v r todo))
  | some (.get idx, .opened v r) =>
    if s.scanning then none else
      some ({ s.setLog ⟨t, idx⟩ (some ⟨bound (retentionMs t r), r, v, false⟩) with
        keys := s.keys.insert ⟨t, idx⟩ }.unlock t (.get idx) true)
  | _ => none

/-- The next step of the pass, but for the choice of the log it looks at. -/
def advance (p : Pass) : Option State :=
  match p.stage with
  | .begun => some { s with pass := some { p with stage := .scan (s.keys.filter fun k => (s.logs k).isSome) } }
  | .loaded key v todo => some { s with pass := some { p with
      stage := .scan todo
      stale := if v = s.topicVersion key.topic then p.stale else p.stale.insert key.topic } }
  | .scan [] => some { s with pass := some { p with stage := .next } }
  | .next =>
    match p.stale with
    | [] => some { s with pass := none, seen := if p.complete then some p.latest else s.seen }
    | t :: stale =>
      if s.holder t = none then
        some { s.goto t .follow .guarded with pass := some { p with stage := .following t, stale := stale } }
      else none
  | _ => none

def step : Label → Option State
  | .write t =>
    if s.applying = none then
      some { s with written := update s.written t (s.written t + 1), applying := some (t, false) }
    else none
  | .publish =>
    match s.applying with
    | some (t, false) =>
      some { s with topicVersion := update s.topicVersion t (s.written t), applying := some (t, true) }
    | _ => some { s with metadataVersion := s.metadataVersion + 1, applying := none }
  | .lock t job => if s.holder t = none ∧ job ≠ .follow then some (s.goto t job .guarded) else none
  | .hold t ok => s.hold retentionMs t ok
  | .tick =>
    if s.pass ≠ none then none
    else if s.seen = some s.metadataVersion then some s
    else some { s with pass := some { latest := s.metadataVersion } }
  | .visit key =>
    match s.pass, s.logs key with
    | some ⟨latest, .scan todo, stale, complete⟩, some e =>
      if key ∈ todo then some { s with pass := some ⟨latest, if e.closing then .scan (todo.erase key)
        else .loaded key e.version (todo.erase key), stale, complete⟩ }
      else none
    | _, _ => none
  | .pass => s.pass.bind s.advance

/-- The bound the holder has read is no older than any of the topic's. -/
structure Newest (s : State) (t : String) (v r : ℕ) : Prop where
  version : v ≤ r
  written : r ≤ s.written t
  newest : ∀ idx e, s.logs ⟨t, idx⟩ = some e → e.revision ≤ r

/-- What the holder of a topic's guard knows. -/
def Fits : Stage → Prop
  | .versionRead v => v ≤ s.topicVersion t
  | .recordRead v r | .apply v r _ | .opened v r => s.Newest t v r
  | .store v r idx _ => s.Newest t v r ∧ ∀ e, s.logs ⟨t, idx⟩ = some e → e.revision = r
  | _ => True

structure Inv (s : State) : Prop where
  bounds : ∀ k e, s.logs k = some e → e.maxAge = bound (retentionMs k.topic e.revision)
  version : ∀ k e, s.logs k = some e → e.version ≤ e.revision
  revision : ∀ k e, s.logs k = some e → e.revision ≤ s.written k.topic
  keys : ∀ k e, s.logs k = some e → k ∈ s.keys
  published : ∀ t, s.topicVersion t ≤ s.written t
  holder : ∀ t job stage, s.holder t = some (job, stage) → s.Fits t stage

/-- The pass is still to reach the log: it will look at the log, or at its topic, under the last record. -/
def Awaits (idx : ℤ) : Stage → Prop
  | .guarded | .versionRead _ => True
  | .recordRead _ r => r = s.written t
  | .apply _ r todo | .store _ r _ todo => r = s.written t ∧ idx ∈ todo
  | _ => False

def Pending (p : Pass) (k : LogKey) : Prop :=
  k.topic ∈ p.stale ∨ match p.stage with
    | .begun => True
    | .scan todo => k ∈ todo
    | .loaded key _ todo => k = key ∨ k ∈ todo
    | .next => False
    | .following t => k.topic = t ∧ ∃ stage, s.holder t = some (.follow, stage) ∧ s.Awaits t k.idx stage

/-- A metadata version that is covered, or will be, is of records that every open log has or will get. -/
structure Covers (s : State) : Prop where
  latest : ∀ p, s.pass = some p → p.latest ≤ s.metadataVersion
  seen : ∀ n, s.seen = some n → n ≤ s.metadataVersion
  published : ∀ t, s.applying ≠ some (t, false) → s.topicVersion t = s.written t
  follow : ∀ t stage, s.holder t = some (.follow, stage) → ∃ p, s.pass = some p ∧ p.stage = .following t
  loaded : ∀ p k v todo e, s.pass = some p → p.stage = .loaded k v todo → s.logs k = some e → v ≤ e.revision
  covered : s.seen = some s.metadataVersion → s.applying = none → ∀ k e, s.logs k = some e →
    e.closing = false → e.revision = s.written k.topic
  passing : ∀ p, s.pass = some p → p.complete = true → p.latest = s.metadataVersion → s.applying = none →
    ∀ k e, s.logs k = some e → e.closing = false → e.revision = s.written k.topic ∨ s.Pending p k

/-- A log is installed under a record that was altered since, and the pass that covers the alter is past
its scan without having noted the topic. -/
def missed : Label → Bool
  | .hold t _ => match s.holder t with
    | some (.get _, .opened _ r) => r < s.written t && s.applying = none &&
      (s.seen = some s.metadataVersion || s.pass.any fun p => p.complete && p.latest = s.metadataVersion &&
        p.stage ≠ .begun && t ∉ p.stale)
    | _ => false
  | _ => false

variable {retentionMs} {s s' : State} {t : String} {ok : Bool} {label : Label} {stage : Stage} {p : Pass} {k : LogKey}

theorem Fits.frame (h : s.Fits t stage)
    (hwritten : s.written t ≤ s'.written t) (hversion : s.topicVersion t ≤ s'.topicVersion t)
    (hlogs : ∀ idx, s'.logs ⟨t, idx⟩ = s.logs ⟨t, idx⟩) : s'.Fits t stage := by
  cases stage <;> grind [Fits, Newest]

section

variable (h : s.Inv retentionMs)
include h

/-- What holds a guard changes nothing of another topic. -/
theorem Inv.touch (hwritten : s'.written = s.written)
    (hversion : s'.topicVersion = s.topicVersion) (hkeys : ∀ k ∈ s.keys, k ∈ s'.keys)
    (hlogs : ∀ k, k.topic ≠ t → s'.logs k = s.logs k) (hholder : ∀ u, u ≠ t → s'.holder u = s.holder u)
    (hentry : ∀ idx e, s'.logs ⟨t, idx⟩ = some e → s.logs ⟨t, idx⟩ = some e ∨ ⟨t, idx⟩ ∈ s'.keys ∧
      e.maxAge = bound (retentionMs t e.revision) ∧ e.version ≤ e.revision ∧ e.revision ≤ s.written t)
    (hfits : ∀ job stage, s'.holder t = some (job, stage) → s'.Fits t stage) : s'.Inv retentionMs := by
  obtain ⟨hb, hv, hr, hk, hp, hh⟩ := h
  refine ⟨?_, ?_, ?_, ?_, fun u => by rw [hversion, hwritten]; exact hp u, fun u job stage hu => ?_⟩
  any_goals
    rintro ⟨u, idx⟩ e he
    grind
  rcases eq_or_ne u t with rfl | hne
  · exact hfits job stage hu
  · exact (hh u job stage (hholder u hne ▸ hu)).frame (by rw [hwritten]) (by rw [hversion])
      fun idx => hlogs ⟨u, idx⟩ hne

theorem Inv.hold (hstep : s.hold retentionMs t ok = some s') : s'.Inv retentionMs := by
  obtain ⟨hb, hv, hr, hk, hp, hh⟩ := id h
  have hhold := hh t
  simp only [State.hold] at hstep
  repeat' split at hstep
  all_goals try cases hstep
  all_goals
    refine h.touch (t := t) rfl rfl ?_ ?_ ?_ ?_ fun job stage hstage => ?_
    on_goal 5 =>
      simp only [unlock, goto, setLog, update_self] at hstage
      cases hstage
  all_goals try simp only [unlock, goto, setLog]
  all_goals grind [Fits, Newest, update_apply, map_eq_some_iff]

/-- No log changes, and nothing goes on under a guard. -/
theorem Inv.quiet (hlogs : s'.logs = s.logs) (hkeys : s'.keys = s.keys)
    (hwritten : ∀ t, s.written t ≤ s'.written t) (hversion : ∀ t, s.topicVersion t ≤ s'.topicVersion t)
    (hpublished : ∀ t, s'.topicVersion t ≤ s'.written t) (hholder : ∀ t job stage,
      s'.holder t = some (job, stage) → s.holder t = some (job, stage) ∨ stage = .guarded) : s'.Inv retentionMs := by
  obtain ⟨hb, hv, hr, hk, -, hh⟩ := h
  refine ⟨hlogs ▸ hb, hlogs ▸ hv, fun k e he => le_trans (hr k e (hlogs ▸ he)) (hwritten _),
    hlogs ▸ hkeys ▸ hk, hpublished, fun t job stage ht => ?_⟩
  rcases hholder t job stage ht with ht | rfl
  · exact (hh t job stage ht).frame (hwritten t) (hversion t) fun idx => by rw [hlogs]
  · trivial

theorem Inv.step (hstep : s.step retentionMs label = some s') : s'.Inv retentionMs := by
  have hp := h.published
  cases label with
  | hold t ok => exact h.hold hstep
  | pass =>
    obtain ⟨p, hpass, hstep⟩ := bind_eq_some_iff.mp hstep
    unfold advance at hstep
    repeat' split at hstep
    all_goals try cases hstep
    all_goals
      refine h.quiet rfl rfl (fun _ => le_rfl) (fun _ => le_rfl) hp ?_
      try simp only [goto]
      grind [update_apply]
  | _ =>
    simp only [State.step] at hstep
    repeat' split at hstep
    all_goals try cases hstep
    all_goals refine h.quiet rfl rfl ?_ ?_ ?_ ?_
    all_goals try simp only [goto]
    all_goals grind [update_apply]

end

theorem mem_idxs {idx : ℤ} {e : Entry} (hk : ⟨t, idx⟩ ∈ s.keys) (he : s.logs ⟨t, idx⟩ = some e)
    (hclosing : e.closing = false) : idx ∈ s.idxs t :=
  List.mem_map.mpr ⟨⟨t, idx⟩, by simp [hk, he, hclosing], rfl⟩

theorem Pending.frame (h : s.Pending p k) (hwritten : s'.written = s.written)
    (hholder : ∀ u stage, s.holder u = some (.follow, stage) → s'.holder u = some (.follow, stage)) :
    s'.Pending p k := by
  unfold Pending at h ⊢
  refine h.imp_right fun h => ?_
  split at h
  case h_5 u _ =>
    obtain ⟨hk, stage, hu, hawaits⟩ := h
    refine ⟨hk, stage, hholder u stage hu, ?_⟩
    unfold Awaits at hawaits ⊢
    rwa [hwritten]
  all_goals exact h

/-- Logs are gone or have newer bounds, or are installed where no pass misses them, and what the pass was
still to reach it has reached or is still to reach. -/
theorem Covers.touch (hc : s.Covers) (hr : ∀ k e, s'.logs k = some e → e.revision ≤ s.written k.topic)
    (hversions : s'.written = s.written ∧ s'.topicVersion = s.topicVersion ∧
      s'.metadataVersion = s.metadataVersion ∧ s'.applying = s.applying ∧ s'.seen = s.seen)
    (hfollow : ∀ u stage, s'.holder u = some (.follow, stage) → ∃ p, s'.pass = some p ∧ p.stage = .following u)
    (hloaded : ∀ p k v todo e, s'.pass = some p → p.stage = .loaded k v todo → s'.logs k = some e → v ≤ e.revision)
    (hpass : ∀ p', s'.pass = some p' → ∃ p, s.pass = some p ∧ p'.latest = p.latest ∧
      (p'.complete = true → p.complete = true ∧ ∀ k e, s'.logs k = some e → e.closing = false →
        s.applying = none → s.Pending p k → e.revision = s.written k.topic ∨ s'.Pending p' k))
    (hlogs : ∀ k e', s'.logs k = some e' → e'.closing = false →
      (∃ e, s.logs k = some e ∧ e.closing = false ∧ e.revision ≤ e'.revision) ∨ e'.revision = s.written k.topic ∨
        (s.applying = none → s.seen ≠ some s.metadataVersion ∧ ∀ p, s.pass = some p → p.complete = true →
          p.latest = s.metadataVersion → s.Pending p k)) : s'.Covers := by
  obtain ⟨hlatest, hseen, hpublished, -, -, hcovered, hpassing⟩ := hc
  obtain ⟨hwritten, hversion, hmetadata, happlying, hseen'⟩ := hversions
  refine ⟨?_, ?_, by rwa [hversion, hwritten, happlying], hfollow, hloaded, ?_, ?_⟩ <;> grind

section

variable (h : s.Inv retentionMs) (hc : s.Covers)
include h hc

/-- The pass goes on with a topic. -/
theorem Covers.followTopic
    (hstage : s.holder t = some (.follow, stage)) (hstep : s.hold retentionMs t ok = some s') : s'.Covers := by
  have hr := (h.hold hstep).revision
  have hfits := h.holder t _ _ hstage
  have hk := h.keys
  obtain ⟨p, hpass, hp⟩ := hc.follow t stage hstage
  have hfollow := hc.follow
  have hpending (k : LogKey) : s.Pending p k ↔ k.topic ∈ p.stale ∨ k.topic = t ∧ s.Awaits t k.idx stage := by
    simp [Pending, hp, hstage]
  rcases stage with _ | _ | _ | ⟨v, r, _ | ⟨idx, todo⟩⟩ | _ | _ | _ <;> simp only [State.hold, hstage] at hstep
  on_goal 2 => split at hstep
  all_goals cases hstep
  all_goals
    simp only [unlock, goto, setLog, hpass, if_true, map_some] at hr ⊢
    refine hc.touch hr ⟨rfl, rfl, rfl, rfl, rfl⟩ ?_ ?_ (fun p' hp' => ⟨p, hpass, ?_⟩) ?_
    on_goal 3 =>
      cases hp'
      refine ⟨rfl, fun hcomplete => ⟨by simp_all, ?_⟩⟩
      rintro ⟨u, i⟩ e he hclosing - hpend
      rw [hpending] at hpend
  all_goals grind [Fits, Newest, Pending, Awaits, mem_idxs, update_apply, map_eq_some_iff]

theorem Covers.hold
    (hclean : s.missed (.hold t ok) = false) (hstep : s.hold retentionMs t ok = some s') : s'.Covers := by
  by_cases hnot : ∃ stage, s.holder t = some (.follow, stage)
  · obtain ⟨stage, hstage⟩ := hnot
    exact hc.followTopic h hstage hstep
  have hr := (h.hold hstep).revision
  have hfits := h.holder t
  have hfollow := hc.follow
  have hloaded := hc.loaded
  have hother : ∀ u stage, s.holder u = some (.follow, stage) → u ≠ t := by grind
  simp only [State.hold] at hstep
  repeat' split at hstep
  all_goals try cases hstep
  all_goals
    simp only [unlock, goto, setLog] at hr ⊢
    refine hc.touch hr ⟨rfl, rfl, rfl, rfl, rfl⟩ ?_ ?_ (fun p hp => ⟨p, ?_, rfl, fun hcomplete => ⟨hcomplete,
      fun k e _ _ _ hpend => .inr (hpend.frame rfl fun u stage hu => ?_)⟩⟩) ?_
  all_goals grind [Fits, Newest, missed, Pending, scanning, update_apply, map_eq_some_iff]

/-- The pass goes on with the scan. -/
theorem Covers.setPass {q : Pass} (hpass : s.pass = some p)
    (hnot : ∀ u, p.stage ≠ .following u) (hlatest : q.latest = p.latest) (hcomplete : q.complete = p.complete)
    (hloaded : ∀ k v todo e, q.stage = .loaded k v todo → s.logs k = some e → v ≤ e.revision)
    (hpending : ∀ k e, s.logs k = some e → e.closing = false → s.applying = none → s.Pending p k →
      e.revision = s.written k.topic ∨ s.Pending q k) : { s with pass := some q }.Covers := by
  refine hc.touch h.revision ⟨rfl, rfl, rfl, rfl, rfl⟩ (fun u stage hu => ?_) ?_ (fun p' hp' => ⟨p, hpass, ?_⟩)
    fun k e he hclosing => .inl ⟨e, he, hclosing, le_rfl⟩
  · obtain ⟨p', hp', hstage⟩ := hc.follow u stage hu
    cases hpass.symm.trans hp'
    exact absurd hstage (hnot u)
  · rintro p' k v todo e ⟨⟩
    exact hloaded k v todo e
  · cases hp'
    exact ⟨hlatest, fun hq => ⟨hcomplete ▸ hq, hpending⟩⟩

theorem Covers.advance (hpass : s.pass = some p) (hstep : s.advance p = some s') : s'.Covers := by
  obtain ⟨-, hv, hr, hk, -, -⟩ := id h
  obtain ⟨hlatest, hseen, hpublished, hfollow, hloaded, hcovered, hpassing⟩ := id hc
  replace hpassing := hpassing p hpass
  unfold State.advance at hstep
  split at hstep
  case h_1 | h_2 | h_3 =>
    cases hstep
    refine hc.setPass h hpass ?_ rfl rfl ?_ ?_
    all_goals grind [Pending]
  case h_4 =>
    split at hstep
    · cases hstep
      constructor
      all_goals grind [Pending]
    split at hstep <;> cases hstep
    simp only [goto]
    refine hc.touch hr ⟨rfl, rfl, rfl, rfl, rfl⟩ ?_ ?_ (fun p' hp' => ⟨p, hpass, ?_⟩)
      fun k e he hclosing => .inl ⟨e, he, hclosing, le_rfl⟩
    all_goals grind [Pending, Awaits, update_apply]
  case h_5 => cases hstep

theorem Covers.step (hclean : s.missed label = false) (hstep : s.step retentionMs label = some s') : s'.Covers := by
  obtain ⟨-, hv, hr, hk, -, -⟩ := id h
  obtain ⟨hlatest, hseen, hpublished, hfollow, hloaded, hcovered, hpassing⟩ := id hc
  cases label with simp only [State.step] at hstep
  | hold t ok => exact hc.hold h hclean hstep
  | pass =>
    obtain ⟨p, hpass, hstep⟩ := bind_eq_some_iff.mp hstep
    exact hc.advance h hpass hstep
  | lock t job =>
    split at hstep <;> cases hstep
    refine hc.touch hr ⟨rfl, rfl, rfl, rfl, rfl⟩ ?_ hloaded (fun p hp => ⟨p, hp, rfl, fun hcomplete => ⟨hcomplete,
      fun k e _ _ _ hpend => .inr (hpend.frame rfl ?_)⟩⟩) fun k e he hclosing => .inl ⟨e, he, hclosing, le_rfl⟩
    all_goals
      simp only [goto]
      grind [update_apply]
  | visit key =>
    split at hstep
    next hpass _ =>
      split at hstep <;> cases hstep
      refine hc.setPass h hpass ?_ rfl rfl ?_ ?_
      all_goals grind [Pending]
    · cases hstep
  | _ =>
    repeat' split at hstep
    all_goals try cases hstep
    all_goals constructor
    all_goals grind [Pending, Awaits, update_apply]

end

/-- No step puts an older bound on a log. -/
theorem Inv.newer (h : s.Inv retentionMs) (hstep : s.step retentionMs label = some s') {e e' : Entry}
    (he : s.logs k = some e) (he' : s'.logs k = some e') : e.revision ≤ e'.revision := by
  cases label with
  | hold t ok =>
    have hfits := h.holder t
    simp only [State.step, State.hold] at hstep
    repeat' split at hstep
    all_goals try cases hstep
    all_goals
      simp only [unlock, goto, setLog, update_apply] at he'
      grind [Fits, Newest]
  | pass =>
    obtain ⟨p, -, hstep⟩ := bind_eq_some_iff.mp hstep
    grind [advance, goto]
  | _ => grind [State.step, goto]

end State

/-- No step replaces a bound by one of an older record. And in a run in which no log is installed that the
pass has missed, whenever no alter is under way and the metadata version is covered, every open log has the
bound of its topic's record. -/
theorem alters_reach_open_logs (labels : List Label) (s : State)
    (hrun : runWith (State.step retentionMs) {} labels = some s) :
    (∀ label s', s.step retentionMs label = some s' → ∀ k e e', s.logs k = some e → s'.logs k = some e' →
      e.maxAge = bound (retentionMs k.topic e.revision) ∧ e'.maxAge = bound (retentionMs k.topic e'.revision) ∧
        e.revision ≤ e'.revision ∧ e'.revision ≤ s'.written k.topic) ∧
      (cleanRun (State.step retentionMs) (fun s label => !s.missed label) {} labels = true →
        s.applying = none → s.seen = some s.metadataVersion → ∀ k e, s.logs k = some e → e.closing = false →
        e.maxAge = bound (retentionMs k.topic (s.written k.topic))) := by
  have hstart : State.Inv retentionMs {} := by constructor <;> simp
  have hinv := run_induction (P := State.Inv retentionMs) (fun _ _ _ h _ hstep => h.step hstep) hstart
    (cleanRun_true _ _) hrun
  refine ⟨fun label s' hstep k e e' he he' => ?_, fun hclean happlying hseen k e he hclosing => ?_⟩
  · have hinv' := hinv.step hstep
    exact ⟨hinv.bounds k e he, hinv'.bounds k e' he', hinv.newer hstep he he', hinv'.revision k e' he'⟩
  · have hcovers := run_induction (P := fun s => s.Inv retentionMs ∧ s.Covers)
      (fun _ _ _ h hclean hstep => ⟨h.1.step hstep, h.2.step h.1 (by simpa using hclean) hstep⟩)
      ⟨hstart, by constructor <;> simp⟩ hclean hrun
    rw [hinv.bounds k e he, hcovers.2.covered hseen happlying k e he hclosing]

/-- The retention of a topic's record grows with every write, by an hour. -/
def growing (_ : String) (revision : ℕ) : ℤ :=
  3600000 * (revision + 1)

def opening : List Label :=
  .lock "t" (.get 0) :: List.replicate 3 (.hold "t" true)

def altering : List Label :=
  [.write "t", .publish, .publish, .tick, .pass]

/-- The log is open when the topic is altered, and the pass follows. -/
def followed : List Label :=
  opening ++ [Label.hold "t" true] ++ altering ++ [Label.visit ⟨"t", 0⟩, .pass, .pass, .pass] ++
    List.replicate 6 (Label.hold "t" true) ++ [Label.pass]

theorem followed_has_new_bound :
    ∃ s, runWith (State.step growing) {} followed = some s ∧ s.written "t" = 1 ∧ (s.logs ⟨"t", 0⟩).isSome ∧
      ∀ k e, s.logs k = some e → e.closing = false → e.maxAge = bound (growing k.topic (s.written k.topic)) := by
  have hrun := (some_get (x := runWith (State.step growing) {} followed) (by decide +kernel)).symm
  refine ⟨_, hrun, by decide +kernel, by decide +kernel, ?_⟩
  exact (alters_reach_open_logs growing followed _ hrun).2 (by decide +kernel) (by decide +kernel) (by decide +kernel)

/-- The log is installed after the scan of the pass that covers the alter: it keeps the old bound. -/
theorem installed_after_scan :
    ∃ s, runWith (State.step growing) {} (opening ++ altering ++ [Label.pass, .pass, .hold "t" true]) = some s ∧
      s.applying = none ∧ s.pass = none ∧ s.holder "t" = none ∧ s.seen = some s.metadataVersion ∧
      (s.logs ⟨"t", 0⟩).map Entry.maxAge = some 3600000000000 ∧
      bound (growing "t" (s.written "t")) = 7200000000000 := by
  refine ⟨_, (some_get (by decide +kernel)).symm, ?_⟩
  decide +kernel

end Narad.Runtime.Retention
