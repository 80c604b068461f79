import Narad.Consumer.CapsTracked

/-!
# Cap changes reach every live shard

In an interleaving free of the bad orders, once no call is in progress and every change is
published, one more reserve's check leaves every live shard with the caps of its topic's current
record. Each of the bad orders does leave a shard behind for good: the traces at the end replay
four of them.
-/

namespace Narad.Consumer

open List Option Finmap

variable {τ : Type*} {s : Sys τ}

/-- Where a lone check stands. When it has returned, the metadata version is covered. -/
structure Alone (call : ℕ) (retryAt : ℤ) (s : Sys τ) : Prop where
  retryAt_eq : s.capsRetryAt = retryAt
  stage : match s.calls.lookup call with
    | none => s.pass = none ∧ s.capsChecked = s.metadataVersion
    | some (.latestRead latest) | some (.follow latest) => latest = s.metadataVersion ∧ s.pass = none
    | some .passing => ∃ p, s.pass = some p ∧ p.latest = s.metadataVersion ∧ p.failed = false ∧
        ∀ w, p.work = some w → ∀ r, w.refresh = some r → r.resolvedAt = s.version w.topic
    | _ => False

variable {retryAt : ℤ} {call : ℕ}

/-- A running pass belongs to the lone call. -/
theorem Alone.passing (h : Alone call retryAt s) {p : Pass τ}
    (hp : s.pass = some p) : s.calls.lookup call = some .passing ∧ p.latest = s.metadataVersion ∧ p.failed = false ∧
      ∀ w, p.work = some w → ∀ r, w.refresh = some r → r.resolvedAt = s.version w.topic := by
  have hstage := h.stage
  split at hstage
  · rw [hstage.1] at hp; cases hp
  · rw [hstage.2] at hp; cases hp
  · rw [hstage.2] at hp; cases hp
  · obtain ⟨q, hq, hrest⟩ := hstage
    cases hp.symm.trans hq
    exact ⟨‹_›, hrest⟩
  · exact hstage.elim

variable {s s' : Sys τ}

/-- A lone pass that changes only its own progress is still alone. -/
theorem Alone.withPass (h : Alone call retryAt s) {p q : Pass τ} {shards : List (LiveShard τ)}
    {cells : τ → ℕ → ℕ} (hp : s.pass = some p) (hlatest : q.latest = p.latest) (hfailed : q.failed = p.failed)
    (hcurrent : ∀ w, q.work = some w → ∀ r, w.refresh = some r → r.resolvedAt = s.version w.topic) :
    Alone call retryAt { s with pass := some q, shards := shards, cells := cells } := by
  obtain ⟨hpassing, hle, hok, -⟩ := h.passing hp
  refine ⟨h.retryAt_eq, ?_⟩
  rw [hpassing]
  exact ⟨q, rfl, hlatest.trans hle, hfailed.trans hok, hcurrent⟩

variable [DecidableEq τ]

/-- The three invariants together. -/
structure Sys.Invariant (records : τ → ℕ → Caps) (s : Sys τ) : Prop where
  sane : s.Sane records
  tracked : s.Tracked
  covered : s.Covered

theorem Sys.start_invariant (records : τ → ℕ → Caps) (version : τ → ℕ) (metadata : ℕ) :
    (Sys.start version metadata).Invariant records where
  sane := ⟨nofun, nofun, nofun, fun _ _ => Nat.zero_le _, by simp [start], by simp [start], nofun, nofun, nofun⟩
  tracked := ⟨nofun, nofun, nofun, nofun, nofun⟩
  covered := ⟨Nat.zero_le _, by simp [start], nofun⟩

variable {records : τ → ℕ → Caps} {label : Label τ}

/-- Step lemma: a possible step that is not a bad order keeps the invariants. -/
theorem Sys.Invariant.step (hs : s.Invariant records) (hbad : badOrder s label = false)
    (h : Consumer.step records s label = some s') : s'.Invariant records := by
  have horderly := orderly_of_step hs.sane hbad h
  exact ⟨horderly.sane hs.sane, horderly.tracked hs.sane hs.tracked, horderly.covered hs.sane hs.covered⟩

/-- Run lemma: an interleaving without bad orders keeps the invariants. -/
theorem Sys.Invariant.runOrderly {labels : List (Label τ)}
    (hs : s.Invariant records) (h : Consumer.runOrderly records s labels = some s') : s'.Invariant records := by
  induction labels generalizing s with
  | nil => cases h; exact hs
  | cons label labels ih =>
    rw [Consumer.runOrderly] at h
    split_ifs at h with hbad
    obtain ⟨mid, hstep, hrest⟩ := bind_eq_some_iff.1 h
    exact ih (hs.step (Bool.eq_false_iff.2 hbad) hstep) hrest

/-- At rest, with the metadata version covered, every live shard carries its topic's caps. -/
theorem Sys.Invariant.current (hs : s.Invariant records)
    (hquiet : s.Quiescent) (hchecked : s.capsChecked = s.metadataVersion) {L : LiveShard τ}
    (hL : L ∈ s.shards) : L.caps = records L.topic (s.version L.topic) := by
  obtain ⟨hcalls, -, hpublished⟩ := hquiet
  have hidle : ∀ call phase, s.calls.lookup call ≠ some phase := by
    intro call phase h
    have hmem := mem_keys.2 (mem_of_lookup_eq_some h)
    rw [hcalls] at hmem
    cases hmem
  cases hseen : s.capsSeen.lookup L.topic with
  | none =>
    obtain ⟨call, version, h⟩ := hs.tracked.registered L hL hseen
    exact (h.elim (hidle _ _) (hidle _ _)).elim
  | some cell =>
    have hcell := hs.covered.checked hchecked hpublished L.topic cell hseen
    have hcaught : s.version L.topic ≤ L.resolvedAt := by
      rcases hs.tracked.caught L hL cell hseen with h | ⟨call, phase, h, -⟩
      · exact hcell ▸ h
      · exact absurd h (hidle call phase)
    rw [hs.sane.shard_caps L hL, le_antisymm (hs.sane.shard_le L hL) hcaught]

/-- The accesses of one call's `checkCaps`, with successful resolves and a clock past `retryAt`. -/
def Label.ChecksAs (call : ℕ) (retryAt : ℤ) : Label τ → Prop
  | .readLatest c | .compareChecked c | .passFinish c _ => c = call
  | .lockCaps c now => c = call ∧ retryAt ≤ now
  | .passTopic _ | .passVisit _ | .passStore => True
  | .passResolve ok => ok = true
  | _ => False

/-- A lone pass resolves the current record, so it overwrites nothing newer. -/
theorem Alone.badOrder (h : Alone call retryAt s) (hs : s.Sane records)
    (hlabel : label.ChecksAs call retryAt) : badOrder s label = false := by
  cases label with
  | passVisit shard =>
    simp only [Consumer.badOrder]
    cases hpass : s.pass with
    | none => rfl
    | some p =>
      cases hwork : p.work with
      | none => simp [hwork]
      | some w =>
        simp only [bind_some, hwork]
        cases hrefresh : w.refresh with
        | none => rfl
        | some r =>
          obtain ⟨-, -, -, hcurrent⟩ := h.passing hpass
          have hnone : s.shards.any (fun L => decide (L.id = shard ∧ L.topic = w.topic ∧
              r.resolvedAt < L.resolvedAt)) = false := by
            rw [List.any_eq_false]
            intro L hL hhit
            obtain ⟨-, htopic, hlt⟩ := of_decide_eq_true hhit
            rw [hcurrent w hwork r hrefresh, ← htopic] at hlt
            exact absurd (hs.shard_le L hL) (not_le.2 hlt)
          simp only [any_some, overwrites, hnone, Bool.false_eq_true, false_and, decide_false]
  | readLatest | compareChecked | lockCaps | passTopic | passResolve | passStore | passFinish => rfl
  | _ => exact hlabel.elim

/-- Step lemma of a lone check. -/
theorem Alone.step (h : Alone call retryAt s) (hlabel : label.ChecksAs call retryAt)
    (hstep : Consumer.step records s label = some s') : Alone call retryAt s' := by
  have hstage := h.stage
  cases label with simp only [Consumer.step, stepPass] at hstep
  | readLatest c =>
    obtain rfl : c = call := hlabel
    split at hstep <;> cases hstep
    next hfree =>
      rw [lookup_eq_none.2 hfree] at hstage
      refine ⟨h.retryAt_eq, ?_⟩
      simp only [Sys.goto, lookup_insert]
      exact ⟨trivial, hstage.1⟩
  | compareChecked c =>
    obtain rfl : c = call := hlabel
    split at hstep
    next latest hcall =>
      rw [hcall] at hstage
      split at hstep <;> cases hstep
      next hcovered =>
        refine ⟨h.retryAt_eq, ?_⟩
        simp only [Sys.done, lookup_erase]
        exact ⟨hstage.2, hcovered.symm.trans hstage.1⟩
      · refine ⟨h.retryAt_eq, ?_⟩
        simp only [Sys.goto, lookup_insert]
        exact hstage
    · cases hstep
  | lockCaps c now =>
    obtain ⟨rfl, hclock⟩ : c = call ∧ retryAt ≤ now := hlabel
    split at hstep
    next latest hcall =>
      rw [hcall] at hstage
      have hopen : ¬ (now < s.capsRetryAt ∨ s.pass.isSome = true) := by
        rw [h.retryAt_eq, hstage.2]
        simpa using hclock
      rw [if_neg hopen] at hstep
      cases hstep
      refine ⟨h.retryAt_eq, ?_⟩
      simp only [Sys.goto, lookup_insert]
      exact ⟨_, rfl, hstage.1, rfl, fun w hw => by cases hw⟩
    · cases hstep
  | passTopic topic =>
    split at hstep
    · cases hstep
    next p hp =>
      split at hstep <;> cases hstep
      refine h.withPass hp rfl rfl fun w hw r hr => ?_
      split at hw <;> cases hw
      cases hr
  | passResolve ok =>
    obtain rfl : ok = true := hlabel
    split at hstep
    · cases hstep
    next p hp =>
      split at hstep
      · cases hstep
      simp only [if_true] at hstep
      split_ifs at hstep
      cases hstep
      refine h.withPass hp rfl rfl ?_
      rintro w ⟨⟩ r ⟨⟩
      rfl
  | passVisit shard =>
    split at hstep
    · cases hstep
    next p hp =>
      obtain ⟨-, -, -, hcurrent⟩ := h.passing hp
      split at hstep
      · cases hstep
      next w hw =>
        split at hstep <;> cases hstep
        next refresh hrefresh =>
          refine h.withPass hp rfl rfl ?_
          rintro w' ⟨⟩ r ⟨⟩
          exact hcurrent w hw refresh hrefresh
  | passStore =>
    split at hstep
    · cases hstep
    next p hp =>
      split at hstep
      · cases hstep
      · split at hstep <;> cases hstep
        exact h.withPass hp rfl rfl fun w hw => by cases hw
  | passFinish c now =>
    obtain rfl : c = call := hlabel
    split at hstep
    next p hp hcall =>
      obtain ⟨-, hlatest, hok, -⟩ := h.passing hp
      simp only [hok, Bool.false_eq_true, if_false] at hstep
      split at hstep <;> cases hstep
      refine ⟨h.retryAt_eq, ?_⟩
      simp only [Sys.done, lookup_erase]
      exact ⟨trivial, hlatest⟩
    · cases hstep
  | _ => exact hlabel.elim

/-- Run lemma of a lone check: the invariants hold throughout, and it ends as `Alone` says. -/
theorem Alone.runSteps (h : Alone call retryAt s) (hs : s.Invariant records) {check : List (Label τ)}
    (hcheck : ∀ label ∈ check, label.ChecksAs call retryAt)
    (hrun : Consumer.runSteps records s check = some s') : Alone call retryAt s' ∧ s'.Invariant records := by
  induction check generalizing s with
  | nil => cases hrun; exact ⟨h, hs⟩
  | cons label check ih =>
    rw [Consumer.runSteps] at hrun
    obtain ⟨mid, hstep, hrest⟩ := bind_eq_some_iff.1 hrun
    have hlabel := hcheck label (.head _)
    exact ih (h.step hlabel hstep) (hs.step (h.badOrder hs.sane hlabel) hstep)
      (fun l hl => hcheck l (.tail _ hl)) hrest

/-- Cap changes reach every live shard. From any state that an interleaving without bad orders
leaves at rest, a reserve whose check runs to its end (past the retry time, with resolves that
succeed) leaves every live shard with the caps of its topic's current record. -/
theorem caps_reach_every_live_shard (records : τ → ℕ → Caps) (version : τ → ℕ) (metadata : ℕ)
    (labels : List (Label τ)) (s s' : Sys τ) (call : ℕ) (check : List (Label τ))
    (hrun : runOrderly records (Sys.start version metadata) labels = some s)
    (hrest : s.Quiescent) (hcheck : ∀ label ∈ check, label.ChecksAs call s.capsRetryAt)
    (hreserve : runSteps records s (.readLatest call :: check) = some s') (hrest' : s'.Quiescent) :
    ∀ L ∈ s'.shards, L.caps = records L.topic (s'.version L.topic) := by
  have hs := (Sys.start_invariant records version metadata).runOrderly hrun
  have hidle : s.calls.lookup call = none := by
    rw [Finmap.lookup_eq_none, ← Finmap.mem_keys, hrest.1]
    exact Finset.notMem_empty call
  rw [runSteps] at hreserve
  obtain ⟨mid, hstep, hsteps⟩ := bind_eq_some_iff.1 hreserve
  have hmid : Alone call s.capsRetryAt mid := by
    simp only [step, stepPass, ← lookup_isSome, hidle] at hstep
    cases hstep
    refine ⟨rfl, ?_⟩
    simp only [Sys.goto, lookup_insert]
    exact ⟨trivial, hrest.2.1⟩
  obtain ⟨halone, hs'⟩ := hmid.runSteps (hs.step rfl hstep) hcheck hsteps
  have hidle' : s'.calls.lookup call = none := by
    rw [Finmap.lookup_eq_none, ← Finmap.mem_keys, hrest'.1]
    exact Finset.notMem_empty call
  have hstage := halone.stage
  rw [hidle'] at hstage
  exact fun L hL => hs'.current hrest' hstage.2 hL

/-- Records whose caps grow by one with every version. -/
def growingCaps (_ : Bool) (version : ℕ) : Caps := ⟨version + 1, version + 1⟩

/-- A creator of a shard of topic `false`, up to its resolve. -/
def beginCreate (call partition : ℕ) : List (Label Bool) :=
  [.readVersion call false partition, .resolveCaps call true]

/-- A whole check that finds topic `false` changed and refreshes the given shards. -/
def wholePass (call : ℕ) (shards : List ℕ) : List (Label Bool) :=
  [Label.readLatest call, .compareChecked call, .lockCaps call 1, .passTopic false, .passResolve true] ++
    shards.map .passVisit ++ [Label.passStore, .passFinish call 1]

/-- A pass covers the change between the creator's version read and its registration. -/
def lateRegistration : List (Label Bool) :=
  beginCreate 1 0 ++ [Label.change false, .publish, .readLatest 2, .compareChecked 2, .lockCaps 2 1,
    .passFinish 2 1, .storeShard 1, .loadSeen 1, .loadOrStoreSeen 1]

/-- A drop forgets the registration of the shard stored after its deletes. -/
def forgottenSuccessor : List (Label Bool) :=
  [Label.dropShards 0 false] ++ beginCreate 1 0 ++ [Label.storeShard 1, .loadSeen 1, .loadOrStoreSeen 1,
    .forgetCaps 0, .change false, .publish, .readLatest 2, .compareChecked 2, .lockCaps 2 1,
    .passFinish 2 1]

/-- A pass registers the new version after a creator compared against the old one. -/
def missedPass : List (Label Bool) :=
  beginCreate 0 0 ++ [Label.storeShard 0, .loadSeen 0, .loadOrStoreSeen 0] ++ beginCreate 1 1 ++
    [Label.change false, .publish, .readLatest 2, .compareChecked 2, .lockCaps 2 1, .passTopic false,
      .passResolve true, .storeShard 1, .loadSeen 1, .compareSeen 1, .passVisit 0, .passStore,
      .passFinish 2 1]

/-- A creator's refresh, resolved before the last change, writes after the pass that covered it. -/
def staleRefresh : List (Label Bool) :=
  beginCreate 0 0 ++ [Label.storeShard 0, .loadSeen 0, .loadOrStoreSeen 0] ++ beginCreate 1 1 ++
    [Label.change false, .publish] ++ wholePass 2 [0] ++
    [Label.storeShard 1, .loadSeen 1, .compareSeen 1, .refreshResolve 1 true, .change false, .publish] ++
    wholePass 2 [0, 1] ++ [Label.refreshVisit 1 0, .refreshVisit 1 1, .refreshDone 1]

variable (labels : List (Label Bool))

/-- The trace ends at rest with the metadata version covered, so that the next reserve's check
returns at once, and a shard has caps other than its topic's. -/
def leftBehind : Bool :=
  match runSteps growingCaps (Sys.start (fun _ => 0) 1) labels with
  | none => false
  | some s =>
    s.calls.keys = ∅ ∧ s.pass = none ∧ s.unpublished = 0 ∧ s.capsChecked = s.metadataVersion ∧
      s.shards.any fun L => L.caps ≠ growingCaps L.topic (s.version L.topic)

/-- The trace ends at rest, and a further check ends with a shard whose caps are not its topic's. -/
def StaysBehind : Prop :=
  ∃ s s', runSteps growingCaps (Sys.start (fun _ => 0) 1) labels = some s ∧ s.Quiescent ∧
    runSteps growingCaps s [.readLatest 0, .compareChecked 0] = some s' ∧ s'.Quiescent ∧
    ∃ L ∈ s'.shards, L.caps ≠ growingCaps L.topic (s'.version L.topic)

/-- A shard that is left behind is one a further check does not reach. -/
theorem staysBehind_of_leftBehind {labels : List (Label Bool)} (h : leftBehind labels = true) : StaysBehind labels := by
  unfold leftBehind at h
  split at h
  · cases h
  next s hs =>
    obtain ⟨hcalls, hpass, hpublished, hchecked, hstale⟩ := of_decide_eq_true h
    obtain ⟨L, hL, hcaps⟩ := any_eq_true.1 hstale
    have hidle : s.calls.lookup 0 = none := by
      rw [Finmap.lookup_eq_none, ← Finmap.mem_keys, hcalls]
      exact Finset.notMem_empty 0
    refine ⟨s, (s.goto 0 (.latestRead s.metadataVersion)).done 0, hs, ⟨hcalls, hpass, hpublished⟩,
      ?_, ⟨?_, hpass, hpublished⟩, L, hL, of_decide_eq_true hcaps⟩
    · simp [runSteps, step, stepPass, ← lookup_isSome, hidle, Sys.goto, hchecked]
    · rw [Sys.done, Sys.goto, keys_erase]
      ext call
      rw [Finset.mem_erase, Finmap.mem_keys, Finmap.mem_insert, ← Finmap.mem_keys, hcalls]
      simp

/-- Four interleavings of the source's steps that end at rest with a shard whose caps are not those
of its topic's record, and that a further check leaves there. The first recovers with the next change of any
topic, the last two with the next change of theirs, the second with neither. -/
theorem bad_orders_leave_a_shard_behind :
    StaysBehind lateRegistration ∧ StaysBehind forgottenSuccessor ∧ StaysBehind missedPass ∧
      StaysBehind staleRefresh := by
  refine ⟨?_, ?_, ?_, ?_⟩ <;>
    · apply staysBehind_of_leftBehind
      decide

/-- A shard is created and its topic altered while nothing else runs. -/
def plainAlter : List (Label Bool) :=
  beginCreate 0 0 ++ [Label.storeShard 0, .loadSeen 0, .loadOrStoreSeen 0, .change false, .publish]

/-- The next reserve's check, after its read of the metadata version. -/
def plainCheck : List (Label Bool) :=
  [.compareChecked 5, .lockCaps 5 1, .passTopic false, .passResolve true, .passVisit 0, .passStore, .passFinish 5 1]

/-- After a plain alter the next reserve's check brings the shard to the new record. -/
theorem plain_alter_reaches_shard : ∃ s s', runOrderly growingCaps (Sys.start (fun _ => 0) 1) plainAlter = some s ∧
      runSteps growingCaps s (.readLatest 5 :: plainCheck) = some s' ∧ s'.shards.map LiveShard.resolvedAt = [1] ∧
      ∀ L ∈ s'.shards, L.caps = growingCaps L.topic (s'.version L.topic) := by
  have hrun := (some_get (show (runOrderly growingCaps (Sys.start (fun _ => 0) 1) plainAlter).isSome by decide)).symm
  have hreserve := (some_get (show (runSteps growingCaps
    ((runOrderly growingCaps (Sys.start (fun _ => 0) 1) plainAlter).get (by decide))
    (.readLatest 5 :: plainCheck)).isSome by decide)).symm
  refine ⟨_, _, hrun, hreserve, by decide, ?_⟩
  refine caps_reach_every_live_shard growingCaps (fun _ => 0) 1 plainAlter _ _ 5 plainCheck hrun
    ⟨by decide, by decide, by decide⟩ ?_ hreserve ⟨by decide, by decide, by decide⟩
  simp only [plainCheck, forall_mem_cons, not_mem_nil, false_imp_iff, implies_true, Label.ChecksAs, true_and, and_true]
  decide

end Narad.Consumer
