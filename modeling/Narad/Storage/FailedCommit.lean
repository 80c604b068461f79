import Narad.Storage.Whole

/-!
# Failed commits

One producer at a time appends a batch and commits it before the next batch is appended; drains and
reads run in between. A commit may fail wherever the flusher can fail, except that no sync fails
and the discard's own truncation succeeds. The discard then has to take the whole batch back: the
next append gets the offset of the failed batch, and what was visible stays as it was.

It does so as long as the active segment starts at or below the high watermark. A batch split into
several frames may roll in between; the discard truncates only the active segment, so the frames
before the roll stay and the retry appends a second copy of their records.
-/

namespace Narad.Storage

open Lib List Option

variable {phase : Phase} {p : Pass} {t : Traced}

/-- A traced log with the batch that its producer has appended and not heard about, the log as the
running commit found it, and the batches committed so far. -/
structure Serial where
  traced : Traced
  pending : Option (List Bytes)
  called : Option Log
  committed : List (List Bytes)

namespace Serial

abbrev log (s : Serial) : Log :=
  s.traced.machine.log

abbrev flusher (s : Serial) : Option (Pass × Phase) :=
  s.traced.machine.flusher

/-- The commit of the pending batch. -/
def commit (o : Options) (s : Serial) : Option CommitRequest :=
  s.pending.map fun records => commitRequest o (s.log.buffer.nextOffset - records.length)
    (s.log.buffer.nextOffset - 1)

/-- The producer hears the outcome when the commit's pass replies. -/
def hear (s : Serial) (t : Traced) : Serial :=
  match s.flusher with
  | some (p, .reply ok) =>
    if p.isCommit then
      ⟨t, none, none, if ok then s.committed ++ s.pending.toList else s.committed⟩
    else { s with traced := t }
  | _ => { s with traced := t }

/-- One step of a log with one producer at a time. -/
def step (z : Zstd) (o : Options) (s : Serial) (label : Label) : Option Serial :=
  match label with
  | .append records =>
    if s.pending = none ∧ records ≠ [] then
      (s.traced.step z o label).map fun t => { s with traced := t, pending := some records }
    else none
  | .request c =>
    if c.hwm = none then (s.traced.step z o label).map fun t => { s with traced := t }
    else if s.commit o = some c then
      (s.traced.step z o label).map fun t => { s with traced := t, called := some s.log }
    else none
  | .flush e =>
    if e.syncFails = false ∧ e.truncate = .ok then (s.traced.step z o label).map s.hear else none
  | .close => none
  | .stop => none
  | _ => (s.traced.step z o label).map fun t => { s with traced := t }

def run (z : Zstd) (o : Options) (s : Serial) : List Label → Option Serial
  | [] => some s
  | label :: labels => (s.step z o label).bind fun s => s.run z o labels

/-- A discard finds the active segment at or below the high watermark. -/
def cleanStep (s : Serial) (label : Label) : Bool :=
  match label, s.flusher with
  | .flush _, some (_, .discard _) => decide (s.log.store.active.baseOffset ≤ s.log.highWatermark)
  | _, _ => true

/-- Every discard of the run does. -/
def clean (z : Zstd) (o : Options) (s : Serial) : List Label → Bool
  | [] => true
  | label :: labels => s.cleanStep label && (s.step z o label).all fun s => s.clean z o labels

def start (o : Options) (d : Disk) (m : OffsetMap Bytes) (lay : ℕ → List Piece) : Serial :=
  ⟨Traced.start o d m lay, none, none, []⟩

end Serial

/-- The commit is at work, has moved the high watermark, or has been taken back. -/
inductive Stage where
  | working
  | advanced
  | refused
  | other
  deriving DecidableEq

def RollFor.stage : RollFor → Stage
  | .frame _ _ _ => .working
  | .pending => .advanced
  | .rotate => .other

def AfterSync.stage : AfterSync → Stage
  | .batch _ => .working
  | .roll why => why.stage

theorem RollFor.stage_ne_refused (why : RollFor) : why.stage ≠ .refused := by
  cases why <;> simp [RollFor.stage]

theorem AfterSync.stage_ne_refused (k : AfterSync) : k.stage ≠ .refused := by
  cases k with
  | batch b => simp [AfterSync.stage]
  | roll why => exact why.stage_ne_refused

def Phase.stage : Phase → Stage
  | .sync _ k => k.stage
  | .durable k => k.stage
  | .clear k => k.stage
  | .create why => why.stage
  | .rollPending => .advanced
  | .reply ok => if ok then .advanced else .refused
  | .rotate => .other
  | .persist => .other
  | .shut => .other
  | .stopped => .other
  | _ => .working

variable {z : Zstd} {o : Options} {l : Log} {p : Pass} {c : CommitRequest}

/-- A sync leaves the stage. -/
theorem resume_stage (k : AfterSync) : k.resume.stage = k.stage := by
  cases k <;> rfl

/-- Before the high watermark moves, a commit's pass stays at work, and turns to the discard with the
truncation allowed. -/
structure AtWork (phase : Phase) : Prop where
  stage : phase.stage = .working
  discard : ∀ t, phase = .discard t → t = true

/-- A failed commit turns to its discard. -/
theorem atWork_failed (hp : p.isCommit = true) (hl : l.poisoned = false) : AtWork (failed l p) := by
  rw [failed, if_pos hp, hl]
  exact ⟨rfl, fun t ht => by simpa using ht.symm⟩

theorem Pass.isCommit_iff : p.isCommit = true ↔ ∃ c h, p.commit = some c ∧ c.hwm = some h := by
  simp only [Pass.isCommit, Option.any_eq_true, Option.isSome_iff_exists]
  constructor
  · rintro ⟨c, hc, h, hh⟩
    exact ⟨c, h, hc, hh⟩
  · rintro ⟨c, h, hc, hh⟩
    exact ⟨c, hc, h, hh⟩

/-- A step that does not fail the pass leads on, and a commit stays in its stage. -/
structure GoesOn (p : Pass) (phase next : Phase) : Prop where
  discard : ∀ t, next ≠ .discard t
  stage : p.isCommit = true → phase.stage ≠ .other → next.stage = phase.stage

/-- A step other than the advance and the discard fails the pass, but for one that has moved the high
watermark, or goes on with it. -/
theorem flusherStep_next (z : Zstd) (o : Options) (l : Log) (p : Pass) (e : Env) (hsync : e.syncFails = false)
    (hadvance : phase ≠ .advance) (hdiscard : ∀ t, phase ≠ .discard t) :
    (phase.stage ≠ .advanced ∧ (flusherStep z o l p e phase).2.2 = failed l p) ∨
      GoesOn p phase (flusherStep z o l p e phase).2.2 := by
  have hresume (k : AfterSync) : GoesOn p (.clear k) k.resume :=
    ⟨fun t => by cases k <;> simp [AfterSync.resume], fun _ _ => resume_stage k⟩
  cases phase with
  | begin forceDrain =>
    rw [flusherStep, beginPass]
    split
    · exact .inl ⟨by simp [Phase.stage], rfl⟩
    split
    · exact .inr ⟨by simp, fun _ _ => rfl⟩
    rcases drainBufferForFlush l with ⟨⟨records, base⟩, l1⟩
    dsimp only
    split <;> exact .inr ⟨by simp, fun _ _ => rfl⟩
  | frame b =>
    rw [flusherStep, frameStep]
    dsimp only
    split
    · refine .inr ⟨?_, fun hp _ => ?_⟩
      · rw [finishRequest]
        split <;> split <;> simp
      · obtain ⟨c, -, hc, -⟩ := Pass.isCommit_iff.mp hp
        rw [finishRequest, hc]
        dsimp only
        split <;> rfl
    split
    · exact .inl ⟨by simp [Phase.stage], rfl⟩
    · split <;> exact .inr ⟨by simp, fun _ _ => rfl⟩
  | sync force k =>
    rw [flusherStep, hsync]
    split
    · exact .inr { hresume k with }
    · exact .inr ⟨by simp, fun _ _ => rfl⟩
  | durable | publish | cache => exact .inr ⟨by simp [flusherStep], fun _ _ => rfl⟩
  | clear k => exact .inr (hresume k)
  | create why =>
    rw [flusherStep]
    split
    · cases why with
      | pending => exact .inr ⟨by simp [RollFor.failed], fun _ _ => rfl⟩
      | frame | rotate => exact .inl ⟨by simp [Phase.stage, RollFor.stage], rfl⟩
    · cases why with
      | rotate => exact .inr ⟨by simp [RollFor.rolled], fun _ h => absurd rfl h⟩
      | frame | pending => exact .inr ⟨by simp [RollFor.rolled], fun _ _ => rfl⟩
  | write bytes n b =>
    rw [flusherStep]
    dsimp only
    split
    · exact .inr ⟨by simp, fun _ _ => rfl⟩
    · exact .inl ⟨by simp [Phase.stage], rfl⟩
  | nav | rollPending =>
    rw [flusherStep]
    dsimp only
    split <;> exact .inr ⟨by simp, fun _ _ => rfl⟩
  | verify offset lookup =>
    obtain ⟨phase, hstep, hphase⟩ := verifyStep_cases o l p e offset lookup
    rw [flusherStep, hstep]
    rcases hphase with ⟨next, -, rfl⟩ | rfl | ⟨offset', rfl⟩ | rfl
    · exact .inr ⟨by simp, fun _ _ => rfl⟩
    · exact .inl ⟨by simp [Phase.stage], rfl⟩
    · exact .inr ⟨by simp, fun _ _ => rfl⟩
    · exact .inr ⟨by simp, fun _ _ => rfl⟩
  | advance => exact absurd rfl hadvance
  | discard t => exact absurd rfl (hdiscard t)
  | reply ok =>
    rw [flusherStep]
    refine .inr ⟨by dsimp only; split <;> simp, fun hp _ => ?_⟩
    obtain ⟨c, -, hc, -⟩ := Pass.isCommit_iff.mp hp
    simp [Pass.isStop, hc]
  | rotate =>
    rw [flusherStep]
    split <;> exact .inr ⟨by simp, fun _ h => absurd rfl h⟩
  | persist | shut | stopped => exact .inr ⟨by simp [flusherStep], fun _ h => absurd rfl h⟩

/-- A step of a commit at work, other than the advance and the discard. -/
theorem flusherStep_atWork (hp : p.isCommit = true) (hl : l.poisoned = false)
    (h : phase.stage = .working) (e : Env) (hsync : e.syncFails = false)
    (hadvance : phase ≠ .advance) (hdiscard : ∀ t, phase ≠ .discard t) : AtWork (flusherStep z o l p e phase).2.2 := by
  rcases flusherStep_next z o l p e hsync hadvance hdiscard with ⟨-, hfail⟩ | hon
  · rw [hfail]
    exact atWork_failed hp hl
  · exact ⟨(hon.stage hp (by simp [h])).trans h, fun t ht => absurd ht (hon.discard t)⟩

/-- Other passes have nothing to discard. -/
theorem flusherStep_noDiscard (hp : p.isCommit = false) (e : Env) (hsync : e.syncFails = false)
    (h : ∀ t, phase ≠ .discard t) (t : Bool) : (flusherStep z o l p e phase).2.2 ≠ .discard t := by
  have hfail (l : Log) : failed l p ≠ .discard t := by
    rw [failed, if_neg (by simp [hp])]
    simp
  by_cases hadvance : phase = .advance
  · subst hadvance
    have hadv : advanced p ≠ .discard t := by
      rw [advanced]
      split
      · simp
      · split <;> simp
    rw [flusherStep]
    split
    · exact hadv
    dsimp only
    split
    · exact hadv
    · exact hfail _
  · rcases flusherStep_next z o l p e hsync hadvance h with ⟨-, heq⟩ | hon
    · rw [heq]
      exact hfail l
    · exact hon.discard t

/-- The boundaries and latches of a log that only the advance, the discard and a failed sync move. -/
structure Keeps (l l' : Log) : Prop where
  hwm : l'.highWatermark = l.highWatermark
  next : l'.buffer.nextOffset = l.buffer.nextOffset
  poisoned : l'.poisoned = l.poisoned
  closed : l'.closed = l.closed

theorem Keeps.refl (l : Log) : Keeps l l :=
  ⟨rfl, rfl, rfl, rfl⟩

/-- All other steps keep them. -/
theorem flusherStep_keeps (e : Env) (hsync : e.syncFails = false)
    (hadvance : phase ≠ .advance) (hdiscard : ∀ t, phase ≠ .discard t) : Keeps l (flusherStep z o l p e phase).1 := by
  cases phase with
  | begin forceDrain =>
    have hdrain : Keeps l (drainBufferForFlush l).2 := by
      unfold drainBufferForFlush
      repeat' split
      all_goals exact ⟨rfl, rfl, rfl, rfl⟩
    rw [flusherStep, beginPass]
    split
    · exact .refl l
    split
    · exact .refl l
    rcases hd : drainBufferForFlush l with ⟨⟨records, base⟩, l1⟩
    rw [hd] at hdrain
    dsimp only
    split
    · exact hdrain
    · exact { hdrain with }
  | sync force k =>
    rw [flusherStep, hsync]
    split <;> exact ⟨rfl, rfl, rfl, rfl⟩
  | create why =>
    rw [flusherStep]
    split <;> exact ⟨rfl, rfl, rfl, rfl⟩
  | cache | shut =>
    rw [flusherStep]
    dsimp only
    split <;> exact ⟨rfl, rfl, rfl, rfl⟩
  | verify offset lookup =>
    obtain ⟨phase, hstep, -⟩ := verifyStep_cases o l p e offset lookup
    rw [flusherStep, hstep]
    exact ⟨rfl, rfl, rfl, rfl⟩
  | advance => exact absurd rfl hadvance
  | rotate =>
    rw [flusherStep]
    split <;> exact .refl l
  | discard t => exact absurd rfl (hdiscard t)
  | persist =>
    rw [flusherStep, persistClosedHighWatermark]
    split
    · exact .refl l
    cases e.hwm with
    | dirSyncFails =>
      dsimp only
      split <;> exact ⟨rfl, rfl, rfl, rfl⟩
    | _ => exact ⟨rfl, rfl, rfl, rfl⟩
  | _ => exact ⟨rfl, rfl, rfl, rfl⟩

/-- A pass keeps its request. -/
theorem flusherStep_commit (phase : Phase) (e : Env) : (flusherStep z o l p e phase).2.1.commit = p.commit := by
  cases phase with
  | begin forceDrain =>
    rw [flusherStep, beginPass]
    split
    · rfl
    split
    · rfl
    rcases drainBufferForFlush l with ⟨⟨records, base⟩, l1⟩
    dsimp only
    split <;> rfl
  | sync force k =>
    rw [flusherStep]
    split
    · rfl
    · split <;> rfl
  | create | advance | rotate =>
    rw [flusherStep]
    split <;> rfl
  | _ => rfl

theorem advanceHighWatermark_cases {hwm : ℕ} (outcome : HwmOutcome) (hlt : l.highWatermark < hwm) :
    ((advanceHighWatermark l hwm outcome).1 = true ∧
        Keeps { l with highWatermark := hwm } (advanceHighWatermark l hwm outcome).2) ∨
      ((advanceHighWatermark l hwm outcome).1 = false ∧ Keeps l (advanceHighWatermark l hwm outcome).2) := by
  rw [advanceHighWatermark, if_neg (by omega)]
  cases l.hwmReleased with
  | true => exact .inl ⟨rfl, rfl, rfl, rfl, rfl⟩
  | false =>
    cases outcome with
    | openFails | writeFails | syncFails => exact .inr ⟨rfl, rfl, rfl, rfl, rfl⟩
    | _ => exact .inl ⟨rfl, rfl, rfl, rfl, rfl⟩

namespace Serial

variable {s s' : Serial} {m : OffsetMap Bytes}

/-- How far the running commit has come. -/
def stage (s : Serial) : Stage :=
  match s.flusher with
  | some (p, phase) => if p.isCommit then phase.stage else .working
  | none => .working

/-- The records that the commits have made visible. -/
def landed (s : Serial) : List Bytes :=
  s.committed.flatten ++ if s.stage = .advanced then s.pending.getD [] else []

/-- The appended records that are not visible. -/
def owed (s : Serial) : List Bytes :=
  if s.stage = .working then s.pending.getD [] else []

theorem landed_advanced (h : s.stage = .advanced) : s.landed = s.committed.flatten ++ s.pending.getD [] := by
  rw [landed, if_pos h]

theorem landed_other (h : s.stage ≠ .advanced) : s.landed = s.committed.flatten := by
  rw [landed, if_neg h, append_nil]

theorem owed_working (h : s.stage = .working) : s.owed = s.pending.getD [] := by
  rw [owed, if_pos h]

theorem owed_other (h : s.stage ≠ .working) : s.owed = [] := by
  rw [owed, if_neg h]

/-- The log shows the records `xs` from the first offset on. -/
def Shows (z : Zstd) (o : Options) (m : OffsetMap Bytes) (l : Log) (xs : List Bytes) : Prop :=
  ∀ i r, (m.items ++ xs)[i]? = some r → (readShared z o l (m.first + i)).1 = .ok r

/-- What a running pass has to do with its producer. -/
structure PassOk (z : Zstd) (o : Options) (m : OffsetMap Bytes) (s : Serial) (p : Pass) (phase : Phase) : Prop where
  commit : p.isCommit = true → ∃ records before, s.pending = some records ∧ s.called = some before ∧
    p.commit = some (commitRequest o (m.next + s.committed.flatten.length)
      (m.next + s.committed.flatten.length + records.length - 1)) ∧
    before.highWatermark = m.next + s.committed.flatten.length ∧
    Shows z o m before s.committed.flatten ∧ phase.stage ≠ .other ∧
    ∀ t, phase = .discard t → t = true
  other : p.isCommit = false → ∀ t, phase ≠ .discard t

structure Ok (z : Zstd) (o : Options) (m : OffsetMap Bytes) (s : Serial) : Prop where
  traced : s.traced.Ok z o
  whole : Whole s.log.store s.traced.written
  boundary : AtBoundary s.log.store s.traced.written s.log.highWatermark
  isOpen : s.log.closed = false
  clean : s.log.poisoned = false
  first : s.traced.assigned.first = m.first
  hwm : s.log.highWatermark = m.next + s.landed.length
  next : s.log.buffer.nextOffset = s.log.highWatermark + s.owed.length
  holds : s.traced.assigned.Holds m.first (m.items ++ s.landed ++ s.owed)
  nonempty : s.pending ≠ some []
  pass : ∀ p phase, s.flusher = some (p, phase) → s.PassOk z o m p phase

/-- Everything visible is readable. -/
theorem Ok.shows (h : s.Ok z o m) : Shows z o m s.log s.landed := by
  intro i r hr
  have hlt := (List.getElem?_eq_some_iff.mp hr).1
  have hhwm := h.hwm
  have hnext := h.next
  have hm : m.next = m.first + m.items.length := rfl
  rw [length_append] at hlt
  obtain ⟨r', hread, hget⟩ := h.traced.readShared_eq h.isOpen (show m.first + i < s.log.buffer.nextOffset by omega)
    (h.traced.intact h.whole (by rw [h.first]; omega))
  have hmap := h.holds i r (by rw [getElem?_append_left (by rw [length_append]; omega), hr])
  rw [hmap] at hget
  rw [hread, ← some.inj hget]

theorem stage_of_commit (hf : s.flusher = some (p, phase)) (hp : p.isCommit = true) : s.stage = phase.stage := by
  rw [stage, hf]
  exact if_pos hp

theorem stage_of_other (hf : s.flusher = some (p, phase)) (hp : p.isCommit = false) : s.stage = .working := by
  rw [stage, hf]
  exact if_neg (by simp [hp])

/-- No commit runs while nothing is pending. -/
theorem Ok.working (h : s.Ok z o m) (hpending : s.pending = none) : s.stage = .working := by
  cases hf : s.flusher with
  | none => rw [stage, hf]
  | some pass =>
    obtain ⟨p, phase⟩ := pass
    cases hp : p.isCommit with
    | false => exact stage_of_other hf hp
    | true =>
      obtain ⟨records, before, hrec, -⟩ := (h.pass p phase hf).commit hp
      rw [hpending] at hrec
      cases hrec

/-- A batch is appended. -/
theorem append_step (h : s.Ok z o m) {records : List Bytes}
    (hstep : s.step z o (.append records) = some s') : s'.Ok z o m := by
  rw [step] at hstep
  split at hstep
  next hguard =>
    obtain ⟨hpending, hrecords⟩ := hguard
    obtain ⟨t, ht, rfl⟩ := map_eq_some_iff.mp hstep
    have hok := h.traced.step ht
    have hstage := h.working hpending
    have hnext := h.next
    have hhwm := h.hwm
    have hassigned := h.traced.log.assigned
    have hm : m.next = m.first + m.items.length := rfl
    rw [landed_other (by simp [hstage])] at hhwm
    rw [owed_working hstage, hpending, getD_none, length_nil] at hnext
    have hend : s.log.buffer.nextOffset = m.first + (m.items.length + s.committed.flatten.length) := by omega
    simp only [Traced.step, Storage.step] at ht
    split at ht
    · obtain rfl := some.inj ht
      -- The log is open and not poisoned, so it takes the batch.
      have happend : appendBatch s.log records =
          (.ok (s.log.buffer.nextOffset, s.log.buffer.nextOffset + records.length - 1),
            { s.log with buffer := s.log.buffer.pushBatch records }) := by
        rw [appendBatch, if_neg (by simp [h.isOpen]), if_neg (by simp [h.clean]), if_neg (by simpa using hrecords)]
      have hassign : s.traced.append records = s.traced.assigned.assign s.log.buffer.nextOffset records := by
        rw [Traced.append, happend]
      rw [hassign, happend] at hok
      rw [hassign, happend]
      have hstage' : stage { s with
          traced := ⟨{ s.traced.machine with log := { s.log with buffer := s.log.buffer.pushBatch records } },
            s.traced.assigned.assign s.log.buffer.nextOffset records, s.traced.written, s.traced.floor⟩
          pending := some records } = .working := hstage
      refine ⟨hok, h.whole, h.boundary, h.isOpen, h.clean, h.first, ?_, ?_, ?_, ?_, fun p phase hf => ?_⟩
      · rw [landed_other (by simp [hstage'])]
        exact hhwm
      · rw [owed_working hstage']
        change s.log.buffer.nextOffset + records.length = s.log.highWatermark + records.length
        omega
      · rw [landed_other (by simp [hstage']), owed_working hstage']
        have hold := h.holds
        rw [landed_other (by simp [hstage]), owed_working hstage, hpending, getD_none, append_nil] at hold
        refine (hold.assign ?_ hassigned).append ?_
        · rw [length_append]
          exact hend.ge
        · rw [length_append, ← hend]
          exact OffsetMap.holds_assign (by rw [h.first]; exact hend ▸ Nat.le_add_right _ _) hassigned
      · simpa using hrecords
      · refine ⟨fun hp => ?_, fun hp => (h.pass p phase hf).other hp⟩
        obtain ⟨rs, before, hrec, -⟩ := (h.pass p phase hf).commit hp
        rw [hpending] at hrec
        cases hrec
    · cases ht
  · cases hstep

/-- A pass starts. -/
theorem Ok.start (h : s.Ok z o m) {forceDrain : Bool} {called : Option Log}
    (hnone : s.flusher = none) (ht : t = { s.traced with machine := { s.traced.machine with
      flusher := some (p, .begin forceDrain) } }) (hok : t.Ok z o)
    (hpass : PassOk z o m ⟨t, s.pending, called, s.committed⟩ p (.begin forceDrain)) :
    Ok z o m ⟨t, s.pending, called, s.committed⟩ := by
  subst ht
  have hstage : s.stage = .working := by rw [stage, hnone]
  have hstage' : stage ⟨{ s.traced with machine := { s.traced.machine with
      flusher := some (p, .begin forceDrain) } }, s.pending, called, s.committed⟩ = .working := ite_self _
  have hlanded := h.hwm
  have howed := h.next
  have hholds := h.holds
  refine { h with traced := hok, hwm := ?_, next := ?_, holds := ?_, pass := fun p' phase hf => ?_ }
  · rw [landed, hstage] at hlanded
    rw [landed, hstage']
    exact hlanded
  · rw [owed, hstage] at howed
    rw [owed, hstage']
    exact howed
  · rw [landed, owed, hstage] at hholds
    rw [landed, owed, hstage']
    exact hholds
  · obtain ⟨rfl, rfl⟩ : p = p' ∧ Phase.begin forceDrain = phase := by simpa [flusher] using hf
    exact hpass

theorem PassOk.of_other (hp : p.isCommit = false) (hphase : ∀ t, phase ≠ .discard t) : s.PassOk z o m p phase :=
  ⟨fun hc => absurd hc (by simp [hp]), fun _ => hphase⟩

/-- A commit is requested. -/
theorem request_step (h : s.Ok z o m) {c : CommitRequest}
    (hstep : s.step z o (.request c) = some s') : s'.Ok z o m := by
  rw [step] at hstep
  split at hstep
  next hnone =>
    obtain ⟨t, ht, rfl⟩ := map_eq_some_iff.mp hstep
    have hok := h.traced.step ht
    simp only [Traced.step, Storage.step] at ht
    split at ht
    · split at ht
      next hidle =>
        exact h.start (isNone_iff_eq_none.mp hidle) (some.inj ht).symm hok
          (.of_other (by simp [Pass.isCommit, hnone]) (by simp))
      · cases ht
    · cases ht
  · split at hstep
    next hsome hcommit =>
      obtain ⟨t, ht, rfl⟩ := map_eq_some_iff.mp hstep
      have hok := h.traced.step ht
      simp only [Traced.step, Storage.step] at ht
      split at ht
      · split at ht
        next hidle =>
          have hnone := isNone_iff_eq_none.mp hidle
          have hstage : s.stage = .working := by rw [stage, flusher, hnone]
          have hshows := h.shows
          have hhwm := h.hwm
          have hnext := h.next
          obtain ⟨records, hpending, rfl⟩ := map_eq_some_iff.mp hcommit
          rw [landed_other (by simp [hstage])] at hshows hhwm
          rw [owed_working hstage, hpending, getD_some] at hnext
          have hne : records ≠ [] := fun hnil => h.nonempty (hnil ▸ hpending)
          have hpos := length_pos_iff.mpr hne
          have hlow : s.log.buffer.nextOffset - records.length =
              m.next + s.committed.flatten.length := by omega
          have hhigh : s.log.buffer.nextOffset - 1 =
              m.next + s.committed.flatten.length + records.length - 1 := by omega
          refine h.start hnone (some.inj ht).symm hok ⟨fun _ => ⟨records, s.log, hpending, rfl, ?_, hhwm,
            hshows, by simp [Phase.stage], by simp⟩, fun hc => by simp [Pass.isCommit, commitRequest] at hc⟩
          rw [hlow, hhigh]
        · cases ht
      · cases ht
    · cases hstep

section Flush

variable {p : Pass} {phase : Phase} {e : Env} {t : Traced}

theorem flush_eq (hf : s.flusher = some (p, phase)) (ht : s.traced.step z o (.flush e) = some t) :
    t = ⟨⟨(flusherStep z o s.log p e phase).1, if p.idle phase then none else some (flusherStep z o s.log p e phase).2,
        s.traced.machine.readers⟩, s.traced.assigned,
      layoutAfter s.traced.written s.log phase (flusherStep z o s.log p e phase).1,
      floorAfter s.traced.floor phase (flusherStep z o s.log p e phase).1⟩ := by
  rw [flusher] at hf
  simp only [Traced.step, Storage.step, hf, map_some, bind_some, some.injEq] at ht
  exact ht.symm

/-- A step that moves neither the high watermark nor the next offset. -/
theorem Ok.keep (h : s.Ok z o m) (hf : s.flusher = some (p, phase)) (ho : e.truncate = .ok)
    (ht : s.traced.step z o (.flush e) = some t)
    (hkeep : Keeps s.log (flusherStep z o s.log p e phase).1) (hs : s'.traced = t)
    (hlanded : s'.landed = s.landed) (howed : s'.owed = s.owed) (hpending : s'.pending ≠ some [])
    (hpass : ∀ p' phase', t.machine.flusher = some (p', phase') → s'.PassOk z o m p' phase') : s'.Ok z o m := by
  have hok := h.traced.step ht
  have hphase := h.traced.flusher (p, phase) hf
  have hunsynced : e.truncate ≠ .unsynced := by simp [ho]
  have hwhole := flusherStep_whole h.traced.log hphase h.whole e hunsynced
  have hbound := flusherStep_boundary h.traced.log hphase h.whole h.boundary e hunsynced
  rw [flush_eq hf ht] at hok hs hpass
  refine ⟨hs ▸ hok, ?_, ?_, ?_, ?_, ?_, ?_, ?_, ?_, hpending, fun p' phase' hf' => ?_⟩
  · rw [log, hs]
    exact hwhole
  · rw [log, hs, hkeep.hwm]
    exact hbound
  · rw [log, hs, hkeep.closed]
    exact h.isOpen
  · rw [log, hs, hkeep.poisoned]
    exact h.clean
  · rw [hs]
    exact h.first
  · rw [log, hs, hkeep.hwm, hlanded]
    exact h.hwm
  · rw [log, hs, hkeep.next, hkeep.hwm, howed]
    exact h.next
  · rw [hs, hlanded, howed]
    exact h.holds
  · rw [flusher, hs] at hf'
    exact hpass p' phase' hf'

/-- The facts of a commit's pass at a later phase. -/
theorem PassOk.later (h : s.PassOk z o m p phase) (hp : p.isCommit = true) {p' : Pass}
    {phase' : Phase} (hcommit : p'.commit = p.commit) (hstage : phase'.stage ≠ .other)
    (hdiscard : ∀ t, phase' = .discard t → t = true) : PassOk z o m { s with traced := t } p' phase' := by
  obtain ⟨records, before, h1, h2, h3, h4, h5, -, -⟩ := h.commit hp
  refine ⟨fun _ => ⟨records, before, h1, h2, hcommit.trans h3, h4, h5, hstage, hdiscard⟩, fun hc => absurd hp ?_⟩
  rw [Pass.isCommit, ← hcommit]
  rw [Pass.isCommit] at hc
  simp [hc]

/-- A pass without a commit. -/
theorem flush_other (h : s.Ok z o m) (hf : s.flusher = some (p, phase)) (hp : p.isCommit = false)
    (hsync : e.syncFails = false) (ho : e.truncate = .ok)
    (ht : s.traced.step z o (.flush e) = some t) : (s.hear t).Ok z o m := by
  have hpass := (h.pass p phase hf).other hp
  have hhear : s.hear t = { s with traced := t } := by
    rw [hear, hf]
    split
    next heq =>
      obtain ⟨rfl, -⟩ := Prod.mk.inj (some.inj heq)
      exact if_neg (by simp [hp])
    · rfl
  have hnone : p.commit.bind CommitRequest.hwm = none := by
    cases hc : p.commit with
    | none => rfl
    | some c =>
      have := hp
      simp only [Pass.isCommit, hc, any_some, isSome_eq_false_iff, isNone_iff_eq_none] at this
      simpa using this
  have hkeep : Keeps s.log (flusherStep z o s.log p e phase).1 := by
    by_cases hadv : phase = .advance
    · subst hadv
      rw [flusherStep, hnone]
      exact .refl _
    · exact flusherStep_keeps e hsync hadv hpass
  have hp' : (flusherStep z o s.log p e phase).2.1.isCommit = false := by
    rw [Pass.isCommit, flusherStep_commit]
    exact hp
  have hstage : stage { s with traced := t } = .working := by
    rw [flush_eq hf ht, stage]
    dsimp only [flusher]
    cases p.idle phase with
    | true => rfl
    | false => exact if_neg (by simp [hp'])
  rw [hhear]
  refine h.keep hf ho ht hkeep rfl ?_ ?_ h.nonempty fun p₁ phase₁ hf₁ => ?_
  · rw [landed, landed, hstage, stage_of_other hf hp]
  · rw [owed, owed, hstage, stage_of_other hf hp]
  · rw [flush_eq hf ht] at hf₁
    dsimp only at hf₁
    split at hf₁
    · cases hf₁
    · obtain ⟨rfl, rfl⟩ := Prod.mk.inj (some.inj hf₁)
      exact .of_other hp' (flusherStep_noDiscard hp e hsync hpass)

/-- The state after a step of a commit that does not reply yet. -/
theorem flush_running (hf : s.flusher = some (p, phase)) (hp : p.isCommit = true)
    (hreply : ∀ ok, phase ≠ .reply ok) (ht : s.traced.step z o (.flush e) = some t) :
    s.hear t = { s with traced := t } ∧ t.machine.flusher = some (flusherStep z o s.log p e phase).2 ∧
      stage { s with traced := t } = (flusherStep z o s.log p e phase).2.2.stage := by
  have hidle : p.idle phase = false := by
    cases phase with
    | reply ok => exact absurd rfl (hreply ok)
    | _ => rfl
  have hflusher : t.machine.flusher = some (flusherStep z o s.log p e phase).2 := by
    rw [flush_eq hf ht]
    dsimp only
    rw [hidle]
    rfl
  refine ⟨?_, hflusher, ?_⟩
  · rw [hear, hf]
    split
    next ok heq => exact absurd (Prod.mk.inj (some.inj heq)).2 (hreply ok)
    · rfl
  · refine stage_of_commit hflusher ?_
    rw [Pass.isCommit, flusherStep_commit]
    exact hp

section

variable (h : s.Ok z o m) (hp : p.isCommit = true) (ho : e.truncate = .ok) (ht : s.traced.step z o (.flush e) = some t)
include h hp ho ht

/-- A step that keeps the commit's stage. -/
theorem flush_same (hf : s.flusher = some (p, phase)) (hreply : ∀ ok, phase ≠ .reply ok)
    (hother : phase.stage ≠ .other) (hstage : (flusherStep z o s.log p e phase).2.2.stage = phase.stage)
    (hdiscard : ∀ d, (flusherStep z o s.log p e phase).2.2 = .discard d → d = true)
    (hkeep : Keeps s.log (flusherStep z o s.log p e phase).1) : (s.hear t).Ok z o m := by
  obtain ⟨hhear, hflusher, hnew⟩ := flush_running hf hp hreply ht
  rw [hstage, ← stage_of_commit hf hp] at hnew
  rw [hhear]
  refine h.keep hf ho ht hkeep rfl ?_ ?_ h.nonempty fun p₁ phase₁ hf₁ => ?_
  · rw [landed, landed, hnew]
  · rw [owed, owed, hnew]
  · obtain ⟨rfl, rfl⟩ := Prod.mk.inj (some.inj (hflusher.symm.trans hf₁))
    exact (h.pass p phase hf).later hp (flusherStep_commit phase e) (hstage ▸ hother) hdiscard

theorem flush_working (hf : s.flusher = some (p, phase)) (hstage : phase.stage = .working)
    (hwork : AtWork (flusherStep z o s.log p e phase).2.2)
    (hkeep : Keeps s.log (flusherStep z o s.log p e phase).1) : (s.hear t).Ok z o m := by
  have hreply (ok : Bool) : phase ≠ .reply ok := by
    rintro rfl
    cases ok <;> exact absurd hstage (by simp [Phase.stage])
  exact flush_same h hp ho ht hf hreply (by simp [hstage]) (hwork.stage.trans hstage.symm) hwork.discard hkeep

/-- The commit moves the high watermark, or turns to the discard. -/
theorem flush_advance (hf : s.flusher = some (p, .advance)) : (s.hear t).Ok z o m := by
  obtain ⟨records, before, hpending, hcalled, hcommit, hbefore, hshows, -, -⟩ :=
    (h.pass p .advance hf).commit hp
  have hstage : s.stage = .working := stage_of_commit hf hp
  have hhwm := h.hwm
  have hnext := h.next
  have hholds := h.holds
  rw [landed_other (by simp [hstage])] at hhwm hholds
  rw [owed_working hstage, hpending, getD_some] at hnext hholds
  have hne : records ≠ [] := fun hnil => h.nonempty (hnil ▸ hpending)
  have hpos := length_pos_iff.mpr hne
  set target := m.next + s.committed.flatten.length + records.length - 1 + 1 with htarget
  have hbind : p.commit.bind CommitRequest.hwm = some target := hcommit ▸ rfl
  have hphase := h.traced.flusher (p, .advance) hf
  have hreach : target = s.log.store.active.nextOffset := by
    have h1 := (hphase target (by rw [Pass.hwm, hbind]; rfl)).2
    have h2 := h.traced.log.next_le_buffer
    have h3 : s.log.buffer.nextOffset = target := by omega
    exact le_antisymm h1 (h3 ▸ h2)
  rcases advanceHighWatermark_cases e.hwm (show s.log.highWatermark < target by omega) with
    ⟨hok, hkeep⟩ | ⟨hok, hkeep⟩
  · have hresult : flusherStep z o s.log p e .advance =
        ((advanceHighWatermark s.log target e.hwm).2, p, .rollPending) := by
      rw [flusherStep, hbind]
      dsimp only
      rw [hok, if_pos rfl, advanced, if_neg (by simp [hcommit, commitRequest]), if_pos hp]
    obtain ⟨hhear, hflusher, hnew⟩ := flush_running hf hp (by simp) ht
    have hunsynced : e.truncate ≠ .unsynced := by simp [ho]
    have hwhole := flusherStep_whole h.traced.log hphase h.whole e hunsynced
    have hext := flusherStep_sameExtent h.traced.log hphase e (by simp) (by simp) (by simp)
    have hbound := hwhole.atBoundary_next
    rw [hresult] at hflusher hnew hwhole hext hbound
    rw [hext.next, ← show target = _ from hreach] at hbound
    have hok' := h.traced.step ht
    rw [hhear]
    have heq := flush_eq hf ht
    rw [hresult] at heq
    rw [heq] at hok' hnew hflusher ⊢
    have hnew' : stage _ = .advanced := hnew
    refine ⟨hok', hwhole, ?_, ?_, ?_, h.first, ?_, ?_, ?_, h.nonempty, fun p₁ phase₁ hf₁ => ?_⟩
    · change AtBoundary _ _ (advanceHighWatermark s.log target e.hwm).2.highWatermark
      rw [hkeep.hwm]
      exact hbound
    · exact hkeep.closed.trans h.isOpen
    · exact hkeep.poisoned.trans h.clean
    · rw [landed_advanced hnew', length_append]
      change (advanceHighWatermark s.log target e.hwm).2.highWatermark =
        m.next + (s.committed.flatten.length + (s.pending.getD []).length)
      rw [hkeep.hwm, hpending, getD_some]
      dsimp only
      omega
    · rw [owed_other (by simp [hnew'])]
      change (advanceHighWatermark s.log target e.hwm).2.buffer.nextOffset =
        (advanceHighWatermark s.log target e.hwm).2.highWatermark + 0
      rw [hkeep.hwm, hkeep.next]
      dsimp only
      omega
    · rw [landed_advanced hnew', owed_other (by simp [hnew']), append_nil, ← append_assoc, hpending]
      exact hholds
    · obtain ⟨rfl, rfl⟩ := Prod.mk.inj (some.inj hf₁)
      exact (h.pass p .advance hf).later hp rfl (by simp [Phase.stage]) (by simp)
  · have hresult : flusherStep z o s.log p e .advance = ((advanceHighWatermark s.log target e.hwm).2, p,
          failed (advanceHighWatermark s.log target e.hwm).2 p) := by
      rw [flusherStep, hbind]
      dsimp only
      rw [hok, if_neg (by simp)]
    refine flush_working h hp ho ht hf rfl ?_ ?_
    · rw [hresult]
      exact atWork_failed hp (hkeep.poisoned.trans h.clean)
    · rw [hresult]
      exact hkeep

/-- The discard takes the batch back. -/
theorem flush_discard {truncateDisk : Bool} (hf : s.flusher = some (p, .discard truncateDisk))
    (hbase : s.log.store.active.baseOffset ≤ s.log.highWatermark) : (s.hear t).Ok z o m := by
  obtain ⟨records, before, hpending, hcalled, hcommit, hbefore, hshows, -, htrue⟩ :=
    (h.pass p (.discard truncateDisk) hf).commit hp
  obtain rfl := htrue truncateDisk rfl
  have hstage : s.stage = .working := stage_of_commit hf hp
  have hhwm := h.hwm
  have hholds := h.holds
  rw [landed_other (by simp [hstage])] at hhwm hholds
  have hphase := h.traced.flusher (p, .discard true) hf
  have hunsynced : e.truncate ≠ .unsynced := by simp [ho]
  have hwhole := flusherStep_whole h.traced.log hphase h.whole e hunsynced
  have hbound := flusherStep_boundary h.traced.log hphase h.whole h.boundary e hunsynced
  have hnext := (discard_next_iff h.traced.log h.whole h.boundary).mpr hbase
  have hresult : flusherStep z o s.log p e (.discard true) =
      (discardUncommittedTail s.log true .ok, p, .reply false) := by
    rw [flusherStep, ho]
  obtain ⟨hhear, hflusher, hnew⟩ := flush_running hf hp (by simp) ht
  have hok' := h.traced.step ht
  have heq := flush_eq hf ht
  rw [hresult] at hflusher hnew hwhole hbound heq
  rw [hhear]
  rw [heq] at hok' hnew ⊢
  have hnew' : stage _ = .refused := hnew
  refine ⟨hok', hwhole, hbound, h.isOpen, h.clean, h.first, ?_, ?_, ?_, h.nonempty, fun p₁ phase₁ hf₁ => ?_⟩
  · rw [landed_other (by simp [hnew'])]
    exact hhwm
  · rw [owed_other (by simp [hnew'])]
    exact hnext
  · rw [landed_other (by simp [hnew']), owed_other (by simp [hnew']), append_nil]
    have hfront := hholds.take (m.items ++ s.committed.flatten).length
    rwa [take_left] at hfront
  · obtain ⟨rfl, rfl⟩ := Prod.mk.inj (some.inj hf₁)
    exact (h.pass p (.discard true) hf).later hp rfl (by simp [Phase.stage]) (by simp)

/-- The producer hears that its commit is done. -/
theorem flush_reply {ok : Bool} (hf : s.flusher = some (p, .reply ok)) : (s.hear t).Ok z o m := by
  obtain ⟨records, before, hpending, -⟩ := (h.pass p (.reply ok) hf).commit hp
  have hstop : p.isStop = false := by
    obtain ⟨c, hwm, hc, -⟩ := Pass.isCommit_iff.mp hp
    simp [Pass.isStop, hc]
  have hhear : s.hear t = ⟨t, none, none, if ok then s.committed ++ s.pending.toList else s.committed⟩ := by
    rw [hear, hf]
    exact if_pos hp
  have hidle : t.machine.flusher = none := by
    rw [flush_eq hf ht]
    exact if_pos (by simp [Pass.idle, hstop])
  have hnew : stage ⟨t, none, none, if ok then s.committed ++ s.pending.toList else s.committed⟩ =
      .working := by
    rw [stage, flusher, hidle]
  have hold : s.stage = if ok then .advanced else .refused := stage_of_commit hf hp
  rw [hhear]
  refine h.keep hf ho ht (.refl _) rfl ?_ ?_ (by simp) fun p₁ phase₁ hf₁ => ?_
  · rw [landed, landed, hnew, hold, hpending]
    cases ok <;> simp
  · rw [owed, owed, hnew, hold]
    cases ok <;> simp
  · rw [hidle] at hf₁
    cases hf₁

end

theorem reply_of_refused (hstage : phase.stage = .refused) : phase = .reply false := by
  cases phase with
  | reply ok =>
    cases ok with
    | false => rfl
    | true => exact absurd hstage (by simp [Phase.stage])
  | sync force k => exact absurd hstage k.stage_ne_refused
  | durable k => exact absurd hstage k.stage_ne_refused
  | clear k => exact absurd hstage k.stage_ne_refused
  | create why => exact absurd hstage why.stage_ne_refused
  | _ => exact absurd hstage (by simp [Phase.stage])

/-- Every step of the running pass. -/
theorem flush_step (h : s.Ok z o m) (hclean : s.cleanStep (.flush e) = true)
    (hstep : s.step z o (.flush e) = some s') : s'.Ok z o m := by
  rw [step] at hstep
  split at hstep
  next hguard =>
    obtain ⟨hsync, ho⟩ := hguard
    obtain ⟨t, ht, rfl⟩ := map_eq_some_iff.mp hstep
    cases hf : s.flusher with
    | none =>
      rw [flusher] at hf
      simp [Traced.step, Storage.step, hf] at ht
    | some pass =>
      obtain ⟨p, phase⟩ := pass
      cases hp : p.isCommit with
      | false => exact flush_other h hf hp hsync ho ht
      | true =>
        obtain ⟨records, before, -, -, -, -, -, hother, -⟩ := (h.pass p phase hf).commit hp
        by_cases hadv : phase = .advance
        · subst hadv
          exact flush_advance h hp ho ht hf
        by_cases hdis : ∃ d, phase = .discard d
        · obtain ⟨d, rfl⟩ := hdis
          simp only [cleanStep, hf] at hclean
          exact flush_discard h hp ho ht hf (of_decide_eq_true hclean)
        have hdis' (d : Bool) : phase ≠ .discard d := fun heq => hdis ⟨d, heq⟩
        have hkeep : Keeps s.log (flusherStep z o s.log p e phase).1 := flusherStep_keeps e hsync hadv hdis'
        cases hstage : phase.stage with
        | working =>
          exact flush_working h hp ho ht hf hstage (flusherStep_atWork hp h.clean hstage e hsync hadv hdis') hkeep
        | other => exact absurd hstage hother
        | refused =>
          obtain rfl := reply_of_refused hstage
          exact flush_reply h hp ho ht hf
        | advanced =>
          by_cases hreply : ∃ ok, phase = .reply ok
          · obtain ⟨ok, rfl⟩ := hreply
            exact flush_reply h hp ho ht hf
          rcases flusherStep_next z o s.log p e hsync hadv hdis' with ⟨hne, -⟩ | hon
          · exact absurd hstage hne
          · exact flush_same h hp ho ht hf (fun ok heq => hreply ⟨ok, heq⟩) (by simp [hstage])
              (hon.stage hp (by simp [hstage])) (fun d hd => absurd hd (hon.discard d)) hkeep
  · cases hstep

end Flush

/-- Steps that leave the producer and the boundaries alone. -/
theorem Ok.of_traced (h : s.Ok z o m) (hok : t.Ok z o)
    (hsegs : SameExtent s.log.store t.machine.log.store) (hwritten : t.written = s.traced.written)
    (hassigned : t.assigned = s.traced.assigned) (hflusher : t.machine.flusher = s.flusher)
    (hkeep : Keeps s.log t.machine.log) : Ok z o m { s with traced := t } := by
  have hstage : stage { s with traced := t } = s.stage := by
    rw [stage, stage, flusher, hflusher]
  have hlanded : landed { s with traced := t } = s.landed := by rw [landed, landed, hstage]
  have howed : owed { s with traced := t } = s.owed := by rw [owed, owed, hstage]
  refine ⟨hok, ?_, ?_, hkeep.closed.trans h.isOpen, hkeep.poisoned.trans h.clean, ?_, ?_, ?_, ?_,
    h.nonempty, fun p phase hf => ?_⟩
  · rw [log, hwritten]
    exact h.whole.congr hsegs.sealed hsegs.base hsegs.size hsegs.next
  · rw [log, hwritten, hkeep.hwm, AtBoundary, hsegs.base]
    exact h.boundary
  · rw [hassigned]
    exact h.first
  · rw [hlanded]
    exact hkeep.hwm.trans h.hwm
  · rw [howed, log, hkeep.next, hkeep.hwm]
    exact h.next
  · rw [hlanded, howed, hassigned]
    exact h.holds
  · obtain ⟨hcommit, hother⟩ := h.pass p phase (hflusher ▸ hf)
    exact ⟨hcommit, hother⟩

/-- Step lemma: every step that finds its discard clean keeps the invariant. -/
theorem Ok.step (h : s.Ok z o m) {label : Label} (hclean : s.cleanStep label = true)
    (hstep : s.step z o label = some s') : s'.Ok z o m := by
  cases label with
  | append records => exact append_step h hstep
  | tick forceDrain =>
    obtain ⟨t, ht, rfl⟩ := Option.map_eq_some_iff.mp (show Option.map _ _ = _ from hstep)
    have hok := h.traced.step ht
    simp only [Traced.step, Storage.step] at ht
    split at ht
    next hidle =>
      exact h.start (isNone_iff_eq_none.mp hidle) (some.inj ht).symm hok (.of_other rfl (by simp))
    · cases ht
  | request c => exact request_step h hstep
  | close | stop => exact absurd hstep (by simp [Serial.step])
  | flush e => exact flush_step h hclean hstep
  | read offset =>
    obtain ⟨t, ht, rfl⟩ := Option.map_eq_some_iff.mp (show Option.map _ _ = _ from hstep)
    have hok := h.traced.step ht
    simp only [Traced.step, Storage.step] at ht
    split at ht
    · obtain rfl := some.inj ht
      exact h.of_traced hok ⟨rfl, rfl, rfl, rfl⟩ rfl rfl rfl ⟨rfl, rfl, rfl, rfl⟩
    · cases ht
  | reader i =>
    obtain ⟨t, ht, rfl⟩ := Option.map_eq_some_iff.mp (show Option.map _ _ = _ from hstep)
    have hok := h.traced.step ht
    cases hr : s.traced.machine.readers[i]? with
    | none => simp [Traced.step, Storage.step, hr] at ht
    | some r =>
      obtain ⟨hread, -⟩ := readerStep_spec h.traced.log.store (h.traced.readers r (mem_of_getElem? hr))
      simp only [Traced.step, Storage.step, hr, map_some, some.injEq] at ht
      obtain rfl := ht
      exact h.of_traced hok ⟨hread.sealed, by rw [hread.active], by rw [hread.active],
        by rw [hread.active]⟩ rfl rfl rfl ⟨rfl, rfl, rfl, rfl⟩

/-- Run lemma. -/
theorem Ok.run (h : s.Ok z o m) {labels : List Label} (hclean : s.clean z o labels = true)
    (hrun : s.run z o labels = some s') : s'.Ok z o m := by
  induction labels generalizing s with
  | nil => exact some.inj hrun ▸ h
  | cons label labels ih =>
    obtain ⟨s₁, hstep, hrest⟩ := bind_eq_some_iff.mp hrun
    simp only [Serial.clean, hstep, all_some, Bool.and_eq_true] at hclean
    exact ih (h.step hclean.1 hstep) hclean.2 hrest

/-- A log opened on an undamaged directory. -/
theorem start_ok {d : Disk} {m : OffsetMap Bytes} {lay : ℕ → List Piece}
    (hdir : DirOk z d.files m lay) (hhwm : (newLog o d).highWatermark = m.next) : (start o d m lay).Ok z o m := by
  obtain ⟨hlog, hnext⟩ := newLog_logOk o hdir
  obtain ⟨hopen, hclean, hwhole⟩ := newLog_whole o hdir
  have hstage : (start o d m lay).stage = .working := rfl
  have hactive : (newLog o d).store.active.nextOffset = m.next :=
    le_antisymm (hnext ▸ hlog.next_le_buffer) (hhwm ▸ hlog.visible)
  refine ⟨Traced.start_ok hdir, hwhole, ?_, hopen, hclean, rfl, ?_, ?_, ?_, by simp [start],
    fun p phase hf => absurd hf (by simp [start, Traced.start, flusher])⟩
  · change AtBoundary (newLog o d).store lay (newLog o d).highWatermark
    rw [hhwm, ← hactive]
    exact hwhole.atBoundary_next
  · exact hhwm
  · exact hnext.trans hhwm.symm
  · intro i x hx
    have hx' : m.items[i]? = some x := by
      rw [landed_other (by simp [hstage]), owed_working hstage] at hx
      simpa [start] using hx
    change m.get (m.first + i) = some x
    rw [OffsetMap.get, if_neg (by omega), Nat.add_sub_cancel_left]
    exact hx'

/-- What failed and successful commits leave: a commit about to report an error has changed neither
the high watermark nor what is readable below it, and its batch's offset is the next one again; with
no commit under way the log shows the committed batches in order and ends there; and a discard takes
the batch back exactly when the active segment starts at or below the high watermark. -/
structure LeavesNoTrace (z : Zstd) (o : Options) (m : OffsetMap Bytes) (s : Serial) : Prop where
  failed : ∀ p c h, s.flusher = some (p, .reply false) → p.commit = some c → c.hwm = some h →
    ∃ before, s.called = some before ∧ s.log.highWatermark = before.highWatermark ∧
      s.log.buffer.nextOffset = c.first ∧
      ∀ i, m.first ≤ i → i < before.highWatermark →
        ∃ r, (readShared z o before i).1 = .ok r ∧ (readShared z o s.log i).1 = .ok r
  shown : (∀ pass ∈ s.flusher, pass.1.isCommit = false) →
    s.log.highWatermark = m.next + s.committed.flatten.length ∧ Shows z o m s.log s.committed.flatten
  exact : ∀ p c h t, s.flusher = some (p, .discard t) → p.commit = some c → c.hwm = some h →
    ((discardUncommittedTail s.log t .ok).buffer.nextOffset = c.first ↔
      s.log.store.active.baseOffset ≤ s.log.highWatermark)

theorem Ok.leavesNoTrace (h : s.Ok z o m) : s.LeavesNoTrace z o m := by
  have hshows := h.shows
  have hhwm := h.hwm
  have hnext := h.next
  refine ⟨fun p c hwm hf hc hh => ?_, fun hidle => ?_, fun p c hwm t hf hc hh => ?_⟩
  · have hp : p.isCommit = true := Pass.isCommit_iff.mpr ⟨c, hwm, hc, hh⟩
    have hstage : s.stage = .refused := stage_of_commit hf hp
    obtain ⟨records, before, -, hcalled, hcommit, hbefore, hsaw, -, -⟩ := (h.pass p _ hf).commit hp
    rw [landed_other (by simp [hstage])] at hshows hhwm
    rw [owed_other (by simp [hstage]), length_nil, add_zero] at hnext
    obtain rfl : commitRequest o _ _ = c := some.inj (hcommit.symm.trans hc)
    refine ⟨before, hcalled, hhwm.trans hbefore.symm, hnext.trans hhwm, fun i hlow hhigh => ?_⟩
    have hm : m.next = m.first + m.items.length := rfl
    have hlt : i - m.first < (m.items ++ s.committed.flatten).length := by
      rw [length_append]
      omega
    have h1 := hsaw (i - m.first) _ (getElem?_eq_getElem hlt)
    have h2 := hshows (i - m.first) _ (getElem?_eq_getElem hlt)
    rw [show m.first + (i - m.first) = i by omega] at h1 h2
    exact ⟨_, h1, h2⟩
  · have hstage : s.stage = .working := by
      cases hf : s.flusher with
      | none => rw [stage, hf]
      | some pass => exact stage_of_other hf (hidle pass hf)
    rw [landed_other (by simp [hstage])] at hshows hhwm
    exact ⟨hhwm, hshows⟩
  · have hp : p.isCommit = true := Pass.isCommit_iff.mpr ⟨c, hwm, hc, hh⟩
    have hstage : s.stage = .working := stage_of_commit hf hp
    obtain ⟨records, before, -, -, hcommit, -, -, -, htrue⟩ := (h.pass p _ hf).commit hp
    obtain rfl := htrue t rfl
    obtain rfl : commitRequest o _ _ = c := some.inj (hcommit.symm.trans hc)
    rw [landed_other (by simp [hstage])] at hhwm
    have hiff := discard_next_iff h.traced.log h.whole h.boundary
    rw [show s.traced.machine.log.highWatermark = _ from hhwm] at hiff
    rw [hhwm]
    exact hiff

end Serial

/-- With one producer at a time, on a log that opened with everything visible, and as long as every
discard finds the active segment at or below the high watermark, failed commits leave no trace. -/
theorem failed_commits_leave_no_trace (z : Zstd) (o : Options) (d : Disk) (m : OffsetMap Bytes)
    (lay : ℕ → List Piece) (hdir : DirOk z d.files m lay)
    (hhwm : (newLog o d).highWatermark = m.next) (labels : List Label) (s : Serial)
    (hclean : (Serial.start o d m lay).clean z o labels = true)
    (hrun : (Serial.start o d m lay).run z o labels = some s) : s.LeavesNoTrace z o m :=
  ((Serial.start_ok hdir hhwm).run hclean hrun).leavesNoTrace

/-- A batch of one frame whose write fails, and its retry. -/
def failedThenCommitted : List Label :=
  [Label.append [[1], [2]], .request (commitRequest defaultOptions 0 1)] ++
    List.replicate 2 (Label.flush .calm) ++ [Label.flush { Env.calm with write := .fails 5 false }] ++
    List.replicate 2 (Label.flush .calm) ++
    [Label.append [[1], [2]], .request (commitRequest defaultOptions 0 1)] ++
    List.replicate 13 (Label.flush .calm)

theorem failedThenCommitted_leaves_one_copy :
    ∃ s, (Serial.start defaultOptions .empty ⟨0, []⟩ fun _ => []).run .stored defaultOptions
        failedThenCommitted = some s ∧ s.committed = [[[1], [2]]] ∧ s.log.highWatermark = 2 ∧
      s.LeavesNoTrace .stored defaultOptions ⟨0, []⟩ := by
  have hrun := (some_get (x := (Serial.start defaultOptions .empty ⟨0, []⟩ fun _ => []).run
    .stored defaultOptions failedThenCommitted) (by decide +kernel)).symm
  refine ⟨_, hrun, by decide +kernel, by decide +kernel, ?_⟩
  exact failed_commits_leave_no_trace .stored defaultOptions .empty ⟨0, []⟩ (fun _ => [])
    (dirOk_empty .stored) rfl failedThenCommitted _ (by decide +kernel) hrun

/-- Segments of one frame and frames of one record. -/
def tinyOptions : Options :=
  { defaultOptions with segmentBytes := 1, maxFrameInnerBytes := 5 }

/-- The first frame of a batch of two is written, the log rolls and the second write fails. -/
def splitBatchFails : List Label :=
  [Label.append [[1], [2]], .request (commitRequest tinyOptions 0 1)] ++ List.replicate 11 (Label.flush .calm) ++
    [Label.flush { Env.calm with write := .fails 0 true }, .flush .calm]

/-- The producer hears the error and retries. -/
def splitBatchRetried : List Label :=
  splitBatchFails ++ [Label.flush .calm, .append [[1], [2]], .request (commitRequest tinyOptions 1 2)] ++
    List.replicate 25 (Label.flush .calm)

/-- The failed commit leaves the first record behind, and the retry commits a second copy of it. -/
theorem split_batch_is_committed_twice :
    (∃ s, (Serial.start tinyOptions .empty ⟨0, []⟩ fun _ => []).run .stored tinyOptions splitBatchFails = some s ∧
      s.flusher = some (⟨true, some (commitRequest tinyOptions 0 1), false⟩, .reply false) ∧
      s.log.buffer.nextOffset = 1 ∧ ¬s.LeavesNoTrace .stored tinyOptions ⟨0, []⟩) ∧
    ∃ s, (Serial.start tinyOptions .empty ⟨0, []⟩ fun _ => []).run .stored tinyOptions splitBatchRetried = some s ∧
      s.committed = [[[1], [2]]] ∧ s.log.highWatermark = 3 ∧
      (readShared .stored tinyOptions s.log 0).1.toOption = some [1] ∧
      (readShared .stored tinyOptions s.log 1).1.toOption = some [1] ∧
      (readShared .stored tinyOptions s.log 2).1.toOption = some [2] := by
  constructor
  · have hrun := (some_get (x := (Serial.start tinyOptions .empty ⟨0, []⟩ fun _ => []).run
      .stored tinyOptions splitBatchFails) (by decide +kernel)).symm
    have hflusher : (((Serial.start tinyOptions .empty ⟨0, []⟩ fun _ => []).run .stored tinyOptions
        splitBatchFails).get (by decide +kernel)).flusher =
          some (⟨true, some (commitRequest tinyOptions 0 1), false⟩, .reply false) := by
      decide +kernel
    refine ⟨_, hrun, hflusher, by decide +kernel, fun h => ?_⟩
    obtain ⟨before, -, -, hnext, -⟩ := h.failed _ _ 2 hflusher rfl rfl
    revert hnext
    decide +kernel
  · have hrun := (some_get (x := (Serial.start tinyOptions .empty ⟨0, []⟩ fun _ => []).run
      .stored tinyOptions splitBatchRetried) (by decide +kernel)).symm
    exact ⟨_, hrun, by decide +kernel, by decide +kernel, by decide +kernel, by decide +kernel,
      by decide +kernel⟩

end Narad.Storage
