import Narad.Messaging.Combiner

/-!
# The invariant of group commit

Leadership passes through eight phases, from nobody leading to the next caller holding its token.
Beside the phase the invariant names the queue and the requests a cycle still has to wake. Every
caller is then in one of five places: it has not called, it is queued, it is carried by the cycle,
it is done, or it leads.

Each action has a lemma that says to which phase it leads.
-/

namespace Narad.Messaging

open Function (update_of_ne update_self)
open Lib List Option Arrays CommitRequest

variable {r : CommitRequest}

/-- Who leads, and how far. -/
inductive Phase where
  | standing
  | undrained (l : ℕ)
  | drained (l : ℕ)
  | waking (l : ℕ)
  | recycling (l : ℕ)
  | handingOver (l : ℕ)
  | handing (l next : ℕ)
  | handed (next : ℕ)

def Phase.leader : Phase → Option ℕ
  | .standing | .handed _ => none
  | .undrained l | .drained l | .waking l | .recycling l | .handingOver l | .handing l _ => some l

/-- The caller chosen to lead next. -/
def Phase.next : Phase → Option ℕ
  | .handing _ next | .handed next => some next
  | _ => none

/-- The payloads are those the caller brought, with the commit time rewritten at most. -/
def Own (brought payloads : List Bytes) : Prop :=
  payloads = brought ∨ ∃ stamp, payloads = restampKeyedRecords brought stamp

/-- The caller reads the outcome that the cycle recorded. -/
structure Reports (r r' : CommitRequest) : Prop where
  err : r.err = r'.err
  first : r.first = r'.first
  payloads : r.payloads = r'.payloads

/-- What a cycle's outcome is for its requests. -/
structure Outcome.Sound (o : Outcome) (members : List ℕ) (submitted : ℕ → List Bytes) : Prop where
  own : ∀ i ∈ members, Own (submitted i) (o.requests i).payloads
  failed : ∀ requests, o = .failed requests → ∀ i ∈ members, (requests i).err ≠ none
  settled : ∀ requests log log', o = .settled requests log log' →
    (∀ i ∈ members, (requests i).err ≠ none) ∨ Numbered members requests log log'

namespace Traced

/-- The caller waits, with `token` in its channel. -/
structure Waits (t : Traced) (i token : ℕ) (lead : Bool) : Prop where
  pc : t.machine.pc i = .waiting
  wake : (t.machine.requests i).wake = some token
  lead : (t.machine.requests i).lead = lead
  woken : t.woken i = 0

variable (t : Traced)

/-- The caller never had to wait, or has been woken once. -/
def Over (i : ℕ) : Prop :=
  ((t.machine.requests i).wake = none ∧ t.woken i = 0) ∨ ((t.machine.requests i).wake = some 0 ∧ t.woken i = 1)

def Done (i : ℕ) : Prop :=
  t.Waits i 1 false ∨ (t.machine.pc i = .returned ∧ t.Over i)

/-- No cycle has written to the request. -/
def Fresh (i : ℕ) : Prop :=
  (t.machine.requests i).err = none ∧ (t.machine.requests i).payloads = t.submitted i

/-- The cycle's own array. -/
structure InHand (t : Traced) (b : Slice) : Prop where
  valid : t.machine.arrays.Valid (some b)
  queue : Arrays.Apart t.machine.queue (some b)
  spare : Arrays.Apart t.machine.spare (some b)

/-- The queue's and the spare's arrays. -/
structure Slices (s : Combiner) (queue : List ℕ) : Prop where
  read : s.arrays.read s.queue = queue.map some
  valid : s.arrays.Valid s.queue
  spareRead : s.arrays.read s.spare = []
  spareValid : s.arrays.Valid s.spare
  apart : Arrays.Apart s.queue s.spare

/-- Every caller is where the phase, the queue and the carried requests say. -/
structure Places (t : Traced) (φ : Phase) (queue carried : List ℕ) : Prop where
  nodup : (queue ++ t.drained).Nodup
  callers : ∀ i, i ∈ t.callers ↔ i ∈ queue ∨ i ∈ t.drained
  subset : carried ⊆ t.drained
  carriedNodup : carried.Nodup
  outside : ∀ i, i ∉ queue → i ∉ t.drained → t.machine.pc i = .idle ∧ t.woken i = 0
  queued : ∀ i ∈ queue, φ.leader ≠ some i → φ.next ≠ some i → t.Waits i 0 false
  waits : ∀ i ∈ carried, φ.leader ≠ some i → t.Waits i 0 false
  done : ∀ i ∈ t.drained, i ∉ carried → φ.leader ≠ some i → t.Done i
  leading : ∀ i, φ.leader = some i → t.Over i

/-- Nothing is written to a request before its cycle ends, and nothing after. -/
structure Written (t : Traced) (queue : List ℕ) : Prop where
  fresh : ∀ i ∈ queue, t.Fresh i
  reports : ∀ c ∈ t.cycles, ∀ o, c.outcome = some o → ∀ i ∈ c.members, Reports (t.machine.requests i) (o.requests i)
  sound : ∀ c ∈ t.cycles, ∀ o, c.outcome = some o → o.Sound c.members t.submitted

def AllSettled (cycles : List Cycle) : Prop :=
  ∀ c ∈ cycles, c.outcome ≠ none

/-- What holds in one phase. -/
def PhaseOk (queue carried : List ℕ) : Phase → Prop
  | .standing => t.machine.leading = false ∧ queue = [] ∧ carried = [] ∧ AllSettled t.cycles
  | .undrained l => t.machine.leading = true ∧ l ∈ queue ∧ carried = [] ∧ AllSettled t.cycles ∧
      ((∃ a ≤ staleLogAttempts, t.machine.pc l = .resolving a none ∨
        ∃ incarnation, t.machine.pc l = .locked a incarnation none) ∨
        ∃ reason, t.machine.pc l = .failed reason none)
  | .drained l => t.machine.leading = true ∧ l ∈ carried ∧ (∀ i ∈ carried, t.Fresh i) ∧
      (∃ cycles, t.cycles = ⟨l, carried, none⟩ :: cycles ∧ AllSettled cycles) ∧
      ∃ b, t.InHand b ∧ t.machine.arrays.read (some b) = carried.map some ∧
        ((∃ a ≤ staleLogAttempts, t.machine.pc l = .resolving a (some b) ∨
          ∃ incarnation, t.machine.pc l = .locked a incarnation (some b) ∨
            t.machine.pc l = .committing a incarnation (some b)) ∨
          ∃ reason, t.machine.pc l = .failed reason (some b))
  | .waking l => t.machine.leading = true ∧ l ∈ t.drained ∧ AllSettled t.cycles ∧
      ∃ b k, t.InHand b ∧ (t.machine.arrays.read (some b)).drop k = carried.map some ∧
        t.machine.pc l = .waking (some b) k
  | .recycling l => t.machine.leading = true ∧ l ∈ t.drained ∧ carried = [] ∧ AllSettled t.cycles ∧
      ∃ b, t.InHand b ∧ t.machine.pc l = .recycling (some b)
  | .handingOver l => t.machine.leading = true ∧ l ∈ t.drained ∧ carried = [] ∧ AllSettled t.cycles ∧
      t.machine.pc l = .handingOver
  | .handing l next => t.machine.leading = true ∧ l ∈ t.drained ∧ carried = [] ∧
      AllSettled t.cycles ∧ t.machine.pc l = .handing next ∧ queue.head? = some next ∧
      t.Waits next 0 true
  | .handed next => t.machine.leading = true ∧ carried = [] ∧ AllSettled t.cycles ∧
      queue.head? = some next ∧ t.Waits next 1 true

/-- Some phase describes the state. -/
structure At (t : Traced) (φ : Phase) (queue carried : List ℕ) : Prop where
  slices : Slices t.machine queue
  places : t.Places φ queue carried
  written : t.Written queue
  phase : t.PhaseOk queue carried φ

def Ok : Prop :=
  ∃ φ queue carried, t.At φ queue carried

variable {t t' : Traced} {φ φ' : Phase} {queue carried : List ℕ} {i l token : ℕ} {lead : Bool}

/-- The caller's channel, flag and count are as before. -/
structure Still (t t' : Traced) (i : ℕ) : Prop where
  wake : (t'.machine.requests i).wake = (t.machine.requests i).wake
  lead : (t'.machine.requests i).lead = (t.machine.requests i).lead
  woken : t'.woken i = t.woken i

theorem Waits.still (h : t.Waits i token lead) (hpc : t'.machine.pc i = t.machine.pc i)
    (hstill : Still t t' i) : t'.Waits i token lead :=
  ⟨hpc.trans h.pc, hstill.wake.trans h.wake, hstill.lead.trans h.lead, hstill.woken.trans h.woken⟩

theorem Over.still (h : t.Over i) (hstill : Still t t' i) : t'.Over i := by
  unfold Over at h ⊢
  rwa [hstill.wake, hstill.woken]

theorem Done.still (h : t.Done i) (hpc : t'.machine.pc i = t.machine.pc i) (hstill : Still t t' i) : t'.Done i :=
  h.imp (fun h => h.still hpc hstill) fun h => ⟨hpc.trans h.1, h.2.still hstill⟩

/-- Where one caller is. -/
structure Placed (t : Traced) (φ : Phase) (queue carried : List ℕ) (i : ℕ) : Prop where
  outside : i ∉ queue → i ∉ t.drained → t.machine.pc i = .idle ∧ t.woken i = 0
  queued : i ∈ queue → φ.leader ≠ some i → φ.next ≠ some i → t.Waits i 0 false
  waits : i ∈ carried → φ.leader ≠ some i → t.Waits i 0 false
  done : i ∈ t.drained → i ∉ carried → φ.leader ≠ some i → t.Done i
  leading : φ.leader = some i → t.Over i

variable {queue' carried' : List ℕ} {p : Pc}

theorem Places.placed (h : t.Places φ queue carried) (i : ℕ) : t.Placed φ queue carried i :=
  ⟨h.outside i, h.queued i, h.waits i, h.done i, h.leading i⟩

theorem Placed.places (h : ∀ i, t.Placed φ queue carried i) (hnodup : (queue ++ t.drained).Nodup)
    (hcallers : ∀ i, i ∈ t.callers ↔ i ∈ queue ∨ i ∈ t.drained) (hsubset : carried ⊆ t.drained)
    (hcarried : carried.Nodup) : t.Places φ queue carried :=
  ⟨hnodup, hcallers, hsubset, hcarried, fun i => (h i).outside, fun i => (h i).queued, fun i => (h i).waits,
    fun i => (h i).done, fun i => (h i).leading⟩

theorem Places.of_placed (h : t.Places φ queue carried) (hdrained : t'.drained = t.drained)
    (hcallers : t'.callers = t.callers) (hsub : carried'.Sublist carried)
    (hplaced : ∀ i, t'.Placed φ' queue carried' i) : t'.Places φ' queue carried' :=
  Placed.places hplaced (hdrained ▸ h.nodup) (fun i => by rw [hcallers, hdrained, h.callers])
    (fun i hi => hdrained ▸ h.subset (hsub.subset hi)) (h.carriedNodup.sublist hsub)

theorem Places.not_queued (h : t.Places φ queue carried) (hd : i ∈ t.drained) : i ∉ queue :=
  fun hq => (nodup_append.mp h.nodup).2.2 i hq i hd rfl

/-- A caller that nothing happens to is where it was. -/
theorem Placed.still (h : t.Placed φ queue carried i) (hpc : t'.machine.pc i = t.machine.pc i)
    (hstill : Still t t' i) (hqueue : i ∈ queue' ↔ i ∈ queue) (hdrained : t'.drained = t.drained)
    (hcarried : i ∈ carried' ↔ i ∈ carried) (hleader : φ'.leader = some i ↔ φ.leader = some i)
    (hnext : φ.next = some i → φ'.next = some i) : t'.Placed φ' queue' carried' i where
  outside hq hd := by
    rw [hpc, hstill.woken]
    exact h.outside (mt hqueue.mpr hq) (hdrained ▸ hd)
  queued hq hl hn := (h.queued (hqueue.mp hq) (mt hleader.mpr hl) (mt hnext hn)).still hpc hstill
  waits hc hl := (h.waits (hcarried.mp hc) (mt hleader.mpr hl)).still hpc hstill
  done hd hc hl := (h.done (hdrained ▸ hd) (mt hcarried.mpr hc) (mt hleader.mpr hl)).still hpc hstill
  leading hl := (h.leading (hleader.mp hl)).still hstill

theorem Placed.of_leader (hl : φ.leader = some i) (hmem : i ∈ queue ∨ i ∈ t.drained) (hover : t.Over i) :
    t.Placed φ queue carried i :=
  ⟨fun hq hd => (hmem.elim hq hd).elim, fun _ hn => absurd hl hn, fun _ hn => absurd hl hn,
    fun _ _ hn => absurd hl hn, fun _ => hover⟩

theorem Placed.of_done (hd : i ∈ t.drained) (hq : i ∉ queue) (hc : i ∉ carried) (hl : φ.leader ≠ some i)
    (hdone : t.Done i) : t.Placed φ queue carried i :=
  ⟨fun _ h => absurd hd h, fun h => absurd h hq, fun h => absurd h hc, fun _ _ _ => hdone, fun h => absurd h hl⟩

/-- Only the leader moves, by its own step. -/
theorem Places.move (h : t.Places φ queue carried) (hl : φ.leader = some l)
    (hmem : l ∈ queue ∨ l ∈ t.drained) (hdrained : t'.drained = t.drained) (hcallers : t'.callers = t.callers)
    (hpc : t'.machine.pc = Function.update t.machine.pc l p) (hstill : ∀ i, Still t t' i)
    (hleader : φ'.leader = φ.leader) (hnext : φ.next = none) : t'.Places φ' queue carried := by
  refine h.of_placed hdrained hcallers (.refl _) fun i => ?_
  by_cases hi : i = l
  · subst hi
    exact .of_leader (hleader ▸ hl) (hdrained ▸ hmem) ((h.leading i hl).still (hstill i))
  · have hother : t'.machine.pc i = t.machine.pc i := by rw [hpc, update_of_ne hi]
    exact (h.placed i).still hother (hstill i) .rfl hdrained .rfl (hleader ▸ .rfl) (by simp [hnext])

/-- A request whose outcome and payloads stay still reports them. -/
theorem Written.frame (h : t.Written queue) (hcycles : t'.cycles = t.cycles) (hsubmitted : t'.submitted = t.submitted)
    (hsame : ∀ i, Reports (t'.machine.requests i) (t.machine.requests i)) : t'.Written queue where
  fresh i hi := by
    have hfresh := h.fresh i hi
    exact ⟨(hsame i).err.trans hfresh.1, by rw [hsubmitted, (hsame i).payloads, hfresh.2]⟩
  reports c hc o ho i hi := by
    rw [hcycles] at hc
    have hold := h.reports c hc o ho i hi
    exact ⟨(hsame i).err.trans hold.err, (hsame i).first.trans hold.first,
      (hsame i).payloads.trans hold.payloads⟩
  sound c hc o ho := by
    rw [hcycles] at hc
    rw [hsubmitted]
    exact h.sound c hc o ho

theorem At.leader_mem (h : t.At φ queue carried) (hl : φ.leader = some l) : l ∈ queue ∨ l ∈ t.drained := by
  have hphase := h.phase
  cases φ with
  | standing | handed => exact absurd hl (by simp [Phase.leader])
  | undrained l' =>
    cases hl
    exact .inl hphase.2.1
  | drained l' =>
    cases hl
    exact .inr (h.places.subset hphase.2.1)
  | waking | recycling | handingOver | handing =>
    cases hl
    exact .inr hphase.2.1

theorem At.chosen_mem (h : t.At φ queue carried) (hn : φ.next = some i) :
    i ∈ queue ∧ φ.leader ≠ some i ∧ ∃ token, t.Waits i token true := by
  have hphase := h.phase
  cases φ with
  | handing l next =>
    cases hn
    obtain ⟨-, hmem, -, -, -, hfirst, hwaits⟩ := hphase
    have hi := mem_of_head? hfirst
    refine ⟨hi, fun hl => ?_, 0, hwaits⟩
    cases hl
    exact h.places.not_queued hmem hi
  | handed next =>
    cases hn
    obtain ⟨-, -, -, hfirst, hwaits⟩ := hphase
    exact ⟨mem_of_head? hfirst, by simp [Phase.leader], 1, hwaits⟩
  | standing | undrained | drained | waking | recycling | handingOver =>
    exact absurd hn (by simp [Phase.next])

/-- Where a caller is that does not lead. -/
theorem At.place (h : t.At φ queue carried) (hl : φ.leader ≠ some i) :
    (φ.next = some i ∧ ∃ token, t.Waits i token true) ∨ t.Waits i 0 false ∨ (i ∈ t.drained ∧ i ∉ carried ∧ t.Done i) ∨
      (i ∉ queue ∧ i ∉ t.drained ∧ t.machine.pc i = .idle ∧ t.woken i = 0) := by
  by_cases hq : i ∈ queue
  · by_cases hn : φ.next = some i
    · exact .inl ⟨hn, (h.chosen_mem hn).2.2⟩
    · exact .inr (.inl (h.places.queued i hq hl hn))
  by_cases hd : i ∈ t.drained
  · by_cases hc : i ∈ carried
    · exact .inr (.inl (h.places.waits i hc hl))
    · exact .inr (.inr (.inl ⟨hd, hc, h.places.done i hd hc hl⟩))
  · exact .inr (.inr (.inr ⟨hq, hd, h.places.outside i hq hd⟩))

/-- A caller inside a cycle is the leader. -/
theorem At.leader_of_busy (h : t.At φ queue carried)
    (hbusy : t.machine.pc i ≠ .idle ∧ t.machine.pc i ≠ .waiting ∧ t.machine.pc i ≠ .returned) : φ.leader = some i := by
  by_contra hl
  obtain ⟨-, token, hw⟩ | hw | ⟨-, -, hw | hdone⟩ | ⟨-, -, hidle, -⟩ := h.place hl
  · exact hbusy.2.1 hw.pc
  · exact hbusy.2.1 hw.pc
  · exact hbusy.2.1 hw.pc
  · exact hbusy.2.2 hdone.1
  · exact hbusy.1 hidle

/-- The phase in which the leader `i` stands at this point of its call. -/
def phaseAt (i : ℕ) : Pc → Option Phase
  | .resolving _ none | .locked _ _ none | .failed _ none => some (.undrained i)
  | .resolving _ (some _) | .locked _ _ (some _) | .committing _ _ (some _) | .failed _ (some _) =>
    some (.drained i)
  | .waking _ _ => some (.waking i)
  | .recycling _ => some (.recycling i)
  | .handingOver => some (.handingOver i)
  | .handing next => some (.handing i next)
  | .idle | .waiting | .committing _ _ none | .returned => none

theorem At.phaseAt_eq (h : t.At φ queue carried) (hl : φ.leader = some i) : phaseAt i (t.machine.pc i) = some φ := by
  have hphase := h.phase
  cases φ with
  | standing | handed => exact absurd hl (by simp [Phase.leader])
  | undrained l =>
    cases hl
    obtain ⟨-, -, -, -, ⟨a, -, hpc | ⟨inc, hpc⟩⟩ | ⟨reason, hpc⟩⟩ := hphase <;> rw [hpc] <;> rfl
  | drained l =>
    cases hl
    obtain ⟨-, -, -, -, b, -, -, ⟨a, -, hpc | ⟨inc, hpc | hpc⟩⟩ | ⟨reason, hpc⟩⟩ := hphase <;>
      rw [hpc] <;> rfl
  | waking l =>
    cases hl
    obtain ⟨-, -, -, b, k, -, -, hpc⟩ := hphase
    rw [hpc]
    rfl
  | recycling l =>
    cases hl
    obtain ⟨-, -, -, -, b, -, hpc⟩ := hphase
    rw [hpc]
    rfl
  | handingOver l =>
    cases hl
    rw [hphase.2.2.2.2]
    rfl
  | handing l next =>
    cases hl
    rw [hphase.2.2.2.2.1]
    rfl

/-- The point a busy caller has reached tells the phase. -/
theorem At.phase_eq (h : t.At φ queue carried) (hpc : t.machine.pc i = p)
    (hbusy : p ≠ .idle ∧ p ≠ .waiting ∧ p ≠ .returned) : phaseAt i p = some φ := by
  subst hpc
  exact h.phaseAt_eq (h.leader_of_busy hbusy)

theorem step_eq_some {a : Action} (hstep : t.step a = some t') : ∃ s, t.machine.step a = some s ∧
      t' = ⟨s, t.callersAfter a, t.cyclesAfter a, t.wokenAfter a, t.submittedAfter a⟩ := by
  obtain ⟨s, hs, rfl⟩ := map_eq_some_iff.mp hstep
  exact ⟨s, hs, rfl⟩

/-- The leader moves on and nothing else changes. -/
theorem At.goto (h : t.At φ queue carried) (hl : φ.leader = some l)
    (hleader : φ'.leader = φ.leader) (hnext : φ.next = none)
    (hphase : PhaseOk { t with machine := t.machine.goto l p } queue carried φ') :
    At { t with machine := t.machine.goto l p } φ' queue carried where
  slices := { h.slices with }
  places := h.places.move hl (h.leader_mem hl) rfl rfl rfl (fun _ => ⟨rfl, rfl, rfl⟩) hleader hnext
  written := h.written.frame rfl rfl fun _ => ⟨rfl, rfl, rfl⟩
  phase := hphase

theorem At.resolve {answer : Except String String} (h : t.At φ queue carried)
    (hstep : t.step (.resolve i answer) = some t') : t'.At φ queue carried := by
  obtain ⟨s, hs, rfl⟩ := step_eq_some hstep
  simp only [Combiner.step] at hs
  split at hs
  next attempt batch hpc =>
    obtain ⟨p, rfl, hp⟩ : ∃ p, s = t.machine.goto i p ∧
        ((∃ incarnation, p = .locked attempt incarnation batch) ∨ ∃ reason, p = .failed reason batch) := by
      cases answer with
      | ok incarnation => exact ⟨_, (some.inj hs).symm, .inl ⟨incarnation, rfl⟩⟩
      | error reason => exact ⟨_, (some.inj hs).symm, .inr ⟨reason, rfl⟩⟩
    have hφ := h.phase_eq hpc (by simp)
    have hself : (t.machine.goto i p).pc i = p := update_self ..
    cases batch with
    | none =>
      cases hφ
      refine h.goto rfl rfl rfl ?_
      obtain ⟨hlead, hmem, hcarried, hsettled, ⟨a, ha, hpc' | ⟨inc, hpc'⟩⟩ | ⟨reason, hpc'⟩⟩ := h.phase <;>
        cases hpc.symm.trans hpc'
      refine ⟨hlead, hmem, hcarried, hsettled, ?_⟩
      rcases hp with ⟨inc, rfl⟩ | ⟨reason, rfl⟩
      · exact .inl ⟨_, ha, .inr ⟨inc, hself⟩⟩
      · exact .inr ⟨reason, hself⟩
    | some b =>
      cases hφ
      refine h.goto rfl rfl rfl ?_
      obtain ⟨hlead, hmem, hfresh, hcycles, b', hhand, hread,
        ⟨a, ha, hpc' | ⟨inc, hpc' | hpc'⟩⟩ | ⟨reason, hpc'⟩⟩ := h.phase <;>
        cases hpc.symm.trans hpc'
      refine ⟨hlead, hmem, hfresh, hcycles, _, { hhand with }, hread, ?_⟩
      rcases hp with ⟨inc, rfl⟩ | ⟨reason, rfl⟩
      · exact .inl ⟨_, ha, .inr ⟨inc, .inl hself⟩⟩
      · exact .inr ⟨reason, hself⟩
  · cases hs

variable {s : Combiner}

theorem members_eq {b : Option Slice} {xs : List ℕ} (hread : s.arrays.read b = xs.map some) : s.members b = xs := by
  have hmembers : s.members b = (s.arrays.read b).filterMap id := rfl
  rw [hmembers, hread, filterMap_map]
  exact filterMap_some

theorem At.queue_eq_some (h : t.At (.undrained l) queue carried) : ∃ b, t.machine.queue = some b := by
  cases hqueue : t.machine.queue with
  | some b => exact ⟨b, rfl⟩
  | none =>
    have hread := h.slices.read
    rw [hqueue] at hread
    have hempty : queue = [] := map_eq_nil_iff.mp hread.symm
    exact absurd (hempty ▸ h.phase.2.1) (by simp)

/-- The state after the leader took the queue. -/
def taken (t : Traced) (l : ℕ) (p : Pc) : Traced :=
  { t with machine := t.machine.drained.goto l p, cycles := t.newCycle l :: t.cycles }

variable {b : Slice}

theorem At.take (h : t.At (.undrained l) queue carried) (hb : t.machine.queue = some b)
    (hp : (∃ a ≤ staleLogAttempts, ∃ incarnation, p = .committing a incarnation (some b)) ∨
      ∃ reason, p = .failed reason (some b)) : (t.taken l p).At (.drained l) [] queue := by
  obtain ⟨hlead, hmem, rfl, hsettled, -⟩ := h.phase
  have hmembers : t.machine.members t.machine.queue = queue := members_eq h.slices.read
  have hdrained : (t.taken l p).drained = queue ++ t.drained := by
    rw [drained, taken, flatMap_cons, newCycle, hmembers]
    rfl
  have hother : ∀ i, i ≠ l → (t.machine.drained.goto l p).pc i = t.machine.pc i :=
    fun i hi => update_of_ne hi _ _
  have hne : ∀ i, (Phase.drained l).leader ≠ some i → i ≠ l := fun i hi heq => hi (heq ▸ rfl)
  refine ⟨⟨h.slices.spareRead, h.slices.spareValid, rfl, valid_none _, ?_⟩, ?_, ?_, ?_⟩
  · intro a _ b hb
    exact absurd hb (by simp [taken, Combiner.goto, Combiner.drained])
  · refine ⟨?_, ?_, ?_, ?_, ?_, ?_, ?_, ?_, ?_⟩
    · rw [hdrained]
      exact h.places.nodup
    · intro i
      rw [hdrained, mem_append, show (t.taken l p).callers = t.callers from rfl, h.places.callers]
      simp
    · rw [hdrained]
      exact subset_append_left _ _
    · exact (nodup_append.mp h.places.nodup).1
    · intro i _ hi
      rw [hdrained, mem_append, not_or] at hi
      have hl : i ≠ l := fun heq => hi.1 (heq ▸ hmem)
      have hold := h.places.outside i hi.1 hi.2
      exact ⟨(hother i hl).trans hold.1, hold.2⟩
    · intro i hi
      cases hi
    · intro i hi hl
      exact (h.places.queued i hi hl (by simp [Phase.next])).still (hother i (hne i hl)) ⟨rfl, rfl, rfl⟩
    · intro i hi hc hl
      rw [hdrained, mem_append] at hi
      exact (h.places.done i (hi.resolve_left hc) (by simp) hl).still (hother i (hne i hl)) ⟨rfl, rfl, rfl⟩
    · intro i hl
      exact (h.places.leading i hl).still ⟨rfl, rfl, rfl⟩
  · refine ⟨fun i hi => absurd hi (by simp), ?_, ?_⟩
    · intro c hc o ho
      rcases mem_cons.mp hc with rfl | hc
      · exact absurd ho (by simp [newCycle])
      · exact h.written.reports c hc o ho
    · intro c hc o ho
      rcases mem_cons.mp hc with rfl | hc
      · exact absurd ho (by simp [newCycle])
      · exact h.written.sound c hc o ho
  · have hself : (t.machine.drained.goto l p).pc l = p := update_self ..
    refine ⟨hlead, hmem, h.written.fresh, ⟨t.cycles, ?_, hsettled⟩, b, ⟨?_, ?_, ?_⟩, ?_, ?_⟩
    · rw [taken, newCycle, hmembers]
    · exact hb ▸ h.slices.valid
    · exact hb ▸ h.slices.apart.symm
    · intro a ha
      exact absurd ha (by simp [taken, Combiner.goto, Combiner.drained])
    · exact hb ▸ h.slices.read
    · rcases hp with ⟨a, ha, inc, rfl⟩ | ⟨reason, rfl⟩
      · exact .inl ⟨a, ha, .inr ⟨inc, .inr hself⟩⟩
      · exact .inr ⟨reason, hself⟩

theorem At.drain (h : t.At φ queue carried) (hstep : t.step (.drain i) = some t') : t'.Ok := by
  obtain ⟨s, hs, rfl⟩ := step_eq_some hstep
  simp only [Combiner.step] at hs
  split at hs
  next attempt incarnation hpc =>
    cases hs
    cases h.phase_eq hpc (by simp)
    obtain ⟨b, hb⟩ := h.queue_eq_some
    obtain ⟨-, -, -, -, ⟨a, ha, hpc' | ⟨inc, hpc'⟩⟩ | ⟨reason, hpc'⟩⟩ := h.phase <;>
      cases hpc.symm.trans hpc'
    have htake := h.take hb (.inl ⟨_, ha, incarnation, rfl⟩)
    refine ⟨.drained i, [], queue, ?_⟩
    simp only [cyclesAfter, hpc, hb]
    exact htake
  next attempt incarnation b hpc =>
    cases hs
    cases h.phase_eq hpc (by simp)
    obtain ⟨hlead, hmem, hfresh, hcycles, b', hhand, hread,
      ⟨a, ha, hpc' | ⟨inc, hpc' | hpc'⟩⟩ | ⟨reason, hpc'⟩⟩ := h.phase <;>
      cases hpc.symm.trans hpc'
    refine ⟨.drained i, queue, carried, ?_⟩
    simp only [cyclesAfter, hpc]
    exact h.goto rfl rfl rfl ⟨hlead, hmem, hfresh, hcycles, b, { hhand with }, hread,
      .inl ⟨_, ha, .inr ⟨incarnation, .inr (update_self ..)⟩⟩⟩
  · cases hs

/-- A cycle that ends writes to the requests it carries only. -/
theorem At.settle (h : t.At (.drained l) queue carried) (o : Outcome) {carried' : List ℕ}
    (hperm : carried'.Perm carried) (hslices : Slices s queue) (hhand : InHand { t with machine := s } b)
    (hread : s.arrays.read (some b) = carried'.map some)
    (hpc : s.pc = Function.update t.machine.pc l (.waking (some b) 0))
    (hleading : s.leading = t.machine.leading) (hrequests : s.requests = o.requests)
    (hframe : ∀ i, i ∉ carried → o.requests i = t.machine.requests i)
    (hsame : ∀ i, SameRequest (t.machine.requests i) (o.requests i))
    (hfailed : ∀ requests, o = .failed requests → ∀ i ∈ carried, (requests i).err ≠ none)
    (hsettled : ∀ requests log log', o = .settled requests log log' →
      (∀ i ∈ carried, (requests i).err ≠ none) ∨ Numbered carried requests log log') :
    At { t with machine := s, cycles := endCycle o t.cycles } (.waking l) queue carried' := by
  obtain ⟨hlead, hmem, hfresh, ⟨cycles, hold, hrest⟩, -⟩ := h.phase
  set t' : Traced := { t with machine := s, cycles := endCycle o t.cycles }
  have hnew : t'.cycles = ⟨l, carried, some o⟩ :: cycles := congrArg (endCycle o) hold
  have hdrained : t'.drained = t.drained := by
    rw [drained, drained, hnew, hold]
    rfl
  have hcarried : carried ++ cycles.flatMap Cycle.members = t.drained := by
    rw [drained, hold]
    rfl
  have hnodup := h.places.nodup
  rw [← hcarried] at hnodup
  have hstill : ∀ i, Still t t' i := fun i =>
    ⟨by rw [hrequests]; exact (hsame i).wake, by rw [hrequests]; exact (hsame i).lead, rfl⟩
  have hplaces : t'.Places (.waking l) queue carried :=
    h.places.move rfl (h.leader_mem rfl) hdrained rfl hpc hstill rfl rfl
  refine ⟨hslices, ?_, ⟨?_, ?_, ?_⟩, hleading.trans hlead, ?_, ?_, b, 0, { hhand with }, hread, ?_⟩
  · exact { hplaces with
      subset := fun i hi => hplaces.subset (hperm.mem_iff.mp hi)
      carriedNodup := hperm.nodup_iff.mpr hplaces.carriedNodup
      waits := fun i hi => hplaces.waits i (hperm.mem_iff.mp hi)
      done := fun i hi hc => hplaces.done i hi fun hmem => hc (hperm.mem_iff.mpr hmem) }
  · intro i hi
    have hnot : i ∉ carried := fun hc =>
      (nodup_append.mp hnodup).2.2 i hi i (mem_append_left _ hc) rfl
    have hi' := h.written.fresh i hi
    unfold Fresh
    rwa [hrequests, hframe i hnot]
  · rw [hnew]
    intro c hc o' ho' i hi
    rw [hrequests]
    rcases mem_cons.mp hc with rfl | hc
    · cases ho'
      exact ⟨rfl, rfl, rfl⟩
    have hnot : i ∉ carried := fun hmem =>
      (nodup_append.mp (nodup_append.mp hnodup).2.1).2.2 i hmem i (mem_flatMap.mpr ⟨c, hc, hi⟩) rfl
    rw [hframe i hnot]
    exact h.written.reports c (hold ▸ .tail _ hc) o' ho' i hi
  · rw [hnew]
    intro c hc o' ho'
    rcases mem_cons.mp hc with rfl | hc
    · cases ho'
      refine ⟨fun i hi => ?_, hfailed, hsettled⟩
      have hown := (hsame i).payloads
      rwa [(hfresh i hi).2] at hown
    · exact h.written.sound c (hold ▸ .tail _ hc) o' ho'
  · rw [hdrained]
    exact h.places.subset hmem
  · rw [hnew]
    intro c hc
    rcases mem_cons.mp hc with rfl | hc
    · simp
    · exact hrest c hc
  · rw [hpc]
    exact update_self ..

theorem settle_fail {reason : String} (h : t.At (.drained i) queue carried)
    (hpc : t.machine.pc i = .failed reason (some b)) (hstep : t.step (.fail i) = some t') :
    t'.At (.waking i) queue carried := by
  obtain ⟨s, hs, rfl⟩ := step_eq_some hstep
  obtain ⟨-, -, -, -, b', hhand, hread,
    ⟨a, -, hpc' | ⟨inc, hpc' | hpc'⟩⟩ | ⟨reason', hpc'⟩⟩ := h.phase <;> cases hpc.symm.trans hpc'
  have hmembers : t.machine.members (some b) = carried := members_eq hread
  simp only [Combiner.step, hpc] at hs
  cases hs
  simp only [cyclesAfter, hpc]
  refine h.settle _ (.refl _) { h.slices with } { hhand with } hread rfl rfl rfl ?_ ?_ ?_ ?_
  · intro j hj
    simp only [Outcome.requests, Combiner.fail, Combiner.goto]
    exact setErrors_of_notMem (hmembers.symm ▸ hj)
  · intro j
    simp only [Outcome.requests, Combiner.fail, Combiner.goto]
    rw [setErrors_same j]
    exact .of_eq rfl rfl rfl
  · intro requests heq j hj
    cases heq
    simp only [Combiner.fail, Combiner.goto]
    rw [setErrors_of_mem (hmembers.symm ▸ hj)]
    simp
  · intro requests log log' heq
    cases heq

theorem At.fail (h : t.At φ queue carried) (hstep : t.step (.fail i) = some t') : t'.Ok := by
  obtain ⟨s, hs, ht'⟩ := step_eq_some hstep
  simp only [Combiner.step] at hs
  split at hs
  next reason hpc =>
    cases h.phase_eq hpc (by simp)
    obtain ⟨b, hb⟩ := h.queue_eq_some
    have htake := h.take hb (.inr ⟨reason, rfl⟩)
    refine ⟨.waking i, [], queue, settle_fail htake (update_self ..) ?_⟩
    have hself : (t.taken i (.failed reason (some b))).machine.pc i = .failed reason (some b) :=
      update_self ..
    rw [ht', Traced.step]
    simp only [Combiner.step, cyclesAfter, hpc, hself, map_some]
    cases hs
    simp only [taken, Combiner.fail, Combiner.goto, Combiner.drained, Function.update_idem, hb]
    rfl
  next reason b hpc =>
    cases h.phase_eq hpc (by simp)
    exact ⟨.waking i, queue, carried, settle_fail h hpc hstep⟩
  · cases hs

/-- What the work under the produce lock does to the batch in hand. -/
theorem At.commitResult_spec (h : t.At (.drained l) queue carried) (attempt : ℕ)
    (incarnation : String) (e : CycleEnv) (log : OffsetMap Bytes)
    (hread : t.machine.arrays.read (some b) = carried.map some) :
    (t.machine.commitResult attempt incarnation (some b) e log).batch.Perm carried ∧
      ((t.machine.commitResult attempt incarnation (some b) e log).done = true → Settled carried t.machine.requests
          (t.machine.commitResult attempt incarnation (some b) e log).requests log
          (t.machine.commitResult attempt incarnation (some b) e log).log) ∧
      ((t.machine.commitResult attempt incarnation (some b) e log).done = false →
        (attempt == staleLogAttempts) = false ∧ t.machine.commitResult attempt incarnation (some b) e log =
            ⟨false, carried, t.machine.requests, t.machine.lastCommittedAt, log⟩) := by
  unfold Combiner.commitResult
  rw [members_eq hread]
  exact ⟨commitBatchLocked_perm, commitBatchLocked_settled h.places.carriedNodup
    fun i hi => (h.phase.2.2.1 i hi).1, commitBatchLocked_stale⟩

theorem At.commit {e : CycleEnv} {log : OffsetMap Bytes} (h : t.At φ queue carried)
    (hstep : t.step (.commit i e log) = some t') : t'.Ok := by
  obtain ⟨s, hs, rfl⟩ := step_eq_some hstep
  simp only [Combiner.step] at hs
  split at hs
  next attempt incarnation batch hpc =>
    have hφ := h.phase_eq hpc (by simp)
    cases batch with
    | none => exact absurd hφ (by simp [phaseAt])
    | some b =>
    cases hφ
    cases hs
    obtain ⟨hlead, hmem, hfresh, hcycles, b', hhand, hread,
      ⟨a, ha, hpc' | ⟨inc, hpc' | hpc'⟩⟩ | ⟨reason', hpc'⟩⟩ := h.phase <;> cases hpc.symm.trans hpc'
    simp only [cyclesAfter, hpc]
    obtain ⟨hperm, hsettled, hstale⟩ := h.commitResult_spec attempt incarnation e log hread
    generalize t.machine.commitResult attempt incarnation (some b) e log = r at *
    have hlen : (r.batch.map some).length = (t.machine.arrays.read (some b)).length := by
      rw [hread, length_map, length_map, hperm.length_eq]
    have hread' : (t.machine.arrays.store (some b) (r.batch.map some)).read (some b) =
        r.batch.map some := read_store hhand.valid hlen
    have hslices : Slices (t.machine.commit i attempt (some b) r) queue :=
      ⟨(read_store_of_apart hhand.queue.symm).trans h.slices.read, valid_store hhand.valid hlen h.slices.valid,
        (read_store_of_apart hhand.spare.symm).trans h.slices.spareRead,
        valid_store hhand.valid hlen h.slices.spareValid, h.slices.apart⟩
    have hvalid := valid_store hhand.valid hlen hhand.valid
    cases hdone : r.done with
    | true =>
      obtain ⟨hframe, hsame, houtcome⟩ := hsettled hdone
      refine ⟨.waking i, queue, r.batch, h.settle (.settled r.requests log r.log) hperm hslices
        ⟨hvalid, hhand.queue, hhand.spare⟩ hread' ?_ rfl rfl hframe hsame ?_ ?_⟩
      · simp only [Combiner.commit, Combiner.goto, hdone, if_true]
      · intro requests heq
        cases heq
      · intro requests log log' heq
        cases heq
        exact houtcome
    | false =>
      obtain ⟨hlast, rfl⟩ := hstale hdone
      have hattempt : attempt ≠ staleLogAttempts := by simpa using hlast
      exact ⟨.drained i, queue, carried, hslices,
        h.places.move rfl (h.leader_mem rfl) rfl rfl rfl (fun _ => ⟨rfl, rfl, rfl⟩) rfl rfl,
        h.written.frame rfl rfl fun _ => ⟨rfl, rfl, rfl⟩,
        hlead, hmem, hfresh, hcycles, b, ⟨hvalid, hhand.queue, hhand.spare⟩, hread',
        .inl ⟨attempt + 1, by omega, .inl (update_self ..)⟩⟩
  · cases hs

theorem signal_eq_some {s s' : Combiner} (h : s.signal i = some s') :
    (s.requests i).wake = some 0 ∧ s' = s.setRequest i { s.requests i with wake := some 1 } := by
  unfold Combiner.signal at h
  split at h
  · exact ⟨‹_›, (some.inj h).symm⟩
  · cases h

theorem reports_setRequest (hr : Reports r (s.requests i)) (j : ℕ) :
    Reports ((s.setRequest i r).requests j) (s.requests j) := by
  by_cases hj : j = i
  · subst hj
    simpa only [Combiner.setRequest, update_self] using hr
  · simp only [Combiner.setRequest, update_of_ne hj]
    exact ⟨rfl, rfl, rfl⟩

theorem still_setRequest {j : ℕ} (hj : j ≠ i) :
    Still t { t with machine := (t.machine.setRequest i r).goto l p } j := by
  have hsame : ((t.machine.setRequest i r).goto l p).requests j = t.machine.requests j := update_of_ne hj _ _
  exact ⟨congrArg wake hsame, congrArg lead hsame, rfl⟩

/-- A waiting caller whose channel gets a token. -/
theorem waits_signal (h : t.Waits i 0 lead) (hne : i ≠ l) : Waits { t with
      machine := (t.machine.setRequest i { t.machine.requests i with wake := some 1 }).goto l p } i 1 lead := by
  have hself : ((t.machine.setRequest i { t.machine.requests i with wake := some 1 }).goto l p).requests i =
      { t.machine.requests i with wake := some 1 } := update_self ..
  exact ⟨(update_of_ne hne _ _).trans h.pc, congrArg wake hself,
    (congrArg CommitRequest.lead hself).trans h.lead, h.woken⟩

/-- The leader passes one carried request, which then is done unless it is the leader's own. -/
theorem Places.pass {r : ℕ} {rest : List ℕ} (h : t.Places (.waking l) queue (r :: rest))
    (hmem : l ∈ t.drained) (hdrained : t'.drained = t.drained) (hcallers : t'.callers = t.callers)
    (hpc : t'.machine.pc = Function.update t.machine.pc l p)
    (hstill : ∀ i, i = l ∨ i ≠ r → Still t t' i) (hdone : r ≠ l → t'.Done r) : t'.Places (.waking l) queue rest := by
  have hr := (nodup_cons.mp h.carriedNodup).1
  refine h.of_placed hdrained hcallers (sublist_cons_self r rest) fun i => ?_
  by_cases hil : i = l
  · subst hil
    exact .of_leader rfl (.inr (hdrained ▸ hmem)) ((h.leading i rfl).still (hstill i (.inl rfl)))
  by_cases hir : i = r
  · subst hir
    have hd : i ∈ t.drained := h.subset (.head _)
    exact .of_done (hdrained ▸ hd) (h.not_queued hd) hr (fun heq => hil (some.inj heq).symm) (hdone hil)
  · have hother : t'.machine.pc i = t.machine.pc i := by rw [hpc, update_of_ne hil]
    exact (h.placed i).still hother (hstill i (.inr hir)) .rfl hdrained (by simp [hir]) .rfl id

/-- The leader moves on and hands over to the caller `next`. -/
theorem Places.hand {next : ℕ} (h : t.Places φ queue carried) (hnext : next ∈ queue)
    (hne : next ≠ l) (hl : φ.leader = some l) (hkept : ∀ j, φ.next = some j → j = next)
    (hchosen : φ'.next = some next) (hleader : ∀ j, j ≠ l → φ'.leader ≠ some j)
    (hself : Placed { t with machine := (t.machine.setRequest next r).goto l p } φ' queue carried l) :
    Places { t with machine := (t.machine.setRequest next r).goto l p } φ' queue carried := by
  refine h.of_placed rfl rfl (.refl _) fun j => ?_
  by_cases hjl : j = l
  · exact hjl ▸ hself
  by_cases hj : j = next
  · subst hj
    have hd : j ∉ t.drained := fun hd => h.not_queued hd hnext
    exact ⟨fun h => absurd hnext h, fun _ _ h => absurd hchosen h, fun hc => absurd (h.subset hc) hd,
      fun h => absurd h hd, fun h => absurd h (hleader j hne)⟩
  · have hold : φ.leader ≠ some j := fun heq => hjl (some.inj (heq.symm.trans hl))
    exact (h.placed j).still (update_of_ne hjl _ _) (still_setRequest hj) .rfl rfl .rfl
      (iff_of_false (hleader j hjl) hold) fun hn => absurd (hkept j hn) hj

section

variable (h : t.At φ queue carried)
include h

theorem At.wake (hstep : t.step (.wake i) = some t') : t'.Ok := by
  obtain ⟨s, hs, rfl⟩ := step_eq_some hstep
  simp only [Combiner.step] at hs
  split at hs
  next batch k hpc =>
    cases h.phase_eq hpc (by simp)
    obtain ⟨hlead, hmem, hsettled, b, k', hhand, hread, hpc'⟩ := h.phase
    cases hpc.symm.trans hpc'
    split at hs
    next hnone =>
      cases hs
      have hcarried : carried = [] := by
        rw [drop_eq_nil_of_le (getElem?_eq_none_iff.mp hnone)] at hread
        exact map_eq_nil_iff.mp hread.symm
      have hlen : (replicate (t.machine.arrays.read (some b)).length (none : Option ℕ)).length =
          (t.machine.arrays.read (some b)).length := length_replicate
      refine ⟨.recycling i, queue, carried, ⟨?_, ?_, ?_, ?_, h.slices.apart⟩,
        h.places.move rfl (h.leader_mem rfl) rfl rfl rfl (fun _ => ⟨rfl, rfl, rfl⟩) rfl rfl,
        h.written.frame rfl rfl fun _ => ⟨rfl, rfl, rfl⟩, hlead, hmem, hcarried, hsettled, b,
        ⟨?_, hhand.queue, hhand.spare⟩, update_self ..⟩
      · exact (read_store_of_apart hhand.queue.symm).trans h.slices.read
      · exact valid_store hhand.valid hlen h.slices.valid
      · exact (read_store_of_apart hhand.spare.symm).trans h.slices.spareRead
      · exact valid_store hhand.valid hlen h.slices.spareValid
      · exact valid_store hhand.valid hlen hhand.valid
    · cases hs
    next r hr =>
      obtain ⟨hlt, hget⟩ := List.getElem?_eq_some_iff.mp hr
      rw [drop_eq_getElem_cons hlt, hget] at hread
      obtain ⟨r', rest, rfl, hr', hrest⟩ := map_eq_cons_iff.mp hread.symm
      cases hr'
      split at hs
      next hself =>
        cases hs
        refine ⟨.waking i, queue, rest, { h.slices with }, ?_,
          h.written.frame rfl rfl fun _ => ⟨rfl, rfl, rfl⟩, hlead, hmem, hsettled, b, k + 1,
          { hhand with }, hrest.symm, update_self ..⟩
        exact h.places.pass hmem rfl rfl rfl (fun _ _ => ⟨rfl, rfl, rfl⟩) fun hne => absurd hself hne
      next hne =>
        obtain ⟨s', hsignal, rfl⟩ := map_eq_some_iff.mp hs
        obtain ⟨hwake, rfl⟩ := signal_eq_some hsignal
        refine ⟨.waking i, queue, rest, { h.slices with }, ?_,
          h.written.frame rfl rfl (reports_setRequest ⟨rfl, rfl, rfl⟩), hlead, hmem, hsettled, b, k + 1,
          { hhand with }, hrest.symm, update_self ..⟩
        have hwaits := h.places.waits r (.head _) fun heq => hne (some.inj heq).symm
        exact h.places.pass hmem rfl rfl rfl
          (fun j hj => still_setRequest (hj.elim (fun heq => heq ▸ Ne.symm hne) id))
          fun _ => .inl (waits_signal hwaits hne)
  · cases hs

theorem At.recycle (hstep : t.step (.recycle i) = some t') : t'.Ok := by
  obtain ⟨s, hs, rfl⟩ := step_eq_some hstep
  simp only [Combiner.step] at hs
  split at hs
  next batch hpc =>
    cases h.phase_eq hpc (by simp)
    obtain ⟨hlead, hmem, hcarried, hsettled, b, hhand, hpc'⟩ := h.phase
    cases hpc.symm.trans hpc'
    cases hs
    refine ⟨.handingOver i, queue, carried, ⟨h.slices.read, h.slices.valid, rfl, ?_, ?_⟩,
      h.places.move rfl (h.leader_mem rfl) rfl rfl rfl (fun _ => ⟨rfl, rfl, rfl⟩) rfl rfl,
      h.written.frame rfl rfl fun _ => ⟨rfl, rfl, rfl⟩, hlead, hmem, hcarried, hsettled,
      update_self ..⟩
    · intro a ha
      cases ha
      exact ⟨(hhand.valid b rfl).1, Nat.zero_le _⟩
    · intro a ha c hc
      cases hc
      exact hhand.queue a ha b rfl
  · cases hs

theorem At.handOver (hstep : t.step (.handOver i) = some t') : t'.Ok := by
  obtain ⟨s, hs, rfl⟩ := step_eq_some hstep
  simp only [Combiner.step] at hs
  split at hs
  next hpc =>
    cases h.phase_eq hpc (by simp)
    obtain ⟨hlead, hmem, rfl, hsettled, -⟩ := h.phase
    have hqueue : i ∉ queue := h.places.not_queued hmem
    rw [h.slices.read, getElem?_map, ← head?_eq_getElem?] at hs
    cases hhead : queue.head? with
    | none =>
      obtain rfl : queue = [] := head?_eq_none_iff.mp hhead
      cases hs
      refine ⟨.standing, [], [], { h.slices with }, ?_, h.written.frame rfl rfl fun _ => ⟨rfl, rfl, rfl⟩, rfl,
        rfl, rfl, hsettled⟩
      refine h.places.of_placed rfl rfl (.refl _) fun j => ?_
      by_cases hj : j = i
      · subst hj
        exact .of_done hmem (by simp) (by simp) (by simp [Phase.leader])
          (.inr ⟨update_self .., (h.places.leading j rfl).still ⟨rfl, rfl, rfl⟩⟩)
      · exact (h.places.placed j).still (update_of_ne hj _ _) ⟨rfl, rfl, rfl⟩ .rfl rfl .rfl
          (by simp [Phase.leader, Ne.symm hj]) id
    | some next =>
      rw [hhead] at hs
      cases hs
      have hnext : next ∈ queue := mem_of_head? hhead
      have hne : next ≠ i := fun heq => hqueue (heq ▸ hnext)
      have hwaits := h.places.queued next hnext (fun heq => hne (some.inj heq).symm) (by simp [Phase.next])
      refine ⟨.handing i next, queue, [], { h.slices with }, ?_,
        h.written.frame rfl rfl (reports_setRequest ⟨rfl, rfl, rfl⟩), hlead, hmem, rfl, hsettled,
        update_self .., hhead, ?_⟩
      · exact h.places.hand hnext hne rfl (by simp [Phase.next]) rfl (fun j hj heq => hj (some.inj heq).symm)
          (.of_leader rfl (.inr hmem) ((h.places.leading i rfl).still (still_setRequest hne.symm)))
      · have hself : ((t.machine.setRequest next
            { t.machine.requests next with lead := true }).goto i (.handing next)).requests next =
            { t.machine.requests next with lead := true } := update_self ..
        exact ⟨(update_of_ne hne _ _).trans hwaits.pc,
          (congrArg CommitRequest.wake hself).trans hwaits.wake, congrArg CommitRequest.lead hself,
          hwaits.woken⟩
  · cases hs

theorem At.send (hstep : t.step (.send i) = some t') : t'.Ok := by
  obtain ⟨s, hs, rfl⟩ := step_eq_some hstep
  simp only [Combiner.step] at hs
  split at hs
  next next hpc =>
    cases h.phase_eq hpc (by simp)
    obtain ⟨hlead, hmem, rfl, hsettled, -, hhead, hwaits⟩ := h.phase
    obtain ⟨s', hsignal, rfl⟩ := map_eq_some_iff.mp hs
    obtain ⟨hwake, rfl⟩ := signal_eq_some hsignal
    have hnext : next ∈ queue := mem_of_head? hhead
    have hqueue : i ∉ queue := h.places.not_queued hmem
    have hne : next ≠ i := fun heq => hqueue (heq ▸ hnext)
    refine ⟨.handed next, queue, [], { h.slices with }, ?_,
        h.written.frame rfl rfl (reports_setRequest ⟨rfl, rfl, rfl⟩), hlead, rfl, hsettled, hhead,
        waits_signal hwaits hne⟩
    exact h.places.hand hnext hne rfl (fun j hj => (some.inj hj).symm) rfl (by simp [Phase.leader])
      (.of_done hmem hqueue (by simp) (by simp [Phase.leader]) (.inr ⟨update_self ..,
        (h.places.leading i rfl).still (still_setRequest hne.symm)⟩))
  · cases hs

end

/-- The phase stays when neither the leader nor the chosen caller moves. -/
theorem PhaseOk.frame (h : t.PhaseOk queue carried φ)
    (hleading : t'.machine.leading = t.machine.leading) (hcycles : t'.cycles = t.cycles)
    (hhand : ∀ b, t.InHand b → t'.InHand b ∧ t'.machine.arrays.read (some b) = t.machine.arrays.read (some b))
    (hfresh : ∀ i ∈ carried, t.Fresh i → t'.Fresh i)
    (hleader : ∀ i, φ.leader = some i → t'.machine.pc i = t.machine.pc i)
    (hnext : ∀ i token, φ.next = some i → t.Waits i token true → t'.Waits i token true)
    (hstanding : queue = [] → t.machine.leading = false → queue' = [])
    (hqueue : queue <+: queue') : t'.PhaseOk queue' carried φ := by
  have hdrained : t'.drained = t.drained := by rw [drained, drained, hcycles]
  have hhead : ∀ i, queue.head? = some i → queue'.head? = some i := by
    intro i hi
    obtain ⟨rest, rfl⟩ := hqueue
    exact head?_append_of_ne_nil _ (fun hnil => by simp [hnil] at hi) |>.trans hi
  cases φ with
  | standing =>
    obtain ⟨hlead, hempty, hcarried, hsettled⟩ := h
    exact ⟨hleading.trans hlead, hstanding hempty hlead, hcarried, hcycles ▸ hsettled⟩
  | undrained l =>
    obtain ⟨hlead, hmem, hcarried, hsettled, hpc⟩ := h
    exact ⟨hleading.trans hlead, hqueue.subset hmem, hcarried, hcycles ▸ hsettled, by rwa [hleader l rfl]⟩
  | drained l =>
    obtain ⟨hlead, hmem, hall, hopen, b, hb, hread, hpc⟩ := h
    exact ⟨hleading.trans hlead, hmem, fun i hi => hfresh i hi (hall i hi), hcycles ▸ hopen, b,
      (hhand b hb).1, (hhand b hb).2.trans hread, by rwa [hleader l rfl]⟩
  | waking l =>
    obtain ⟨hlead, hmem, hsettled, b, k, hb, hread, hpc⟩ := h
    exact ⟨hleading.trans hlead, hdrained ▸ hmem, hcycles ▸ hsettled, b, k, (hhand b hb).1,
      by rwa [(hhand b hb).2], (hleader l rfl).trans hpc⟩
  | recycling l =>
    obtain ⟨hlead, hmem, hcarried, hsettled, b, hb, hpc⟩ := h
    exact ⟨hleading.trans hlead, hdrained ▸ hmem, hcarried, hcycles ▸ hsettled, b, (hhand b hb).1,
      (hleader l rfl).trans hpc⟩
  | handingOver l =>
    obtain ⟨hlead, hmem, hcarried, hsettled, hpc⟩ := h
    exact ⟨hleading.trans hlead, hdrained ▸ hmem, hcarried, hcycles ▸ hsettled, (hleader l rfl).trans hpc⟩
  | handing l next =>
    obtain ⟨hlead, hmem, hcarried, hsettled, hpc, hfirst, hwaits⟩ := h
    exact ⟨hleading.trans hlead, hdrained ▸ hmem, hcarried, hcycles ▸ hsettled,
      (hleader l rfl).trans hpc, hhead next hfirst, hnext next 0 rfl hwaits⟩
  | handed next =>
    obtain ⟨hlead, hcarried, hsettled, hfirst, hwaits⟩ := h
    exact ⟨hleading.trans hlead, hcarried, hcycles ▸ hsettled, hhead next hfirst, hnext next 1 rfl hwaits⟩

section

variable (h : t.At φ queue carried)
include h

/-- The leader does not wait, and has begun its call and not ended it. -/
theorem At.leader_busy (hl : φ.leader = some i) :
    t.machine.pc i ≠ .idle ∧ t.machine.pc i ≠ .waiting ∧ t.machine.pc i ≠ .returned := by
  have hphase := h.phaseAt_eq hl
  refine ⟨fun hpc => ?_, fun hpc => ?_, fun hpc => ?_⟩ <;>
    · rw [hpc] at hphase
      exact absurd hphase (by simp [phaseAt])

/-- A caller that has not called is nowhere. -/
theorem At.idle_iff : t.machine.pc i = .idle ↔ i ∉ queue ∧ i ∉ t.drained := by
  refine ⟨fun hpc => ?_, fun hi => (h.places.outside i hi.1 hi.2).1⟩
  obtain ⟨-, token, hw⟩ | hw | ⟨-, -, hw | hdone⟩ | ⟨hq, hd, -⟩ := h.place fun hl => (h.leader_busy hl).1 hpc
  · exact absurd (hpc.symm.trans hw.pc) (by simp)
  · exact absurd (hpc.symm.trans hw.pc) (by simp)
  · exact absurd (hpc.symm.trans hw.pc) (by simp)
  · exact absurd (hpc.symm.trans hdone.1) (by simp)
  · exact ⟨hq, hd⟩

/-- A caller with a token in its channel was served, or is to lead. -/
theorem At.token_cases (hpc : t.machine.pc i = .waiting) (hwake : (t.machine.requests i).wake = some 1) :
    φ = .handed i ∨ i ∈ t.drained ∧ i ∉ carried ∧ t.Waits i 1 false := by
  obtain ⟨hn, -⟩ | hw | ⟨hd, hc, hw | hdone⟩ | ⟨-, -, hidle, -⟩ :=
    h.place fun hl => (h.leader_busy hl).2.1 hpc
  · have hphase := h.phase
    cases φ with
    | handing l next =>
      cases hn
      exact absurd (hwake.symm.trans hphase.2.2.2.2.2.2.wake) (by simp)
    | handed next =>
      cases hn
      exact .inl rfl
    | standing | undrained | drained | waking | recycling | handingOver =>
      exact absurd hn (by simp [Phase.next])
  · exact absurd (hwake.symm.trans hw.wake) (by simp)
  · exact .inr ⟨hd, hc, hw⟩
  · exact absurd (hpc.symm.trans hdone.1) (by simp)
  · exact absurd (hpc.symm.trans hidle) (by simp)

theorem At.receive (hstep : t.step (.receive i) = some t') : t'.Ok := by
  obtain ⟨s, hs, rfl⟩ := step_eq_some hstep
  simp only [Combiner.step] at hs
  split at hs <;> cases hs
  next hpc hwake =>
    set t' : Traced := ⟨_, _, _, _, _⟩
    have hself : t'.machine.requests i = { t.machine.requests i with wake := some 0 } := update_self ..
    have hpcself : t'.machine.pc i = if (t.machine.requests i).lead then .resolving 1 none else .returned :=
      update_self ..
    have hother : ∀ j, j ≠ i → t'.machine.pc j = t.machine.pc j ∧ Still t t' j := by
      intro j hj
      have hsame : t'.machine.requests j = t.machine.requests j := update_of_ne hj _ _
      exact ⟨update_of_ne hj _ _, congrArg CommitRequest.wake hsame, congrArg lead hsame, update_of_ne hj _ _⟩
    have hwoken : t.woken i = 0 → t'.Over i := fun hzero =>
      .inr ⟨congrArg CommitRequest.wake hself, (update_self ..).trans (congrArg (· + 1) hzero)⟩
    have hwritten : t'.Written queue :=
      h.written.frame rfl rfl (reports_setRequest (s := t.machine) ⟨rfl, rfl, rfl⟩)
    rcases h.token_cases hpc hwake with rfl | ⟨hd, hc, hwaits⟩
    · obtain ⟨hlead, rfl, hsettled, hfirst, hwaits⟩ := h.phase
      have hq := mem_of_head? hfirst
      have hpc' : t'.machine.pc i = .resolving 1 none := by rw [hpcself, hwaits.lead, if_pos rfl]
      refine ⟨.undrained i, queue, [], { h.slices with }, ?_, hwritten, hlead, hq, rfl, hsettled,
        .inl ⟨1, by decide, .inl hpc'⟩⟩
      refine h.places.of_placed rfl rfl (.refl _) fun j => ?_
      by_cases hj : j = i
      · subst hj
        exact .of_leader rfl (.inl hq) (hwoken hwaits.woken)
      · exact (h.places.placed j).still (hother j hj).1 (hother j hj).2 .rfl rfl .rfl
          (by simp [Phase.leader, Ne.symm hj]) fun hn => absurd (some.inj hn).symm hj
    have hq : i ∉ queue := h.places.not_queued hd
    have hl : φ.leader ≠ some i := fun hl => (h.leader_busy hl).2.1 hpc
    have hpc' : t'.machine.pc i = .returned := by
      rw [hpcself, hwaits.lead]
      rfl
    refine ⟨φ, queue, carried, { h.slices with }, ?_, hwritten, ?_⟩
    · refine h.places.of_placed rfl rfl (.refl _) fun j => ?_
      by_cases hj : j = i
      · subst hj
        exact .of_done hd hq hc hl (.inr ⟨hpc', hwoken hwaits.woken⟩)
      · exact (h.places.placed j).still (hother j hj).1 (hother j hj).2 .rfl rfl .rfl .rfl id
    · refine h.phase.frame rfl rfl (fun b hb => ⟨{ hb with }, rfl⟩) ?_ ?_ ?_
        (fun hempty _ => hempty) (prefix_refl queue)
      · intro j hj hfresh
        have hne : j ≠ i := fun heq => hc (heq ▸ hj)
        have hsame : t'.machine.requests j = t.machine.requests j := update_of_ne hne _ _
        unfold Fresh
        rw [hsame]
        exact hfresh
      · intro j hjl
        exact (hother j fun heq => hl (heq ▸ hjl)).1
      · intro j token hjn hjwaits
        have hne : j ≠ i := fun heq => hq (heq ▸ (h.chosen_mem hjn).1)
        exact hjwaits.still (hother j hne).1 (hother j hne).2

end

theorem Slices.push {grow : Bool} (h : Slices s queue) :
    (s.arrays.push s.queue i grow).1.read (some (s.arrays.push s.queue i grow).2) = (queue ++ [i]).map some := by
  rw [read_push h.valid, h.read, map_append]
  rfl

theorem At.enqueue {incarnation : String} {payloads : List Bytes} {committedAt : ℤ} {grow : Bool}
    (h : t.At φ queue carried)
    (hstep : t.step (.enqueue i incarnation payloads committedAt grow) = some t') : t'.Ok := by
  obtain ⟨s, hs, rfl⟩ := step_eq_some hstep
  simp only [Combiner.step] at hs
  split at hs <;> cases hs
  next hpc =>
    set t' : Traced := ⟨_, _, _, _, _⟩
    obtain ⟨hq, hd⟩ := h.idle_iff.mp hpc
    have hzero := (h.places.outside i hq hd).2
    have hother : ∀ j, j ≠ i → t'.machine.pc j = t.machine.pc j ∧
        t'.machine.requests j = t.machine.requests j ∧ t'.submitted j = t.submitted j := fun j hj =>
      ⟨update_of_ne hj _ _, update_of_ne hj _ _, update_of_ne hj _ _⟩
    have hstill : ∀ j, j ≠ i → Still t t' j := fun j hj =>
      ⟨congrArg CommitRequest.wake (hother j hj).2.1, congrArg CommitRequest.lead (hother j hj).2.1, rfl⟩
    have hfreshOther : ∀ j, j ≠ i → t.Fresh j → t'.Fresh j := by
      intro j hj hfresh
      unfold Fresh
      rwa [(hother j hj).2.1, (hother j hj).2.2]
    have hself : t'.machine.requests i =
        ⟨incarnation, payloads, committedAt, 0, none, if t.machine.leading then some 0 else none, false⟩ :=
      update_self ..
    have hsubmitted : t'.submitted i = payloads := update_self ..
    have hfresh : t'.Fresh i := by
      unfold Fresh
      rw [hself]
      exact ⟨rfl, hsubmitted.symm⟩
    have hslices : Slices t'.machine (queue ++ [i]) := ⟨h.slices.push, valid_push h.slices.valid,
        (read_push_of_apart h.slices.spareValid h.slices.apart).trans h.slices.spareRead,
        valid_push_of_apart h.slices.spareValid h.slices.apart,
        apart_push h.slices.spareValid h.slices.apart⟩
    have hwritten : t'.Written (queue ++ [i]) := by
      refine ⟨?_, ?_, ?_⟩
      · intro j hj
        by_cases hne : j = i
        · exact hne ▸ hfresh
        rcases mem_append.mp hj with hj | hj
        · exact hfreshOther j hne (h.written.fresh j hj)
        · exact absurd (mem_singleton.mp hj) hne
      · intro c hc o ho j hj
        have hne : j ≠ i := fun heq => hd (mem_flatMap.mpr ⟨c, hc, heq ▸ hj⟩)
        rw [(hother j hne).2.1]
        exact h.written.reports c hc o ho j hj
      · intro c hc o ho
        have hold := h.written.sound c hc o ho
        refine ⟨fun j hj => ?_, hold.failed, hold.settled⟩
        have hne : j ≠ i := fun heq => hd (mem_flatMap.mpr ⟨c, hc, heq ▸ hj⟩)
        rw [(hother j hne).2.2]
        exact hold.own j hj
    have hplaces : ∀ φ' : Phase, (∀ j, j ≠ i → (φ'.leader = some j ↔ φ.leader = some j)) →
        φ'.next = φ.next → (φ'.leader = some i → t'.Over i) →
        (φ'.leader ≠ some i → t'.Waits i 0 false) → t'.Places φ' (queue ++ [i]) carried := by
      intro φ' hleader hnext hover hwaits
      refine Placed.places (fun j => ?_) ?_ ?_ h.places.subset h.places.carriedNodup
      · by_cases hj : j = i
        · subst hj
          exact ⟨fun hnot => absurd (by simp) hnot, fun _ hl _ => hwaits hl,
            fun hmem => absurd (h.places.subset hmem) hd, fun hmem => absurd hmem hd, hover⟩
        · exact (h.places.placed j).still (hother j hj).1 (hstill j hj) (by simp [hj]) rfl .rfl
            (hleader j hj) (hnext ▸ id)
      · rw [append_assoc]
        exact nodup_middle.mpr (nodup_cons.mpr ⟨fun hmem => (mem_append.mp hmem).elim hq hd, h.places.nodup⟩)
      · intro j
        have hold := h.places.callers j
        change j ∈ i :: t.callers ↔ j ∈ queue ++ [i] ∨ j ∈ t.drained
        rw [mem_cons, hold, mem_append, mem_singleton]
        tauto
    have hpcself : t'.machine.pc i = if t.machine.leading then .waiting else .resolving 1 none :=
      update_self ..
    by_cases hstanding : t.machine.leading = true
    · have hl : φ.leader ≠ some i := fun hl => (h.leader_busy hl).1 hpc
      refine ⟨φ, queue ++ [i], carried, hslices, hplaces φ (fun _ _ => .rfl) rfl (fun hl' => absurd hl' hl)
        (fun _ => ⟨?_, ?_, ?_, hzero⟩), hwritten, ?_⟩
      · rw [hpcself, if_pos hstanding]
      · rw [hself, if_pos hstanding]
      · rw [hself]
      · refine h.phase.frame hstanding.symm rfl (fun b hb => ⟨⟨?_, ?_, hb.spare⟩, ?_⟩) ?_ ?_ ?_ ?_ ?_
        · exact valid_push_of_apart hb.valid hb.queue
        · exact apart_push hb.valid hb.queue
        · exact read_push_of_apart hb.valid hb.queue
        · intro j hj
          exact hfreshOther j fun heq => hd (heq ▸ h.places.subset hj)
        · intro j hjl
          exact (hother j fun heq => hl (heq ▸ hjl)).1
        · intro j token hjn hjwaits
          have hne : j ≠ i := fun heq => hq (heq ▸ (h.chosen_mem hjn).1)
          exact hjwaits.still (hother j hne).1 (hstill j hne)
        · intro _ hfalse
          exact absurd (hstanding.symm.trans hfalse) (by simp)
        · exact prefix_append _ _
    · have hstands : φ = .standing := by
        have hphase := h.phase
        cases φ with
        | standing => rfl
        | _ => exact absurd hphase.1 hstanding
      cases hstands
      obtain ⟨-, rfl, rfl, hsettled⟩ := h.phase
      refine ⟨.undrained i, [i], [], hslices, hplaces _ (fun j hne => ?_) rfl (fun _ => .inl ⟨?_, hzero⟩)
        (fun hnot => absurd rfl hnot), hwritten, rfl, mem_singleton_self i, rfl, hsettled,
        .inl ⟨1, by decide, .inl ?_⟩⟩
      · simp [Phase.leader, hne.symm]
      · rw [hself]
        exact if_neg hstanding
      · rw [hpcself, if_neg hstanding]

theorem Ok.step {a : Action} (h : t.Ok) (hstep : t.step a = some t') : t'.Ok := by
  obtain ⟨φ, queue, carried, h⟩ := h
  cases a with
  | enqueue i incarnation payloads committedAt grow => exact h.enqueue hstep
  | receive i => exact h.receive hstep
  | resolve i answer => exact ⟨φ, queue, carried, h.resolve hstep⟩
  | drain i => exact h.drain hstep
  | commit i e log => exact h.commit hstep
  | fail i => exact h.fail hstep
  | wake i => exact h.wake hstep
  | recycle i => exact h.recycle hstep
  | handOver i => exact h.handOver hstep
  | send i => exact h.send hstep

theorem Ok.run {actions : List Action} (h : t.Ok) (hrun : t.run actions = some t') : t'.Ok := by
  induction actions generalizing t with
  | nil => exact some.inj hrun ▸ h
  | cons a actions ih =>
    obtain ⟨t₁, hstep, hrest⟩ := bind_eq_some_iff.mp hrun
    exact ih (h.step hstep) hrest

theorem new_ok : Ok .new := by
  refine ⟨.standing, [], [], ⟨rfl, valid_none _, rfl, valid_none _, ?_⟩, ?_, ?_, rfl, rfl, rfl, ?_⟩
  · intro a ha
    exact absurd ha (by simp [new, Combiner.new])
  · refine ⟨nodup_nil, fun i => by simp [new, drained], nil_subset _, nodup_nil,
      fun i _ _ => ⟨rfl, rfl⟩, ?_, ?_, ?_, ?_⟩ <;> intro i hi <;>
      exact absurd hi (by simp [new, drained, Phase.leader])
  · refine ⟨?_, ?_, ?_⟩ <;> intro i hi <;> exact absurd hi (by simp [new])
  · intro c hc
    exact absurd hc (by simp [new])

end Traced

end Narad.Messaging
