import Narad.Cluster.FlipSettle

/-!
# What an undone install leaves behind

When `resolvePending` or `rollbackPending` moves an installed copy back to staging, no flip of this worker
was applied, and none is applied later unless the worker proposes again. That rests on the condition that
no other entry gives the partition to this node, takes it away or replaces the topic while the worker runs.
The counterexample is a run in which one does: the worker's flip is applied without its knowing, the
partition moves on to a third node, and the read that shows that node as the owner is taken for proof that
the flip never happened.

Without any condition, a worker that moved its install back and exits while its node is shown as the owner
leaves the staging copy where it is or sets it aside.
-/

namespace Narad.Cluster.Flip

open Narad.Lib Narad.Metastore Option State

variable (mv : Move)

/-- A worker starts for a partition that another node owns. -/
structure State.Fresh (s : State) : Prop where
  notOwner : owns mv s.cur = false
  /-- What the local replica may still show is of the current incarnation. -/
  incarnation : ∀ v ∈ s.history, v.topicId = s.cur.topicId
  call : s.call = none
  late : s.late = []
  landed : s.landed = 0
  worker : s.w = {}

/-- The step is not one in which the worker sends a proposal. -/
def State.noProposal (s : State) : Label → Bool
  | .work _ =>
    match s.w.pc with
    | .proposing _ => false
    | _ => true
  | _ => true

variable {mv} {s s' : State}

theorem State.Fresh.inv (h : s.Fresh mv) : s.Inv mv s.cur.topicId where
  cur := rfl
  history := h.incarnation
  owner := by simp [h.notOwner, h.landed]
  call := fun hne => absurd h.call hne
  past := by simp [h.late]
  unsettled := by simp [h.late]
  expect := by simp [h.worker]
  alone := by simp [h.worker]
  back := by simp [h.worker]
  flipped := by simp [h.worker]
  known := by
    rw [h.worker]
    trivial

theorem State.observeSource_proposals (m : Member) : (s.observeSource m).toProposals = s.toProposals := by
  unfold observeSource
  split <;> rfl

theorem State.proposeAgain_proposals (p : PendingFlip) (m : Option Member) (undo : Bool) :
    (s.proposeAgain mv p m undo).toProposals = s.toProposals := by
  unfold proposeAgain
  split
  · rfl
  · dsimp only
    split <;> rfl

/-- Without a call to return, only sending a proposal changes what is on its way. -/
theorem State.work_proposals {a : Answer} (hcall : s.call = none) (hquiet : ∀ again, s.w.pc ≠ .proposing again)
    (hstep : s.work mv a = some s') : s'.toProposals = s.toProposals := by
  cases hpc : s.w.pc with simp only [work, hpc] at hstep
  | proposing again => exact absurd hpc (hquiet again)
  | rejecting =>
    obtain ⟨p, -, rfl⟩ := map_eq_some_iff.mp hstep
    exact (rollbackInstall_onlyFiles p a.ok).proposals
  | rollingBack =>
    obtain ⟨p, -, rfl⟩ := map_eq_some_iff.mp hstep
    split <;> exact (rollbackInstall_onlyFiles p a.ok).proposals
  | installing copy expectId marker =>
    split at hstep
    · cases hstep
      rfl
    next hinstall =>
      have hfiles := (install_onlyFiles hinstall).proposals
      split at hstep <;> cases hstep <;> exact hfiles
  | finishing =>
    split at hstep
    · obtain ⟨v, -, rfl⟩ := map_eq_some_iff.mp hstep
      exact (finish_onlyFiles mv _ _ _).proposals
    · cases hstep
      exact (finish_onlyFiles mv _ _ _).proposals
  | resolved m readStart v =>
    obtain ⟨p, -, rfl⟩ := map_eq_some_iff.mp hstep
    unfold State.decide
    split
    · rfl
    · rfl
    · exact proposeAgain_proposals p m _
    · exact proposeAgain_proposals p m _
  | resolving =>
    cases hstep
    cases a.member with
    | none => rfl
    | some m => exact observeSource_proposals m
  | memberRead =>
    split at hstep
    · cases hstep
      rfl
    next m _ =>
      split at hstep
      · cases hstep
        rfl
      split at hstep
      · cases hstep
        exact observeSource_proposals m
      · split at hstep <;> cases hstep <;> exact observeSource_proposals m
  | waiting again => simp [hcall] at hstep
  | stopped => simp at hstep
  | _ =>
    grind [map_eq_some_iff, goto, saw, giveUp, resetSession, ensureTopicIncarnation]

/-- Nothing is left on its way until the worker proposes again, whatever else happens. -/
theorem State.quiet_step {label : Label} (h : s.toProposals.Quiet mv) (hok : s.noProposal label = true)
    (hstep : s.step mv label = some s') : s'.toProposals.Quiet mv ∧ s'.landed = s.landed := by
  cases label with
  | work a =>
    have hpc : ∀ again, s.w.pc ≠ .proposing again := by
      intro again hpc
      simp [noProposal, hpc] at hok
    have hsame := work_proposals h.call hpc hstep
    rw [hsame]
    exact ⟨h, rfl⟩
  | land => simp [step, h.call] at hstep
  | landLate index =>
    simp only [step] at hstep
    split at hstep
    next => cases hstep
    next at' hat =>
      have := h.late at' (List.mem_of_getElem? hat)
      rw [if_neg (by omega)] at hstep
      cases hstep
  | tick d =>
    cases hstep
    refine ⟨⟨h.call, fun at' hmem => ?_⟩, rfl⟩
    have := h.late at' hmem
    show mv.flipSettle ≤ s.now + d - at'
    omega
  | entry | disk | cancel =>
    cases hstep
    exact ⟨⟨h.call, h.late⟩, rfl⟩

/-- The staging copy is left where it is, or set aside. -/
def State.KeepsStaging (s s' : State) : Prop :=
  ∀ d, s.staging = some d → s'.staging = some d ∨ d ∈ s'.quarantine

theorem State.setAsideStaging_keeps (s : State) (ok : Bool) : s.KeepsStaging (s.setAsideStaging ok) := by
  intro d hd
  unfold setAsideStaging
  split
  · exact .inr (by simp [hd])
  · exact .inl hd

/-- A worker whose staging is the install it moved back does not remove it as it exits, when its node is the
owner or the owner cannot be read. -/
theorem State.finish_keeps (hback : s.w.movedBack = true) {row : Option (Option Assignment)}
    (hshown : ∀ r, row = some r → ∃ a, r = some a ∧ a.ownerId = mv.selfId) (member : Option Member) (ok : Bool) :
    s.KeepsStaging (s.finish mv row member ok) := by
  unfold finish
  split
  · exact fun d => .inl
  cases row with
  | none => exact setAsideStaging_keeps s ok
  | some r =>
    obtain ⟨a, rfl, howner⟩ := hshown r rfl
    have hkeep : s.ownedStagingIsRedundant mv = false := by simp [ownedStagingIsRedundant, hback]
    dsimp only
    rw [if_pos howner, hkeep]
    exact setAsideStaging_keeps s ok

/-- The exit of such a worker, as a step. -/
theorem State.exit_keeps {a : Answer} (hpc : s.w.pc = .finishing) (hback : s.w.movedBack = true)
    (hshown : a.ok = true → ∀ v, s.replica? a.replica = some v → owns mv v = true)
    (hstep : s.step mv (.work a) = some s') : s.KeepsStaging s' := by
  simp only [step, work, hpc] at hstep
  split at hstep
  next hok =>
    obtain ⟨v, hv, rfl⟩ := map_eq_some_iff.mp hstep
    refine finish_keeps (s := s.saw a.replica) hback (fun r hr => ?_) a.member _
    cases hr
    simpa [owns, any_eq_true] using hshown hok v hv
  · cases hstep
    exact finish_keeps hback (by simp) a.member _

/-- A flip of this worker was neither applied before its install is moved back, nor is one applied later
without a new proposal, and then its node does not own the partition, in every run in which no other entry
disturbs the move; and in every run whatsoever a worker that moved its install back and exits while its
node is shown as the owner keeps the staging copy or sets it aside. -/
theorem undone_install_never_flipped {s₀ : State} (hfresh : s₀.Fresh mv) :
    (∀ labels s, cleanRun (State.step mv) (State.undisturbed mv) s₀ labels = true →
      runWith (State.step mv) s₀ labels = some s → (s.w.pc = .rejecting ∨ s.w.pc = .rollingBack →
        s.landed = 0 ∧ ∀ later s', cleanRun (State.step mv) State.noProposal s later = true →
          runWith (State.step mv) s later = some s' → s'.landed = 0) ∧ (s.w.movedBack = true → owns mv s.cur = false)) ∧
    ∀ labels s a s', runWith (State.step mv) s₀ labels = some s → s.w.pc = .finishing → s.w.movedBack = true →
      (a.ok = true → ∀ v, s.replica? a.replica = some v → owns mv v = true) →
        s.step mv (.work a) = some s' → s.KeepsStaging s' := by
  refine ⟨fun labels s hclean hrun => ?_, fun labels s a s' _ hpc hback hshown hstep =>
    exit_keeps hpc hback hshown hstep⟩
  have h : s.Inv mv s₀.cur.topicId :=
    run_induction (fun _ _ _ hs hok hstep => hs.step hok hstep) hfresh.inv hclean hrun
  constructor
  · intro hpc
    obtain ⟨hquiet, hlanded⟩ : s.toProposals.Quiet mv ∧ s.landed = 0 := by
      have hknown := h.known
      rcases hpc with hpc | hpc <;> rw [hpc] at hknown <;> exact hknown
    refine ⟨hlanded, fun later s' hlater hrun' => ?_⟩
    have hquiets := run_induction (P := fun s => s.toProposals.Quiet mv ∧ s.landed = 0)
      (fun _ _ _ hs hok hstep => (quiet_step hs.1 hok hstep).imp_right (·.trans hs.2)) ⟨hquiet, hlanded⟩ hlater hrun'
    exact hquiets.2
  · intro hback
    have hlanded := (h.back hback).2
    by_contra howns
    have := h.owner.mp (by simpa using howns)
    omega

/-- The move of a partition from "a" to "b". -/
def aToB : Move :=
  { source := "a", selfId := "b", forcePromoteAfter := 300 * 10 ^ 9 }

/-- The partition's row, with the topic's incarnation. -/
def rowOf (owner target : String) : View :=
  ⟨some { topic := "t", partition := 0, ownerId := owner, targetId := target }, some "i"⟩

def moving : State :=
  { cur := rowOf "a" "b", history := [rowOf "a" "b"] }

/-- The worker copies, installs and proposes, and its call is lost. -/
def proposeAndLose (landed : List Label) : List Label :=
  [Label.work {}, .work { member := some { id := "a", addr := "x", status := .alive, lastHeartbeat := 0 } },
    .work { drain := .drained ⟨7, "i"⟩ "token" }, .work {}, .work {}, .work {}, .work {}, .work {}] ++ landed ++
    [Label.work {}]

/-- Past the settle window the leader is asked. -/
def askAgain : List Label :=
  [.tick (20 * 10 ^ 9), .work {}, .work {}, .work { leader := .barriered }, .work {}]

/-- The flip is lost, the controller drops the move, and the install is moved back. -/
def abortedMove : List Label :=
  proposeAndLose [] ++ [Label.entry (rowOf "a" "")] ++ askAgain

/-- The install is moved back, this node then gets the partition after all, and the worker exits. -/
def ownerAfterAll : List Label :=
  abortedMove ++ [Label.work {}, .entry (rowOf "b" ""), .work {}]

theorem aborted_move_undone :
    (∃ s, runWith (State.step aToB) moving abortedMove = some s ∧ s.w.pc = .rejecting ∧ s.landed = 0) ∧
      ∃ s s', runWith (State.step aToB) moving ownerAfterAll = some s ∧
        s.step aToB (.work { replica := 2 }) = some s' ∧ s.staging.isSome = true ∧ s.KeepsStaging s' := by
  have hundo : ((runWith (step aToB) moving abortedMove).any fun s => s.w.pc = .rejecting) = true := by
    decide +kernel
  have hexit : ((runWith (step aToB) moving ownerAfterAll).any fun s => s.w.pc = .finishing && s.w.movedBack &&
      s.staging.isSome && (s.step aToB (.work { replica := 2 })).isSome &&
      decide (s.replica? 2 = some (rowOf "b" ""))) = true := by
    decide +kernel
  obtain ⟨s, hrun, hpc⟩ := (any_eq_true _ _).mp hundo
  obtain ⟨e, hrun', hexit⟩ := (any_eq_true _ _).mp hexit
  simp only [Bool.and_eq_true, decide_eq_true_eq] at hpc hexit
  obtain ⟨⟨⟨⟨hfinishing, hback⟩, hstaging⟩, hsome⟩, hshown⟩ := hexit
  obtain ⟨e', hstep⟩ := isSome_iff_exists.mp hsome
  have hfresh : moving.Fresh aToB := ⟨by decide +kernel, by decide +kernel, rfl, rfl, rfl, rfl⟩
  have h := undone_install_never_flipped hfresh
  refine ⟨⟨s, hrun, hpc, ((h.1 _ _ (by decide +kernel) hrun).1 (.inl hpc)).1⟩, e, e', hrun', hstep, hstaging,
    h.2 _ _ _ _ hrun' hfinishing hback (fun _ v hv => ?_) hstep⟩
  cases hshown.symm.trans hv
  decide +kernel

/-- The flip is applied, its reply is lost, and the partition moves on to "c". The worker then moves its
install back, although its flip was applied, and removes it as it exits. -/
theorem install_undone_under_flip :
    let labels := proposeAndLose [.land] ++ [Label.entry (rowOf "b" "c"), .entry (rowOf "c" "")] ++ askAgain
    (runWith (step aToB) moving labels).map (fun s => (s.w.pc, s.landed, s.path.isSome)) =
        some (.rejecting, 1, true) ∧ (runWith (step aToB) moving (labels ++ [Label.work {}])).map
        (fun s => (s.w.movedBack, s.path, s.staging.isSome)) = some (true, none, true) ∧ (runWith (step aToB) moving
        (labels ++ [Label.work {}, .work {}, .work {
          replica := 3, member := some { id := "c", addr := "y", status := .alive, lastHeartbeat := 0 } }])).map
        (fun s => (s.path, s.staging, s.quarantine)) = some (none, none, []) := by
  decide +kernel

end Narad.Cluster.Flip
