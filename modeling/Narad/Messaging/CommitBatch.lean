import Narad.Lib.Bytes
import Narad.Lib.OffsetMap
import Mathlib.Data.List.Sort

/-!
# Committing a combined batch

One cycle of a partition's group commit takes the requests it drained, refuses those that may no
longer be committed, appends the others as one run and gives each its part of the offsets. Requests
are named by their caller. The answers of the cluster, of the metadata and of the log are arguments;
whatever a failed append or commit leaves in the log is one too.

A request's payloads are encoded envelopes with the commit time behind the key, which the cycle
rewrites in place when it would run backwards along the partition.
-/

namespace Narad.Messaging

open Function (update update_of_ne update_self)
open Lib List

inductive ProduceStage where
  | append
  | verify
  | commit

inductive CommitError where
  | notPartitionOwner
  | gaveUp (reason : String)
  | lookup (reason : String)
  | incarnationMismatch (recordID liveID : String)
  | resolve (reason : String)
  | stage (stage : ProduceStage) (reason : String)

/-- One caller's batch: what it brought, what the cycle that commits it writes back, and its wake
channel with the number of tokens in it. -/
structure CommitRequest where
  incarnation : String
  payloads : List Bytes
  committedAt : ℤ
  first : ℕ
  err : Option CommitError
  wake : Option ℕ
  lead : Bool

/-- What a cycle hears while it holds the produce lock. -/
structure CycleEnv where
  isLocalOwner : Bool
  isProducePaused : Bool
  current : Bool
  gaveUp : ℕ → Option String
  topicID : Except String String
  appendFails : Option String
  commitFails : Option (ProduceStage × String)
  logAfterFailure : OffsetMap Bytes

def restampKeyedRecords (payloads : List Bytes) (committedAt : ℤ) : List Bytes :=
  payloads.map fun env =>
    let (keyLen, n) := uvarint (env.drop 1)
    writeAt env (1 + n + keyLen).toNat (bigEndian 8 (unsigned 64 committedAt))

variable (e : CycleEnv)

/-- Why the request may no longer be committed, if so. -/
def refusal (logIncarnation : String) (i : ℕ) (r : CommitRequest) : Option CommitError :=
  match e.gaveUp i with
  | some reason => some (.gaveUp reason)
  | none =>
    if r.incarnation = "" then none
    else
      match e.topicID with
      | .error reason => some (.lookup reason)
      | .ok liveID =>
        if r.incarnation ≠ liveID then some (.incarnationMismatch r.incarnation liveID)
        else if r.incarnation ≠ logIncarnation then
          some (.incarnationMismatch r.incarnation logIncarnation)
        else none

variable (requests : ℕ → CommitRequest)

/-- Give every request of the batch its error. -/
def setErrors (batch : List ℕ) (err : ℕ → Option CommitError) : ℕ → CommitRequest :=
  fun i => if i ∈ batch then { requests i with err := (err i).or (requests i).err } else requests i

def refuseUncommittable (logIncarnation : String) (requests : ℕ → CommitRequest)
    (batch : List ℕ) : (ℕ → CommitRequest) × ℕ :=
  (setErrors requests batch fun i => refusal e logIncarnation i (requests i),
    batch.countP fun i => (refusal e logIncarnation i (requests i)).isSome)

/-- A commit time never lies below the one before it. -/
def clampTime (stamp : ℤ) (r : CommitRequest) : CommitRequest :=
  if r.committedAt < stamp then
    { r with payloads := restampKeyedRecords r.payloads stamp, committedAt := stamp }
  else r

/-- Clamp the commit times along the run; the time of the last request. -/
def clampTimes (requests : ℕ → CommitRequest) (stamp : ℤ) : List ℕ → (ℕ → CommitRequest) × ℤ
  | [] => (requests, stamp)
  | i :: live =>
    let r := clampTime stamp (requests i)
    clampTimes (update requests i r) r.committedAt live

/-- Hand out the offsets of the run. -/
def assignOffsets (requests : ℕ → CommitRequest) (next : ℕ) : List ℕ → ℕ → CommitRequest
  | [] => requests
  | i :: live =>
    let r := requests i
    assignOffsets (update requests i { r with first := next }) (next + r.payloads.length)
      live

/-- The requests, the batch in its array's order, the partition's newest commit time and the log
after a cycle's work, and whether the cycle is done: it is not when the log turned out stale. -/
structure BatchResult where
  done : Bool
  batch : List ℕ
  requests : ℕ → CommitRequest
  lastCommittedAt : ℤ
  log : OffsetMap Bytes

/-- Append the live requests as one run and record the outcome of each. -/
def commitLive (batch live : List ℕ) (lastCommittedAt : ℤ) (log : OffsetMap Bytes) : BatchResult :=
  let (requests, stamp) := clampTimes requests lastCommittedAt live
  let payloads := live.flatMap fun i => (requests i).payloads
  let outcome := match e.appendFails with
    | some reason => some (CommitError.stage .append reason)
    | none => if payloads.isEmpty then none else e.commitFails.map fun f => .stage f.1 f.2
  match outcome with
  | some err => ⟨true, batch, setErrors requests live fun _ => some err, stamp, e.logAfterFailure⟩
  | none =>
    -- An empty append answers offset zero and leaves the log alone.
    let first := if payloads.isEmpty then 0 else log.next
    ⟨true, batch, assignOffsets requests first live, stamp, log.assign log.next payloads⟩

/-- Oldest commit time first; equal times keep their order. -/
def sortLive (live : List ℕ) : List ℕ :=
  live.insertionSort fun i j => (requests i).committedAt ≤ (requests j).committedAt

def commitBatchLocked (logIncarnation : String) (last : Bool)
    (requests : ℕ → CommitRequest) (batch : List ℕ) (lastCommittedAt : ℤ) (log : OffsetMap Bytes) : BatchResult :=
  let refuseAll := setErrors requests batch fun _ => some .notPartitionOwner
  if !e.isLocalOwner || e.isProducePaused then ⟨true, batch, refuseAll, lastCommittedAt, log⟩
  else if !e.current then
    if last then ⟨true, batch, refuseAll, lastCommittedAt, log⟩
    else ⟨false, batch, requests, lastCommittedAt, log⟩
  else
    let (requests, refused) := refuseUncommittable e logIncarnation requests batch
    if refused = 0 then
      -- The run is the batch's own array, sorted in place.
      let live := sortLive requests batch
      commitLive e requests live live lastCommittedAt log
    else if refused = batch.length then ⟨true, batch, requests, lastCommittedAt, log⟩
    else
      let live := sortLive requests (batch.filter fun i => (requests i).err.isNone)
      commitLive e requests batch live lastCommittedAt log

/-- The request is the one brought, up to its outcome and its commit time. -/
structure SameRequest (r r' : CommitRequest) : Prop where
  wake : r'.wake = r.wake
  lead : r'.lead = r.lead
  payloads : r'.payloads = r.payloads ∨ ∃ stamp, r'.payloads = restampKeyedRecords r.payloads stamp

/-- The requests of the batch without an error hold disjoint runs that fill the offsets the cycle
appended, and each run holds the request's own payloads. -/
structure Numbered (batch : List ℕ) (requests : ℕ → CommitRequest) (log log' : OffsetMap Bytes) : Prop where
  grown : log.next ≤ log'.next
  below : ∀ o < log.next, log'.get o = log.get o
  holds : ∀ i ∈ batch, (requests i).err = none → log'.Holds (requests i).first (requests i).payloads
  covers : ∀ o, log.next ≤ o ∧ o < log'.next ↔ ∃ i ∈ batch, (requests i).err = none ∧ (requests i).first ≤ o ∧
      o < (requests i).first + (requests i).payloads.length
  disjoint : ∀ i ∈ batch, ∀ j ∈ batch, (requests i).err = none → (requests j).err = none →
    ∀ o, (requests i).first ≤ o ∧ o < (requests i).first + (requests i).payloads.length →
      (requests j).first ≤ o ∧ o < (requests j).first + (requests j).payloads.length → i = j

section

variable {e : CycleEnv} {logIncarnation : String} {last : Bool} {requests : ℕ → CommitRequest}
  {batch live : List ℕ} {lastCommittedAt stamp : ℤ} {log : OffsetMap Bytes} {i next : ℕ} {err : ℕ → Option CommitError}

theorem SameRequest.refl (r : CommitRequest) : SameRequest r r :=
  ⟨rfl, rfl, .inl rfl⟩

theorem SameRequest.of_eq {r r' : CommitRequest} (hwake : r'.wake = r.wake) (hlead : r'.lead = r.lead)
    (hpayloads : r'.payloads = r.payloads) : SameRequest r r' :=
  ⟨hwake, hlead, .inl hpayloads⟩

/-- A request whose outcome is written before and after it is clamped is still the same one. -/
theorem SameRequest.around {r r₁ r₂ r₃ : CommitRequest} (h : SameRequest r₁ r₂)
    (hbefore : r₁ = { r with err := r₁.err }) (hwake : r₃.wake = r₂.wake) (hlead : r₃.lead = r₂.lead)
    (hpayloads : r₃.payloads = r₂.payloads) : SameRequest r r₃ := by
  obtain ⟨hw, hl, hp⟩ := h
  rw [hbefore] at hw hl hp
  exact ⟨hwake.trans hw, hlead.trans hl, by rwa [hpayloads]⟩

theorem setErrors_of_notMem (hi : i ∉ batch) : setErrors requests batch err i = requests i :=
  if_neg hi

theorem setErrors_of_mem (hi : i ∈ batch) :
    setErrors requests batch err i = { requests i with err := (err i).or (requests i).err } :=
  if_pos hi

/-- Only the error is written. -/
theorem setErrors_same (i : ℕ) : setErrors requests batch err i =
      { requests i with err := (setErrors requests batch err i).err } := by
  unfold setErrors
  split <;> rfl

theorem clampTimes_of_notMem (hi : i ∉ live) : (clampTimes requests stamp live).1 i = requests i := by
  induction live generalizing requests stamp with
  | nil => rfl
  | cons j live ih =>
    rw [mem_cons, not_or] at hi
    rw [clampTimes, ih hi.2, update_of_ne hi.1]

/-- Clamping leaves everything but the payloads' stamps and the commit time. -/
theorem clampTimes_spec (hnodup : live.Nodup) (i : ℕ) :
    SameRequest (requests i) ((clampTimes requests stamp live).1 i) ∧
      ((clampTimes requests stamp live).1 i).err = (requests i).err := by
  induction live generalizing requests stamp with
  | nil => exact ⟨.refl _, rfl⟩
  | cons j live ih =>
    obtain ⟨hj, hnodup⟩ := nodup_cons.mp hnodup
    rw [clampTimes]
    by_cases hij : i = j
    · subst hij
      rw [clampTimes_of_notMem hj, update_self]
      unfold clampTime
      split
      · exact ⟨⟨rfl, rfl, .inr ⟨stamp, rfl⟩⟩, rfl⟩
      · exact ⟨.refl _, rfl⟩
    · have hrest := @ih (update requests j (clampTime stamp (requests j)))
        (clampTime stamp (requests j)).committedAt hnodup
      rwa [update_of_ne hij] at hrest

theorem assignOffsets_of_notMem (hi : i ∉ live) : assignOffsets requests next live i = requests i := by
  induction live generalizing requests next with
  | nil => rfl
  | cons j live ih =>
    rw [mem_cons, not_or] at hi
    rw [assignOffsets, ih hi.2, update_of_ne hi.1]

/-- Only the first offset is written. -/
theorem assignOffsets_same (i : ℕ) : assignOffsets requests next live i =
      { requests i with first := (assignOffsets requests next live i).first } := by
  induction live generalizing requests next with
  | nil => rfl
  | cons j live ih =>
    rw [assignOffsets, ih]
    by_cases hij : i = j
    · subst hij
      rw [update_self]
    · rw [update_of_ne hij]

theorem assignOffsets_runs (hnodup : live.Nodup) : Runs (fun i => (assignOffsets requests next live i).first)
      (fun i => (requests i).payloads.length) next live
      (next + (live.flatMap fun i => (requests i).payloads).length) := by
  induction live generalizing requests next with
  | nil => rfl
  | cons j live ih =>
    obtain ⟨hj, hnodup⟩ := nodup_cons.mp hnodup
    have hpayloads : ∀ i, (update requests j { requests j with first := next } i).payloads =
        (requests i).payloads := by
      intro i
      by_cases hij : i = j
      · rw [hij, update_self]
      · rw [update_of_ne hij]
    refine ⟨?_, ?_⟩
    · simp only [assignOffsets]
      rw [assignOffsets_of_notMem hj, update_self]
    · have hrest := @ih (update requests j { requests j with first := next })
        (next + (requests j).payloads.length) hnodup
      simp only [hpayloads] at hrest
      rw [flatMap_cons, length_append, ← add_assoc]
      exact hrest

/-- A run appended to the log and handed out in order is numbered. -/
theorem numbered_of_live (hnodup : live.Nodup) (first : ℕ) (hlive : ∀ i, i ∈ live ↔ i ∈ batch ∧ (requests i).err = none)
    (hfirst : first = if (live.flatMap fun i => (requests i).payloads).isEmpty then 0 else log.next) :
    Numbered batch (assignOffsets requests first live) log
      (log.assign log.next (live.flatMap fun i => (requests i).payloads)) := by
  set payloads := live.flatMap fun i => (requests i).payloads with hpayloads
  set after := assignOffsets requests first live with hafter
  have hlow : log.first ≤ log.next := Nat.le_add_right _ _
  have hnext : (log.assign log.next payloads).next = log.next + payloads.length :=
    OffsetMap.assign_next hlow le_rfl
  have hsame : ∀ i, (after i).payloads = (requests i).payloads ∧ (after i).err = (requests i).err := by
    intro i
    rw [hafter, assignOffsets_same i]
    exact ⟨rfl, rfl⟩
  have hserved : ∀ i, i ∈ batch → (after i).err = none → i ∈ live := fun i hi herr =>
    (hlive i).mpr ⟨hi, (hsame i).2.symm.trans herr⟩
  have hruns : Runs (fun i => (after i).first) (fun i => (after i).payloads.length) first live
      (first + payloads.length) :=
    (assignOffsets_runs hnodup).congr fun i _ => ⟨rfl, congrArg _ (hsame i).1⟩
  have hstart : payloads = [] ∨ first = log.next := by
    rcases hcase : payloads with _ | ⟨p, ps⟩
    · exact .inl rfl
    · exact .inr (by rw [hfirst, hcase]; rfl)
  have hall : (log.assign log.next payloads).Holds first (live.flatMap fun i => (after i).payloads) := by
    simp only [(hsame _).1, ← hpayloads]
    rcases hstart with hempty | hstart
    · rw [hempty]
      exact .nil _ _
    · rw [hstart]
      exact OffsetMap.holds_assign hlow le_rfl
  refine ⟨by omega, fun o ho => OffsetMap.get_assign_of_lt le_rfl ho, ?_, ?_, ?_⟩
  · intro i hi herr
    exact hruns.holds hall (hserved i hi herr)
  · intro o
    have hlen : payloads.length = 0 ∨ first = log.next := hstart.imp_left fun hempty => by rw [hempty]; rfl
    rw [hnext]
    constructor
    · rintro ⟨hge, hlt⟩
      obtain ⟨i, hi, hrun⟩ := hruns.covers (show first ≤ o by omega) (by omega)
      obtain ⟨hbatch, herr⟩ := (hlive i).mp hi
      exact ⟨i, hbatch, (hsame i).2.trans herr, hrun⟩
    · rintro ⟨i, hi, herr, hrun⟩
      have := hruns.within (hserved i hi herr)
      omega
  · intro i hi j hj hierr hjerr o hoi hoj
    exact hruns.disjoint (hserved i hi hierr) (hserved j hj hjerr) hoi hoj

/-- What a finished cycle did: it touched its own requests only, and either refused them all or
numbered those without an error. -/
structure Settled (batch : List ℕ) (before after : ℕ → CommitRequest) (log log' : OffsetMap Bytes) : Prop where
  frame : ∀ i, i ∉ batch → after i = before i
  same : ∀ i, SameRequest (before i) (after i)
  outcome : (∀ i ∈ batch, (after i).err ≠ none) ∨ Numbered batch after log log'

theorem settled_of_refused {err : CommitError} (log log' : OffsetMap Bytes) :
    Settled batch requests (setErrors requests batch fun _ => some err) log log' where
  frame _ hi := setErrors_of_notMem hi
  same i := by
    rw [setErrors_same i]
    exact .of_eq rfl rfl rfl
  outcome := .inl fun i hi => by simp [setErrors_of_mem hi]

theorem sortLive_perm (requests : ℕ → CommitRequest) (live : List ℕ) : (sortLive requests live).Perm live :=
  perm_insertionSort _ _

theorem commitLive_batch {batch : List ℕ} : (commitLive e requests batch live lastCommittedAt log).batch = batch := by
  unfold commitLive
  dsimp only
  split <;> rfl

theorem commitLive_settled (hnodup : live.Nodup)
    (hlive : ∀ i, i ∈ live ↔ i ∈ batch ∧ (requests i).err = none) {before : ℕ → CommitRequest}
    (hframe : ∀ i, i ∉ batch → requests i = before i)
    (hbefore : ∀ i, requests i = { before i with err := (requests i).err }) {order : List ℕ} :
    Settled batch before (commitLive e requests order live lastCommittedAt log).requests log
      (commitLive e requests order live lastCommittedAt log).log := by
  unfold commitLive
  have hspec : ∀ i, SameRequest (requests i) ((clampTimes requests lastCommittedAt live).1 i) ∧
      ((clampTimes requests lastCommittedAt live).1 i).err = (requests i).err :=
    fun i => clampTimes_spec hnodup i
  have hother : ∀ i, i ∉ batch → i ∉ live ∧ (clampTimes requests lastCommittedAt live).1 i = before i := fun i hi =>
    have hnot : i ∉ live := fun hmem => hi ((hlive i).mp hmem).1
    ⟨hnot, (clampTimes_of_notMem hnot).trans (hframe i hi)⟩
  generalize clampTimes requests lastCommittedAt live = clamped at hspec hother ⊢
  obtain ⟨clamped, stamp⟩ := clamped
  dsimp only at hspec hother ⊢
  split
  · dsimp only
    refine ⟨fun i hi => (setErrors_of_notMem (hother i hi).1).trans (hother i hi).2, fun i => ?_, .inl fun i hi => ?_⟩
    · rw [setErrors_same i]
      exact (hspec i).1.around (hbefore i) rfl rfl rfl
    · by_cases hmem : i ∈ live
      · simp [setErrors_of_mem hmem]
      · rw [setErrors_of_notMem hmem, (hspec i).2]
        exact fun hnone => hmem ((hlive i).mpr ⟨hi, hnone⟩)
  · dsimp only
    refine ⟨fun i hi => (assignOffsets_of_notMem (hother i hi).1).trans (hother i hi).2, fun i => ?_,
      .inr (numbered_of_live hnodup _ ?_ rfl)⟩
    · rw [assignOffsets_same i]
      exact (hspec i).1.around (hbefore i) rfl rfl rfl
    · intro i
      rw [hlive, (hspec i).2]

theorem refuseUncommittable_fst : (refuseUncommittable e logIncarnation requests batch).1 =
      setErrors requests batch fun i => refusal e logIncarnation i (requests i) :=
  rfl

/-- A finished cycle settles the batch it was given. -/
theorem commitBatchLocked_settled (hnodup : batch.Nodup) (hfresh : ∀ i ∈ batch, (requests i).err = none)
    (hdone : (commitBatchLocked e logIncarnation last requests batch lastCommittedAt log).done = true) :
    Settled batch requests (commitBatchLocked e logIncarnation last requests batch lastCommittedAt log).requests log
      (commitBatchLocked e logIncarnation last requests batch lastCommittedAt log).log := by
  have herr : ∀ i ∈ batch, ((refuseUncommittable e logIncarnation requests batch).1 i).err =
      refusal e logIncarnation i (requests i) :=
    fun i hi => by rw [refuseUncommittable_fst, setErrors_of_mem hi, hfresh i hi, Option.or_none]
  have hframe : ∀ i, i ∉ batch →
      (refuseUncommittable e logIncarnation requests batch).1 i = requests i := fun i hi => by
    rw [refuseUncommittable_fst, setErrors_of_notMem hi]
  have hsame : ∀ i, (refuseUncommittable e logIncarnation requests batch).1 i =
      { requests i with err := ((refuseUncommittable e logIncarnation requests batch).1 i).err } :=
    fun i => by
      rw [refuseUncommittable_fst]
      exact setErrors_same i
  have hcount : (refuseUncommittable e logIncarnation requests batch).2 =
      batch.countP fun i => (refusal e logIncarnation i (requests i)).isSome := rfl
  unfold commitBatchLocked at hdone ⊢
  generalize refuseUncommittable e logIncarnation requests batch = refused at *
  obtain ⟨after, refused⟩ := refused
  dsimp only at herr hframe hsame hcount hdone ⊢
  split at hdone
  · rw [if_pos ‹_›]
    exact settled_of_refused log log
  rw [if_neg ‹_›]
  split at hdone
  · rw [if_pos ‹_›]
    split at hdone
    · rw [if_pos ‹_›]
      exact settled_of_refused log log
    · cases hdone
  rw [if_neg ‹_›]
  split
  · refine commitLive_settled ((sortLive_perm after batch).nodup_iff.mpr hnodup) (fun i => ?_) hframe hsame
    rw [(sortLive_perm after batch).mem_iff]
    refine ⟨fun hi => ⟨hi, ?_⟩, fun h => h.1⟩
    have := countP_eq_zero.mp (hcount.symm.trans ‹refused = 0›) i hi
    rw [herr i hi]
    simpa using this
  split
  · refine ⟨hframe, fun i => ?_, .inl fun i hi => ?_⟩
    · dsimp only
      rw [hsame i]
      exact .of_eq rfl rfl rfl
    · dsimp only
      have := countP_eq_length.mp (hcount.symm.trans ‹refused = batch.length›) i hi
      rw [herr i hi]
      exact fun hnone => by simp [hnone] at this
  · have hperm := sortLive_perm after (batch.filter fun i => (after i).err.isNone)
    refine commitLive_settled (hperm.nodup_iff.mpr (hnodup.filter _)) (fun i => ?_) hframe hsame
    rw [hperm.mem_iff, mem_filter, Option.isNone_iff_eq_none]

/-- A cycle that found its log stale touched nothing. -/
theorem commitBatchLocked_stale
    (hdone : (commitBatchLocked e logIncarnation last requests batch lastCommittedAt log).done = false) :
    last = false ∧ commitBatchLocked e logIncarnation last requests batch lastCommittedAt log =
        ⟨false, batch, requests, lastCommittedAt, log⟩ := by
  have hlive : ∀ requests batch live, (commitLive e requests batch live lastCommittedAt log).done = true := by
    intro requests batch live
    unfold commitLive
    dsimp only
    split <;> rfl
  unfold commitBatchLocked at hdone ⊢
  dsimp only at hdone ⊢
  split at hdone
  · cases hdone
  rw [if_neg ‹_›]
  split at hdone
  · rw [if_pos ‹_›]
    split at hdone
    · cases hdone
    next hlast =>
      rw [if_neg hlast]
      exact ⟨by simpa using hlast, rfl⟩
  · split at hdone
    · simp [hlive] at hdone
    split at hdone
    · cases hdone
    · simp [hlive] at hdone

theorem commitBatchLocked_perm :
    (commitBatchLocked e logIncarnation last requests batch lastCommittedAt log).batch.Perm batch := by
  unfold commitBatchLocked
  dsimp only
  split
  · exact .refl _
  split
  · split <;> exact .refl _
  split
  · rw [commitLive_batch]
    exact sortLive_perm _ _
  split
  · exact .refl _
  · rw [commitLive_batch]

end

end Narad.Messaging
