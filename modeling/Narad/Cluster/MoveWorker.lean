import Narad.Lib.Machine
import Narad.Metastore.Cluster

/-!
# The worker of a partition move

A destination's worker copies a partition, installs the copy at the partition's path and proposes the
ownership flip. A proposal that returns an error may still be applied, so the install stays where it is
until the leader is asked: it is moved back to staging only when a leader read shows that the flip has
not happened, and that read began after the time a proposal may still be on its way.

The state machine, the local replica, the disk and the worker are one state. Of the state machine only the
partition's row and the topic's incarnation are kept, and other entries may change them in any way. A
proposal is applied while its call is out, or after an unknown outcome until `flipSettle` has passed since
it returned. The local replica reads any state that was applied, never an older one than before. What
member reads, re-arms of the freeze and the copy itself answer is free. Logging, metrics, the contents of
a copy and the consumer state that travels with it are left out.
-/

namespace Narad.Cluster.Flip

open Narad.Lib Narad.Metastore

/-- One move, and the times its worker keeps. -/
structure Move where
  source : String
  selfId : String
  flipSettle : ℤ := 15 * 10 ^ 9
  pendingFreezeLimit : ℤ := 120 * 10 ^ 9
  forcePromoteAfter : ℤ

structure MoveMarker where
  source : String
  highWatermark : ℕ
  forcePromoted : Bool
  installedAt : ℤ
  deriving DecidableEq

/-- A partition directory: its identity, the move marker in it, whether it holds records, and whether any of
them is unexpired. -/
structure Dir where
  id : ℕ
  marker : Option MoveMarker := none
  records : Bool := true
  live : Bool := true
  deriving DecidableEq

/-- Why an install cannot be flipped as it is. -/
inductive Unflippable where
  | sourceBack
  | overdue
  | lapsed
  | moved (fence copy : ℕ)

structure CopyResult where
  highWatermark : ℕ
  incarnationId : String
  deriving DecidableEq

structure PendingFlip where
  res : CopyResult
  expectId : String
  installed : ℕ
  marker : MoveMarker
  forcePromoted : Bool
  token : String
  since : ℤ
  unknownAt : Option ℤ := none
  unflippable : Option Unflippable := none

/-- What the leader says about an unconfirmed flip. -/
inductive Verdict where
  | unknown
  | done
  | notYet (leaderRead : Bool)
  | rejected
  deriving DecidableEq

/-- A copy that is ready to be installed. -/
structure Ready where
  res : CopyResult
  forcePromoted : Bool
  token : String
  deriving DecidableEq

inductive Pc where
  | loop
  | resolving
  | topicRead (m : Option Member) (readStart : ℤ)
  | assignmentRead (m : Option Member) (readStart : ℤ)
  | resolved (m : Option Member) (readStart : ℤ) (v : Verdict)
  | rearming (settledNotYet : Bool)
  | rejecting
  | rollingBack
  | proposing (again : Bool)
  | waiting (again : Bool)
  | memberRead
  | copying
  | promoting
  | recordRead (copy : Ready)
  | preparing (copy : Ready) (id : String)
  | marking (copy : Ready) (expectId : String)
  | installing (copy : Ready) (expectId : String) (marker : MoveMarker)
  | finishing
  | stopped
  deriving DecidableEq

structure Worker where
  pc : Pc := .loop
  pending : Option PendingFlip := none
  flipped : Bool := false
  exit : Bool := false
  movedBack : Bool := false
  deadSince : Option ℤ := none
  unverified : ℕ := 0
  gaveUp : Bool := false
  cancelled : Bool := false

/-- A proposal whose call is out: not applied yet, or applied with the answer. -/
inductive Call where
  | sent
  | answered (ok : Bool)
  deriving DecidableEq

/-- What the state machine has for the partition: its row, and the ID in the topic's record. -/
structure View where
  row : Option Assignment
  topicId : Option String
  deriving DecidableEq

/-- The state machine, with the states it has been in, the first one first. -/
structure Applied where
  cur : View
  history : List View

/-- The worker's proposals, and the clock. -/
structure Proposals where
  now : ℤ := 0
  call : Option Call := none
  /-- When the proposals that returned an unknown outcome and were not applied since returned. -/
  late : List ℤ := []
  /-- How many were applied and accepted. -/
  landed : ℕ := 0

structure State extends Applied, Proposals where
  /-- How much of the history the local replica has applied at least. -/
  seen : ℕ := 0
  topicMarker : Option String := none
  path : Option Dir := none
  staging : Option Dir := none
  quarantine : List Dir := []
  nextDir : ℕ := 0
  w : Worker := {}

/-- How a read of the partition's assignment at the leader goes. -/
inductive LeaderRead where
  | failed
  | barriered
  /-- An older leader or a lagging replica answers, from some state that was applied. -/
  | unbarriered (index : ℕ)

inductive Fence where
  | failed
  | lapsed
  | held (highWatermark : ℕ)

inductive Reply where
  | ok
  | refused
  | notProposed
  | unknown
  deriving DecidableEq

inductive Drain where
  | failed
  | unverified
  | drained (res : CopyResult) (token : String)

/-- What the reads, calls and file operations of one step answer. -/
structure Answer where
  ok : Bool := true
  /-- The state the local replica has applied. -/
  replica : ℕ := 0
  member : Option Member := none
  leader : LeaderRead := .failed
  fence : Fence := .failed
  reply : Reply := .unknown
  drain : Drain := .failed
  stuck : Bool := false

variable (mv : Move)

/-- The node owns the partition. -/
def owns (v : View) : Bool :=
  v.row.any fun a => a.ownerId = mv.selfId

/-- The flip of one row; `none` when it is refused. -/
def completeMove (a : Assignment) (expectedOwner targetId : String) : Option Assignment :=
  if a.ownerId = targetId ∧ a.targetId = "" ∧ targetId ≠ "" then some a
  else if a.ownerId = expectedOwner ∧ a.targetId = targetId then
    some { a with ownerId := targetId, targetId := "" }
  else none

namespace State

variable (s : State)

def goto (pc : Pc) : State :=
  { s with w := { s.w with pc := pc } }

/-- A read of the local replica, which never goes back. -/
def replica? (index : ℕ) : Option View :=
  if s.seen ≤ index then s.history[index]? else none

def saw (index : ℕ) : State :=
  { s with seen := index }

/-- The state machine applies an entry. -/
def commit (v : View) : State :=
  { s with cur := v, history := s.history ++ [v] }

/-- The flip as the state machine takes it, with its answer. -/
def flip : State × Bool :=
  match s.cur.row.bind fun a => completeMove a mv.source mv.selfId with
  | some a => ({ s.commit { s.cur with row := some a } with landed := s.landed + 1 }, true)
  | none => (s, false)

/-- The worker's own clock of the source's death. -/
def observeSource (m : Member) : State :=
  if m.status = .dead then
    { s with w := { s.w with deadSince := some (s.w.deadSince.getD s.now) } }
  else { s with w := { s.w with deadSince := none } }

/-- The leader's stamp is taken in nanoseconds here. -/
def sourceDeadEnough (m : Member) : Bool :=
  m.status = .dead && mv.forcePromoteAfter < s.now - m.lastHeartbeat

def sourceDeadLongEnough (m : Member) : Bool :=
  s.sourceDeadEnough mv m && s.w.deadSince.any fun since => mv.forcePromoteAfter < s.now - since

variable (p : PendingFlip)

/-- No proposal of this worker can still be on its way at the time. -/
def settled (readStart : ℤ) : Bool :=
  p.unknownAt.all fun at' => mv.flipSettle ≤ readStart - at'

/-- The verdict on an assignment that was read. -/
def verdict (a : Option Assignment) (leaderRead : Bool) : Verdict :=
  match a with
  | none => if leaderRead then .rejected else .unknown
  | some a =>
    if a.ownerId = mv.selfId then .done
    else if a.ownerId = mv.source ∧ a.targetId = mv.selfId then .notYet leaderRead
    else if leaderRead then .rejected
    else .unknown

def checkTopicIncarnation (expectId : String) : Bool :=
  expectId = "" || s.topicMarker = some expectId

/-- The topic's directory becomes the incarnation's; another incarnation's is quarantined with its copies. -/
def ensureTopicIncarnation (id : String) : State :=
  { s with
    topicMarker := some id
    path := if s.topicMarker.all fun marker => marker = id then s.path else none }

def flipDone : State :=
  { s with w := { s.w with pending := none, flipped := true, pc := .finishing } }

/-- The staged copy is thrown away. -/
def resetSession : State :=
  { s with staging := none }

/-- The install goes back to staging if it is still the directory at the path; whether it did. -/
def rollbackInstall (ok : Bool) : State × Bool :=
  match s.path with
  | none => (s, false)
  | some d =>
    if ok ∧ s.checkTopicIncarnation p.expectId ∧ d.id = p.installed ∧ d.marker = some p.marker then
      ({ s with path := none, staging := some d }, true)
    else (s, false)

/-- A copy with unexpired records at the path is set aside, never removed. -/
def install (expectId : String) (marker : MoveMarker) (ok : Bool) : Option (State × Dir) :=
  match s.staging with
  | none => none
  | some d =>
    if ok ∧ s.checkTopicIncarnation expectId then
      let d := { d with marker := some marker }
      some ({ s with
        path := some d
        staging := none
        quarantine := (s.path.filter Dir.live).toList ++ s.quarantine }, d)
    else none

def setAsideStaging (ok : Bool) : State :=
  if ok then { s with staging := none, quarantine := s.staging.toList ++ s.quarantine } else s

def ownedStagingIsRedundant : Bool :=
  !s.w.movedBack && s.path.any fun d => d.marker.any fun m => m.source = mv.source

/-- The owner may no longer hold its copy. -/
def ownerMayBeGone (owner : String) (member : Option Member) : Bool :=
  owner = "" || member.all fun m => m.status = .dead

/-- What the worker does with its staging copy as it exits; `a` is the assignment as the local replica
has it, and `none` when it cannot be read. -/
def finish (a : Option (Option Assignment)) (member : Option Member) (ok : Bool) : State :=
  if s.w.flipped then s
  else
    match a with
    | none => if s.w.movedBack then s.setAsideStaging ok else s
    | some none => { s with staging := none }
    | some (some a) =>
      if a.ownerId = mv.selfId then
        if s.ownedStagingIsRedundant mv then { s with staging := none } else s.setAsideStaging ok
      else if ownerMayBeGone a.ownerId member ∧ s.staging.any Dir.records then s.setAsideStaging ok
      else { s with staging := none }

/-- Whether a pending install may be flipped now, as far as no call is needed. -/
inductive Flippable where
  | yes
  | rearm
  | notNow
  | never (why : Unflippable)

variable (m : Option Member)

/-- A pending flip turns into a force-promote once the source has been dead long enough. -/
def convert : PendingFlip :=
  if s.checkTopicIncarnation p.expectId && !p.forcePromoted && m.any (s.sourceDeadLongEnough mv) then
    { p with forcePromoted := true }
  else p

def pendingFlippable : Flippable :=
  if !s.checkTopicIncarnation p.expectId then .notNow
  else if p.forcePromoted then
    match m with
    | none => .notNow
    | some m => if m.status = .dead then .yes else .never .sourceBack
  else if mv.pendingFreezeLimit < s.now - p.since then .never .overdue
  else .rearm

/-- The install cannot be flipped as it is: it goes back once a leader read allows it. -/
def giveUp (why : Unflippable) (settledNotYet : Bool) : State :=
  { s with w := { s.w with
    pending := some { p with unflippable := some why }
    pc := if settledNotYet then .rollingBack else .loop } }

/-- The flip has not happened as far as is known: it is proposed again, or given up. -/
def proposeAgain (settledNotYet : Bool) : State :=
  match p.unflippable with
  | some why => s.giveUp p why settledNotYet
  | none =>
    let p := s.convert mv p m
    match s.pendingFlippable mv p m with
    | .yes => { s with w := { s.w with pending := some p, pc := .proposing true } }
    | .rearm => { s with w := { s.w with pending := some p, pc := .rearming settledNotYet } }
    | .notNow => { s with w := { s.w with pending := some p, pc := .loop } }
    | .never why => s.giveUp p why settledNotYet

/-- What `resolvePending` does with the verdict. -/
def decide (readStart : ℤ) (v : Verdict) : State :=
  match v with
  | .done => s.flipDone
  | .rejected => s.goto (if settled mv p readStart then .rejecting else .loop)
  | .unknown => s.proposeAgain mv p m false
  | .notYet leaderRead => s.proposeAgain mv p m (leaderRead && settled mv p readStart)

/-- A proposal returned. An outcome that is not settled leaves it on its way, unless it was applied. -/
def returned (call : Call) (reply : Reply) (p : PendingFlip) (again : Bool) : Option State :=
  let next : Pc := if again then .loop else .resolving
  let failed : State := { s.goto next with call := none }
  match reply, call with
  | .ok, .answered true => some { s.flipDone with call := none }
  | .refused, .answered false => some failed
  | .notProposed, .sent => some failed
  | .unknown, .sent => some { s with
      call := none
      late := s.now :: s.late
      w := { s.w with pending := some { p with unknownAt := some s.now }, pc := next } }
  | .unknown, .answered _ => some { s with
      call := none
      w := { s.w with pending := some { p with unknownAt := some s.now }, pc := next } }
  | _, _ => none

/-- One step of the worker. -/
def work (a : Answer) : Option State :=
  match s.w.pc with
  | .stopped => none
  | .loop =>
    if s.w.cancelled || s.w.exit then some (s.goto .finishing)
    else if s.w.gaveUp then none
    else some (s.goto (if s.w.pending.isSome then .resolving else .memberRead))
  | .resolving =>
    let s := match a.member with
      | some m => s.observeSource m
      | none => s
    some (s.goto (.topicRead a.member s.now))
  | .topicRead m readStart =>
    match s.w.pending with
    | none => none
    | some p =>
      if p.expectId = "" then some (s.goto (.assignmentRead m readStart))
      else if !a.ok then some (s.goto (.resolved m readStart .unknown))
      else
        (s.replica? a.replica).map fun v =>
          (s.saw a.replica).goto (match v.topicId with
              | none => .resolved m readStart .rejected
              | some id =>
                if id ≠ "" ∧ id ≠ p.expectId then .resolved m readStart .rejected
                else .assignmentRead m readStart)
  | .assignmentRead m readStart =>
    match a.leader with
    | .failed => some (s.goto (.resolved m readStart .unknown))
    | .barriered => some (s.goto (.resolved m readStart (verdict mv s.cur.row true)))
    | .unbarriered index =>
      (s.history[index]?).map fun v => s.goto (.resolved m readStart (verdict mv v.row false))
  | .resolved m readStart v => s.w.pending.map fun p => s.decide mv p m readStart v
  | .rearming settledNotYet =>
    s.w.pending.map fun p =>
      match a.fence with
      | .failed => s.goto .loop
      | .lapsed => s.giveUp p .lapsed settledNotYet
      | .held hwm =>
        if hwm = p.res.highWatermark then s.goto (.proposing true)
        else s.giveUp p (.moved hwm p.res.highWatermark) settledNotYet
  | .rejecting =>
    s.w.pending.map fun p =>
      let (s, restored) := s.rollbackInstall p a.ok
      { s with w := { s.w with movedBack := restored, pending := none, exit := true, pc := .loop } }
  | .rollingBack =>
    s.w.pending.map fun p =>
      let (s, restored) := s.rollbackInstall p a.ok
      let s := if restored then s else s.resetSession
      { s with w := { s.w with movedBack := restored, pending := none, pc := .loop } }
  | .proposing again => some { s.goto (.waiting again) with call := some .sent }
  | .waiting again =>
    match s.call, s.w.pending with
    | some call, some p => s.returned call a.reply p again
    | _, _ => none
  | .memberRead =>
    match a.member with
    | none => some (s.goto .loop)
    | some m =>
      if m.addr = "" then some (s.goto .loop) else
      let s := s.observeSource m
      if s.sourceDeadLongEnough mv m then some (s.goto .promoting)
      else if m.status = .dead then some (s.goto .loop)
      else some (s.goto .copying)
  | .promoting =>
    match a.drain with
    | .drained res _ => some (s.goto (.recordRead ⟨res, true, ""⟩))
    | _ => some (s.goto .loop)
  | .copying =>
    -- the copy is fetched into staging, which exists from here on
    let s := if s.staging.isSome then s
      else { s with staging := some { id := s.nextDir }, nextDir := s.nextDir + 1 }
    match a.drain with
    | .failed => some (s.goto .loop)
    | .unverified =>
      if s.w.unverified + 1 < 2 then
        some { s.resetSession with w := { s.w with unverified := s.w.unverified + 1, pc := .loop } }
      else some { s with w := { s.w with unverified := s.w.unverified + 1, gaveUp := true, pc := .loop } }
    | .drained res token =>
      some { s with w := { s.w with unverified := 0, pc := .recordRead ⟨res, false, token⟩ } }
  | .recordRead copy =>
    if !a.ok then some (s.goto .loop) else
    (s.replica? a.replica).map fun v =>
      let s := s.saw a.replica
      match v.topicId with
      | none => s.goto .loop
      | some id =>
        if copy.res.incarnationId ≠ "" ∧ id ≠ "" ∧ copy.res.incarnationId ≠ id then s.goto .loop
        else if id = "" then s.goto (.marking copy "")
        else s.goto (.preparing copy id)
  | .preparing copy id =>
    -- the record is read again under the topic's guard
    (s.replica? a.replica).map fun v =>
      let s := s.saw a.replica
      if a.ok ∧ v.topicId = some id then (s.ensureTopicIncarnation id).goto (.marking copy id)
      else s.goto .loop
  | .marking copy expectId =>
    if a.ok then
      some (s.goto (.installing copy expectId ⟨mv.source, copy.res.highWatermark, copy.forcePromoted, s.now⟩))
    else some (s.goto .loop)
  | .installing copy expectId marker =>
    match s.install expectId marker a.ok with
    | none => some (s.goto .loop)
    | some (s, d) =>
      -- its directories could not be synced, and it could not be moved back
      if a.stuck then some (s.goto .loop) else
      some { s with w := { s.w with
        movedBack := false
        pending := some {
          res := copy.res, expectId := expectId, installed := d.id, marker := marker
          forcePromoted := copy.forcePromoted, token := copy.token, since := s.now }
        pc := .proposing false } }
  | .finishing =>
    if a.ok then
      (s.replica? a.replica).map fun v =>
        ((s.saw a.replica).finish mv (some v.row) a.member (a.reply = .ok)).goto .stopped
    else some ((s.finish mv none a.member (a.reply = .ok)).goto .stopped)

end State

inductive Label where
  | work (a : Answer)
  /-- Another entry is applied. -/
  | entry (v : View)
  /-- The proposal whose call is out is applied. -/
  | land
  /-- A proposal that returned an unknown outcome is applied. -/
  | landLate (index : ℕ)
  | tick (d : ℕ)
  /-- The node's other parts change the directories of the topic. -/
  | disk (path : Option Dir) (topicMarker : Option String)
  | cancel

def State.step (s : State) : Label → Option State
  | .work a => s.work mv a
  | .entry v => some (s.commit v)
  | .land =>
    if s.call = some .sent then
      let (s, ok) := s.flip mv
      some { s with call := some (.answered ok) }
    else none
  | .landLate index =>
    match s.late[index]? with
    | none => none
    | some at' =>
      if s.now - at' < mv.flipSettle then some ({ s with late := s.late.eraseIdx index }.flip mv).1 else none
  | .tick d => some { s with now := s.now + d }
  | .disk path topicMarker => some { s with path := path, topicMarker := topicMarker }
  | .cancel => some { s with w := { s.w with cancelled := true } }

variable {S : OrderedStore} {db : Tables S} {topic owner target : String} {partition : ℤ} {a : Assignment}

/-- The state machine's handler refuses where `completeMove` does and stores what it gives; a retry stores nothing. -/
theorem applyCompleteMove_eq (hrow : readAssignment db topic partition = .ok a) :
    (applyCompleteMove db topic partition owner target).toOption = (completeMove a owner target).bind fun a' =>
      if a.ownerId = target ∧ a.targetId = "" ∧ target ≠ "" then some db else (putAssignment db a').toOption := by
  simp only [applyCompleteMove, hrow, completeMove, refuse, bind, Except.bind]
  by_cases hdone : a.ownerId = target ∧ a.targetId = "" ∧ target ≠ ""
  · rw [if_pos hdone, if_pos hdone, Option.bind_some, if_pos hdone]
    rfl
  · simp only [if_neg hdone]
    by_cases howner : a.ownerId = owner <;> by_cases htarget : a.targetId = target <;>
      simp [howner, htarget, Except.toOption]

end Narad.Cluster.Flip
