import Narad.Lib.Slice
import Narad.Messaging.CommitBatch

/-!
# Group commit

The combiner of one partition, with any number of callers of `commitCombined` on it. A caller queues
its request and either leads the next cycle or waits on its wake channel. Each action is one section
that no other caller can observe from inside: the sections under the combiner's mutex, the work under
the produce lock, and each send and receive on a wake channel.

The queue, the spare and a drained batch are slices, since the two backing arrays are handed round.
The produce lock itself is not part of the state: what keeps cycles apart here is `leading`.

`Traced` adds what happened: the cycles with the requests each of them drained and their outcome, the
number of wake-ups each caller received, and the payloads it brought.
-/

namespace Narad.Messaging

open Lib
open Function (update)

/-- Where a caller stands; a cycle carries the batch it drained, which is nil before the drain. -/
inductive Pc where
  | idle
  | waiting
  | resolving (attempt : ℕ) (batch : Option Slice)
  | locked (attempt : ℕ) (incarnation : String) (batch : Option Slice)
  | committing (attempt : ℕ) (incarnation : String) (batch : Option Slice)
  | failed (reason : String) (batch : Option Slice)
  | waking (batch : Option Slice) (k : ℕ)
  | recycling (batch : Option Slice)
  | handingOver
  | handing (next : ℕ)
  | returned
  deriving DecidableEq

structure Combiner where
  queue : Option Slice
  spare : Option Slice
  leading : Bool
  lastCommittedAt : ℤ
  arrays : Arrays ℕ
  requests : ℕ → CommitRequest
  pc : ℕ → Pc

inductive Action where
  /-- The start of a call; `grow` says whether the append moves to a new array. -/
  | enqueue (i : ℕ) (incarnation : String) (payloads : List Bytes) (committedAt : ℤ) (grow : Bool)
  | receive (i : ℕ)
  /-- The produce lock is taken and the partition's log resolved, or not. -/
  | resolve (i : ℕ) (answer : Except String String)
  | drain (i : ℕ)
  | commit (i : ℕ) (e : CycleEnv) (log : OffsetMap Bytes)
  | fail (i : ℕ)
  | wake (i : ℕ)
  | recycle (i : ℕ)
  | handOver (i : ℕ)
  | send (i : ℕ)

def Action.isCall : Action → Bool
  | .enqueue .. => true
  | _ => false

def staleLogAttempts : ℕ := 3

namespace Combiner

variable (s : Combiner)

variable (i : ℕ)

def goto (pc : Pc) : Combiner :=
  { s with pc := update s.pc i pc }

def setRequest (r : CommitRequest) : Combiner :=
  { s with requests := update s.requests i r }

/-- The requests a slice holds. -/
def members (batch : Option Slice) : List ℕ :=
  (s.arrays.read batch).reduceOption

def drained : Combiner :=
  { s with queue := s.spare, spare := none }

/-- The first half of `commitCombined`, up to the wait or to the cycle. -/
def enqueue (incarnation : String) (payloads : List Bytes) (committedAt : ℤ) (grow : Bool) : Combiner :=
  let (arrays, queue) := s.arrays.push s.queue i grow
  let wake := if s.leading then some 0 else none
  let pc := if s.leading then .waiting else .resolving 1 none
  let r : CommitRequest := ⟨incarnation, payloads, committedAt, 0, none, wake, false⟩
  ({ s with arrays, queue := some queue, leading := true }.setRequest i r).goto i pc

/-- The work of a cycle under the produce lock, with its batch drained. -/
def commitResult (attempt : ℕ) (incarnation : String) (batch : Option Slice)
    (e : CycleEnv) (log : OffsetMap Bytes) : BatchResult :=
  commitBatchLocked e incarnation (attempt == staleLogAttempts) s.requests (s.members batch) s.lastCommittedAt log

def commit (i attempt : ℕ) (batch : Option Slice) (r : BatchResult) : Combiner :=
  let arrays := s.arrays.store batch (r.batch.map some)
  let pc := if r.done then .waking batch 0 else .resolving (attempt + 1) batch
  { s with arrays, requests := r.requests, lastCommittedAt := r.lastCommittedAt }.goto i pc

def fail (reason : String) (batch : Option Slice) : Combiner :=
  let requests := setErrors s.requests (s.members batch) fun _ => some (.resolve reason)
  { s with requests }.goto i (.waking batch 0)

/-- Send on a caller's wake channel, which holds one token; a send on a missing or full channel
blocks. -/
def signal : Option Combiner :=
  match (s.requests i).wake with
  | some 0 => some (s.setRequest i { s.requests i with wake := some 1 })
  | _ => none

def step : Action → Option Combiner
  | .enqueue i incarnation payloads committedAt grow =>
    match s.pc i with
    | .idle => some (s.enqueue i incarnation payloads committedAt grow)
    | _ => none
  | .receive i =>
    match s.pc i, (s.requests i).wake with
    | .waiting, some 1 =>
      let pc := if (s.requests i).lead then .resolving 1 none else .returned
      some ((s.setRequest i { s.requests i with wake := some 0 }).goto i pc)
    | _, _ => none
  | .resolve i answer =>
    match s.pc i with
    | .resolving attempt batch =>
      match answer with
      | .ok incarnation => some (s.goto i (.locked attempt incarnation batch))
      | .error reason => some (s.goto i (.failed reason batch))
    | _ => none
  | .drain i =>
    match s.pc i with
    | .locked attempt incarnation none =>
      some (s.drained.goto i (.committing attempt incarnation s.queue))
    | .locked attempt incarnation (some batch) =>
      some (s.goto i (.committing attempt incarnation (some batch)))
    | _ => none
  | .commit i e log =>
    match s.pc i with
    | .committing attempt incarnation batch =>
      some (s.commit i attempt batch (s.commitResult attempt incarnation batch e log))
    | _ => none
  | .fail i =>
    match s.pc i with
    | .failed reason none => some (s.drained.fail i reason s.queue)
    | .failed reason (some batch) => some (s.fail i reason (some batch))
    | _ => none
  | .wake i =>
    match s.pc i with
    | .waking batch k =>
      match (s.arrays.read batch)[k]? with
      | none => some ({ s with arrays := s.arrays.clear batch }.goto i (.recycling batch))
      | some none => none
      | some (some r) =>
        if r = i then some (s.goto i (.waking batch (k + 1)))
        else (s.signal r).map fun s => s.goto i (.waking batch (k + 1))
    | _ => none
  | .recycle i =>
    match s.pc i with
    | .recycling batch =>
      some ({ s with spare := batch.map fun b : Slice => ⟨b.array, 0⟩ }.goto i .handingOver)
    | _ => none
  | .handOver i =>
    match s.pc i with
    | .handingOver =>
      match (s.arrays.read s.queue)[0]? with
      | none => some ({ s with leading := false }.goto i .returned)
      | some none => none
      | some (some next) =>
        some ((s.setRequest next { s.requests next with lead := true }).goto i (.handing next))
    | _ => none
  | .send i =>
    match s.pc i with
    | .handing next => (s.signal next).map fun s => s.goto i .returned
    | _ => none

/-- A combiner nobody has called. -/
def new : Combiner where
  queue := none
  spare := none
  leading := false
  lastCommittedAt := 0
  arrays := ⟨fun _ => [], 0⟩
  requests := fun _ => ⟨"", [], 0, 0, none, none, false⟩
  pc := fun _ => .idle

end Combiner

/-- How a cycle ended: its log could not be resolved, or it got to the log's work. -/
inductive Outcome where
  | failed (requests : ℕ → CommitRequest)
  | settled (requests : ℕ → CommitRequest) (log log' : OffsetMap Bytes)

def Outcome.requests : Outcome → ℕ → CommitRequest
  | .failed requests => requests
  | .settled requests _ _ => requests

/-- A cycle, from its drain on. -/
structure Cycle where
  leader : ℕ
  members : List ℕ
  outcome : Option Outcome

/-- The newest cycle ends. -/
def endCycle (o : Outcome) : List Cycle → List Cycle
  | [] => []
  | c :: cycles => { c with outcome := some o } :: cycles

/-- A combiner with its cycles, newest first. -/
structure Traced where
  machine : Combiner
  callers : List ℕ
  cycles : List Cycle
  woken : ℕ → ℕ
  submitted : ℕ → List Bytes

namespace Traced

def drained (t : Traced) : List ℕ :=
  t.cycles.flatMap Cycle.members

/-- The cycle that takes the queue now. -/
def newCycle (t : Traced) (i : ℕ) : Cycle :=
  ⟨i, t.machine.members t.machine.queue, none⟩

/-- The cycles after an action, seen from the state before it. -/
def cyclesAfter (t : Traced) : Action → List Cycle
  | .drain i =>
    match t.machine.pc i with
    | .locked _ _ none => t.newCycle i :: t.cycles
    | _ => t.cycles
  | .commit i e log =>
    match t.machine.pc i with
    | .committing attempt incarnation batch =>
      let r := t.machine.commitResult attempt incarnation batch e log
      if r.done then endCycle (.settled r.requests log r.log) t.cycles else t.cycles
    | _ => t.cycles
  | .fail i =>
    match t.machine.pc i with
    | .failed reason none =>
      endCycle (.failed (t.machine.fail i reason t.machine.queue).requests) (t.newCycle i :: t.cycles)
    | .failed reason (some batch) =>
      endCycle (.failed (t.machine.fail i reason (some batch)).requests) t.cycles
    | _ => t.cycles
  | _ => t.cycles

def callersAfter (t : Traced) : Action → List ℕ
  | .enqueue i .. => i :: t.callers
  | _ => t.callers

def wokenAfter (t : Traced) : Action → ℕ → ℕ
  | .receive i => update t.woken i (t.woken i + 1)
  | _ => t.woken

def submittedAfter (t : Traced) : Action → ℕ → List Bytes
  | .enqueue i _ payloads _ _ => update t.submitted i payloads
  | _ => t.submitted

def step (t : Traced) (a : Action) : Option Traced :=
  (t.machine.step a).map fun machine =>
    ⟨machine, t.callersAfter a, t.cyclesAfter a, t.wokenAfter a, t.submittedAfter a⟩

def run (t : Traced) : List Action → Option Traced
  | [] => some t
  | a :: actions => (t.step a).bind fun t => t.run actions

def new : Traced :=
  ⟨.new, [], [], fun _ => 0, fun _ => []⟩

end Traced

end Narad.Messaging
