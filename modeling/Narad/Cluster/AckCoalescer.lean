import Narad.Lib.Bytes
import Narad.Lib.Machine

/-!
# Coalescing forwarded acks

An ack for a partition another node owns is sent at once, as an `OpAck` of its own, while fewer than
`limit` requests to that owner hold a slot. Otherwise it joins the batch at the tail of the owner's queue.
A request that ends passes its slot straight to the batch at the head, which then leaves with the records
of the callers that still wait, as one `OpAckBatch`.

The model is one owner's slots and queue with any number of calls. Taking the mutex, starting a request,
its end, closing a batch and freeing its slot are one step each. The goroutine that sends a batch is the
batch's own phase. Every request is kept with the records it carried, and every answer with the party that
sent the request; answers, cancellations and timeouts come at any moment. Whether the owner is remembered as
one that refused the batch operation is free.
-/

namespace Narad.Cluster.Ack

open Lib

/-- Caps one batch. -/
def ackCoalesceMax : ℕ := 64

inductive AckMode where
  | ack
  | extend
  | nack
  deriving DecidableEq

structure AckBatchItem where
  topic : String
  partition : ℤ
  offset : ℤ
  nonce : ℤ
  mode : AckMode
  deriving DecidableEq

structure AckResult where
  status : ℕ
  error : Bytes

structure Response where
  status : ℕ := 0
  contentType : String := ""
  body : Bytes := []
  deriving DecidableEq

/-- How `encoding/json` writes a text. -/
structure Wire where
  quote : Bytes → Bytes

/-- A number of `n` bytes, and what is behind it. -/
def readUint (n : ℕ) (body : Bytes) : Option (ℕ × Bytes) :=
  if body.length < n then none else some (fromBigEndian (body.take n), body.drop n)

def decodeResults : ℕ → Bytes → Option (List AckResult × Bytes)
  | 0, body => some ([], body)
  | count + 1, body => do
    let (status, body) ← readUint 2 body
    let (n, body) ← readUint 4 body
    if body.length < n then none
    else (decodeResults count (body.drop n)).map fun (rest, left) => (⟨status, body.take n⟩ :: rest, left)

def maxAckBatch : ℕ := 1024

/-- A negative count reads as one that is too large. -/
def decodeAckBatchReply (body : Bytes) : Option (List AckResult) := do
  let (count, body) ← readUint 4 body
  if maxAckBatch < count ∨ body.length / 6 < count then none
  else
    let (results, left) ← decodeResults count body
    if left = [] then some results else none

/-- The owner does not know the operation. -/
def isUnsupportedOp (res : Response) : Bool :=
  res.status = 400 ∧ "unsupported rpc operation".toUTF8.toList <:+: res.body

def errorResponse (w : Wire) (status : ℕ) (msg : Bytes) : Response :=
  ⟨status, "application/json", "\x7b\"error\":".toUTF8.toList ++ w.quote msg ++ "\x7d\n".toUTF8.toList⟩

def ackResultResponse (w : Wire) (r : AckResult) : Response :=
  if r.status < 300 then { status := r.status } else errorResponse w r.status r.error

/-- What a call returns. -/
inductive Out where
  | reply (res : Response)
  | failed
  | queueTimeout
  | cancelled
  deriving DecidableEq

/-- A request as it went out: whose records it carried, in order. -/
structure Request where
  calls : List ℕ
  items : List AckBatchItem
  /-- An `OpAckBatch`. -/
  batch : Bool

inductive BatchPc where
  | queued
  | leaving
  | waiting
  | closing
  | releasing
  | finished
  deriving DecidableEq

structure AckBatch where
  items : List AckBatchItem := []
  /-- The calls the records are of. -/
  members : List ℕ := []
  gone : List Bool := []
  pc : BatchPc := .queued
  /-- The positions whose callers still waited when the batch left. -/
  live : List ℕ := []
  /-- The request that carried the batch, and its answer: a reply, or a transport error. -/
  request : Option ℕ := none
  answer : Option (Option Response) := none
  outs : List Out := []
  legacy : Bool := false

inductive Pc where
  | arriving
  | sending (slotted : Bool)
  | waiting (slotted : Bool)
  | releasing (out : Out)
  | queued (batch index : ℕ)
  | late (batch index : ℕ)
  | returned (out : Out)
  deriving DecidableEq

structure Call where
  item : AckBatchItem
  pc : Pc
  /-- The batch the record joined, and its position there. -/
  place : Option (ℕ × ℕ) := none
  /-- The request of its own, and its answer. -/
  request : Option ℕ := none
  answer : Option (Option Response) := none
  deriving DecidableEq

structure State where
  limit : ℕ
  inflight : ℕ := 0
  queue : List ℕ := []
  batches : List AckBatch := []
  calls : List Call := []
  requests : List Request := []

/-- What a waiting call sees first. -/
inductive Wake where
  | done
  | cancelled
  | timeout

inductive Label where
  | forward (item : AckBatchItem) (alone : Bool)
  | call (index : ℕ) (wake : Wake) (answer : Option Response)
  | batch (index : ℕ) (answer : Option Response)

namespace AckBatch

variable (b : AckBatch)

/-- The batch has taken a slot and left. -/
def sent : Bool :=
  b.pc ≠ .queued

def done : Bool :=
  b.pc = .releasing ∨ b.pc = .finished

def add (call : ℕ) (item : AckBatchItem) : AckBatch :=
  { b with items := b.items ++ [item], members := b.members ++ [call], gone := b.gone ++ [false] }

/-- The positions whose callers still wait. -/
def waiting : List ℕ :=
  (List.range b.items.length).filter fun k => b.gone[k]? = some false

def depart : AckBatch :=
  { b with pc := .leaving, live := b.waiting }

/-- The request the live records leave in: one record is an `OpAck`. -/
def toRequest : Request :=
  { calls := b.live.filterMap fun k => b.members[k]?
    items := b.live.filterMap fun k => b.items[k]?
    batch := b.live.length ≠ 1 }

end AckBatch

def Call.toRequest (c : Call) (i : ℕ) : Request :=
  { calls := [i], items := [c.item], batch := false }

variable (w : Wire)

/-- A request of one record. -/
def singleOut (answer : Option Response) : Out :=
  match answer with
  | none => .failed
  | some res => .reply res

/-- The share of the record at a position of a request of `n` records. -/
def batchOut (n : ℕ) (answer : Option Response) (position : ℕ) : Out :=
  match answer with
  | none => .failed
  | some res =>
    if res.status = 200 then
      match decodeAckBatchReply res.body with
      | none => .failed
      | some results =>
        if results.length = n then
          match results[position]? with
          | none => .failed
          | some r => .reply (ackResultResponse w r)
        else .failed
    -- the batch as a whole was refused: every record shares the reply
    else .reply res

/-- Every live record gets its share. -/
def sendLiveBatch (live : List ℕ) (answer : Option Response) (outs : List Out) : List Out :=
  live.zipIdx.foldl (fun outs e => outs.set e.1 (batchOut w live.length answer e.2)) outs

/-- The round trip of a batch is over. -/
def AckBatch.answered (b : AckBatch) (answer : Option Response) : AckBatch :=
  let outs := List.replicate b.items.length (Out.reply {})
  let b := { b with answer := some answer, pc := .closing }
  match b.live with
  | [k] => { b with outs := outs.set k (singleOut answer) }
  | live =>
    if answer.any isUnsupportedOp then { b with outs := outs, legacy := true }
    else { b with outs := sendLiveBatch w live answer outs }

namespace State

variable (s : State)

/-- The record joins the batch at the tail of the queue, or opens a new one. -/
def join (call : ℕ) (item : AckBatchItem) : State × ℕ × ℕ :=
  match (s.queue.getLast?).bind fun b => (s.batches[b]?).map fun a => (b, a) with
  | some (b, a) =>
    if a.items.length < ackCoalesceMax then
      ({ s with batches := s.batches.set b (a.add call item) }, b, a.items.length)
    else
      ({ s with
        batches := s.batches ++ [AckBatch.add {} call item]
        queue := s.queue ++ [s.batches.length] }, s.batches.length, 0)
  | none =>
    ({ s with
      batches := s.batches ++ [AckBatch.add {} call item]
      queue := s.queue ++ [s.batches.length] }, s.batches.length, 0)

/-- A slot is freed, or passed to the batch at the head of the queue. -/
def releaseAckSlot : State :=
  match s.queue with
  | [] => { s with inflight := s.inflight - 1 }
  | b :: rest =>
    match s.batches[b]? with
    | none => { s with queue := rest }
    | some a => { s with queue := rest, batches := s.batches.set b a.depart }

/-- A caller leaves its batch, unless the batch has left. -/
def leave (b k : ℕ) : State × Bool :=
  match s.batches[b]? with
  | none => (s, false)
  | some a =>
    if a.sent then (s, false)
    else ({ s with batches := s.batches.set b { a with gone := a.gone.set k true } }, true)

variable (i : ℕ)

def setCall (c : Call) : State :=
  { s with calls := s.calls.set i c }

def setBatch (b : ℕ) (a : AckBatch) : State :=
  { s with batches := s.batches.set b a }

/-- The batch is done: the call takes its share, or sends its record on its own. -/
def collect (c : Call) (b k : ℕ) : Option State :=
  match s.batches[b]? with
  | none => none
  | some a =>
    if a.done then
      if a.legacy then some (s.setCall i { c with pc := .sending false })
      else (a.outs[k]?).map fun out => s.setCall i { c with pc := .returned out }
    else none

/-- One step of a call. -/
def stepCall (c : Call) (wake : Wake) (answer : Option Response) : Option State :=
  match c.pc with
  | .arriving =>
    if s.inflight < s.limit then
      some ({ s with inflight := s.inflight + 1 }.setCall i { c with pc := .sending true })
    else
      let (s, b, k) := s.join i c.item
      some (s.setCall i { c with pc := .queued b k, place := some (b, k) })
  | .sending slotted =>
    some ({ s with requests := s.requests ++ [c.toRequest i] }.setCall i
      { c with pc := .waiting slotted, request := some s.requests.length })
  | .waiting slotted =>
    let out := singleOut answer
    some (s.setCall i
      { c with pc := if slotted then .releasing out else .returned out, answer := some answer })
  | .releasing out => some (s.setCall i { c with pc := .returned out }).releaseAckSlot
  | .queued b k =>
    match wake with
    | .done => s.collect i c b k
    | .cancelled => some ((s.leave b k).1.setCall i { c with pc := .returned .cancelled })
    | .timeout =>
      let (s, left) := s.leave b k
      some (s.setCall i { c with pc := if left then .returned .queueTimeout else .late b k })
  | .late b k =>
    match wake with
    | .done => s.collect i c b k
    | .cancelled => some (s.setCall i { c with pc := .returned .cancelled })
    | .timeout => none
  | .returned _ => none

/-- One step of the goroutine that sends a batch. -/
def stepBatch (b : ℕ) (a : AckBatch) (answer : Option Response) : Option State :=
  match a.pc with
  | .queued => none
  | .leaving =>
    if a.live = [] then
      some (s.setBatch b { a with pc := .closing, outs := List.replicate a.items.length (.reply {}) })
    else
      some ({ s with requests := s.requests ++ [a.toRequest] }.setBatch b
        { a with pc := .waiting, request := some s.requests.length })
  | .waiting => some (s.setBatch b (a.answered w answer))
  | .closing => some (s.setBatch b { a with pc := .releasing })
  | .releasing => some (s.setBatch b { a with pc := .finished }).releaseAckSlot
  | .finished => none

def step : Label → Option State
  | .forward item alone =>
    some { s with calls := s.calls ++ [{ item := item, pc := if alone then .sending false else .arriving }] }
  | .call i wake answer => (s.calls[i]?).bind fun c => s.stepCall i c wake answer
  | .batch b answer => (s.batches[b]?).bind fun a => s.stepBatch w b a answer

/-- The requests that carried the record of a call. -/
def sends : List ℕ :=
  (List.range s.requests.length).filter fun r => (s.requests[r]?).any fun q => i ∈ q.calls

end State

/-- The call has a slot, from taking it until it is freed or passed on. -/
def Call.holdsSlot (c : Call) : Bool :=
  match c.pc with
  | .sending slotted | .waiting slotted => slotted
  | .releasing _ => true
  | _ => false

def AckBatch.holdsSlot (b : AckBatch) : Bool :=
  match b.pc with
  | .queued | .finished => false
  | _ => true

/-- The requests with a slot that are in progress. -/
def State.holders (s : State) : ℕ :=
  s.calls.countP Call.holdsSlot + s.batches.countP AckBatch.holdsSlot

end Narad.Cluster.Ack
