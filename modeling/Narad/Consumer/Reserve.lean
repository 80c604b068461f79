import Narad.Consumer.Shard

/-!
# The operations on one partition's shard

Each operation of the in-flight tracker that reaches an existing shard is a function from the
stored shard to a `Call`: the shard left behind, the value returned, the frontiers handed to
`onCommit`, and whether the release notifier ran. The mutex is held from the first read to the
last write, so an operation is one step.

`Op` gathers the operations with the values they read from their environment, and `run` performs
a sequence of them.
-/

namespace Narad.Consumer

open Lib

/-- Why a reservation was refused. -/
inductive SkipReason where
  | cap | empty | aheadFull | allReserved
deriving DecidableEq

/-- The outcome of `reserveNext`. -/
inductive ReserveResult where
  | reserved (offset nonce expiresAtUnixMs : ℤ)
  | skipped (reason : SkipReason)
deriving DecidableEq

/-- The errors the operations return. -/
inductive ConsumerError where
  | handleStale
  | invalidSkip
deriving DecidableEq

/-- What one call leaves behind and what it told its collaborators. -/
structure Call (ρ : Type) where
  shard : Shard
  result : ρ
  onCommit : List ℤ
  notified : Bool

/-- `time.Duration.Milliseconds`: whole milliseconds of a duration in nanoseconds. -/
def milliseconds (duration : ℤ) : ℤ := duration.tdiv 1000000

variable (sh : Shard)

/-- The live reservation of an offset, when it carries the given nonce. -/
def heldBy (offset nonce : ℤ) : Bool :=
  match sh.entries.lookup offset with
  | some rsv => rsv.nonce = nonce
  | none => false

variable (offset : ℤ)

/-- Record a lease: its table entry and its slot in the expiry heap. -/
def lease (rsv : Reservation) : Shard :=
  { sh with
    entries := sh.entries.insert offset rsv
    expiry := MinHeap.push ExpiryEntry.expiresAtUnixMs sh.expiry
      { offset, expiresAtUnixMs := rsv.expiresAtUnixMs, nonce := rsv.nonce } }

/-- Record a fresh reservation and move the scan hint past it. -/
def reserveLocked (off now visibilityTimeout nonce : ℤ) : Shard × ReserveResult :=
  let exp := wrap (now + milliseconds visibilityTimeout)
  let sh := lease sh off { expiresAtUnixMs := exp, nonce := nonce }
  (if sh.nextFree ≤ off then { sh with nextFree := succ off } else sh, .reserved off nonce exp)

/-- The lowest offset from `off` on, among the next `count`, that can be handed out. The source's loop
stops below an `int64` tail, so its `off++` does not wrap. -/
def scanFree (sh : Shard) : ℕ → ℤ → Option ℤ
  | 0, _ => none
  | count + 1, off => if resolvedOrReservedLocked sh off then scanFree sh count (off + 1) else some off

/-- What a shard whose expired leases are gone answers: an offset to hand out, or a reason. The
scan starts at the hint `nextFree`. -/
def chooseNext (logTail : ℤ) : Except SkipReason ℤ :=
  if sh.maxInFlight ≤ (sh.entries.keys.card : ℤ) then .error .cap
  else
    let next := succ sh.committed
    if logTail ≤ next then .error .empty
    else if aheadFullLocked sh then
      if resolvedOrReservedLocked sh next then .error .aheadFull else .ok next
    else
      let start := max next sh.nextFree
      match scanFree sh (logTail - start).toNat start with
      | some off => .ok off
      | none => .error .allReserved

variable (order : RangeOrder)

/-- Hand out the lowest unreserved offset past the frontier. -/
def reserveNext (now nonce visibilityTimeout logTail : ℤ) (sh : Shard) : Call ReserveResult :=
  let sh := (purgeExpiredLocked order now sh).1
  match chooseNext sh logTail with
  | .error reason => { shard := sh, result := .skipped reason, onCommit := [], notified := false }
  | .ok off =>
    let (sh, result) := reserveLocked sh off now visibilityTimeout nonce
    { shard := sh, result, onCommit := [], notified := false }

/-- The resolved set an out-of-order resolve lands in. -/
inductive AheadOf where
  | ackedAhead | corrupt

/-- Park a resolved offset above the frontier. -/
def AheadOf.park (kind : AheadOf) (offset : ℤ) (sh : Shard) : Shard :=
  match kind with
  | .ackedAhead => { sh with ackedAhead := insert offset sh.ackedAhead }
  | .corrupt => { sh with corrupt := insert offset sh.corrupt }

/-- Forget the lease of an offset. -/
def dropLease (sh : Shard) : Shard :=
  { sh with entries := sh.entries.erase offset }

/-- Forget the lease of the frontier's next offset and move the frontier to it. -/
def commitAt (sh : Shard) : Shard :=
  { sh with entries := sh.entries.erase offset, committed := offset }

/-- Resolve an offset held by the given nonce, at the frontier or ahead of it. -/
def resolveReserved (kind : AheadOf) (order : RangeOrder) (now offset nonce : ℤ) (sh : Shard) :
    Call (Except ConsumerError Unit) :=
  let swept := purgeExpiredLocked order now sh
  let sh := swept.1
  let purged : Bool := decide (0 < swept.2)
  if ¬ heldBy sh offset nonce then
    { shard := sh, result := .error .handleStale, onCommit := [], notified := purged }
  else
    let wasAtCap : Bool := decide (sh.maxInFlight ≤ (sh.entries.keys.card : ℤ))
    let aheadWasFull := aheadFullLocked sh
    if offset = succ sh.committed then
      let sh := advanceCommittedLocked (commitAt offset sh)
      { shard := sh, result := .ok (), onCommit := [sh.committed],
        notified := purged || wasAtCap || aheadWasFull }
    else
      let sh := kind.park offset sh
      let persisted : Bool := decide (offset ∈ sh.ackedAhead)
      let sh := if persisted then { sh with aheadVersion := sh.aheadVersion + 1 } else sh
      { shard := dropLease offset sh, result := .ok (),
        onCommit := if persisted then [sh.committed] else [], notified := purged || wasAtCap }

/-- Commit an acked offset. -/
def commitHandle := resolveReserved .ackedAhead

/-- Skip an offset whose frame is permanently unreadable. -/
def skipCorrupt := resolveReserved .corrupt

/-- Drop every lease below `oldest`, visiting the table in `range` order. -/
def dropLeasesBelow (oldest : ℤ) (entries : Entries) : Entries :=
  (order.visit entries.keys).foldl (fun entries off => if off < oldest then entries.erase off else entries) entries

/-- Discard everything recorded below `oldest` and move the frontier up to it. The skipped offset is
below `oldest`, so `oldest - 1` does not wrap. -/
def forgetBelow (oldest : ℤ) (sh : Shard) : Shard :=
  { sh with
    entries := dropLeasesBelow order oldest sh.entries
    ackedAhead := sh.ackedAhead.filter (oldest ≤ ·)
    aheadVersion := sh.aheadVersion + (sh.ackedAhead.filter (· < oldest)).card
    corrupt := sh.corrupt.filter (oldest ≤ ·)
    committed := if sh.committed < oldest - 1 then oldest - 1 else sh.committed }

/-- Jump the frontier over offsets that retention has deleted. -/
def skipMissingBelow (now offset nonce oldest : ℤ) (sh : Shard) : Call (Except ConsumerError ℤ) :=
  if oldest ≤ offset then
    { shard := sh, result := .error .invalidSkip, onCommit := [], notified := false }
  else
    let sh := (purgeExpiredLocked order now sh).1
    if ¬ heldBy sh offset nonce then
      { shard := sh, result := .error .handleStale, onCommit := [], notified := false }
    else
      let before := sh.committed
      let sh := advanceCommittedLocked (forgetBelow order oldest sh)
      { shard := sh, result := .ok (wrap (sh.committed - before)), onCommit := [sh.committed],
        notified := true }

/-- Renew the visibility window of a live lease. -/
def extendHandle (now offset nonce visibilityTimeout : ℤ) (sh : Shard) : Call (Except ConsumerError ℤ) :=
  let swept := purgeExpiredLocked order now sh
  let sh := swept.1
  let purged : Bool := decide (0 < swept.2)
  if ¬ heldBy sh offset nonce then
    { shard := sh, result := .error .handleStale, onCommit := [], notified := purged }
  else
    let exp := wrap (now + milliseconds visibilityTimeout)
    { shard := lease sh offset { expiresAtUnixMs := exp, nonce := nonce },
      result := .ok exp, onCommit := [], notified := purged }

/-- Give a live lease back. -/
def releaseHandle (now offset nonce : ℤ) (sh : Shard) : Call (Except ConsumerError Unit) :=
  let swept := purgeExpiredLocked order now sh
  let sh := swept.1
  let purged : Bool := decide (0 < swept.2)
  if ¬ heldBy sh offset nonce then
    { shard := sh, result := .error .handleStale, onCommit := [], notified := purged }
  else
    { shard := freedLocked offset (dropLease offset sh), result := .ok (), onCommit := [],
      notified := true }

/-- The purger's visit of one shard. -/
def purgeAll (now : ℤ) (sh : Shard) : Call Unit :=
  let swept := purgeExpiredLocked order now sh
  { shard := swept.1, result := (), onCommit := [], notified := decide (0 < swept.2) }

/-- Install resolved caps; caps that are not positive are refused and change nothing. -/
def refreshCaps (caps : Caps) (sh : Shard) : Shard :=
  if caps.maxInFlight ≤ 0 ∨ caps.maxAckedAhead ≤ 0 then sh
  else { sh with maxInFlight := caps.maxInFlight, maxAckedAhead := caps.maxAckedAhead }

/-- One operation with its arguments and what it reads from its environment. -/
inductive Op where
  | reserveNext (order : RangeOrder) (now nonce visibilityTimeout logTail : ℤ)
  | commitHandle (order : RangeOrder) (now offset nonce : ℤ)
  | skipCorrupt (order : RangeOrder) (now offset nonce : ℤ)
  | skipMissingBelow (order : RangeOrder) (now offset nonce oldest : ℤ)
  | extendHandle (order : RangeOrder) (now offset nonce visibilityTimeout : ℤ)
  | releaseHandle (order : RangeOrder) (now offset nonce : ℤ)
  | purgeAll (order : RangeOrder) (now : ℤ)
  | refreshCaps (caps : Caps)

/-- The value an operation returned. -/
inductive Outcome where
  | reserve (result : ReserveResult)
  | unit (result : Except ConsumerError Unit)
  | offset (result : Except ConsumerError ℤ)
  | none

/-- The same call with another presentation of its result. -/
def Call.map {ρ σ : Type} (f : ρ → σ) (call : Call ρ) : Call σ :=
  { call with result := f call.result }

/-- Perform one operation. -/
def Op.perform (op : Op) (sh : Shard) : Call Outcome :=
  match op with
  | .reserveNext order now nonce timeout logTail =>
    (Consumer.reserveNext order now nonce timeout logTail sh).map .reserve
  | .commitHandle order now offset nonce => (Consumer.commitHandle order now offset nonce sh).map .unit
  | .skipCorrupt order now offset nonce => (Consumer.skipCorrupt order now offset nonce sh).map .unit
  | .skipMissingBelow order now offset nonce oldest =>
    (Consumer.skipMissingBelow order now offset nonce oldest sh).map .offset
  | .extendHandle order now offset nonce timeout =>
    (Consumer.extendHandle order now offset nonce timeout sh).map .offset
  | .releaseHandle order now offset nonce =>
    (Consumer.releaseHandle order now offset nonce sh).map .unit
  | .purgeAll order now => (Consumer.purgeAll order now sh).map fun _ => .none
  | .refreshCaps caps =>
    { shard := Consumer.refreshCaps caps sh, result := .none, onCommit := [], notified := false }

/-- The shard after a sequence of operations. -/
def run (ops : List Op) : Shard := ops.foldl (fun sh op => (op.perform sh).shard) sh

end Narad.Consumer
