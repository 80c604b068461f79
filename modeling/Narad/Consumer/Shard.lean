import Mathlib.Data.Finmap
import Mathlib.Data.Finset.Sort
import Narad.Lib.MinHeap

/-!
# The reservation state of one partition

`Shard` is the consumer package's `partitionShard`: the committed frontier, the live leases, the
offsets resolved out of order above the frontier (acked, or skipped as corrupt), the scan hint
and the expiry heap. Offsets, nonces and Unix milliseconds are the source's `int64` values, as integers:
where the source adds to one, `succ` and `wrap` give the sum as 64 bits hold it.

Three inputs that the source reads from its environment are arguments here: the clock, the nonce
that a reservation mints, and the order in which Go's `range` visits a map. Every result below
holds for all of them.
-/

namespace Narad.Consumer

open Lib

/-- The largest `int64`. -/
def maxInt64 : ℤ := 9223372036854775807

/-- The smallest `int64`. -/
def minInt64 : ℤ := -9223372036854775808

/-- `off + 1` on `int64`: the largest value wraps to the smallest. -/
def succ (off : ℤ) : ℤ := if off = maxInt64 then minInt64 else off + 1

/-- The `int64` that a sum of two wraps to. -/
def wrap (x : ℤ) : ℤ := (x - minInt64) % 18446744073709551616 + minInt64

theorem succ_of_lt {off : ℤ} (h : off < maxInt64) : succ off = off + 1 :=
  if_neg h.ne

/-- One lease: when it lapses and the nonce that binds an ack to it. -/
structure Reservation where
  expiresAtUnixMs : ℤ
  nonce : ℤ
deriving DecidableEq, Inhabited

/-- One slot of the expiry heap. The nonce and the deadline tie it to a particular lease. -/
structure ExpiryEntry where
  offset : ℤ
  expiresAtUnixMs : ℤ
  nonce : ℤ
deriving Inhabited

/-- The per-partition limits of a topic. -/
structure Caps where
  maxInFlight : ℤ
  maxAckedAhead : ℤ
deriving DecidableEq, Inhabited

/-- The lease table, keyed by offset. -/
abbrev Entries := Finmap (fun _ : ℤ => Reservation)

/-- The reservation state of one partition; every field is read and written under its mutex. -/
structure Shard where
  committed : ℤ
  entries : Entries
  expiry : Array ExpiryEntry
  ackedAhead : Finset ℤ
  aheadVersion : ℕ
  corrupt : Finset ℤ
  nextFree : ℤ
  maxInFlight : ℤ
  maxAckedAhead : ℤ

/-- The order in which one `range` statement visits the keys of a map. -/
structure RangeOrder where
  visit : Finset ℤ → List ℤ
  nodup : ∀ keys, (visit keys).Nodup
  mem_visit : ∀ keys k, k ∈ visit keys ↔ k ∈ keys

/-- Ascending order, one of the orders a `range` may take. -/
def RangeOrder.ascending : RangeOrder where
  visit keys := keys.sort (· ≤ ·)
  nodup keys := keys.sort_nodup (· ≤ ·)
  mem_visit keys k := by simp

/-- The slack that keeps small heaps from being rebuilt. -/
def heapCompactSlack : ℕ := 16

/-- A shard at a recovered frontier, with nothing in flight. -/
def newPartitionShard (committed : ℤ) (caps : Caps) : Shard where
  committed := committed
  entries := ∅
  expiry := #[]
  ackedAhead := ∅
  aheadVersion := 0
  corrupt := ∅
  nextFree := succ committed
  maxInFlight := caps.maxInFlight
  maxAckedAhead := caps.maxAckedAhead

/-- Lower the scan hint to an offset that became reservable again. -/
def freedLocked (off : ℤ) (sh : Shard) : Shard :=
  if off < sh.nextFree then { sh with nextFree := off } else sh

variable (sh : Shard)

/-- Whether a heap slot still describes the live lease of its offset. -/
def describesLive (e : ExpiryEntry) : Bool :=
  match sh.entries.lookup e.offset with
  | some rsv => rsv.nonce = e.nonce ∧ rsv.expiresAtUnixMs = e.expiresAtUnixMs
  | none => false

/-- Rebuild the heap from the live leases once it has accumulated many dead slots. -/
def compactExpiryLocked (order : RangeOrder) (sh : Shard) : Shard :=
  if sh.expiry.size ≤ 2 * sh.entries.keys.card + heapCompactSlack then sh
  else
    let rebuilt := (order.visit sh.entries.keys).filterMap fun offset =>
      (sh.entries.lookup offset).map fun rsv =>
        ({ offset, expiresAtUnixMs := rsv.expiresAtUnixMs, nonce := rsv.nonce } : ExpiryEntry)
    { sh with expiry := MinHeap.init ExpiryEntry.expiresAtUnixMs rebuilt.toArray }

/-- Pop every heap slot whose deadline has passed, evicting the leases they still describe. -/
def purgeLoop (now : ℤ) : ℕ → Shard → ℕ → Shard × ℕ
  | 0, sh, released => (sh, released)
  | budget + 1, sh, released =>
    if 0 < sh.expiry.size ∧ sh.expiry[0]!.expiresAtUnixMs ≤ now then
      let popped := MinHeap.pop ExpiryEntry.expiresAtUnixMs sh.expiry
      let sh := { sh with expiry := popped.2 }
      if describesLive sh popped.1 then
        let sh := { sh with entries := sh.entries.erase popped.1.offset }
        purgeLoop now budget (freedLocked popped.1.offset sh) (released + 1)
      else purgeLoop now budget sh released
    else (sh, released)

/-- Evict the expired leases and report how many were released. -/
def purgeExpiredLocked (order : RangeOrder) (now : ℤ) (sh : Shard) : Shard × ℕ :=
  let swept := purgeLoop now sh.expiry.size sh 0
  (compactExpiryLocked order swept.1, swept.2)

/-- Collapse the frontier over the resolved run directly above it. -/
def advanceLoop : ℕ → Shard → Shard
  | 0, sh => sh
  | budget + 1, sh =>
    let next := succ sh.committed
    if next ∈ sh.ackedAhead then
      advanceLoop budget { sh with
        ackedAhead := sh.ackedAhead.erase next
        aheadVersion := sh.aheadVersion + 1
        committed := next }
    else if next ∈ sh.corrupt then
      advanceLoop budget { sh with corrupt := sh.corrupt.erase next, committed := next }
    else sh

/-- Collapse the frontier, then keep the scan hint above it. -/
def advanceCommittedLocked : Shard :=
  let sh := advanceLoop (sh.ackedAhead.card + sh.corrupt.card) sh
  if sh.nextFree < succ sh.committed then { sh with nextFree := succ sh.committed } else sh

/-- Insert the recovered offsets that lie above the frontier. -/
def insertAhead (offsets : List ℤ) : Shard :=
  offsets.foldl (fun sh off =>
    if sh.committed < off then
      { sh with ackedAhead := insert off sh.ackedAhead, aheadVersion := sh.aheadVersion + 1 }
    else sh) sh

/-- Install the offsets recovered from the persisted acked-ahead record. -/
def seedAheadLocked (offsets : List ℤ) (sh : Shard) : Shard :=
  advanceCommittedLocked (insertAhead sh offsets)

/-- Whether the ahead-of-frontier state has reached its cap. -/
def aheadFullLocked : Bool :=
  decide (sh.maxAckedAhead ≤ (sh.ackedAhead.card : ℤ) + sh.corrupt.card)

/-- Whether an offset cannot be handed out: in flight, acked ahead, or skipped as corrupt. -/
def resolvedOrReservedLocked (off : ℤ) : Bool :=
  decide (off ∈ sh.entries) || decide (off ∈ sh.ackedAhead) || decide (off ∈ sh.corrupt)

/-- The persisted consumer state a shard is built from: the `consumer.offset` frontier, and the
`consumer.ahead` frontier with the offsets above it. -/
structure Recovered where
  offset : Option ℤ
  ahead : Option (ℤ × List ℤ)

variable (r : Recovered)

/-- The frontier recovery starts from: the larger of the two persisted ones. -/
def Recovered.frontier : ℤ :=
  let committed := r.offset.getD (-1)
  match r.ahead with
  | some (aheadCommitted, _) => max committed aheadCommitted
  | none => committed

/-- The recovered acked-ahead offsets. -/
def Recovered.offsets : List ℤ := (r.ahead.map Prod.snd).getD []

/-- Build a shard from the persisted consumer state. -/
def recoverShard (caps : Caps) : Shard :=
  seedAheadLocked r.offsets (newPartitionShard r.frontier caps)

section

variable {κ β : Type*} [DecidableEq κ] {m : Finmap fun _ : κ => β} {k j : κ} {b b' : β}

theorem lookup_insert_cases (h : (m.insert k b).lookup j = some b') :
    (j = k ∧ b' = b) ∨ (j ≠ k ∧ m.lookup j = some b') := by
  by_cases hne : j = k
  · subst hne
    rw [Finmap.lookup_insert] at h
    exact .inl ⟨rfl, (Option.some.inj h).symm⟩
  · rw [Finmap.lookup_insert_of_ne _ hne] at h
    exact .inr ⟨hne, h⟩

theorem lookup_erase_cases (h : (m.erase k).lookup j = some b) : j ≠ k ∧ m.lookup j = some b := by
  by_cases hne : j = k
  · subst hne
    rw [Finmap.lookup_erase] at h
    cases h
  · rw [Finmap.lookup_erase_ne hne] at h
    exact ⟨hne, h⟩

end

end Narad.Consumer
