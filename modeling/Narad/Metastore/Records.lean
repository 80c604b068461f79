import Narad.Lib.OrderedStore
import Narad.Metastore.JsonValue

/-!
# The metastore's records

The finite state machine keeps its records in buckets of one database: topics, schema versions,
partition assignments, members and the tombstones of removed ones, users, and the registry of remotes
with its key accounting. Every write of an entry happens in one transaction over these tables.

Counts, sizes and times are integers: no modelled sum leaves 64 bits, since delays are at most a year.
-/

namespace Narad.Metastore

open Lib OrderedStore

/-- A topic's place in fan-out; the record of a new topic carries none. -/
inductive Role where
  | unset
  | standalone
  | parent
  | child
  | other (text : String)
  deriving DecidableEq

/-- The link of a remote child's stub. -/
structure RemoteLink where
  name : String
  topic : String
  targetId : String := ""
  «from» : String := ""
  lanes : ℤ := 0
  paused : Bool := false
  pauseReason : String := ""
  pausedBy : String := ""
  pausedAtMs : ℤ := 0
  skip : List (ℤ × List ℤ) := []
  createdBy : String := ""
  deriving DecidableEq

structure Topic where
  name : String
  id : String := ""
  partitions : ℤ := 0
  retentionMs : ℤ := 0
  visibilityTimeoutMs : ℤ := 0
  maxInFlightPerPartition : ℤ := 0
  maxAckedAheadPerPartition : ℤ := 0
  createdAt : ℤ := 0
  owner : String := ""
  role : Role := .unset
  children : List String := []
  parent : String := ""
  attachEpoch : String := ""
  fanoutDelayMs : ℤ := 0
  attachOffsets : List ℤ := []
  remote : Option RemoteLink := none
  deriving DecidableEq

def maxChildrenPerParent : ℕ := 108

def maxFanoutDelayMs : ℤ := 365 * 24 * 60 * 60 * 1000

def minRetentionMs : ℤ := 60 * 60 * 1000

def maxRemoteChildrenPerParent : ℕ := 16

def minRemoteSourceRetentionMs : ℤ := 24 * 60 * 60 * 1000

def minRemoteLanes : ℤ := 1

def maxRemoteLanes : ℤ := 8

def maxRemotePauseReasonBytes : ℕ := 256

def maxRemoteSkipsPerPartition : ℕ := 8 * 500

namespace Topic

variable (t : Topic)

def effectiveRole : Role :=
  if t.role = .unset then .standalone else t.role

def isParent : Prop :=
  t.effectiveRole = .parent

def isChild : Prop :=
  t.effectiveRole = .child

/-- A remote child's stub. -/
def isRemoteChild : Prop :=
  t.remote ≠ none ∧ t.isChild

instance (t : Topic) : Decidable t.isParent :=
  inferInstanceAs (Decidable (_ = _))

instance (t : Topic) : Decidable t.isChild :=
  inferInstanceAs (Decidable (_ = _))

instance (t : Topic) : Decidable t.isRemoteChild :=
  inferInstanceAs (Decidable (_ ∧ _))

end Topic

def RemoteLink.effectiveLanes (l : RemoteLink) : ℤ :=
  if l.lanes < minRemoteLanes then minRemoteLanes else min l.lanes maxRemoteLanes

def validRemoteFrom (start : String) : Bool :=
  start ∈ ["", "attach", "unconsumed", "earliest"]

/-- Drops the lowest offsets beyond the bound, but not the one just added. -/
def trimSkips (offset : ℤ) : ℕ → List ℤ → List ℤ
  | 0, offs => offs
  | n + 1, offs =>
    if maxRemoteSkipsPerPartition < offs.length then
      trimSkips offset n (offs.eraseIdx (if offs.head? = some offset then 1 else 0))
    else offs

def addSkip (offs : List ℤ) (offset : ℤ) : List ℤ :=
  let offs := if offset ∈ offs then offs else offs.orderedInsert (· ≤ ·) offset
  trimSkips offset offs.length offs

def withSkip : List (ℤ × List ℤ) → ℤ → ℤ → List (ℤ × List ℤ)
  | [], partition, offset => [(partition, addSkip [] offset)]
  | (p, offs) :: skip, partition, offset =>
    if p = partition then (p, addSkip offs offset) :: skip
    else (p, offs) :: withSkip skip partition offset

/-- The owner of a partition, and the node it is moving to. -/
structure Assignment where
  topic : String
  partition : ℤ
  ownerId : String
  targetId : String := ""
  deriving DecidableEq

inductive MemberStatus where
  | alive
  | dead
  | other (text : String)
  deriving DecidableEq

structure Member where
  id : String
  addr : String
  clusterAddr : String := ""
  status : MemberStatus
  lastHeartbeat : ℤ
  draining : Bool := false
  build : String := ""
  entryTypes : ℕ := 0
  deriving DecidableEq

structure Grant where
  action : String
  patterns : List String
  deriving DecidableEq

structure User where
  username : String
  passwordHash : Bytes
  grants : List Grant
  root : Bool := false
  createdAtMs : ℤ := 0
  updatedAtMs : ℤ := 0
  deriving DecidableEq

/-- A sealed password. -/
structure Envelope where
  v : ℤ
  kv : String
  ct : Bytes
  deriving DecidableEq

structure Limits where
  maxInFlight : ℤ := 0
  requestTimeoutMs : ℤ := 0
  idleConnTimeoutMs : ℤ := 0
  connMaxAgeMs : ℤ := 0
  checkIntervalMs : ℤ := 0
  compression : String := ""

/-- A remote as the registry stores it. -/
structure Remote where
  name : String
  id : String
  url : String
  username : String
  credential : Envelope
  credentialVersion : ℕ := 0
  fingerprint : String := ""
  passwordSetAtMs : ℤ := 0
  passwordSetBy : String := ""
  caPem : String := ""
  limits : Limits := {}
  revision : ℕ := 0
  createdAtMs : ℤ := 0
  createdBy : String := ""

structure KeyVersion where
  seals : ℕ := 0
  firstSealedAtMs : ℤ := 0

/-- The entry of the remotes bucket under the reserved key. -/
structure Keys where
  salt : Option Bytes := none
  versions : Dict KeyVersion := ∅

/-- The database of the state machine. -/
structure Tables (S : OrderedStore) where
  topics : S.Bucket Topic := ∅
  schemas : S.Bucket Bytes := ∅
  assignments : S.Bucket Assignment := ∅
  members : S.Bucket Member := ∅
  removedMembers : S.Bucket ℤ := ∅
  users : S.Bucket User := ∅
  remotes : S.Bucket Remote := ∅
  remoteKeys : Keys := {}

/-- Why an entry is refused, with the values its message names. -/
inductive Err where
  | key (e : KeyError)
  | malformed
  | notFound (name : String)
  | alreadyExists (name : String)
  | nameRequired
  | nameDiffersInCase (name existing : String)
  | topicChanged (name expected found : String)
  | wouldShrink (name : String) (stored carried : ℤ)
  | ownChild
  | childCannotBeParent (name parent : String)
  | parentCannotBeChild (name : String)
  | alreadyAttached (child parent : String)
  | attachedElsewhere (child parent : String)
  | notAttached (child parent : String)
  | childLimit (parent : String) (children : ℕ)
  | negativeDelay
  | delayTooLong (delayMs : ℤ)
  | delayBeyondRetention (parent : String) (retentionMs delayMs : ℤ)
  | schemaManaged (name parent : String)
  | schemaMismatch (child parent : String)
  | childHasSchema (child parent : String)
  | malformedSchemaKey (key : String)
  | schemaVersionExists (name : String) (version latest : ℤ)
  | schemaVersionSkips (name : String) (version latest : ℤ)
  | schemaHistoryFull (name : String)
  | topicSchemaBudget (name : String) (bytes : ℕ)
  | clusterSchemaBudget (bytes : ℕ)
  | stubImmutable (name parent : String)
  | requiredFields
  | epochRequired
  | lanesOutOfRange
  | unknownFrom
  | noSuchRemote (name : String)
  | remoteChildLimit (parent : String) (remotes : ℕ)
  | remoteRetentionFloor (parent : String) (retentionMs : ℤ)
  | targetLinked (remote topic stub : String)
  | notRemoteChild (name parent : String)
  | remoteChildStale (name : String)
  | pauseReason
  | skipNegative
  | memberRemoved
  | heartbeatNewer (id : String) (stored observed : ℤ)
  | noSuchPartition (topic : String) (partition partitions : ℤ)
  | noOwner (topic : String) (partition : ℤ)
  | ownerRemoved (topic : String) (partition : ℤ) (owner : String)
  | partitionAssigned (topic : String) (partition : ℤ)
  | noAssignment (topic : String) (partition : ℤ)
  | assignmentLive (topic : String) (partition partitions : ℤ)
  | moveOwner (found expected : String)
  | moveTarget (found expected : String)
  | rootProtected
  | remoteNotFound
  | remoteExists
  | remoteLimit
  | remoteSaltRace
  | remoteKeyExhausted
  | remoteInUse (links : List String)
  | remoteChanged (revision : ℕ)
  | nothingToChange
  | invalidLimits

/-- What the handlers take from outside: the store, the JSON decoder, letter folding,
the character classes, the digest of a certificate bundle and the schema budgets. -/
structure Env where
  store : OrderedStore
  decodeJSON : JsonDecoder
  equalFold : String → String → Bool
  isPrint : Char → Bool
  trustAnchor : String → Option String
  schemaTopicBudget : ℕ := 4 * 2 ^ 20
  schemaClusterBudget : ℕ := 256 * 2 ^ 20

/-- What a transaction returns: the tables after it, or why it is refused. -/
abbrev Tx (S : OrderedStore) := Except Err (Tables S)

variable {S : OrderedStore} (db : Tables S)

def Tables.topic : String → Option Topic :=
  db.topics.lookup

def getTopicRecord (name : String) : Except Err Topic :=
  match db.topic name with
  | none => .error (.notFound name)
  | some t => .ok t

def putTopicRecord (t : Topic) : Tx S :=
  match db.topics.put t.name t with
  | .error e => .error (.key e)
  | .ok topics => .ok { db with topics := topics }

theorem getTopic_ok {db : Tables S} {name : String} {t : Topic} :
    getTopicRecord db name = .ok t ↔ db.topic name = some t := by
  unfold getTopicRecord
  split <;> simp_all

theorem putTopicRecord_eq_ok {db db' : Tables S} {t : Topic} (h : putTopicRecord db t = .ok db') :
    t.name ≠ "" ∧ db' = { db with topics := db.topics.insert t.name t } := by
  unfold putTopicRecord at h
  split at h
  · cases h
  next topics hput =>
    obtain ⟨hne, -, rfl⟩ := Bucket.put_eq_ok.mp hput
    cases h
    exact ⟨hne, rfl⟩

end Narad.Metastore
