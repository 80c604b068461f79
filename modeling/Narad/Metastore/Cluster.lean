import Narad.Metastore.Fanout

/-!
# Assignments, members, users and remotes

The handlers of the entries that write the other tables. Only one of them writes topics: a user's
delete that releases the topics they owned. Three read topics: a placement and a prune look at the
partitions of the topic, and a remote's delete looks for stubs that link it.

A remote entry that carries a credential counts its seal even when it is refused, so those handlers
return the tables together with the refusal.
-/

namespace Narad.Metastore

open Lib OrderedStore

variable {S : OrderedStore}

/-- A write of one record. -/
def putRecord {α : Type} (b : S.Bucket α) (key : String) (value : α) : Except Err (S.Bucket α) :=
  match b.put key value with
  | .error e => .error (.key e)
  | .ok b => .ok b

/-- A record that has to exist. -/
def getRecord {α : Type} (b : S.Bucket α) (key : String) : Except Err α :=
  match b.lookup key with
  | none => .error (.notFound key)
  | some value => .ok value

/-- The key of an assignment. -/
def assignmentKey (topicName : String) (partition : ℤ) : String :=
  topicName ++ ":" ++ toString partition

variable (db : Tables S)

/-- The assignment of a partition. -/
def readAssignment (topicName : String) (partition : ℤ) : Except Err Assignment :=
  match db.assignments.lookup (assignmentKey topicName partition) with
  | none => .error (.noAssignment topicName partition)
  | some a => .ok a

/-- Stores an assignment under its key. -/
def putAssignment (a : Assignment) : Tx S := do
  let assignments ← putRecord db.assignments (assignmentKey a.topic a.partition) a
  pure { db with assignments := assignments }

/-- A placement, whatever was stored. -/
def applyAssignPartition (a : Assignment) : Tx S :=
  putAssignment db a

variable (id : String)

/-- The member was removed. -/
def memberTombstoned : Bool :=
  (db.removedMembers.lookup id).isSome

variable (topic : String) (partition : ℤ)

/-- A first placement, for one incarnation of the topic. -/
def applyAssignPartitionIfAbsent (ownerId expectId : String) : Tx S := do
  let t ← getTopicRecord db topic
  expectIncarnation t expectId
  refuse (partition < 0 ∨ t.partitions ≤ partition) (.noSuchPartition topic partition t.partitions)
  refuse (ownerId = "") (.noOwner topic partition)
  refuse (memberTombstoned db ownerId) (.ownerRemoved topic partition ownerId)
  refuse (db.assignments.lookup (assignmentKey topic partition)).isSome (.partitionAssigned topic partition)
  putAssignment db { topic := topic, partition := partition, ownerId := ownerId }

/-- An assignment goes only where no topic has the partition. -/
def applyPruneAssignment : Tx S := do
  let key := assignmentKey topic partition
  refuse (db.assignments.lookup key).isNone (.noAssignment topic partition)
  match db.topic topic with
  | none => pure ()
  | some t =>
    refuse (0 ≤ partition ∧ partition < t.partitions) (.assignmentLive topic partition t.partitions)
  pure { db with assignments := db.assignments.erase key }

/-- Sets where a partition moves to. -/
def applySetAssignmentTarget (targetId : String) : Tx S := do
  let a ← readAssignment db topic partition
  if a.targetId = targetId then pure db else putAssignment db { a with targetId := targetId }

/-- The ownership flip: a compare-and-swap, and a retry of a committed one changes nothing. -/
def applyCompleteMove (expectedOwner targetId : String) : Tx S := do
  let a ← readAssignment db topic partition
  if a.ownerId = targetId ∧ a.targetId = "" ∧ targetId ≠ "" then pure db
  else
    refuse (a.ownerId ≠ expectedOwner) (.moveOwner a.ownerId expectedOwner)
    refuse (a.targetId ≠ targetId) (.moveTarget a.targetId targetId)
    putAssignment db { a with ownerId := targetId, targetId := "" }

/-- Ends a move to the expected target, and no other. -/
def applyAbortMove (expectedTarget : String) : Tx S := do
  let a ← readAssignment db topic partition
  if a.targetId = "" ∨ a.targetId ≠ expectedTarget then pure db
  else putAssignment db { a with targetId := "" }

/-- Stores a member. -/
def putMember (key : String) (m : Member) : Tx S := do
  let members ← putRecord db.members key m
  pure { db with members := members }

/-- A member that registers again keeps its drain flag; a removed one is refused. -/
def applyMemberJoin (m : Member) : Tx S := do
  refuse (memberTombstoned db m.id) .memberRemoved
  match db.members.lookup m.id with
  | none => putMember db m.id m
  | some current => putMember db m.id { m with draining := current.draining }

/-- Sets the drain flag. -/
def applySetMemberDraining (draining : Bool) : Tx S := do
  let m ← getRecord db.members id
  putMember db id { m with draining := draining }

/-- Notes a heartbeat. -/
def applyMemberHeartbeat (at' : ℤ) : Tx S := do
  let m ← getRecord db.members id
  putMember db id { m with lastHeartbeat := at' }

/-- Marks a member as dead. -/
def applyMemberDead : Tx S := do
  let m ← getRecord db.members id
  putMember db id { m with status := .dead }

/-- The same, unless a newer heartbeat was noted. -/
def applyMarkMemberDeadIf (observed : ℤ) : Tx S := do
  let m ← getRecord db.members id
  refuse (observed < m.lastHeartbeat) (.heartbeatNewer id m.lastHeartbeat observed)
  putMember db id { m with status := .dead }

/-- Removes a member, which cannot join again. -/
def applyRemoveMember (at' : ℤ) : Tx S := do
  let removedMembers ← putRecord db.removedMembers id at'
  pure { db with members := db.members.erase id, removedMembers := removedMembers }

/-- Takes a removal back. -/
def applyReadmitMember : Tx S :=
  .ok { db with removedMembers := db.removedMembers.erase id }

/-- Stores a user. -/
def putUser (key : String) (u : User) : Tx S := do
  let users ← putRecord db.users key u
  pure { db with users := users }

variable (u : User)

/-- Stores a user under a free name. -/
def putNewUser : Tx S := do
  refuse (db.users.lookup u.username).isSome (.alreadyExists u.username)
  putUser db u.username u

/-- A created account is no root account. -/
def applyCreateUser : Tx S :=
  putNewUser db { u with root := false }

/-- The only entry that stores a root account. -/
def applySeedRootUser : Tx S :=
  putNewUser db { u with root := true }

/-- An account stays root or not, and root's grants stay. -/
def applyUpdateUser : Tx S := do
  let current ← getRecord db.users u.username
  putUser db u.username { u with
    root := current.root, grants := if current.root then current.grants else u.grants }

variable (username : String)

/-- Changes a stored account. -/
def mutateUser (fn : User → Except Err User) : Tx S := do
  let current ← getRecord db.users username
  let next ← fn current
  putUser db username next

/-- Sets a password. -/
def applySetUserPassword (passwordHash : Bytes) (updatedAtMs : ℤ) : Tx S :=
  mutateUser db username fun current =>
    .ok { current with passwordHash := passwordHash, updatedAtMs := updatedAtMs }

/-- Sets the grants of an account that is not root. -/
def applySetUserGrants (grants : List Grant) (updatedAtMs : ℤ) : Tx S :=
  mutateUser db username fun current => do
    refuse current.root .rootProtected
    pure { current with grants := grants, updatedAtMs := updatedAtMs }

/-- Deletes an account that is not root. -/
def deleteUserRecord : Tx S := do
  let current ← getRecord db.users username
  refuse current.root .rootProtected
  pure { db with users := db.users.erase username }

/-- A delete that leaves the user's topics alone. -/
def applyDeleteUser : Tx S :=
  deleteUserRecord db username

/-- The topics of an owner. -/
def topicsOwnedBy : List Topic :=
  db.topics.records.filter fun t => t.owner = username

/-- Takes their owner away. -/
def releaseOwnedTopics : Tx S :=
  (topicsOwnedBy db username).foldlM (fun db t => putTopicRecord db { t with owner := "" }) db

/-- A delete that releases them. -/
def applyDeleteUserReleaseTopics : Tx S := do
  let db ← deleteUserRecord db username
  releaseOwnedTopics db username

/-- How many remotes there may be. -/
def maxRemotes : ℕ := 64

/-- How many passwords may be sealed under one key version. -/
def sealCap : ℕ := 2 ^ 30

/-- The bytes of a remote name after its first. -/
def maxNameTail : ℕ := 62

variable (name : String)

/-- A lower-case letter and at most 62 lower-case letters, digits and dashes. -/
def validRemoteName : Bool :=
  match name.toList with
  | [] => false
  | c :: cs =>
    c.isLower && cs.length ≤ maxNameTail && cs.all fun c => c.isLower || c.isDigit || c == '-'

/-- The envelope is of the known form. -/
def sealedEnvelope (e : Envelope) : Bool :=
  e.v = 1 && e.kv.utf8ByteSize = 16 && e.ct ≠ []

/-- Counts one seal, and returns how many there were. -/
def countSeal (keys : Keys) (kv : String) (sealedAtMs : ℤ) : Keys × ℕ :=
  match keys.versions.lookup kv with
  | none => ({ keys with versions := keys.versions.insert kv ⟨1, sealedAtMs⟩ }, 0)
  | some v =>
    ({ keys with versions := keys.versions.insert kv { v with seals := v.seals + 1 } }, v.seals)

/-- The entry that creates a remote. -/
structure PutRemote where
  record : Remote
  salt : Bytes := []
  sealedAtMs : ℤ
  actor : String

/-- What a create checks once its seal is counted. -/
def checkPutRemote (op : PutRemote) (keys : Keys) (prior : ℕ) : Except Err Unit := do
  refuse (keys.salt = none ∧ op.salt = [] ∨
    keys.salt ≠ none ∧ op.salt ≠ [] ∧ keys.salt ≠ some op.salt) .remoteSaltRace
  refuse (sealCap ≤ prior) .remoteKeyExhausted
  refuse (db.remotes.lookup op.record.name).isSome .remoteExists
  refuse (maxRemotes ≤ db.remotes.size) .remoteLimit

/-- Stores a remote. -/
def putRemote (r : Remote) : Tx S := do
  let remotes ← putRecord db.remotes r.name r
  pure { db with remotes := remotes }

/-- A refused create still counts its seal. -/
def applyPutRemote (op : PutRemote) : Except Err (Tables S × Option Err) := do
  let r := op.record
  refuse (validRemoteName r.name = false ∨ r.id = "" ∨ sealedEnvelope r.credential = false) .malformed
  let counted := countSeal db.remoteKeys r.credential.kv op.sealedAtMs
  match checkPutRemote db op counted.1 counted.2 with
  | .error e => pure ({ db with remoteKeys := counted.1 }, some e)
  | .ok () =>
    let db ← putRemote db { r with
      credentialVersion := 1, revision := 1, passwordSetAtMs := op.sealedAtMs, passwordSetBy := op.actor,
      createdAtMs := op.sealedAtMs, createdBy := op.actor }
    pure ({ db with remoteKeys := { counted.1 with salt := counted.1.salt.or (some op.salt) } }, none)

/-- The limits a change names. -/
structure LimitsPatch where
  maxInFlight : Option ℤ := none
  requestTimeoutMs : Option ℤ := none
  idleConnTimeoutMs : Option ℤ := none
  connMaxAgeMs : Option ℤ := none
  checkIntervalMs : Option ℤ := none
  compression : Option String := none

/-- A zero field reads as its default. -/
def Limits.withDefaults (l : Limits) : Limits where
  maxInFlight := if l.maxInFlight = 0 then 16 else l.maxInFlight
  requestTimeoutMs := if l.requestTimeoutMs = 0 then 30000 else l.requestTimeoutMs
  idleConnTimeoutMs := if l.idleConnTimeoutMs = 0 then 30000 else l.idleConnTimeoutMs
  connMaxAgeMs := if l.connMaxAgeMs = 0 then 300000 else l.connMaxAgeMs
  checkIntervalMs := if l.checkIntervalMs = 0 then 60000 else l.checkIntervalMs
  compression := if l.compression = "" then "none" else l.compression

/-- The named limits replace those set. -/
def Limits.apply (l : Limits) (p : LimitsPatch) : Limits where
  maxInFlight := p.maxInFlight.getD l.maxInFlight
  requestTimeoutMs := p.requestTimeoutMs.getD l.requestTimeoutMs
  idleConnTimeoutMs := p.idleConnTimeoutMs.getD l.idleConnTimeoutMs
  connMaxAgeMs := p.connMaxAgeMs.getD l.connMaxAgeMs
  checkIntervalMs := p.checkIntervalMs.getD l.checkIntervalMs
  compression := p.compression.getD l.compression

/-- Every limit, or its default, is in range. -/
def Limits.valid (limits : Limits) : Bool :=
  let l := limits.withDefaults
  (1 ≤ l.maxInFlight && l.maxInFlight ≤ 256) && (5000 ≤ l.requestTimeoutMs && l.requestTimeoutMs ≤ 120000) &&
    (1000 ≤ l.idleConnTimeoutMs && l.idleConnTimeoutMs ≤ 300000) &&
    (10000 ≤ l.connMaxAgeMs && l.connMaxAgeMs ≤ 3600000) &&
    (10000 ≤ l.checkIntervalMs && l.checkIntervalMs ≤ 3600000) &&
    (l.compression = "none" || l.compression = "zstd")

/-- A named limit is neither zero nor empty, and in range. -/
def LimitsPatch.valid (p : LimitsPatch) : Bool :=
  p.maxInFlight ≠ some 0 && p.requestTimeoutMs ≠ some 0 && p.idleConnTimeoutMs ≠ some 0 &&
    p.connMaxAgeMs ≠ some 0 && p.checkIntervalMs ≠ some 0 && p.compression ≠ some "" &&
    (({} : Limits).withDefaults.apply p).valid

/-- The fields a remote change names. -/
structure RemoteFields where
  url : Option String := none
  username : Option String := none
  caPem : Option String := none
  limits : Option LimitsPatch := none

/-- The named fields replace those stored. -/
def applyRemoteFields (r : Remote) (f : RemoteFields) : Except Err Remote :=
  let r := { r with
    url := f.url.getD r.url, username := f.username.getD r.username, caPem := f.caPem.getD r.caPem }
  match f.limits with
  | none => .ok r
  | some p => do
    refuse (p.valid = false) .invalidLimits
    pure { r with limits := r.limits.withDefaults.apply p }

/-- What a sealed password is bound to. -/
structure SealedTuple where
  name : String
  id : String
  url : String
  username : String
  trustAnchor : String
  deriving DecidableEq

variable (env : Env)

/-- The tuple a password for this record is sealed against. -/
def tupleOf (r : Remote) : Option SealedTuple :=
  (env.trustAnchor r.caPem).map fun anchor => ⟨r.name, r.id, r.url, r.username, anchor⟩

/-- A new password, sealed against a record. -/
structure SealedCredential where
  credential : Envelope
  fingerprint : String := ""
  sealedAgainst : Option SealedTuple
  reseal : Bool := false

/-- The entry that changes a remote. -/
structure UpdateRemote where
  name : String
  fields : RemoteFields := {}
  sealed : Option SealedCredential := none
  expectCredentialVersion : Option ℕ := none
  sealedAtMs : ℤ := 0
  actor : String := ""

/-- A password goes only to the address and user it was entered with, so a change of those needs a new
one, sealed against the record it lands on. -/
def checkRemoteUpdate (r next : Remote) (op : UpdateRemote) (prior : ℕ) : Except Err Unit := do
  let bound : Bool := next.url ≠ r.url || next.username ≠ r.username || next.caPem ≠ r.caPem
  refuse (op.sealed = none ∧ bound = false ∧ op.fields.limits = none) .nothingToChange
  refuse (op.sealed = none ∧ bound = true) (.remoteChanged r.revision)
  refuse (op.expectCredentialVersion ≠ none ∧ op.expectCredentialVersion ≠ some r.credentialVersion)
    (.remoteChanged r.revision)
  match op.sealed with
  | none => pure ()
  | some s =>
    refuse (tupleOf env next = none ∨ tupleOf env next ≠ s.sealedAgainst) (.remoteChanged r.revision)
    refuse (sealCap ≤ prior) .remoteKeyExhausted

/-- The record after the change. -/
def updatedRemote (r : Remote) (op : UpdateRemote) (prior : ℕ) : Except Err Remote := do
  let next ← applyRemoteFields r op.fields
  checkRemoteUpdate env r next op prior
  let next := { next with revision := r.revision + 1 }
  match op.sealed with
  | none => pure next
  | some s =>
    pure { next with
      credential := s.credential, credentialVersion := r.credentialVersion + 1, fingerprint := s.fingerprint
      passwordSetAtMs := if s.reseal then next.passwordSetAtMs else op.sealedAtMs
      passwordSetBy := if s.reseal then next.passwordSetBy else op.actor }

/-- A remote that has to exist. -/
def getRemote : Except Err Remote :=
  match db.remotes.lookup name with
  | none => .error .remoteNotFound
  | some r => if name = "" ∨ reservedRemoteKey name then .error .remoteNotFound else .ok r

/-- The keys after the entry's seal is counted, and how many there were. -/
def countedSeal (op : UpdateRemote) : Keys × ℕ :=
  match op.sealed with
  | none => (db.remoteKeys, 0)
  | some s => countSeal db.remoteKeys s.credential.kv op.sealedAtMs

/-- A refused change still counts its seal. -/
def applyUpdateRemote (db : Tables S) (op : UpdateRemote) : Except Err (Tables S × Option Err) := do
  refuse (∃ s ∈ op.sealed, sealedEnvelope s.credential = false ∨ s.sealedAgainst = none) .malformed
  let counted := countedSeal db op
  let db := { db with remoteKeys := counted.1 }
  match getRemote db op.name >>= fun r => updatedRemote env r op counted.2 with
  | .error e => pure (db, some e)
  | .ok next =>
    let db ← putRemote db next
    pure (db, none)

/-- The stubs that link a remote, as parent and stub. -/
def remoteChildrenNaming (remoteName : String) : List String :=
  (db.topics.records.filter fun t => t.isChild ∧ ∃ link ∈ t.remote, link.name = remoteName).map
    fun t => t.parent ++ "/" ++ t.name

/-- A remote that stubs link goes only by force. -/
def applyDeleteRemote (force : Bool) : Tx S := do
  let _ ← getRemote db name
  let links := remoteChildrenNaming db name
  refuse (links ≠ [] ∧ force = false) (.remoteInUse links)
  pure { db with remotes := db.remotes.erase name }

end Narad.Metastore
