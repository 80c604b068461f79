import Narad.Metastore.Schemas

/-!
# Topic and fan-out transactions

Attach, detach and delete rewrite the records on both ends of a fan-out link in one transaction; a
config update keeps the link fields and the incarnation of the stored record. A remote child is a stub
with no partitions that exists only as long as its link.

Each function takes the tables a transaction has reached and returns the tables after it, or why it is
refused.
-/

namespace Narad.Metastore

open Lib OrderedStore

/-- A parent keeps records for the delay of every child and an hour more, or forever. -/
def checkDelayAgainstRetention (delayMs parentRetentionMs : ℤ) (parentName : String) : Except Err Unit :=
  if delayMs ≤ 0 ∨ parentRetentionMs = 0 then .ok ()
  else
    refuse (parentRetentionMs < delayMs + minRetentionMs) (.delayBeyondRetention parentName parentRetentionMs delayMs)

/-- The retention floor of a parent with remote children. -/
def checkRemoteSourceRetention (retentionMs : ℤ) (parentName : String) : Except Err Unit :=
  refuse (¬(retentionMs = 0 ∨ minRemoteSourceRetentionMs ≤ retentionMs))
    (.remoteRetentionFloor parentName retentionMs)

/-- A parent whose last child goes reverts to standalone. -/
def unlinkChild (parent : Topic) (child : String) : Topic :=
  let children := parent.children.filter (· ≠ child)
  if children = [] then { parent with children := [], role := .standalone }
  else { parent with children := children }

/-- The parent with one child more. -/
def Topic.linked (parent : Topic) (child : String) : Topic :=
  { parent with role := .parent, children := parent.children ++ [child] }

/-- The child as a standalone topic. -/
def Topic.detached (child : Topic) : Topic :=
  { child with role := .standalone, parent := "", attachEpoch := "", fanoutDelayMs := 0, attachOffsets := [] }

variable {S : OrderedStore} (db : Tables S)

section

variable {α : Type} {start key : String} {b : S.Bucket α}

/-- The cursor stands on the key; each round deletes it and moves on. -/
def deleteLoop (start : String) : ℕ → S.Bucket α → Option String → ℕ → S.Bucket α × ℕ
  | fuel + 1, b, some k, n =>
    if start.isPrefixOf k then deleteLoop start fuel (b.erase k) ((b.erase k).next k) (n + 1) else (b, n)
  | _, b, _, n => (b, n)

/-- Deletes the keys that start with `start`, and counts them. There are no more rounds than keys. -/
def deletePrefix (b : S.Bucket α) (start : String) : S.Bucket α × ℕ :=
  deleteLoop start b.size b (b.seek start) 0

/-- The loop deletes what the cursor has before it of the range: every such key comes from the cursor's on. -/
theorem lookup_deleteLoop {fuel n : ℕ} {cursor : Option String} (hfuel : b.size ≤ fuel)
    (hahead : ∀ k v, b.lookup k = some v → start.isPrefixOf k = true → ∃ at', cursor = some at' ∧ at' ≤ k)
    (hat : ∀ k, cursor = some k → start ≤ k ∧ ∃ v, b.lookup k = some v) (key : String) :
    (deleteLoop start fuel b cursor n).1.lookup key = if start.isPrefixOf key then none else b.lookup key := by
  induction fuel generalizing b cursor n with
  | zero =>
    have hnone := b.lookup_of_size_eq_zero (Nat.le_zero.mp hfuel) key
    simp only [deleteLoop, hnone, ite_self]
  | succ fuel ih =>
    -- Where the loop ends, the range has nothing left.
    have hend : (∀ k, cursor = some k → start.isPrefixOf k = false) →
        b.lookup key = if start.isPrefixOf key then none else b.lookup key := by
      intro hout
      split
      next hin =>
        cases hkey : b.lookup key with
        | none => rfl
        | some v =>
          obtain ⟨k, hk, hle⟩ := hahead key v hkey hin
          exact absurd (Bucket.prefix_of_le (hat k hk).1 hle hin) (by simp [hout k hk])
      · rfl
    cases cursor with
    | none => exact hend nofun
    | some k =>
      rw [deleteLoop]
      split
      next hin =>
        obtain ⟨hstart, v, hv⟩ := hat k rfl
        have hsmaller := Bucket.size_erase_lt hv
        rw [ih (by omega) (fun k' v' hk' hin' => ?_) fun k' hk' => ?_]
        · split
          · rfl
          next hout =>
            rw [Bucket.lookup_erase, Function.update_of_ne]
            rintro rfl
            exact hout hin
        · obtain ⟨hne, hk'⟩ := Bucket.of_lookup_erase hk'
          obtain ⟨at', hat', hle⟩ := hahead k' v' hk' hin'
          cases hat'
          refine Bucket.find?_le (v := v') (p := fun x => decide (k < x)) ?_ (decide_eq_true (lt_of_le_of_ne hle hne.symm))
          rw [Bucket.lookup_erase, Function.update_of_ne hne, hk']
        · obtain ⟨hlt, v', hv'⟩ := Bucket.of_find? (p := fun x => decide (k < x)) hk'
          exact ⟨hstart.trans (le_of_lt (of_decide_eq_true hlt)), v', hv'⟩
      next hout => exact hend (by simpa using hout)

/-- Exactly the keys that start with `start` go. -/
theorem lookup_deletePrefix (b : S.Bucket α) (start key : String) :
    (deletePrefix b start).1.lookup key = if start.isPrefixOf key then none else b.lookup key := by
  refine lookup_deleteLoop (le_refl _) (fun k v hk hin => ?_) (fun k hk => ?_) key
  · exact Bucket.find?_le (p := fun x => decide (start ≤ x)) hk (decide_eq_true (Bucket.start_le_of_starts hin))
  · obtain ⟨hle, v, hv⟩ := Bucket.of_find? (p := fun x => decide (start ≤ x)) hk
    exact ⟨of_decide_eq_true hle, v, hv⟩

end

variable (name : String)

/-- The topic with its schemas and assignments goes. -/
def deleteTopicRecords : Tables S :=
  { db with
    topics := db.topics.erase name
    schemas := (deletePrefix db.schemas (keyRange name)).1
    assignments := (deletePrefix db.assignments (keyRange name)).1 }

/-- The link an attach makes. -/
structure ChildLink where
  parent : String
  child : String
  epoch : String := ""
  delayMs : ℤ := 0
  offsets : List ℤ := []

/-- The child under its parent. -/
def Topic.attachedBy (child : Topic) (p : ChildLink) : Topic :=
  { child with
    role := .child, parent := p.parent, attachEpoch := p.epoch, fanoutDelayMs := p.delayMs,
    attachOffsets := p.offsets }

variable (env : Env)

/-- An attach, with the schemas of the two reconciled. -/
def attachChildTx (db : Tables S) (p : ChildLink) (rules : AttachRules) : Tx S := do
  refuse (p.parent = p.child) .ownChild
  let parent ← getTopicRecord db p.parent
  let child ← getTopicRecord db p.child
  refuse parent.isChild (.childCannotBeParent p.parent parent.parent)
  refuse child.isParent (.parentCannotBeChild p.child)
  refuse (child.isChild ∧ child.parent = p.parent) (.alreadyAttached p.child p.parent)
  refuse child.isChild (.attachedElsewhere p.child child.parent)
  refuse (maxChildrenPerParent ≤ parent.children.length) (.childLimit p.parent parent.children.length)
  refuse (p.delayMs < 0) .negativeDelay
  refuse (maxFanoutDelayMs < p.delayMs) (.delayTooLong p.delayMs)
  checkDelayAgainstRetention p.delayMs parent.retentionMs p.parent
  let reconciled ← reconcileSchemasForAttach env db p.parent p.child rules
  let db ← putTopicRecord reconciled.1 (parent.linked p.child)
  putTopicRecord db (child.attachedBy p)

/-- A detached stub goes. -/
def detachChildTx (parentName childName : String) (parent child : Topic) : Tx S := do
  refuse (¬child.isChild ∨ child.parent ≠ parentName) (.notAttached childName parentName)
  let db ← putTopicRecord db (unlinkChild parent childName)
  if child.isRemoteChild then pure (deleteTopicRecords db childName) else putTopicRecord db child.detached

/-- A missing child is skipped; a stub goes with its parent. -/
def dissolveChild (db : Tables S) (childName : String) : Tx S :=
  match db.topic childName with
  | none => .ok db
  | some child =>
    if child.isRemoteChild ∧ child.parent = name then .ok (deleteTopicRecords db childName)
    else putTopicRecord db child.detached

variable (t : Topic)

/-- Detaches a parent's children. -/
def dissolveChildren : Tx S :=
  if t.isParent then t.children.foldlM (dissolveChild name) db else .ok db

/-- Takes a child off its parent. -/
def dissolveParent : Tx S :=
  if t.isChild ∧ t.parent ≠ "" then
    match db.topic t.parent with
    | none => .ok db
    | some parent => putTopicRecord db (unlinkChild parent name)
  else .ok db

/-- Dissolves the links of both kinds. -/
def dissolveFanoutLinks : Tx S := do
  let t ← getTopicRecord db name
  let db ← dissolveChildren db name t
  dissolveParent db name t

/-- A delete dissolves the links first. -/
def deleteTopicTx : Tx S := do
  let db ← dissolveFanoutLinks db name
  pure (deleteTopicRecords db name)

/-- A create under a free name. -/
def applyCreateTopic : Tx S := do
  refuse (db.topic t.name).isSome (.alreadyExists t.name)
  putTopicRecord db t

/-- Keeps records for less time; zero keeps them forever. -/
def retentionShrinks (current next : ℤ) : Bool :=
  if next = 0 then false else if current = 0 then true else next < current

/-- Whether a child is remote, if every child's delay fits the retention. -/
def checkChildren (next : Topic) : Except Err Bool :=
  next.children.foldlM (fun hasRemote childName =>
    match db.topic childName with
    | none => .ok hasRemote
    | some child => do
      checkDelayAgainstRetention child.fanoutDelayMs next.retentionMs next.name
      pure (hasRemote || child.isRemoteChild)) false

/-- A parent's retention covers its children's delays. -/
def checkParentUpdate (current next : Topic) : Except Err Unit := do
  let hasRemote ← checkChildren db next
  if hasRemote && retentionShrinks current.retentionMs next.retentionMs then
    checkRemoteSourceRetention next.retentionMs next.name
  else pure ()

/-- What a config update checks, given the stored record and the one it would store. -/
def checkConfigUpdate (current next : Topic) : Except Err Unit := do
  refuse (current.isRemoteChild ∧ next ≠ current) (.stubImmutable next.name current.parent)
  if next.isParent then checkParentUpdate db current next else pure ()

/-- The incarnation and the link fields stay those of the stored record. -/
def Topic.withLinkOf (t current : Topic) : Topic :=
  { t with
    id := current.id, role := current.role, children := current.children, parent := current.parent,
    attachEpoch := current.attachEpoch, fanoutDelayMs := current.fanoutDelayMs,
    attachOffsets := current.attachOffsets, remote := current.remote }

/-- A config update. -/
def applyUpdateTopic : Tx S := do
  let current ← getTopicRecord db t.name
  let next := t.withLinkOf current
  checkConfigUpdate db current next
  putTopicRecord db next

/-- The topic is the one that was meant. -/
def expectIncarnation (current : Topic) (expected : String) : Except Err Unit :=
  refuse (current.id ≠ expected) (.topicChanged current.name expected current.id)

/-- A conditional update also keeps the owner, the creation time and the visibility timeout. -/
def Topic.withStoredOf (t current : Topic) : Topic :=
  { t.withLinkOf current with
    owner := current.owner, createdAt := current.createdAt, visibilityTimeoutMs := current.visibilityTimeoutMs }

/-- A conditional update, which never takes partitions away. -/
def applyUpdateTopicIf (expectId : String) : Tx S := do
  let current ← getTopicRecord db t.name
  expectIncarnation current expectId
  refuse (t.partitions < current.partitions) (.wouldShrink t.name current.partitions t.partitions)
  let next := t.withStoredOf current
  checkConfigUpdate db current next
  putTopicRecord db next

/-- A conditional delete. -/
def applyDeleteTopicIf (name expectId : String) : Tx S := do
  let current ← getTopicRecord db name
  expectIncarnation current expectId
  deleteTopicTx db name

/-- Parent and child are those that were meant. -/
def expectIncarnations (parent parentId child childId : String) : Except Err Unit := do
  let p ← getTopicRecord db parent
  expectIncarnation p parentId
  let c ← getTopicRecord db child
  expectIncarnation c childId

/-- A conditional attach. -/
def applyAttachChildIf (db : Tables S) (link : ChildLink) (parentId childId : String) : Tx S := do
  expectIncarnations db link.parent parentId link.child childId
  attachChildTx env db link ⟨true, true⟩

/-- A detach. -/
def applyDetachChild (parentName childName : String) : Tx S := do
  let parent ← getTopicRecord db parentName
  let child ← getTopicRecord db childName
  detachChildTx db parentName childName parent child

/-- A conditional detach. -/
def applyDetachChildIf (parent child parentId childId : String) : Tx S := do
  expectIncarnations db parent parentId child childId
  applyDetachChild db parent child

/-- The link a create may bring. -/
structure CreateLink where
  parent : String
  parentId : String
  epoch : String := ""
  delayMs : ℤ := 0
  offsets : List ℤ := []

/-- An existing topic whose name differs from this one in letter case only. -/
def foldedTopicName (db : Tables S) (name : String) : Option String :=
  db.topics.keys.find? fun k => k.utf8ByteSize = name.utf8ByteSize ∧ k ≠ name ∧ env.equalFold k name

/-- The first schema version of a new topic. -/
def putFirstSchema (db : Tables S) (name : String) (schema : Bytes) : Tx S :=
  if schema = [] then .ok db
  else do
    checkBudgets env db (Std.TreeMap.ofList [(name, schema.length)])
    putSchema db name 1 schema

/-- Attaches a new topic to its parent. -/
def linkNew (db : Tables S) (name : String) : Option CreateLink → Tx S
  | none => .ok db
  | some link => do
    let parent ← getTopicRecord db link.parent
    refuse (parent.id ≠ link.parentId) (.topicChanged link.parent link.parentId parent.id)
    attachChildTx env db ⟨link.parent, name, link.epoch, link.delayMs, link.offsets⟩ ⟨true, true⟩

/-- A create with its first schema and its link. -/
def applyCreateTopicWith (db : Tables S) (t : Topic) (schema : Bytes) (link : Option CreateLink) : Tx S := do
  refuse (t.name = "") .nameRequired
  refuse (db.topic t.name).isSome (.alreadyExists t.name)
  refuse (foldedTopicName env db t.name).isSome (.nameDiffersInCase t.name ((foldedTopicName env db t.name).getD ""))
  let db ← putTopicRecord db t
  -- rows and versions under a name with no topic belong to no topic
  let db := { db with
    assignments := (deletePrefix db.assignments (keyRange t.name)).1
    schemas := (deletePrefix db.schemas (keyRange t.name)).1 }
  let db ← putFirstSchema env db t.name schema
  linkNew env db t.name link

/-- The children that are not stubs; a missing one is kept. -/
def localChildren (children : List String) : List String :=
  children.filter fun name =>
    match db.topic name with
    | none => true
    | some child => decide ¬child.isRemoteChild

/-- The version is stored on the topic and on every local child. -/
def putSchemas (names : List String) (version : ℤ) (schema : Bytes) : Tx S :=
  names.foldlM (fun db name => putSchema db name version schema) db

/-- The version is the next one of every topic. -/
def checkVersions (names : List String) (version : ℤ) : Except Err Unit :=
  names.forM fun name => checkNextSchemaVersion db name version

/-- A schema put, on the topic and its local children. -/
def applyPutSchema (version : ℤ) (schema : Bytes) : Tx S := do
  let t ← getTopicRecord db name
  refuse t.isChild (.schemaManaged name t.parent)
  let names := name :: localChildren db t.children
  checkVersions db names version
  putSchemas db names version schema

/-- The same for one incarnation, within the budgets. -/
def applyPutSchemaIf (db : Tables S) (name : String) (version : ℤ) (schema : Bytes) (expectId : String) : Tx S := do
  let t ← getTopicRecord db name
  expectIncarnation t expectId
  refuse t.isChild (.schemaManaged name t.parent)
  let names := name :: localChildren db t.children
  checkVersions db names version
  checkBudgets env db (names.foldl (fun added n =>
    added.insert n (added.getD n 0 + schema.length)) ∅)
  putSchemas db names version schema

/-- The entry that attaches a stub. -/
structure AttachRemoteChild where
  parent : String
  parentId : String := ""
  stub : String
  stubId : String
  epoch : String
  delayMs : ℤ := 0
  offsets : List ℤ := []
  remote : RemoteLink
  createdAt : ℤ

variable (op : AttachRemoteChild)

/-- What the entry itself must have. -/
def checkAttachRemoteChildOp : Except Err Unit := do
  refuse (op.parent = "" ∨ op.stub = "" ∨ op.remote.name = "" ∨ op.remote.topic = "") .requiredFields
  refuse (op.parent = op.stub) .ownChild
  refuse (op.epoch = "") .epochRequired
  refuse (op.delayMs < 0) .negativeDelay
  refuse (maxFanoutDelayMs < op.delayMs) (.delayTooLong op.delayMs)
  refuse (op.remote.lanes < 0 ∨ maxRemoteLanes < op.remote.lanes) .lanesOutOfRange
  refuse (validRemoteFrom op.remote.from = false) .unknownFrom

/-- A key of the remotes bucket that is not a remote. -/
def reservedRemoteKey (k : String) : Bool :=
  k.toList.head? = some '_'

/-- The remote is in the registry. -/
def remoteExists : Bool :=
  name ≠ "" && !reservedRemoteKey name && (db.remotes.lookup name).isSome

/-- A remote child's stub stands under the name. -/
def stubIn (topic : String → Option Topic) (name : String) : Bool :=
  (topic name).any fun child => child.isRemoteChild

/-- How many stubs a parent has. -/
def countRemoteChildren (parent : Topic) : ℕ :=
  parent.children.countP (stubIn db.topic)

/-- The stub links this remote topic. -/
def Topic.links (remoteName remoteTopic : String) : Prop :=
  t.isChild ∧ ∃ link ∈ t.remote, link.name = remoteName ∧ link.topic = remoteTopic

instance (t : Topic) (remoteName remoteTopic : String) : Decidable (t.links remoteName remoteTopic) :=
  inferInstanceAs (Decidable (_ ∧ _))

/-- The stub that links a remote topic. -/
def stubLinkingTarget (remoteName remoteTopic : String) : Option Topic :=
  db.topics.records.find? fun t => t.links remoteName remoteTopic

/-- The link as the stub stores it. -/
def AttachRemoteChild.link : RemoteLink :=
  { op.remote with
    lanes := op.remote.effectiveLanes
    «from» := if op.remote.from = "" then "attach" else op.remote.from
    paused := false, pauseReason := "", pausedBy := "", pausedAtMs := 0, skip := [] }

/-- The stub as a topic record. -/
def AttachRemoteChild.stubTopic : Topic where
  name := op.stub
  id := op.stubId
  partitions := 0
  createdAt := op.createdAt
  role := .child
  parent := op.parent
  attachEpoch := op.epoch
  fanoutDelayMs := op.delayMs
  attachOffsets := op.offsets
  remote := some op.link

/-- A stub is created and linked in one entry. -/
def applyAttachRemoteChild : Tx S := do
  checkAttachRemoteChildOp op
  let parent ← getTopicRecord db op.parent
  expectIncarnation parent op.parentId
  refuse parent.isChild (.childCannotBeParent op.parent parent.parent)
  refuse (remoteExists db op.remote.name = false) (.noSuchRemote op.remote.name)
  refuse (db.topic op.stub).isSome (.alreadyExists op.stub)
  refuse (maxChildrenPerParent ≤ parent.children.length) (.childLimit op.parent parent.children.length)
  refuse (maxRemoteChildrenPerParent ≤ countRemoteChildren db parent)
    (.remoteChildLimit op.parent (countRemoteChildren db parent))
  checkRemoteSourceRetention parent.retentionMs op.parent
  checkDelayAgainstRetention op.delayMs parent.retentionMs op.parent
  refuse (stubLinkingTarget db op.remote.name op.remote.topic).isSome (.targetLinked op.remote.name op.remote.topic
      ((stubLinkingTarget db op.remote.name op.remote.topic).elim "" Topic.name))
  let db ← putTopicRecord db (parent.linked op.stub)
  putTopicRecord db op.stubTopic

/-- A pause or a resume. -/
structure RemotePause where
  paused : Bool
  reason : String := ""
  by' : String := ""
  atMs : ℤ := 0

/-- A change of a stub's state. -/
structure RemoteChildState where
  parent : String
  stub : String
  epoch : String
  pause : Option RemotePause := none
  targetId : Option String := none
  lanes : Option ℤ := none
  skip : Option (ℤ × ℤ) := none

variable (link : RemoteLink)

/-- Pauses or resumes the link. -/
def setPause : Option RemotePause → Except Err RemoteLink
  | none => .ok link
  | some p =>
    if p.paused then do
      refuse (maxRemotePauseReasonBytes < p.reason.utf8ByteSize ∨ ¬p.reason.toList.all env.isPrint) .pauseReason
      pure { link with paused := true, pauseReason := p.reason, pausedBy := p.by', pausedAtMs := p.atMs }
    else .ok { link with paused := false, pauseReason := "", pausedBy := "", pausedAtMs := 0 }

/-- Sets the number of lanes. -/
def setLanes : Option ℤ → Except Err RemoteLink
  | none => .ok link
  | some lanes => do
    refuse (lanes < minRemoteLanes ∨ maxRemoteLanes < lanes) .lanesOutOfRange
    pure { link with lanes := lanes }

/-- Notes an offset to skip. -/
def setSkip : Option (ℤ × ℤ) → Except Err RemoteLink
  | none => .ok link
  | some (partition, offset) => do
    refuse (partition < 0 ∨ offset < 0) .skipNegative
    pure { link with skip := withSkip link.skip partition offset }

/-- All that the entry names. -/
def setRemoteLink (op : RemoteChildState) (link : RemoteLink) : Except Err RemoteLink := do
  let link ← setPause env link op.pause
  let link := { link with targetId := op.targetId.getD link.targetId }
  let link ← setLanes link op.lanes
  setSkip link op.skip

/-- The change reaches only the attach it was made for. -/
def applySetRemoteChildState (db : Tables S) (op : RemoteChildState) : Tx S := do
  let stub ← getTopicRecord db op.stub
  match stub.remote with
  | none => throw (.notRemoteChild op.stub op.parent)
  | some link =>
    refuse (¬stub.isChild ∨ stub.parent ≠ op.parent) (.notRemoteChild op.stub op.parent)
    refuse (stub.attachEpoch ≠ op.epoch) (.remoteChildStale op.stub)
    let link ← setRemoteLink env op link
    putTopicRecord db { stub with remote := some link }

end Narad.Metastore
