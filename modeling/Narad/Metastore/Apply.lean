import Narad.Metastore.Cluster

/-!
# Applying log entries

The state machine applies the committed entries in the order of their indexes. A refused entry is
consumed and changes nothing. An entry at or below the applied index is a replay and is skipped. An
entry of an unknown type, and one the local database cannot store, stop the machine for good.

The versions by which readers notice changes are not part of this model.
-/

namespace Narad.Metastore

open Lib OrderedStore

/-- A log entry with its decoded payload. -/
inductive Entry where
  | createTopic (t : Topic)
  | updateTopic (t : Topic)
  | deleteTopic (name : String)
  | putSchema (name : String) (version : ℤ) (schema : Bytes)
  | assignPartition (a : Assignment)
  | memberJoin (m : Member)
  | memberHeartbeat (id : String) (at' : ℤ)
  | memberDead (id : String)
  | createUser (u : User)
  | updateUser (u : User)
  | deleteUser (username : String)
  | seedRootUser (u : User)
  | attachChild (link : ChildLink)
  | detachChild (parent child : String)
  | setAssignmentTarget (topic : String) (partition : ℤ) (targetId : String)
  | completeMove (topic : String) (partition : ℤ) (expectedOwner targetId : String)
  | abortMove (topic : String) (partition : ℤ) (expectedTarget : String)
  | setMemberDraining (id : String) (draining : Bool)
  | removeMember (id : String) (at' : ℤ)
  | readmitMember (id : String)
  | setUserPassword (username : String) (passwordHash : Bytes) (updatedAtMs : ℤ)
  | setUserGrants (username : String) (grants : List Grant) (updatedAtMs : ℤ)
  | createTopicWith (t : Topic) (schema : Bytes) (link : Option CreateLink)
  | updateTopicIf (t : Topic) (expectId : String)
  | deleteTopicIf (name expectId : String)
  | putSchemaIf (name : String) (version : ℤ) (schema : Bytes) (expectId : String)
  | attachChildIf (link : ChildLink) (parentId childId : String)
  | detachChildIf (parent child parentId childId : String)
  | assignPartitionIfAbsent (topic : String) (partition : ℤ) (ownerId expectId : String)
  | pruneAssignment (topic : String) (partition : ℤ)
  | markMemberDeadIf (id : String) (observed : ℤ)
  | deleteUserReleaseTopics (username : String)
  | attachRemoteChild (op : AttachRemoteChild)
  | setRemoteChildState (op : RemoteChildState)
  | putRemote (op : PutRemote)
  | updateRemote (op : UpdateRemote)
  | deleteRemote (name : String) (force : Bool)
  /-- The envelope or the payload does not decode. -/
  | malformed
  /-- A type this release does not know. -/
  | unknown (op : ℕ)

variable {S : OrderedStore} (env : Env)

/-- A handler that refuses nothing once it has written. -/
def Tx.done (x : Tx S) : Option (Except Err (Tables S × Option Err)) :=
  some ((·, none) <$> x)

/-- The handler's transaction; `none` for a type without a handler. -/
def Entry.transaction (db : Tables S) : Entry → Option (Except Err (Tables S × Option Err))
  | .createTopic t => (applyCreateTopic db t).done
  | .updateTopic t => (applyUpdateTopic db t).done
  | .deleteTopic name => (deleteTopicTx db name).done
  | .putSchema name version schema => (applyPutSchema db name version schema).done
  | .assignPartition a => (applyAssignPartition db a).done
  | .memberJoin m => (applyMemberJoin db m).done
  | .memberHeartbeat id at' => (applyMemberHeartbeat db id at').done
  | .memberDead id => (applyMemberDead db id).done
  | .createUser u => (applyCreateUser db u).done
  | .updateUser u => (applyUpdateUser db u).done
  | .deleteUser username => (applyDeleteUser db username).done
  | .seedRootUser u => (applySeedRootUser db u).done
  | .attachChild link => (attachChildTx env db link {}).done
  | .detachChild parent child => (applyDetachChild db parent child).done
  | .setAssignmentTarget topic p target => (applySetAssignmentTarget db topic p target).done
  | .completeMove topic p owner target => (applyCompleteMove db topic p owner target).done
  | .abortMove topic p target => (applyAbortMove db topic p target).done
  | .setMemberDraining id draining => (applySetMemberDraining db id draining).done
  | .removeMember id at' => (applyRemoveMember db id at').done
  | .readmitMember id => (applyReadmitMember db id).done
  | .setUserPassword name hash updatedAtMs => (applySetUserPassword db name hash updatedAtMs).done
  | .setUserGrants name grants updatedAtMs => (applySetUserGrants db name grants updatedAtMs).done
  | .createTopicWith t schema link => (applyCreateTopicWith env db t schema link).done
  | .updateTopicIf t expectId => (applyUpdateTopicIf db t expectId).done
  | .deleteTopicIf name expectId => (applyDeleteTopicIf db name expectId).done
  | .putSchemaIf name version schema expectId => (applyPutSchemaIf env db name version schema expectId).done
  | .attachChildIf link parentId childId => (applyAttachChildIf env db link parentId childId).done
  | .detachChildIf parent child parentId childId => (applyDetachChildIf db parent child parentId childId).done
  | .assignPartitionIfAbsent topic p owner expectId =>
    (applyAssignPartitionIfAbsent db topic p owner expectId).done
  | .pruneAssignment topic p => (applyPruneAssignment db topic p).done
  | .markMemberDeadIf id observed => (applyMarkMemberDeadIf db id observed).done
  | .deleteUserReleaseTopics username => (applyDeleteUserReleaseTopics db username).done
  | .attachRemoteChild op => (applyAttachRemoteChild db op).done
  | .setRemoteChildState op => (applySetRemoteChildState env db op).done
  | .putRemote op => some (applyPutRemote db op)
  | .updateRemote op => some (applyUpdateRemote env db op)
  | .deleteRemote name force => (applyDeleteRemote db name force).done
  | .malformed => some (.error .malformed)
  | .unknown _ => none

/-- A committed entry, and whether the local database stores what it writes. -/
structure LogEntry where
  index : ℕ
  entry : Entry
  stored : Bool := true

structure FSM (S : OrderedStore) where
  db : Tables S := {}
  applied : ℕ := 0
  stopped : Bool := false

/-- What the caller of an apply is answered. -/
inductive Answer where
  | ok
  | refused (e : Err)
  | stopped

def FSM.consume (s : FSM S) (index : ℕ) (db : Tables S) : FSM S :=
  { s with db := db, applied := index }

def FSM.halt (s : FSM S) : FSM S × Answer :=
  ({ s with stopped := true }, .stopped)

def FSM.apply (s : FSM S) (l : LogEntry) : FSM S × Answer :=
  if s.stopped then (s, .stopped)
  else if l.index ≤ s.applied then (s, .ok)
  else
    match l.entry.transaction env s.db with
    | none => s.halt
    | some (.error e) => (s.consume l.index s.db, .refused e)
    | some (.ok (db, refused)) =>
      if l.stored then (s.consume l.index db, refused.elim .ok .refused) else s.halt

/-- The state after the entries, from the empty one. -/
def run (entries : List LogEntry) : FSM env.store :=
  entries.foldl (fun s l => (s.apply env l).1) {}

/-- At first there is no topic. -/
theorem run_nil_topic : (run env []).db.topic = fun _ => none :=
  funext Bucket.lookup_empty

/-- Decodes no JSON, so that it compares byte for byte, and takes a certificate bundle for its own digest. -/
def plainEnv : Env where
  store := .tree
  decodeJSON := fun _ => none
  equalFold := (· == ·)
  isPrint := fun _ => true
  trustAnchor := some

/-- A remote is configured, with the first seal of its key. -/
def Entry.putWest : Entry :=
  .putRemote
    { record := { name := "west", id := "w1", url := "https", username := "u",
                  credential := ⟨1, "0123456789abcdef", [1]⟩ }
      salt := [7], sealedAtMs := 5, actor := "root" }

theorem of_map_eq_ok {db' : Tables S} {refused : Option Err} {x : Tx S}
    (h : x.done = some (.ok (db', refused))) : x = .ok db' := by
  obtain ⟨d, hd, heq⟩ := map_eq_ok.mp (Option.some.inj h)
  cases heq
  exact hd

/-- What an entry that was applied has written. -/
theorem FSM.apply_db (s : FSM S) (l : LogEntry) : (s.apply env l).1.db = s.db ∨
      ∃ refused, l.entry.transaction env s.db = some (.ok ((s.apply env l).1.db, refused)) := by
  unfold FSM.apply
  split
  · exact .inl rfl
  split
  · exact .inl rfl
  split
  · exact .inl rfl
  · exact .inl rfl
  next db refused heq =>
    split
    · exact .inr ⟨refused, heq⟩
    · exact .inl rfl

end Narad.Metastore
