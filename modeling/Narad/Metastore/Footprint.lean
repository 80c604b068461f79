import Narad.Metastore.Apply

/-!
# What an entry writes

Every entry writes some of the tables and leaves the others as they were. `Entry.writes` is the footprint
of an entry's handler, and `Entry.transaction_frame` says that a handler that goes through stays within it.
-/

namespace Narad.Metastore

open Lib OrderedStore

variable {S : OrderedStore}

/-- The tables that more than one kind of entry could write. -/
inductive Table where
  | topics
  | schemas
  | assignments
  | users
  | remotes
  | remoteKeys
  deriving DecidableEq

/-- The table is the same. -/
def Table.Same (a b : Tables S) : Table → Prop
  | .topics => b.topics = a.topics
  | .schemas => b.schemas = a.schemas
  | .assignments => b.assignments = a.assignments
  | .users => b.users = a.users
  | .remotes => b.remotes = a.remotes
  | .remoteKeys => b.remoteKeys = a.remoteKeys

/-- Every table outside the footprint is the same. -/
def Frame (writes : Table → Bool) (a b : Tables S) : Prop :=
  ∀ t, writes t = false → t.Same a b

/-- A transaction that stays within the footprint. -/
def Within (writes : Table → Bool) (db : Tables S) (x : Tx S) : Prop :=
  ∀ db', x = .ok db' → Frame writes db db'

section

variable {writes : Table → Bool} {a b c : Tables S}

theorem Frame.refl (a : Tables S) : Frame writes a a := by
  rintro ⟨⟩ - <;> rfl

theorem Frame.trans (h : Frame writes a b) (h' : Frame writes b c) : Frame writes a c := by
  rintro ⟨⟩ ht <;> exact (h' _ ht).trans (h _ ht)

theorem Frame.topic (h : Frame writes a b) (ht : writes .topics = false) : b.topic = a.topic :=
  congrArg Bucket.lookup (h .topics ht)

end

namespace Within

variable {writes : Table → Bool} {db : Tables S} {x y : Tx S} {α : Type}

theorem ok {db' : Tables S} (h : Frame writes db db') : Within writes db (.ok db') := by
  rintro _ ⟨⟩
  exact h

/-- A step that only reads or checks. -/
theorem bind {x : Except Err α} {f : α → Tx S} (h : ∀ a, Within writes db (f a)) : Within writes db (x >>= f) := by
  intro db' hok
  obtain ⟨a, -, hok⟩ := bind_eq_ok.mp hok
  exact h a db' hok

/-- A step that writes, and what follows it. -/
theorem andThen {f : Tables S → Tx S} (hx : Within writes db x)
    (hf : ∀ mid, Within writes mid (f mid)) : Within writes db (x >>= f) := by
  intro db' hok
  obtain ⟨mid, hmid, hok⟩ := bind_eq_ok.mp hok
  exact (hx mid hmid).trans (hf mid db' hok)

theorem ite {c : Prop} [Decidable c] (hx : Within writes db x) (hy : Within writes db y) :
    Within writes db (if c then x else y) := by
  split <;> assumption

theorem foldlM {f : Tables S → α → Tx S} (hf : ∀ db a, Within writes db (f db a))
    (as : List α) : Within writes db (as.foldlM f db) := by
  induction as generalizing db with
  | nil => exact .ok (.refl db)
  | cons a as ih =>
    rw [List.foldlM_cons]
    exact (hf db a).andThen fun _ => ih

end Within

/-- What the handlers of topics may write. -/
def topicTables : Table → Bool
  | .topics | .schemas | .assignments => true
  | _ => false

section

variable {env : Env} {db : Tables S} {writes : Table → Bool}

theorem OnlySchemas.frame {db' : Tables S} (hw : writes .schemas = true) (h : OnlySchemas db db') :
    Frame writes db db' := by
  obtain ⟨schemas, rfl⟩ := h
  rintro ⟨⟩ ht <;> first | rfl | cases hw.symm.trans ht

theorem putTopic_writes (hw : writes .topics = true) (t : Topic) : Within writes db (putTopicRecord db t) := by
  intro db' hok
  obtain ⟨-, rfl⟩ := putTopicRecord_eq_ok hok
  rintro ⟨⟩ ht <;> first | rfl | cases hw.symm.trans ht

theorem deleteTopicRecords_frame (db : Tables S) (name : String) :
    Frame topicTables db (deleteTopicRecords db name) := by
  rintro ⟨⟩ ht <;> first | rfl | cases ht

theorem putSchemas_writes (names : List String) (version : ℤ) (schema : Bytes) :
    Within (· == .schemas) db (putSchemas db names version schema) :=
  .foldlM (fun _ _ _ hok => (putSchema_onlySchemas hok).frame rfl) names

theorem attachChildTx_writes (p : ChildLink) (rules : AttachRules) :
    Within topicTables db (attachChildTx env db p rules) := by
  intro db' hok
  simp only [attachChildTx, bind_eq_ok, refuse_eq_ok, exists_const] at hok
  obtain ⟨-, _, -, _, -, -, -, -, -, -, -, -, _, -, ⟨mid, adopted⟩, hschemas, next, hparent, hchild⟩ := hok
  have hadopted : Frame topicTables db mid := (reconcileSchemasForAttach_onlySchemas hschemas).frame rfl
  exact (hadopted.trans (putTopic_writes rfl _ _ hparent)).trans (putTopic_writes rfl _ _ hchild)

theorem applyDetachChild_writes (parentName childName : String) :
    Within topicTables db (applyDetachChild db parentName childName) := by
  refine .bind fun parent => .bind fun child => .bind fun _ => ?_
  refine (putTopic_writes rfl _).andThen fun mid => .ite ?_ (putTopic_writes rfl _)
  exact .ok (deleteTopicRecords_frame mid childName)

section

variable (name : String)

theorem dissolveChild_writes (db : Tables S) (childName : String) :
    Within topicTables db (dissolveChild name db childName) := by
  unfold dissolveChild
  split
  · exact .ok (.refl db)
  · exact .ite (.ok (deleteTopicRecords_frame db childName)) (putTopic_writes rfl _)

theorem dissolveParent_writes (t : Topic) : Within topicTables db (dissolveParent db name t) := by
  refine .ite ?_ (.ok (.refl db))
  split
  · exact .ok (.refl db)
  · exact putTopic_writes rfl _

theorem deleteTopicTx_writes : Within topicTables db (deleteTopicTx db name) := by
  refine .andThen (.bind fun t => .andThen ?_ fun mid => dissolveParent_writes name t) fun mid => ?_
  · exact .ite (.foldlM (dissolveChild_writes name) _) (.ok (.refl db))
  · exact .ok (deleteTopicRecords_frame mid name)

theorem linkNew_writes (link : Option CreateLink) : Within topicTables db (linkNew env db name link) := by
  cases link with
  | none => exact .ok (.refl db)
  | some link => exact .bind fun _ => .bind fun _ => attachChildTx_writes _ _

end

theorem applyCreateTopicWith_writes (t : Topic) (schema : Bytes) (link : Option CreateLink) :
    Within topicTables db (applyCreateTopicWith env db t schema link) := by
  refine .bind fun _ => .bind fun _ => .bind fun _ => (putTopic_writes rfl t).andThen fun mid => ?_
  refine .andThen (fun db' hok => ?_) fun _ => linkNew_writes _ _
  have hcleared : Frame topicTables mid { mid with
      assignments := (deletePrefix mid.assignments (keyRange t.name)).1
      schemas := (deletePrefix mid.schemas (keyRange t.name)).1 } := by
    rintro ⟨⟩ ht <;> first | rfl | cases ht
  refine hcleared.trans (Within.ite (.ok (.refl _)) (.bind fun _ => ?_) db' hok)
  exact fun _ hput => (putSchema_onlySchemas hput).frame rfl

theorem applyAttachRemoteChild_writes (op : AttachRemoteChild) :
    Within topicTables db (applyAttachRemoteChild db op) := by
  refine .bind fun _ => .bind fun parent => .bind fun _ => .bind fun _ => .bind fun _ => .bind fun _ =>
    .bind fun _ => .bind fun _ => .bind fun _ => .bind fun _ => .bind fun _ => ?_
  exact (putTopic_writes rfl _).andThen fun _ => putTopic_writes rfl _

theorem releaseOwnedTopics_writes (hw : writes .topics = true) (username : String) :
    Within writes db (releaseOwnedTopics db username) :=
  .foldlM (fun _ _ => putTopic_writes hw _) _

theorem putAssignment_writes (a : Assignment) : Within (· == .assignments) db (putAssignment db a) :=
  .bind fun _ => .ok (by rintro ⟨⟩ ht <;> first | rfl | cases ht)

theorem putMember_writes (key : String) (m : Member) : Within (fun _ => false) db (putMember db key m) :=
  .bind fun _ => .ok (by rintro ⟨⟩ - <;> rfl)

theorem putUser_writes (key : String) (u : User) : Within (· == .users) db (putUser db key u) :=
  .bind fun _ => .ok (by rintro ⟨⟩ ht <;> first | rfl | cases ht)

theorem deleteUserRecord_writes (hw : writes .users = true) (username : String) :
    Within writes db (deleteUserRecord db username) :=
  .bind fun _ => .bind fun _ => .ok (by rintro ⟨⟩ ht <;> first | rfl | cases hw.symm.trans ht)

end

/-- What the handler of an entry may write. -/
def Entry.writes : Entry → Table → Bool
  | .putSchema .. | .putSchemaIf .. => (· == .schemas)
  | .assignPartition _ | .assignPartitionIfAbsent .. | .pruneAssignment .. | .setAssignmentTarget ..
  | .abortMove .. | .completeMove .. => (· == .assignments)
  | .createUser _ | .seedRootUser _ | .updateUser _ | .setUserPassword .. | .setUserGrants ..
  | .deleteUser _ => (· == .users)
  | .deleteUserReleaseTopics _ => fun t => t == .users || t == .topics
  | .putRemote _ | .updateRemote _ | .deleteRemote .. => fun t => t == .remotes || t == .remoteKeys
  | .memberJoin _ | .memberHeartbeat .. | .memberDead _ | .setMemberDraining .. | .markMemberDeadIf ..
  | .removeMember .. | .readmitMember _ | .malformed | .unknown _ => fun _ => false
  | _ => topicTables

/-- A handler that goes through stays within the entry's footprint. -/
theorem Entry.transaction_frame {env : Env} {db db' : Tables S} {e : Entry} {refused : Option Err}
    (h : e.transaction env db = some (.ok (db', refused))) : Frame e.writes db db' := by
  have hdone {x : Tx S} (heq : x.done = some (.ok (db', refused))) (hx : Within e.writes db x) :
      Frame e.writes db db' := hx _ (of_map_eq_ok heq)
  cases e with
  | createTopic t => exact hdone h (.bind fun _ => putTopic_writes rfl t)
  | updateTopic t => exact hdone h (.bind fun _ => .bind fun _ => putTopic_writes rfl _)
  | deleteTopic name => exact hdone h (deleteTopicTx_writes name)
  | attachChild link => exact hdone h (attachChildTx_writes link _)
  | detachChild parent child => exact hdone h (applyDetachChild_writes parent child)
  | createTopicWith t schema link => exact hdone h (applyCreateTopicWith_writes t schema link)
  | updateTopicIf t expectId =>
    exact hdone h (.bind fun _ => .bind fun _ => .bind fun _ => .bind fun _ => putTopic_writes rfl _)
  | deleteTopicIf name expectId => exact hdone h (.bind fun _ => .bind fun _ => deleteTopicTx_writes name)
  | attachChildIf link parentId childId => exact hdone h (.bind fun _ => attachChildTx_writes link _)
  | detachChildIf parent child parentId childId =>
    exact hdone h (.bind fun _ => applyDetachChild_writes parent child)
  | attachRemoteChild op => exact hdone h (applyAttachRemoteChild_writes op)
  | setRemoteChildState op =>
    refine hdone h (x := applySetRemoteChildState env db op) (.bind fun stub => ?_)
    cases stub.remote with
    | none => nofun
    | some link => exact .bind fun _ => .bind fun _ => .bind fun _ => putTopic_writes rfl _
  | putSchema name version schema =>
    exact hdone h (.bind fun _ => .bind fun _ => .bind fun _ => putSchemas_writes _ _ _)
  | putSchemaIf name version schema expectId =>
    exact hdone h (.bind fun _ => .bind fun _ => .bind fun _ => .bind fun _ => .bind fun _ =>
      putSchemas_writes _ _ _)
  | assignPartition a => exact hdone h (putAssignment_writes a)
  | assignPartitionIfAbsent topic p owner expectId =>
    exact hdone h (.bind fun _ => .bind fun _ => .bind fun _ => .bind fun _ => .bind fun _ => .bind fun _ =>
      putAssignment_writes _)
  | setAssignmentTarget | abortMove =>
    exact hdone h (.bind fun _ => .ite (.ok (.refl db)) (putAssignment_writes _))
  | completeMove topic p owner target =>
    exact hdone h (.bind fun _ => .ite (.ok (.refl db)) (.bind fun _ => .bind fun _ => putAssignment_writes _))
  | pruneAssignment topic p =>
    have herased : Frame (· == .assignments) db
        { db with assignments := db.assignments.erase (assignmentKey topic p) } := by
      rintro ⟨⟩ ht <;> first | rfl | cases ht
    refine hdone h (x := applyPruneAssignment db topic p) (.bind fun _ => ?_)
    split
    · exact .ok herased
    · exact .bind fun _ => .ok herased
  | memberJoin m =>
    refine hdone h (x := applyMemberJoin db m) (.bind fun _ => ?_)
    split <;> exact putMember_writes _ _
  | memberHeartbeat | memberDead | setMemberDraining => exact hdone h (.bind fun _ => putMember_writes _ _)
  | markMemberDeadIf id observed => exact hdone h (.bind fun _ => .bind fun _ => putMember_writes _ _)
  | removeMember id at' => exact hdone h (.bind fun _ => .ok (by rintro ⟨⟩ - <;> rfl))
  | readmitMember id => exact hdone h (.ok (by rintro ⟨⟩ - <;> rfl))
  | createUser | seedRootUser | updateUser => exact hdone h (.bind fun _ => putUser_writes _ _)
  | setUserPassword | setUserGrants => exact hdone h (.bind fun _ => .bind fun _ => putUser_writes _ _)
  | deleteUser username => exact hdone h (deleteUserRecord_writes rfl username)
  | deleteUserReleaseTopics username =>
    exact hdone h ((deleteUserRecord_writes rfl username).andThen fun _ => releaseOwnedTopics_writes rfl username)
  | putRemote | updateRemote =>
    obtain ⟨_, -, h⟩ := bind_eq_ok.mp (Option.some.inj h)
    dsimp only at h
    split at h
    · cases h
      rintro ⟨⟩ ht <;> first | rfl | cases ht
    obtain ⟨mid, hput, h⟩ := bind_eq_ok.mp h
    obtain ⟨_, -, hput⟩ := bind_eq_ok.mp hput
    cases hput
    cases h
    rintro ⟨⟩ ht <;> first | rfl | cases ht
  | deleteRemote name force =>
    exact hdone h (.bind fun _ => .bind fun _ => .ok (by rintro ⟨⟩ ht <;> first | rfl | cases ht))
  | malformed => cases Option.some.inj h
  | unknown op => cases h

theorem run_append (env : Env) (before after : List LogEntry) :
    run env (before ++ after) = after.foldl (fun s l => (s.apply env l).1) (run env before) :=
  List.foldl_append

theorem run_concat (env : Env) (before : List LogEntry) (l : LogEntry) :
    run env (before ++ [l]) = ((run env before).apply env l).1 := by
  rw [run_append]
  rfl

end Narad.Metastore
