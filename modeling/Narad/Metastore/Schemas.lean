import Narad.Metastore.Records

/-!
# Schema histories

A topic's schema versions stand in one bucket under the topic's name, a colon and the version. A put
must carry the version after the latest one. A child attached to a parent must have the parent's
history or none, and then it adopts the parent's.

No function here writes another table than the schemas.
-/

namespace Narad.Metastore

open Lib OrderedStore

variable {S : OrderedStore}

def schemaKey (topicName : String) (version : ℤ) : String :=
  topicName ++ ":" ++ toString version

/-- What every key of a topic's schemas and assignments starts with. -/
def keyRange (topicName : String) : String :=
  topicName ++ ":"

/-- The version in a key of the topic's range. -/
def versionOf (topicName key : String) : Except Err ℤ :=
  match atoi (key.toList.drop (keyRange topicName).length) with
  | none => .error (.malformedSchemaKey key)
  | some version => .ok version

variable (db : Tables S)

def latestSchemaVersion (topicName : String) : Except Err ℤ :=
  (db.schemas.scan (keyRange topicName)).foldlM
    (fun latest e => (versionOf topicName e.1).map fun version => max latest version) 0

def maxSchemaVersions : ℤ := 1000

def checkNextSchemaVersion (topicName : String) (version : ℤ) : Except Err Unit := do
  let latest ← latestSchemaVersion db topicName
  refuse (version ≤ latest) (.schemaVersionExists topicName version latest)
  refuse (version ≠ latest + 1) (.schemaVersionSkips topicName version latest)
  refuse (maxSchemaVersions < version) (.schemaHistoryFull topicName)

abbrev History := Std.TreeMap ℤ Bytes

def loadSchemaHistory (topicName : String) : Except Err History :=
  (db.schemas.scan (keyRange topicName)).foldlM
    (fun out e => (versionOf topicName e.1).map fun version => out.insert version e.2) ∅

def historiesEqual (same : Bytes → Bytes → Bool) (a b : History) : Bool :=
  a.size == b.size && a.toList.all fun e =>
    match b[e.1]? with
    | none => false
    | some other => same e.2 other

def topicSchemaBytes (topicName : String) : ℕ :=
  ((db.schemas.scan (keyRange topicName)).map fun e => e.2.length).sum

def clusterSchemaBytes : ℕ :=
  (db.schemas.records.map List.length).sum

variable (env : Env)

/-- The bytes an entry adds to topics must fit the budget of each, and together the cluster's. -/
def checkBudgets (db : Tables S) (added : Dict ℕ) : Except Err Unit := do
  let sum ← added.toList.foldlM (fun sum e => do
    if e.2 = 0 then pure sum
    else
      refuse (env.schemaTopicBudget < topicSchemaBytes db e.1 + e.2)
        (.topicSchemaBudget e.1 (topicSchemaBytes db e.1 + e.2))
      pure (sum + e.2)) 0
  if sum = 0 then pure ()
  else
    refuse (env.schemaClusterBudget < clusterSchemaBytes db + sum)
      (.clusterSchemaBudget (clusterSchemaBytes db + sum))

def putSchema (topicName : String) (version : ℤ) (schema : Bytes) : Tx S :=
  match db.schemas.put (schemaKey topicName version) schema with
  | .error e => .error (.key e)
  | .ok schemas => .ok { db with schemas := schemas }

/-- What an attach checks beyond the fan-out rules: the entry types of the first releases compare
histories byte for byte and know no budgets. -/
structure AttachRules where
  byValue : Bool := false
  budgets : Bool := false

def AttachRules.check (db : Tables S) (added : Dict ℕ) (rules : AttachRules) : Except Err Unit :=
  if rules.budgets then checkBudgets env db added else .ok ()

/-- The child takes over the parent's history. -/
def adoptSchemas (db : Tables S) (childName : String) (parentSchemas : History) (rules : AttachRules) : Tx S := do
  let adopt := (parentSchemas.toList.map fun e => e.2.length).sum
  rules.check env db (Std.TreeMap.ofList [(childName, adopt)])
  parentSchemas.toList.foldlM (fun db e => putSchema db childName e.1 e.2) db

/-- The tables after the adoption, and whether there was one. -/
def reconcileSchemasForAttach (db : Tables S) (parentName childName : String)
    (rules : AttachRules) : Except Err (Tables S × Bool) := do
  let parentSchemas ← loadSchemaHistory db parentName
  let childSchemas ← loadSchemaHistory db childName
  if childSchemas.isEmpty then
    if parentSchemas.isEmpty then pure (db, false)
    else
      let db ← adoptSchemas env db childName parentSchemas rules
      pure (db, true)
  else if parentSchemas.isEmpty then throw (.childHasSchema childName parentName)
  else
    let same := if rules.byValue then jsonValueEqual env.decodeJSON else (· == ·)
    refuse (historiesEqual same parentSchemas childSchemas = false) (.schemaMismatch childName parentName)
    pure (db, false)

/-- Nothing but the schemas changed. -/
def OnlySchemas (db db' : Tables S) : Prop :=
  ∃ schemas, db' = { db with schemas := schemas }

theorem OnlySchemas.refl : OnlySchemas db db :=
  ⟨db.schemas, rfl⟩

theorem OnlySchemas.trans {a b c : Tables S} (hab : OnlySchemas a b) (hbc : OnlySchemas b c) : OnlySchemas a c := by
  obtain ⟨_, rfl⟩ := hab
  obtain ⟨schemas, rfl⟩ := hbc
  exact ⟨schemas, rfl⟩

variable {db db' : Tables S}

theorem putSchema_onlySchemas {topicName : String} {version : ℤ} {schema : Bytes}
    (h : putSchema db topicName version schema = .ok db') : OnlySchemas db db' := by
  unfold putSchema at h
  split at h <;> cases h
  exact ⟨_, rfl⟩

/-- A loop of steps that only write schemas only writes schemas. -/
theorem foldlM_onlySchemas {α : Type} {f : Tables S → α → Tx S}
    (hf : ∀ db a db', f db a = .ok db' → OnlySchemas db db') {as : List α}
    (h : as.foldlM f db = .ok db') : OnlySchemas db db' := by
  induction as generalizing db with
  | nil =>
    cases h
    exact .refl _
  | cons a as ih =>
    rw [List.foldlM_cons, bind_eq_ok] at h
    obtain ⟨mid, hstep, hrest⟩ := h
    exact (hf _ _ _ hstep).trans (ih hrest)

variable {rules : AttachRules}

theorem reconcileSchemasForAttach_onlySchemas {env : Env} {parentName childName : String} {adopted : Bool}
    (h : reconcileSchemasForAttach env db parentName childName rules = .ok (db', adopted)) : OnlySchemas db db' := by
  unfold reconcileSchemasForAttach at h
  simp only [bind_eq_ok] at h
  obtain ⟨parentSchemas, -, childSchemas, -, h⟩ := h
  split at h
  · split at h
    · cases h
      exact .refl db
    obtain ⟨mid, hadopt, h⟩ := bind_eq_ok.mp h
    cases h
    rw [adoptSchemas, bind_eq_ok] at hadopt
    obtain ⟨_, -, hloop⟩ := hadopt
    exact foldlM_onlySchemas (fun _ _ _ => putSchema_onlySchemas) hloop
  · split at h
    · cases h
    obtain ⟨_, -, h⟩ := bind_eq_ok.mp h
    cases h
    exact .refl db

end Narad.Metastore
