import Narad.Consumer.Shard

/-!
# Live shards following caps alters

A shard resolves its caps when it is created. `capsSeen` records, per topic, the version the
topic's shards were last resolved at, and `capsChecked` the metadata version the last complete
pass covered; a reserve runs a pass when the metadata version moved. `Sys` is the shared state of
all this together with the program counters of the calls in progress, and `step` performs one
atomic access of one call, so that any interleaving is a list of labels.

`records t v` is the caps in topic `t`'s record at version `v`: a change moves the version, and a
resolve reads the record of the version it finds. `resolvedAt` of a shard is the version whose
record its caps came from; no step reads it.

A `Range` over a concurrent map visits every entry present from its start to its end. An entry
added meanwhile may or may not be visited, so a refresh may also write to shards it did not find at
its start, and a pass may also visit topics registered after it began.
-/

namespace Narad.Consumer

open Function (update)

variable {τ : Type*} [DecidableEq τ]

/-- A shard in the table. `resolvedAt` is a ghost: the version its caps were resolved at. -/
structure LiveShard (τ : Type*) where
  topic : τ
  partition : ℕ
  id : ℕ
  caps : Caps
  resolvedAt : ℕ

/-- `RefreshCaps` after its resolve: the caps it writes, and the shards it still has to visit. -/
structure Refresh where
  caps : Caps
  resolvedAt : ℕ
  todo : List ℕ

/-- Where a call other than a running pass stands. `stored` is the shard a creator put in the
table, if it won. -/
inductive Phase (τ : Type*) where
  | created (topic : τ) (partition version : ℕ)
  | resolved (topic : τ) (partition version : ℕ) (caps : Caps) (resolvedAt : ℕ)
  | noteLoad (topic : τ) (version : ℕ) (stored : Option ℕ)
  | noteStore (topic : τ) (version : ℕ) (stored : Option ℕ)
  | noteCompare (topic : τ) (version : ℕ) (stored : Option ℕ) (cell : ℕ)
  | refresh (topic : τ)
  | writing (topic : τ) (refresh : Refresh)
  | latestRead (latest : ℕ)
  | follow (latest : ℕ)
  | passing
  | forget (topic : τ)

/-- The topic a pass is refreshing: its cell, the version read, and the refresh once resolved. -/
structure Work (τ : Type*) where
  topic : τ
  cell : ℕ
  cur : ℕ
  refresh : Option Refresh

/-- A running `followCaps`, which holds `capsMu`. -/
structure Pass (τ : Type*) where
  latest : ℕ
  todo : Finmap fun _ : τ => ℕ
  failed : Bool
  work : Option (Work τ)

/-- The version source, the in-flight tracker's caps state, and the calls in progress. A cell is
the `capsVersion` a topic's entry points to, numbered so that a forgotten one stays distinct. -/
structure Sys (τ : Type*) where
  version : τ → ℕ
  metadataVersion : ℕ
  unpublished : ℕ
  shards : List (LiveShard τ)
  nextShard : ℕ
  cells : τ → ℕ → ℕ
  nextCell : ℕ
  capsSeen : Finmap fun _ : τ => ℕ
  capsChecked : ℕ
  capsRetryAt : ℤ
  pass : Option (Pass τ)
  calls : Finmap fun _ : ℕ => Phase τ

/-- A tracker with no shard, over a version source in any state. -/
def Sys.start (version : τ → ℕ) (metadataVersion : ℕ) : Sys τ where
  version := version
  metadataVersion := metadataVersion
  unpublished := 0
  shards := []
  nextShard := 0
  cells := fun _ _ => 0
  nextCell := 0
  capsSeen := ∅
  capsChecked := 0
  capsRetryAt := 0
  pass := none
  calls := ∅

/-- How long a pass that failed holds the next one back, in nanoseconds. -/
def capsRetryAfter : ℤ := 1000000000

/-- One atomic access of one call. -/
inductive Label (τ : Type*) where
  | change (topic : τ)
  | publish
  | heartbeat
  | readVersion (call : ℕ) (topic : τ) (partition : ℕ)
  | resolveCaps (call : ℕ) (ok : Bool)
  | storeShard (call : ℕ)
  | loadSeen (call : ℕ)
  | loadOrStoreSeen (call : ℕ)
  | compareSeen (call : ℕ)
  | refreshResolve (call : ℕ) (ok : Bool)
  | refreshVisit (call : ℕ) (shard : ℕ)
  | refreshDone (call : ℕ)
  | readLatest (call : ℕ)
  | compareChecked (call : ℕ)
  | lockCaps (call : ℕ) (now : ℤ)
  | passTopic (topic : τ)
  | passResolve (ok : Bool)
  | passVisit (shard : ℕ)
  | passStore
  | passFinish (call : ℕ) (now : ℤ)
  | dropShards (call : ℕ) (topic : τ)
  | forgetCaps (call : ℕ)

namespace Sys

variable (s : Sys τ)

/-- The call moves on to its next access. -/
def goto (call : ℕ) (phase : Phase τ) : Sys τ :=
  { s with calls := s.calls.insert call phase }

/-- The call returns. -/
def done (call : ℕ) : Sys τ := { s with calls := s.calls.erase call }

/-- The shards of a topic a `Range` starting now finds. -/
def shardsOf (topic : τ) : List ℕ :=
  (s.shards.filter fun L => L.topic = topic).map LiveShard.id

/-- Write resolved caps to one shard of a topic, if it is still in the table. -/
def writeCaps (topic : τ) (shard : ℕ) (refresh : Refresh) : Sys τ :=
  { s with shards := s.shards.map fun L =>
      if L.id = shard ∧ L.topic = topic then
        { L with caps := refresh.caps, resolvedAt := refresh.resolvedAt }
      else L }

/-- `RefreshCaps` right after a successful resolve. -/
def startRefresh (records : τ → ℕ → Caps) (s : Sys τ) (topic : τ) : Refresh where
  caps := records topic (s.version topic)
  resolvedAt := s.version topic
  todo := s.shardsOf topic

end Sys

variable (s : Sys τ)

/-- The accesses of a version source. -/
def stepSource : Label τ → Option (Sys τ)
  | .change topic => some { s with
      version := update s.version topic (s.version topic + 1)
      unpublished := s.unpublished + 1 }
  | .publish =>
    if 0 < s.unpublished then
      some { s with unpublished := s.unpublished - 1, metadataVersion := s.metadataVersion + 1 }
    else none
  | .heartbeat => some { s with metadataVersion := s.metadataVersion + 1 }
  | _ => none

variable (records : τ → ℕ → Caps)

/-- The accesses of `shardOrCreate`, up to and including the store under the create fence. -/
def stepCreate (s : Sys τ) : Label τ → Option (Sys τ)
  | .readVersion call topic partition =>
    if call ∈ s.calls then none else some (s.goto call (.created topic partition (s.version topic)))
  | .resolveCaps call ok =>
    match s.calls.lookup call with
    | some (.created topic partition version) =>
      if ok then some (s.goto call (.resolved topic partition version
        (records topic (s.version topic)) (s.version topic)))
      else some (s.done call)
    | _ => none
  | .storeShard call =>
    match s.calls.lookup call with
    | some (.resolved topic partition version caps resolvedAt) =>
      if s.shards.any (fun L => L.topic = topic ∧ L.partition = partition) then
        some (s.goto call (.noteLoad topic version none))
      else
        let s := { s with
          shards := { topic, partition, id := s.nextShard, caps, resolvedAt } :: s.shards
          nextShard := s.nextShard + 1 }
        some (s.goto call (.noteLoad topic version (some (s.nextShard - 1))))
    | _ => none
  | _ => none

/-- The accesses of `noteShardCaps` and of the `RefreshCaps` it may run. -/
def stepNote (s : Sys τ) : Label τ → Option (Sys τ)
  | .loadSeen call =>
    match s.calls.lookup call with
    | some (.noteLoad topic version stored) =>
      match s.capsSeen.lookup topic with
      | some cell => some (s.goto call (.noteCompare topic version stored cell))
      | none => some (s.goto call (.noteStore topic version stored))
    | _ => none
  | .loadOrStoreSeen call =>
    match s.calls.lookup call with
    | some (.noteStore topic version stored) =>
      match s.capsSeen.lookup topic with
      | some cell => some (s.goto call (.noteCompare topic version stored cell))
      | none => some ({ s with
          cells := update s.cells topic (update (s.cells topic) s.nextCell version)
          nextCell := s.nextCell + 1
          capsSeen := s.capsSeen.insert topic s.nextCell }.done call)
    | _ => none
  | .compareSeen call =>
    match s.calls.lookup call with
    | some (.noteCompare topic version _ cell) =>
      if version < s.cells topic cell then some (s.goto call (.refresh topic))
      else some (s.done call)
    | _ => none
  | .refreshResolve call ok =>
    match s.calls.lookup call with
    | some (.refresh topic) =>
      if ok then some (s.goto call (.writing topic (s.startRefresh records topic)))
      else some (s.done call)
    | _ => none
  | .refreshVisit call shard =>
    match s.calls.lookup call with
    | some (.writing topic refresh) =>
      some ((s.writeCaps topic shard refresh).goto call
        (.writing topic { refresh with todo := refresh.todo.filter (· ≠ shard) }))
    | _ => none
  | .refreshDone call =>
    match s.calls.lookup call with
    | some (.writing _ refresh) => if refresh.todo = [] then some (s.done call) else none
    | _ => none
  | _ => none

/-- The accesses of `checkCaps` up to the lock, and the whole of `followCaps`. The pass reads a
topic's version and its cell in one step: no other call writes a cell once it is registered. -/
def stepPass (s : Sys τ) : Label τ → Option (Sys τ)
  | .readLatest call =>
    if call ∈ s.calls then none else some (s.goto call (.latestRead s.metadataVersion))
  | .compareChecked call =>
    match s.calls.lookup call with
    | some (.latestRead latest) =>
      if latest = s.capsChecked then some (s.done call) else some (s.goto call (.follow latest))
    | _ => none
  | .lockCaps call now =>
    match s.calls.lookup call with
    | some (.follow latest) =>
      if now < s.capsRetryAt ∨ s.pass.isSome then some (s.done call)
      else some ({ s with
        pass := some { latest, todo := s.capsSeen, failed := false, work := none } }.goto call .passing)
    | _ => none
  | .passTopic topic =>
    match s.pass with
    | none => none
    | some p =>
      match p.work, (p.todo.lookup topic).or (s.capsSeen.lookup topic) with
      | none, some cell =>
        let work := if s.cells topic cell = s.version topic then none
          else some { topic, cell, cur := s.version topic, refresh := none }
        some { s with pass := some { p with todo := p.todo.erase topic, work := work } }
      | _, _ => none
  | .passResolve ok =>
    match s.pass with
    | none => none
    | some p =>
      match p.work with
      | none => none
      | some w =>
        if w.refresh.isSome then none
        else if ok then
          let w := { w with refresh := some (s.startRefresh records w.topic) }
          some { s with pass := some { p with work := some w } }
        else some { s with pass := some { p with failed := true, work := none } }
  | .passVisit shard =>
    match s.pass with
    | none => none
    | some p =>
      match p.work with
      | none => none
      | some w =>
        match w.refresh with
        | none => none
        | some refresh =>
          let rest := { refresh with todo := refresh.todo.filter (· ≠ shard) }
          some { s.writeCaps w.topic shard refresh with
            pass := some { p with work := some { w with refresh := some rest } } }
  | .passStore =>
    match s.pass with
    | none => none
    | some p =>
      match p.work with
      | none => none
      | some w =>
        if w.refresh.map Refresh.todo = some [] then
          some { s with
            cells := update s.cells w.topic (update (s.cells w.topic) w.cell w.cur)
            pass := some { p with work := none } }
        else none
  | .passFinish call now =>
    match s.pass, s.calls.lookup call with
    | some p, some .passing =>
      -- What was forgotten since the pass began need not have been visited.
      if p.work = none ∧ ∀ topic ∈ p.todo.keys, s.capsSeen.lookup topic ≠ p.todo.lookup topic then
        if p.failed then
          some ({ s with pass := none, capsRetryAt := now + capsRetryAfter }.done call)
        else some ({ s with pass := none, capsChecked := p.latest }.done call)
      else none
    | _, _ => none
  | _ => none

/-- The accesses of `DropTopic`: its deletes under the create fence, then `forgetCaps`. -/
def stepDrop : Label τ → Option (Sys τ)
  | .dropShards call topic =>
    if call ∈ s.calls then none
    else some ({ s with shards := s.shards.filter fun L => L.topic ≠ topic }.goto call (.forget topic))
  | .forgetCaps call =>
    match s.calls.lookup call with
    | some (.forget topic) => some ({ s with capsSeen := s.capsSeen.erase topic }.done call)
    | _ => none
  | _ => none

/-- One step of the system. A label belongs to one kind of call. -/
def step (s : Sys τ) (label : Label τ) : Option (Sys τ) :=
  match label with
  | .change _ | .publish | .heartbeat => stepSource s label
  | .readVersion .. | .resolveCaps .. | .storeShard _ => stepCreate records s label
  | .loadSeen _ | .loadOrStoreSeen _ | .compareSeen _ | .refreshResolve .. | .refreshVisit ..
  | .refreshDone _ => stepNote records s label
  | .readLatest _ | .compareChecked _ | .lockCaps .. | .passTopic _ | .passResolve _
  | .passVisit _ | .passStore | .passFinish .. => stepPass records s label
  | .dropShards .. | .forgetCaps _ => stepDrop s label

/-- Perform a sequence of steps, if all of them are possible. -/
def runSteps (records : τ → ℕ → Caps) (s : Sys τ) : List (Label τ) → Option (Sys τ)
  | [] => some s
  | label :: labels => (step records s label).bind fun s => runSteps records s labels

/-- No call is in progress and every change is published. -/
def Sys.Quiescent : Prop := s.calls.keys = ∅ ∧ s.pass = none ∧ s.unpublished = 0

/-- The running pass's work on the cell a topic is registered under, if it is on that topic. -/
def Sys.heading (topic : τ) : Option (Work τ) :=
  (s.pass.bind Pass.work).filter fun w =>
    w.topic = topic ∧ s.capsSeen.lookup topic = some w.cell

/-- `forgetCaps` of a topic that has a live shard again, stored since the drop's deletes. -/
def forgetsLive (call : ℕ) : Bool :=
  match s.calls.lookup call with
  | some (.forget topic) => s.shards.any fun L => L.topic = topic
  | _ => false

/-- A first registration at a version the topic has left, with the metadata version it moved to
already covered: by the last complete pass, or by the running one that did not find the topic. -/
def registersCovered (call : ℕ) : Bool :=
  match s.calls.lookup call with
  | some (.noteStore topic version _) =>
    s.capsSeen.lookup topic = none ∧ version ≠ s.version topic ∧ s.unpublished = 0 ∧
      (s.capsChecked = s.metadataVersion ∨ s.pass.any fun p => p.latest = s.metadataVersion ∧ p.failed = false)
  | _ => false

/-- A creator that finds no newer version registered, while a pass whose `Range` missed its shard
is about to register one. -/
def missesPass (call : ℕ) : Bool :=
  match s.calls.lookup call with
  | some (.noteCompare topic version stored cell) =>
    s.cells topic cell ≤ version ∧ (s.heading topic).any fun w =>
      w.refresh.any fun refresh => s.shards.any fun L =>
        L.topic = topic ∧ stored = some L.id ∧ L.resolvedAt < w.cur ∧ L.id ∉ refresh.todo
  | _ => false

/-- A refresh that writes caps of version `resolvedAt` over newer ones, though the topic is not
registered at that version or below, or a pass is about to register a later one. -/
def overwrites (topic : τ) (shard resolvedAt : ℕ) : Bool :=
  s.shards.any (fun L => L.id = shard ∧ L.topic = topic ∧ resolvedAt < L.resolvedAt) ∧
    ¬ ((s.capsSeen.lookup topic).any (fun cell => s.cells topic cell ≤ resolvedAt) ∧
      (s.heading topic).all fun w => w.cur ≤ resolvedAt)

/-- The steps after which a shard can be left behind: the four orders above, and a creator whose
`RefreshCaps` failed and was ignored. -/
def badOrder : Label τ → Bool
  | .forgetCaps call => forgetsLive s call
  | .loadOrStoreSeen call => registersCovered s call
  | .compareSeen call => missesPass s call
  | .refreshResolve _ ok => !ok
  | .refreshVisit call shard =>
    match s.calls.lookup call with
    | some (.writing topic refresh) => overwrites s topic shard refresh.resolvedAt
    | _ => false
  | .passVisit shard =>
    match s.pass.bind Pass.work with
    | some w => w.refresh.any fun refresh => overwrites s w.topic shard refresh.resolvedAt
    | none => false
  | _ => false

/-- Perform a sequence of steps none of which is one of the bad orders. -/
def runOrderly (records : τ → ℕ → Caps) (s : Sys τ) : List (Label τ) → Option (Sys τ)
  | [] => some s
  | label :: labels =>
    if badOrder s label then none
    else (step records s label).bind fun s => runOrderly records s labels

end Narad.Consumer
