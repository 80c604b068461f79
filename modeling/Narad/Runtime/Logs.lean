import Mathlib.Data.List.Sort
import Narad.Lib.Machine

/-!
# The partition-log manager

One map holds the open log of every partition. A produce commit runs under the partition's mutex, a slow
open and every close under the topic's guard. The mutexes are minted on first use and retired on close,
so a thread that has locked one checks that it is still the one in the map. Closes run outside the map:
an entry is claimed first, then its log is closed, then it is dropped.

What runs under one of the three map locks takes no further lock and is one step here. The directories
of a topic are represented by their incarnation marker. The cold-retention walk, the hooks, the metrics
and the retention an open log follows are left out.
-/

namespace Narad.Runtime

open Function (update)
open Lib

structure LogKey where
  topic : String
  idx : ℤ
  deriving DecidableEq

/-- A log opened on the directory of its partition. -/
structure Log where
  key : LogKey
  gen : ℕ
  deriving DecidableEq

/-- A produce mutex minted for its partition. -/
structure Mutex where
  key : LogKey
  gen : ℕ
  deriving DecidableEq

structure TopicGuard where
  topic : String
  gen : ℕ
  deriving DecidableEq

inductive Phase where
  | absent
  | opened
  | closed (at' : ℕ)
  deriving DecidableEq

structure LogEntry where
  log : Log
  incarnation : String
  closing : Bool := false
  deriving DecidableEq

inductive Op where
  | get (key : LogKey)
  | getMany (topic : String) (idxs : List ℤ)
  | withProduceLock (key : LogKey)
  | closeTopic (topic : String)
  | closeAll
  | closePartition (key : LogKey)
  | replacePartitionDir (key : LogKey)
  | evictIdleOnce (idleAfter : ℤ)
  | purgeTopic (topic id : String)

/-- What follows once the claimed logs are closed. -/
inductive After where
  | ensure (version : ℕ) (id : String)
  | quarantine (version : ℕ) (id : String)
  | release
  | swap
  | remove
  deriving DecidableEq

/-- Where a thread is. The partitions still to lock follow the one at hand. -/
inductive Pc where
  | idle
  | fast
  | list
  | scan
  | names
  | guardNames
  | fetchMutex (key : LogKey) (rest : List LogKey)
  | waitMutex (m : Mutex) (rest : List LogKey)
  | checkMutex (m : Mutex) (rest : List LogKey)
  | dropMutex (m : Mutex) (rest : List LogKey)
  | fetchGuard
  | waitGuard (g : TopicGuard)
  | guarded
  | openRecord (version : ℕ)
  | openEntry (version : ℕ) (id : String)
  | ensure (version : ℕ) (id : String)
  | quarantine (version : ℕ) (id : String)
  | mark (version : ℕ) (id : String)
  | newLog (version : ℕ) (id : String)
  | install (version : ℕ) (id : String) (l : Log)
  | closeLog (after : After)
  | dropEntry (after : After)
  | swap
  | remove
  | releaseGuard
  | dropRef (g : TopicGuard)
  | running
  | unlock
  | retireScan
  | retire (m : Mutex) (todo : List Mutex)
  | retireDelete (m : Mutex) (todo : List Mutex)
  | retireUnlock (m : Mutex) (todo : List Mutex)
  deriving DecidableEq

/-- How the file operations of a step go; one that is not synced has taken effect and still fails. -/
inductive Outcome where
  | ok
  | unsynced
  | failed
  deriving DecidableEq

/-- A thread in one operation, with the variables of that operation. -/
structure Thread where
  op : Op := .closeAll
  pc : Pc := .idle
  /-- The topics `closeAll` has left. -/
  topics : List String := []
  /-- The partitions to lock, or those a `getMany` has left. -/
  idxs : List ℤ := []
  candidates : List Log := []
  cutoff : ℤ := 0
  held : List Mutex := []
  guard : Option TopicGuard := none
  claimed : List Log := []
  closeErr : Bool := false
  /-- Every open log was among those locked; or the directory was purged. -/
  covered : Bool := false
  got : Option Log := none
  /-- When the Get at hand began. -/
  began : ℕ := 0

/-- The keyed mutexes and the refcounted guards. -/
structure Locks where
  produceSync : List Mutex := []
  mutexHolder : Mutex → Option ℕ := fun _ => none
  nextMutex : ℕ := 0
  guards : List TopicGuard := []
  /-- The threads a guard counts as its references. -/
  users : TopicGuard → List ℕ := fun _ => []
  guardHolder : TopicGuard → Option ℕ := fun _ => none
  nextGuard : ℕ := 0

structure LogMap where
  logs : List LogEntry := []
  phase : Log → Phase := fun _ => .absent
  nextLog : ℕ := 0
  /-- The logs that Gets have returned, with when the Get began. -/
  served : List (Log × ℕ) := []

structure State extends Locks, LogMap where
  version : Log → ℕ := fun _ => 0
  lastAccess : Log → ℤ := fun _ => 0
  /-- Whether there is a metastore, and whether it counts the changes of a record. -/
  metastore : Bool
  versions : Bool
  /-- The incarnation in each topic's record, and how often the record has changed. -/
  record : String → Option String := fun _ => none
  topicVersion : String → ℕ := fun _ => 0
  marker : String → Option String := fun _ => none
  now : ℤ := 0
  threads : ℕ → Thread := fun _ => {}
  /-- How many steps were taken. -/
  clock : ℕ := 0

namespace Thread

/-- The partition an operation is at. -/
def key (t : Thread) : LogKey :=
  match t.op with
  | .get key | .withProduceLock key | .closePartition key | .replacePartitionDir key => key
  | .getMany topic _ => ⟨topic, t.idxs.headD 0⟩
  | .evictIdleOnce _ => (t.candidates.head?.map Log.key).getD ⟨"", 0⟩
  | .closeTopic topic | .purgeTopic topic _ => ⟨topic, 0⟩
  | .closeAll => ⟨t.topics.headD "", 0⟩

variable (t : Thread)

def topic : String :=
  t.key.topic

/-- The partitions whose mutexes the operation takes. -/
def needs : List LogKey :=
  match t.op with
  | .withProduceLock key | .closePartition key | .replacePartitionDir key => [key]
  | .evictIdleOnce _ => [t.key]
  | .closeTopic _ | .closeAll => t.idxs.map fun idx => ⟨t.topic, idx⟩
  | .get _ | .getMany .. | .purgeTopic .. => []

variable (clock : ℕ)

/-- All mutexes are locked: a produce goes on to its Get. -/
def locked : Thread :=
  match t.op with
  | .withProduceLock _ => { t with pc := .fast, began := clock }
  | _ => { t with pc := .fetchGuard }

/-- A Get has returned. -/
def returned : Thread :=
  match t.op with
  | .withProduceLock _ => { t with pc := if t.got.isSome then .running else .unlock }
  | .getMany .. =>
    match t.got, t.idxs.tail with
    | some _, idx :: rest => { t with idxs := idx :: rest, pc := .fast, got := none, began := clock }
    | _, _ => {}
  | _ => {}

/-- The guard is released. -/
def unguarded : Thread :=
  match t.op with
  | .get _ | .getMany .. | .withProduceLock _ => t.returned clock
  | .purgeTopic .. => if t.covered then { t with pc := .retireScan } else {}
  | _ => { t with pc := .unlock }

/-- The mutexes are released. -/
def unlocked : Thread :=
  match t.op with
  | .closeTopic _ => { t with pc := if t.covered then .retireScan else .list }
  | .closeAll =>
    if t.covered then
      match t.topics.tail with
      | [] => { t with topics := [], pc := .retireScan }
      | topic :: rest => { t with topics := topic :: rest, pc := .list }
    else { t with pc := .list }
  | .closePartition _ => { t with pc := .retireScan }
  | .evictIdleOnce _ =>
    match t.candidates.tail with
    | [] => {}
    | l :: rest => { t with candidates := l :: rest, pc := .fetchMutex l.key [] }
  | _ => {}

/-- The produce mutexes the operation retires. -/
def retires (m : Mutex) : Bool :=
  match t.op with
  | .closeTopic topic | .purgeTopic topic _ => m.key.topic = topic
  | .closeAll => true
  | .closePartition key => m.key = key
  | _ => false

def retireNext : List Mutex → Thread
  | [] => {}
  | m :: todo => { t with pc := .retire m todo }

end Thread

def After.pc : After → Pc
  | .ensure version id => .ensure version id
  | .quarantine version id => .quarantine version id
  | .release => .releaseGuard
  | .swap => .swap
  | .remove => .remove

/-- How far the stamp of a log may lag its last Get. -/
def stampEvery : ℤ := 1000000000

namespace State

variable (s : State)

variable (key : LogKey)

def entry : Option LogEntry :=
  s.logs.find? fun e => e.log.key = key

def mutexOf : Option Mutex :=
  s.produceSync.find? fun m => m.key = key

variable (topic : String)

def guardOf : Option TopicGuard :=
  s.guards.find? fun g => g.topic = topic

variable (i : ℕ)

variable (t : Thread)

def setThread : State :=
  { s with threads := update s.threads i t }

/-- Gets that began at `began` return the logs and stamp them. -/
def serve (ls : List Log) (began : ℕ) : State :=
  { s with
    lastAccess := fun l =>
      if l ∈ ls ∧ stampEvery ≤ s.now - s.lastAccess l then s.now else s.lastAccess l
    served := ls.map (·, began) ++ s.served }

def entryCurrent (e : LogEntry) : Bool :=
  !s.versions || s.version e.log = s.topicVersion e.log.key.topic

/-- The entry a Get returns without the guard. -/
def openEntry : Option LogEntry :=
  (s.entry key).filter fun e => !e.closing && s.entryCurrent e

def openPartitions : List ℤ :=
  ((s.logs.filter fun e => e.log.key.topic = topic).map fun e => e.log.key.idx).mergeSort

def onlyOpen (idxs : List ℤ) : Bool :=
  s.logs.all fun e => e.log.key.topic ≠ topic || e.log.key.idx ∈ idxs

/-- Marks the entries as being closed. -/
def claim (p : LogEntry → Bool) : State :=
  { s with logs := s.logs.map fun e => if p e then { e with closing := true } else e }

def claimed (p : LogEntry → Bool) : List Log :=
  (s.logs.filter p).map LogEntry.log

/-- The thread claims entries and closes their logs. -/
def close (p : LogEntry → Bool) (after : After) : State :=
  (s.claim p).setThread i { t with claimed := s.claimed p, closeErr := false, pc := .closeLog after }

/-- Idle past the cutoff, and no retention is due. -/
def evictable (l : Log) (cutoff : ℤ) (due : Bool) : Bool :=
  s.lastAccess l ≤ cutoff && !due

def start (op : Op) : State :=
  let t : Thread := { op := op, began := s.clock }
  match op with
  | .get _ => s.setThread i { t with pc := .fast }
  | .getMany topic idxs =>
    let s' := s.serve (idxs.filterMap fun idx => (s.openEntry ⟨topic, idx⟩).map LogEntry.log) s.clock
    match idxs.filter fun idx => (s.openEntry ⟨topic, idx⟩).isNone with
    | [] => s'.setThread i {}
    | missing => s'.setThread i { t with idxs := missing, pc := .fast }
  | .withProduceLock key | .closePartition key | .replacePartitionDir key =>
    s.setThread i { t with pc := .fetchMutex key [] }
  | .closeTopic _ => s.setThread i { t with pc := .list }
  | .closeAll => s.setThread i { t with pc := .names }
  | .evictIdleOnce _ => s.setThread i { t with pc := .scan }
  | .purgeTopic .. => s.setThread i { t with pc := .fetchGuard }

/-- Under the guard: an open reads the topic's version, a close claims entries. -/
def underGuard (outcome : Outcome) : State :=
  let release := s.setThread i { t with pc := .releaseGuard }
  match t.op with
  | .get _ | .getMany .. | .withProduceLock _ =>
    s.setThread i { t with pc := .openRecord (s.topicVersion t.topic) }
  | .closeTopic _ | .closeAll =>
    if s.onlyOpen t.topic t.idxs then
      s.close i { t with covered := true } (fun e => e.log.key.topic = t.topic) .release
    else s.setThread i { t with covered := false, pc := .releaseGuard }
  | .closePartition key => s.close i t (fun e => e.log.key = key) .release
  | .replacePartitionDir key => s.close i t (fun e => e.log.key = key) .swap
  | .evictIdleOnce _ =>
    match s.entry t.key with
    | none => release
    | some e =>
      if t.candidates.head? = some e.log ∧ s.evictable e.log t.cutoff (outcome ≠ .ok) then
        s.close i t (fun e => e.log.key = t.key) .release
      else release
  | .purgeTopic topic id =>
    -- a directory of another incarnation is left alone
    if outcome = .ok ∧ (id = "" ∨ (s.marker topic).all fun marker => marker = id) then
      s.close i t (fun e => e.log.key.topic = topic) .remove
    else release

/-- Writes the marker of the thread's topic, and goes on if all went well. -/
def setMarker (marker : Option String) (outcome : Outcome) (next : Pc) : State :=
  { s with
    marker := if outcome = Outcome.failed then s.marker else update s.marker t.topic marker }.setThread i
      { t with pc := if outcome = Outcome.ok then next else .releaseGuard }

/-- One step of a thread. -/
def act (outcome : Outcome) : Option State :=
  let t := s.threads i
  let goto (pc : Pc) : State := s.setThread i { t with pc := pc }
  match t.pc with
  | .idle => none
  | .fast =>
    match s.openEntry t.key with
    | some e =>
      some ((s.serve [e.log] t.began).setThread i (Thread.returned { t with got := some e.log } s.clock))
    | none => some (goto .fetchGuard)
  | .list =>
    let t := { t with idxs := s.openPartitions t.topic, covered := false }
    match t.needs with
    | [] => some (s.setThread i { t with pc := .fetchGuard })
    | key :: rest => some (s.setThread i { t with pc := .fetchMutex key rest })
  | .scan =>
    match t.op with
    | .evictIdleOnce idleAfter =>
      let cutoff := s.now - idleAfter
      let idle := s.logs.filter fun e => !e.closing && s.evictable e.log cutoff (outcome ≠ .ok)
      match idle.map LogEntry.log with
      | [] => some (s.setThread i {})
      | l :: rest =>
        some (s.setThread i { t with cutoff := cutoff, candidates := l :: rest, pc := .fetchMutex l.key [] })
    | _ => none
  | .names =>
    some (s.setThread i { t with topics := s.logs.map fun e => e.log.key.topic, pc := .guardNames })
  | .guardNames =>
    match (t.topics ++ s.guards.map TopicGuard.topic).dedup.mergeSort with
    | [] => some (s.setThread i { t with topics := [], pc := .retireScan })
    | topic :: rest => some (s.setThread i { t with topics := topic :: rest, pc := .list })
  | .fetchMutex key rest =>
    match s.mutexOf key with
    | some m => some (goto (.waitMutex m rest))
    | none =>
      let m : Mutex := ⟨key, s.nextMutex⟩
      some ({ s with produceSync := m :: s.produceSync, nextMutex := s.nextMutex + 1 }.setThread i
        { t with pc := .waitMutex m rest })
  | .waitMutex m rest =>
    if s.mutexHolder m = none then
      some ({ s with mutexHolder := update s.mutexHolder m (some i) }.setThread i
        { t with pc := .checkMutex m rest })
    else none
  | .checkMutex m rest =>
    if s.mutexOf m.key = some m then
      let t := { t with held := t.held ++ [m] }
      match rest with
      | [] => some (s.setThread i (t.locked s.clock))
      | key :: rest => some (s.setThread i { t with pc := .fetchMutex key rest })
    else some (goto (.dropMutex m rest))
  | .dropMutex m rest =>
    some ({ s with mutexHolder := update s.mutexHolder m none }.setThread i
      { t with pc := .fetchMutex m.key rest })
  | .fetchGuard =>
    match s.guardOf t.topic with
    | some g =>
      some ({ s with users := update s.users g (i :: s.users g) }.setThread i { t with pc := .waitGuard g })
    | none =>
      let g : TopicGuard := ⟨t.topic, s.nextGuard⟩
      some ({ s with
        guards := g :: s.guards, nextGuard := s.nextGuard + 1
        users := update s.users g [i] }.setThread i { t with pc := .waitGuard g })
  | .waitGuard g =>
    if s.guardHolder g = none then
      some ({ s with guardHolder := update s.guardHolder g (some i) }.setThread i
        { t with guard := some g, pc := .guarded })
    else none
  | .guarded => some (s.underGuard i t outcome)
  | .openRecord version =>
    if s.metastore then
      match s.record t.topic with
      | none => some (goto .releaseGuard)
      | some id => some (goto (if outcome = .ok then .openEntry version id else .releaseGuard))
    else some (goto (.openEntry version ""))
  | .openEntry version id =>
    match s.entry t.key with
    | none => some (goto (.ensure version id))
    | some e =>
      if e.incarnation = id then
        some (({ s with version := update s.version e.log version }.serve [e.log] t.began).setThread i
          { t with got := some e.log, pc := .releaseGuard })
      else some (s.close i t (fun e => e.log.key.topic = t.topic) (.ensure version id))
  | .ensure version id =>
    if id = "" then some (goto (.newLog version id))
    else if outcome = .ok then
      match s.marker t.topic with
      | none => some (goto (.mark version id))
      | some marker =>
        if marker = id then some (goto (.newLog version id))
        else some (s.close i t (fun e => e.log.key.topic = t.topic) (.quarantine version id))
    else some (goto .releaseGuard)
  | .quarantine version id =>
    if t.closeErr then some (goto .releaseGuard)
    else some (s.setMarker i t none outcome (.mark version id))
  | .mark version id => some (s.setMarker i t (some id) outcome (.newLog version id))
  | .newLog version id =>
    if outcome = .ok then
      let l : Log := ⟨t.key, s.nextLog⟩
      some ({ s with phase := update s.phase l .opened, nextLog := s.nextLog + 1 }.setThread i
        { t with pc := .install version id l })
    else some (goto .releaseGuard)
  | .install version id l =>
    some ({ s with
      logs := { log := l, incarnation := id } :: s.logs.filter fun e => e.log.key ≠ l.key
      version := update s.version l version
      lastAccess := update s.lastAccess l s.now
      served := (l, t.began) :: s.served }.setThread i { t with got := some l, pc := .releaseGuard })
  | .closeLog after =>
    match t.claimed with
    | [] => some (goto after.pc)
    | l :: _ =>
      -- a Close that fails has closed the log all the same
      some ({ s with phase := update s.phase l (.closed s.clock) }.setThread i
        { t with closeErr := t.closeErr || outcome ≠ Outcome.ok, pc := .dropEntry after })
  | .dropEntry after =>
    match t.claimed with
    | [] => none
    | l :: rest =>
      some ({ s with logs := s.logs.filter fun e => e.log ≠ l }.setThread i
        { t with claimed := rest, pc := .closeLog after })
  | .swap =>
    -- what the swap puts into the directory is not represented
    some (goto .releaseGuard)
  | .remove => some (s.setMarker i { t with covered := true } none outcome .releaseGuard)
  | .releaseGuard =>
    match t.guard with
    | none => none
    | some g =>
      some ({ s with guardHolder := update s.guardHolder g none }.setThread i
        { t with guard := none, pc := .dropRef g })
  | .dropRef g =>
    let users := (s.users g).erase i
    some ({ s with
      users := update s.users g users
      guards := if users = [] then s.guards.filter fun g' => g'.topic ≠ g.topic else s.guards }.setThread i
        (t.unguarded s.clock))
  | .running => some (goto .unlock)
  | .unlock =>
    match t.held with
    | [] => some (s.setThread i t.unlocked)
    | m :: rest =>
      some ({ s with mutexHolder := update s.mutexHolder m none }.setThread i { t with held := rest })
  | .retireScan => some (s.setThread i (t.retireNext (s.produceSync.filter t.retires)))
  | .retire m todo =>
    if s.mutexHolder m = none then
      some ({ s with mutexHolder := update s.mutexHolder m (some i) }.setThread i
        { t with pc := .retireDelete m todo })
    else none
  | .retireDelete m todo =>
    some ({ s with
      produceSync := if s.mutexOf m.key = some m then s.produceSync.filter fun m' => m'.key ≠ m.key
        else s.produceSync }.setThread i { t with pc := .retireUnlock m todo })
  | .retireUnlock m todo =>
    some ({ s with mutexHolder := update s.mutexHolder m none }.setThread i (t.retireNext todo))

end State

inductive Label where
  | start (i : ℕ) (op : Op)
  | go (i : ℕ) (outcome : Outcome)
  /-- A topic is created, altered, deleted or created again. -/
  | change (topic : String) (record : Option String)
  | bump (topic : String)
  | tick (ns : ℤ)
  /-- The maps may be walked in any order. -/
  | reorder (logs : List LogEntry) (produceSync : List Mutex)

def State.effect (s : State) : Label → Option State
  | .start i op => if (s.threads i).pc = .idle then some (s.start i op) else none
  | .go i outcome => s.act i outcome
  | .change topic record => some { s with record := update s.record topic record }
  | .bump topic => some { s with topicVersion := update s.topicVersion topic (s.topicVersion topic + 1) }
  | .tick ns => some { s with now := s.now + ns }
  | .reorder logs produceSync =>
    if logs.isPerm s.logs ∧ produceSync.isPerm s.produceSync then
      some { s with logs := logs, produceSync := produceSync }
    else none

def State.step (s : State) (label : Label) : Option State :=
  (s.effect label).map fun s' => { s' with clock := s'.clock + 1 }

end Narad.Runtime
