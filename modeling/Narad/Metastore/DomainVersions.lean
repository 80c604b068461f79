import Narad.Lib.Machine
import Mathlib.Data.Finset.Insert
import Mathlib.Data.Finset.Card
import Mathlib.Logic.Function.Basic
import Mathlib.Order.Basic
import Mathlib.Tactic.IntervalCases

/-!
# Versions of the metadata domains

A reader takes a domain's table and then, without the lock, the cell of its key in that table. Writers
are one at a time, each published store a step of its own. Versions are counted in ℕ: 2 ^ 64 of them are
not drawn.

The version a key has now never falls, and a change raises it. A read returns at least the version at its
first step and at most the one at its last.
-/

namespace Narad.Metastore.Versions

open Function (update update_apply update_self update_of_ne)
open Lib

/-- The domains with a version for every key. -/
inductive Domain
  | topics
  | assignments
  | schemas
  deriving DecidableEq

/-- A snapshot of a domain's versions. A cell is told from the others of its key, in whatever table, by a
number. -/
structure VersionTable where
  cells : String → Option ℕ := fun _ => none
  /-- The version of every key without a cell. -/
  floor : ℕ := 0

/-- The changes of a domain or of all of them. -/
inductive Change
  | bump (d : Domain) (key : String)
  | retireTopic (name : String)
  | retireAssignments (name : String)
  | bumpAll
  deriving DecidableEq

/-- What a writer does under the lock, with one published store at most. -/
inductive Op
  | set (d : Domain) (key : String)
  | retire (d : Domain) (key : String)
  | reset (d : Domain)

def Change.ops : Change → List Op
  | .bump d key => [.set d key]
  | .retireTopic name => [.set .topics name, .retire .topics name, .set .assignments name,
      .retire .assignments name, .set .schemas name, .retire .schemas name]
  | .retireAssignments name => [.set .assignments name, .retire .assignments name]
  | .bumpAll => [.reset .topics, .reset .assignments, .reset .schemas]

def Change.covers : Change → Domain → String → Prop
  | .bump d key, d', key' => d = d' ∧ key = key'
  | .retireTopic name, _, key => name = key
  | .retireAssignments name, d, key => .assignments = d ∧ name = key
  | .bumpAll, _, _ => True

/-- A read that has loaded its table. -/
structure Reading where
  domain : Domain
  key : String
  table : VersionTable

/-- A table that is not there yet reads as the empty one. -/
structure State where
  next : ℕ := 0
  heap : Domain × String → ℕ → ℕ := fun _ _ => 0
  /-- The number of the next cell. -/
  fresh : ℕ := 0
  table : Domain → VersionTable := fun _ => {}
  retired : Domain → Finset String := fun _ => ∅
  /-- What the holder of the lock has left to do. -/
  mu : Option (List Op) := none
  readers : ℕ → Option Reading := fun _ => none

/-- What a table gives for a key whose cells hold `cells`. -/
def load (cells : ℕ → ℕ) (t : VersionTable) (key : String) : ℕ :=
  match t.cells key with
  | some cell => cells cell
  | none => t.floor

def maxRetiredKeys : ℕ := 1024

namespace State

variable (s : State)

def set (d : Domain) (key : String) : State :=
  let version := s.next + 1
  match (s.table d).cells key with
  | some cell => { s with
      next := version
      heap := update s.heap (d, key) (update (s.heap (d, key)) cell version)
      retired := update s.retired d ((s.retired d).erase key) }
  | none => { s with
      next := version
      heap := update s.heap (d, key) (update (s.heap (d, key)) s.fresh version)
      fresh := s.fresh + 1
      table := update s.table d { s.table d with cells := update (s.table d).cells key (some s.fresh) } }

def retire (d : Domain) (key : String) : State :=
  let retired := insert key (s.retired d)
  if retired.card < maxRetiredKeys then { s with retired := update s.retired d retired }
  else { s with
    next := s.next + 1
    table := update s.table d ⟨fun name => if name ∈ retired then none else (s.table d).cells name, s.next + 1⟩
    retired := update s.retired d ∅ }

/-- The version is the one `bumpAll` drew as it took the lock. -/
def reset (d : Domain) : State :=
  { s with table := update s.table d ⟨fun _ => none, s.next⟩, retired := update s.retired d ∅ }

def exec : Op → State
  | .set d key => s.set d key
  | .retire d key => s.retire d key
  | .reset d => s.reset d

end State

inductive Event
  | lock (c : Change)
  | store
  | unlock
  | load (r : ℕ) (d : Domain) (key : String)
  | read (r : ℕ)

namespace State

def step (s : State) : Event → Option State
  | .lock c =>
    match s.mu with
    | none => some { s with next := if c = .bumpAll then s.next + 1 else s.next, mu := some c.ops }
    | some _ => none
  | .store =>
    match s.mu with
    | some (op :: ops) => some { s.exec op with mu := some ops }
    | _ => none
  | .unlock =>
    match s.mu with
    | some [] => some { s with mu := none }
    | _ => none
  | .load r d key =>
    match s.readers r with
    | none => some { s with readers := update s.readers r (some ⟨d, key, s.table d⟩) }
    | some _ => none
  | .read r =>
    match s.readers r with
    | some _ => some { s with readers := update s.readers r none }
    | none => none

/-- What a read that has its table returns now. -/
def result (s : State) (r : ℕ) : ℕ :=
  match s.readers r with
  | some g => load (s.heap (g.domain, g.key)) g.table g.key
  | none => 0

/-- The version of a key now. -/
def version (s : State) (d : Domain) (key : String) : ℕ :=
  load (s.heap (d, key)) (s.table d) key

end State

variable {s s' : State} {d : Domain} {key : String} {n r : ℕ}

theorem load_le {cells cells' : ℕ → ℕ} {t : VersionTable} (h : ∀ cell, cells cell ≤ cells' cell) :
    load cells t key ≤ load cells' t key := by
  unfold load
  split
  · exact h _
  · exact le_rfl

/-- No version falls. -/
structure Le (s s' : State) : Prop where
  next : s.next ≤ s'.next
  heap : ∀ p cell, s.heap p cell ≤ s'.heap p cell
  version : ∀ d key, s.version d key ≤ s'.version d key

/-- A read is behind the version its key has now, whatever table it holds. -/
def Behind (s : State) (g : Reading) : Prop :=
  load (s.heap (g.domain, g.key)) g.table g.key ≤ s.version g.domain g.key

structure Inv (s : State) : Prop where
  heap_le : ∀ p cell, s.heap p cell ≤ s.next
  floor_le : ∀ d, (s.table d).floor ≤ s.next
  reading : ∀ r g, s.readers r = some g → Behind s g

namespace Inv

variable (h : Inv s)
include h

theorem version_le (d : Domain) (key : String) : s.version d key ≤ s.next := by
  unfold State.version load
  split
  · exact h.heap_le ..
  · exact h.floor_le d

/-- A key gets the version drawn last, or keeps its cells and a version no lower. -/
theorem raise (hnext : s.next ≤ s'.next) (hheap : ∀ p cell, s.heap p cell ≤ s'.heap p cell)
    (hbound : ∀ p cell, s'.heap p cell ≤ s'.next) (hfloor : ∀ d, (s'.table d).floor ≤ s'.next)
    (hreading : ∀ r g, s'.readers r = some g → Behind s g) (hversion : ∀ d key, s'.version d key = s'.next ∨
      s'.heap (d, key) = s.heap (d, key) ∧ s.version d key ≤ s'.version d key) : Inv s' ∧ Le s s' := by
  refine ⟨⟨hbound, hfloor, fun r g hg => ?_⟩, hnext, hheap, fun d key => ?_⟩
  · have hle := hreading r g hg
    unfold Behind at hle ⊢
    rcases hversion g.domain g.key with hnew | ⟨hsame, hver⟩
    · rw [hnew]
      unfold load at hle ⊢
      split
      · exact hbound ..
      next hcell =>
        rw [hcell] at hle
        exact (hle.trans (h.version_le ..)).trans hnext
    · rw [hsame]
      exact hle.trans hver
  · rcases hversion d key with hnew | ⟨-, hver⟩
    · exact hnew ▸ (h.version_le d key).trans hnext
    · exact hver

theorem still (hnext : s.next ≤ s'.next) (hheap : s'.heap = s.heap) (htable : s'.table = s.table)
    (hreading : ∀ r g, s'.readers r = some g → Behind s g) : Inv s' ∧ Le s s' := by
  refine h.raise hnext (fun p cell => by rw [hheap]) (fun p cell => ?_) (fun d => ?_) hreading fun d key => .inr ?_
  · exact hheap ▸ (h.heap_le p cell).trans hnext
  · exact htable ▸ (h.floor_le d).trans hnext
  · rw [State.version, State.version, hheap, htable]
    exact ⟨rfl, le_rfl⟩

/-- A version drawn now goes to a cell of the key. -/
theorem store {cell : ℕ} (hnext : s'.next = s.next + 1)
    (hheap : s'.heap = update s.heap (d, key) (update (s.heap (d, key)) cell (s.next + 1)))
    (hcell : (s'.table d).cells key = some cell) (hfloor : ∀ d, (s'.table d).floor = (s.table d).floor)
    (hcells : ∀ d' key', (d', key') ≠ (d, key) → (s'.table d').cells key' = (s.table d').cells key')
    (hreaders : s'.readers = s.readers) : Inv s' ∧ Le s s' ∧ s'.version d key = s.next + 1 := by
  have hthis : s'.version d key = s.next + 1 := by simp [State.version, load, hcell, hheap]
  have hput : ∀ p c, s.heap p c ≤ s'.heap p c ∧ s'.heap p c ≤ s.next + 1 := by
    intro p c
    have := h.heap_le p c
    rw [hheap, update_apply]
    split
    next hp =>
      subst hp
      rw [update_apply]
      split <;> omega
    · omega
  have hle : s.next ≤ s'.next := hnext ▸ Nat.le_succ _
  refine and_assoc.mp ⟨h.raise hle (fun p c => (hput p c).1) (fun p c => hnext ▸ (hput p c).2)
    (fun d => hfloor d ▸ (h.floor_le d).trans hle) (hreaders ▸ h.reading) fun d' key' => ?_, hthis⟩
  by_cases hp : (d', key') = (d, key)
  · cases hp
    exact .inl (hthis.trans hnext.symm)
  have hsame : s'.heap (d', key') = s.heap (d', key') := by rw [hheap, update_of_ne hp]
  refine .inr ⟨hsame, ?_⟩
  unfold State.version load
  rw [hsame, hfloor, hcells d' key' hp]

theorem set (d : Domain) (key : String) :
    Inv (s.set d key) ∧ Le s (s.set d key) ∧ (s.set d key).version d key = s.next + 1 := by
  unfold State.set
  split
  next cell hcell => exact h.store rfl rfl hcell (fun _ => rfl) (fun _ _ _ => rfl) rfl
  · refine h.store rfl rfl (by simp) (fun d' => ?_) (fun d' key' hp => ?_) rfl
    · dsimp only
      rw [update_apply]
      split <;> simp_all
    · dsimp only
      rw [update_apply]
      split
      next hd =>
        subst hd
        exact update_of_ne (fun hk => hp (congrArg _ hk)) ..
      · rfl

/-- A table with the version drawn last as its floor, and no cell that the one before did not have. -/
theorem publish {t : VersionTable} {retired : Domain → Finset String}
    (hs' : s' = { s with next := n, table := update s.table d t, retired := retired }) (hnext : s.next ≤ n)
    (hfloor : t.floor = n)
    (hcells : ∀ key cell, t.cells key = some cell → (s.table d).cells key = some cell) : Inv s' ∧ Le s s' := by
  subst hs'
  refine h.raise hnext (fun _ _ => le_rfl) (fun p c => (h.heap_le p c).trans hnext) (fun d' => ?_)
    h.reading fun d' key => ?_
  · dsimp only
    rw [update_apply]
    split
    · exact hfloor.le
    · exact (h.floor_le d').trans hnext
  · dsimp only [State.version]
    rw [update_apply]
    split
    next hd =>
      subst hd
      cases hcell : t.cells key with
      | none => exact .inl (by rw [load, hcell, hfloor])
      | some cell => exact .inr ⟨rfl, by rw [load, load, hcell, hcells key cell hcell]⟩
    · exact .inr ⟨rfl, le_rfl⟩

theorem exec (op : Op) : Inv (s.exec op) ∧ Le s (s.exec op) := by
  cases op with
  | set d key => exact ⟨(h.set d key).1, (h.set d key).2.1⟩
  | reset d => exact h.publish rfl le_rfl rfl nofun
  | retire d key =>
    unfold State.exec State.retire
    dsimp only
    split
    · exact h.still le_rfl rfl rfl h.reading
    refine h.publish rfl (Nat.le_succ _) rfl fun name cell hcell => ?_
    dsimp only at hcell
    split at hcell
    · cases hcell
    · exact hcell

theorem step {e : Event} (hstep : s.step e = some s') : Inv s' ∧ Le s s' := by
  cases e with (simp only [State.step] at hstep; split at hstep <;> cases hstep)
  | lock c => exact h.still (by dsimp only; split <;> omega) rfl rfl h.reading
  | store => exact ⟨{ (h.exec _).1 with }, { (h.exec _).2 with }⟩
  | unlock => exact h.still le_rfl rfl rfl h.reading
  | load | read =>
    refine h.still le_rfl rfl rfl fun r g hg => ?_
    dsimp only at hg
    rw [update_apply] at hg
    split at hg
    · cases hg <;> exact le_rfl
    · exact h.reading r g hg

end Inv

theorem exec_readers (op : Op) : (s.exec op).readers = s.readers := by
  cases op with simp only [State.exec, State.set, State.retire, State.reset]
  | set | retire => split <;> rfl

/-- A read keeps its table until it returns. -/
theorem step_readers {e : Event} {g : Reading} (hstep : s.step e = some s') (he : e ≠ .read r)
    (hg : s.readers r = some g) : s'.readers r = some g := by
  cases e with (simp only [State.step] at hstep; split at hstep <;> cases hstep)
  | lock | unlock => exact hg
  | store => exact (exec_readers _).symm ▸ hg
  | load r' d key =>
    have hr : r ≠ r' := by
      rintro rfl
      simp_all
    exact (update_of_ne hr ..).trans hg
  | read r' => exact (update_of_ne (fun hr => he (congrArg _ hr.symm)) ..).trans hg

/-- The store that raises the version of the key is still to come, or it has been raised since `s`. -/
def Due (s : State) (d : Domain) (key : String) (t : State) : Prop :=
  ∃ ops, t.mu = some ops ∧ (.set d key ∈ ops ∨ .reset d ∈ ops ∧ s.next < t.next ∨ s.version d key < t.version d key)

theorem Due.lock {c : Change} (hc : c.covers d key) (hstep : s.step (.lock c) = some s') : Due s d key s' := by
  simp only [State.step] at hstep
  split at hstep <;> cases hstep
  refine ⟨_, rfl, ?_⟩
  cases c with
  | bump d' key' => exact .inl (by simp [Change.ops, hc.1, hc.2])
  | retireTopic name =>
    cases hc
    cases d <;> simp [Change.ops]
  | retireAssignments name =>
    obtain ⟨rfl, rfl⟩ := hc
    simp [Change.ops]
  | bumpAll =>
    refine .inr (.inl ⟨?_, Nat.lt_succ_self _⟩)
    cases d <;> simp [Change.ops]

theorem Due.step {t t' : State} {e : Event} (hs : Inv s) (ht : Inv t) (hle : Le s t) (hdue : Due s d key t)
    (he : e ≠ .unlock) (hstep : t.step e = some t') : Due s d key t' := by
  obtain ⟨ops, hmu, hops⟩ := hdue
  have hle' := (ht.step hstep).2
  have hraised : s.version d key < t.version d key → s.version d key < t'.version d key :=
    fun h => h.trans_le (hle'.version d key)
  have hold := hs.version_le d key
  cases e with simp only [State.step] at hstep
  | lock c =>
    rw [hmu] at hstep
    cases hstep
  | unlock => exact absurd rfl he
  | load | read =>
    split at hstep <;> cases hstep
    exact ⟨ops, hmu, hops.imp_right (.imp_right hraised)⟩
  | store =>
    rw [hmu] at hstep
    cases ops with
    | nil => cases hstep
    | cons op ops =>
      obtain rfl := Option.some.inj hstep
      refine ⟨ops, rfl, ?_⟩
      have hnext := hle.next
      rcases hops with hmem | ⟨hmem, hlt⟩ | hlt
      · rcases List.mem_cons.mp hmem with rfl | hmem
        · refine .inr (.inr ?_)
          have := (ht.set d key).2.2
          change s.version d key < (t.set d key).version d key
          omega
        · exact .inl hmem
      · rcases List.mem_cons.mp hmem with rfl | hmem
        · refine .inr (.inr (lt_of_le_of_lt hold (lt_of_lt_of_le hlt (le_of_eq ?_))))
          simp [State.exec, State.reset, State.version, Versions.load]
        · exact .inr (.inl ⟨hmem, hlt.trans_le hle'.next⟩)
      · exact .inr (.inr (hraised hlt))

/-- The states and the events of a run of `n` steps. -/
structure Run (n : ℕ) (state : ℕ → State) (event : ℕ → Event) : Prop where
  start : state 0 = {}
  steps : ∀ i < n, (state i).step (event i) = some (state (i + 1))

/-- The events at steps `i` and `j`, and no other of the kind of the last between them. -/
structure Span (n : ℕ) (event : ℕ → Event) (first last : Event) (i j : ℕ) : Prop where
  start : event i = first
  stop : event j = last
  lt : i < j
  ends : j < n
  busy : ∀ m, i < m → m < j → event m ≠ last

namespace Run

variable {state : ℕ → State} {event : ℕ → Event} (hrun : Run n state event) {i j : ℕ}
include hrun

theorem inv (hi : i ≤ n) : Inv (state i) := by
  induction i with
  | zero =>
    rw [hrun.start]
    exact ⟨fun _ _ => le_rfl, fun _ => le_rfl, nofun⟩
  | succ i ih => exact ((ih (by omega)).step (hrun.steps i hi)).1

theorem le (hij : i ≤ j) (hj : j ≤ n) : Le (state i) (state j) := by
  induction j, hij using Nat.le_induction with
  | base => exact ⟨le_rfl, fun _ _ => le_rfl, fun _ _ => le_rfl⟩
  | succ j hij ih =>
    have hle := ((hrun.inv (by omega)).step (hrun.steps j hj)).2
    have := ih (by omega)
    exact ⟨this.next.trans hle.next, fun p c => (this.heap p c).trans (hle.heap p c),
      fun d key => (this.version d key).trans (hle.version d key)⟩

/-- What the first event of a span brings about and the others keep holds at its last. -/
theorem span {first last : Event} (hspan : Span n event first last i j) {P : State → Prop}
    (hfirst : ∀ t, (state i).step first = some t → P t)
    (hbusy : ∀ t e t', Inv t → Le (state i) t → e ≠ last → t.step e = some t' → P t → P t') : P (state j) := by
  have hends := hspan.ends
  suffices ∀ m, i < m → m ≤ j → P (state m) from this j hspan.lt le_rfl
  intro m hm hmj
  induction m, hm using Nat.le_induction with
  | base => exact hfirst _ (hspan.start ▸ hrun.steps i (by omega))
  | succ m hm ih =>
    exact hbusy _ _ _ (hrun.inv (by omega)) (hrun.le (by omega) (by omega)) (hspan.busy m hm (by omega))
      (hrun.steps m (by omega)) (ih (by omega))

/-- A read returns no less than the version at its first step and no more than the one at its last. -/
theorem read_between (hread : Span n event (.load r d key) (.read r) i j) :
    (state i).version d key ≤ (state j).result r ∧ (state j).result r ≤ (state j).version d key := by
  have hj : (state j).readers r = some ⟨d, key, (state i).table d⟩ := by
    refine hrun.span hread (P := fun t => t.readers r = _) (fun t hstep => ?_)
      fun t e t' _ _ he hstep => step_readers hstep he
    simp only [State.step] at hstep
    split at hstep <;> cases hstep
    exact update_self ..
  have hle := (hrun.inv hread.ends.le).reading r _ hj
  rw [State.result, hj]
  exact ⟨load_le ((hrun.le hread.lt.le hread.ends.le).heap _), hle⟩

/-- A change raises the versions it covers. -/
theorem change_lt {c : Change} (hc : c.covers d key) (hchange : Span n event (.lock c) .unlock i j) :
    (state i).version d key < (state j).version d key := by
  have hi := hrun.inv (hchange.lt.trans hchange.ends).le
  obtain ⟨ops, hmu, hops⟩ : Due (state i) d key (state j) :=
    hrun.span hchange (fun t => Due.lock hc) fun t e t' ht hle he hstep hdue => hdue.step hi ht hle he hstep
  have hstep := hrun.steps j hchange.ends
  rw [hchange.stop, State.step, hmu] at hstep
  cases ops with
  | nil => simpa using hops
  | cons op ops => cases hstep

end Run

/-- Reads of a key that follow each other, whoever reads, do not go back, and they advance over a change
between them that covers the key. -/
theorem version_reads_advance {state : ℕ → State} {event : ℕ → Event} (hrun : Run n state event)
    {i j q k l : ℕ} (hread : Span n event (.load r d key) (.read r) i j)
    (hnext : Span n event (.load q d key) (.read q) k l) (horder : j < k) :
    (state j).result r ≤ (state l).result q ∧ ∀ c a b, Span n event (.lock c) .unlock a b →
      c.covers d key → j < a → b < k → (state j).result r < (state l).result q := by
  have hfirst := (hrun.read_between hread).2
  have hsecond := (hrun.read_between hnext).1
  have hend := hnext.lt.trans hnext.ends
  refine ⟨?_, fun c a b hchange hc hja hbk => ?_⟩
  · exact (hfirst.trans ((hrun.le horder.le hend.le).version d key)).trans hsecond
  · calc
      (state j).result r ≤ (state j).version d key := hfirst
      _ ≤ (state a).version d key := (hrun.le hja.le (hchange.lt.trans hchange.ends).le).version d key
      _ < (state b).version d key := hrun.change_lt hc hchange
      _ ≤ (state k).version d key := (hrun.le hbk.le hend.le).version d key
      _ ≤ (state l).result q := hsecond

/-- A topic's version is read, bumped, retired and read again. -/
def readBumpRead : List Event :=
  [.load 0 .topics "a", .read 0, .lock (.bump .topics "a"), .store, .unlock, .lock (.retireTopic "a")] ++
    List.replicate 6 .store ++ [.unlock, .load 0 .topics "a", .read 0]

theorem readBumpRead_advances : ((runWith State.step {} (readBumpRead.take 1)).getD {}).result 0 <
    ((runWith State.step {} (readBumpRead.take 14)).getD {}).result 0 := by
  have hrun : Run 15 (fun i => (runWith State.step {} (readBumpRead.take i)).getD {})
      (readBumpRead.getD · .store) := ⟨rfl, fun i hi => by interval_cases i <;> rfl⟩
  exact (version_reads_advance hrun (i := 0) ⟨rfl, rfl, by decide, by decide, by omega⟩
    (k := 13) ⟨rfl, rfl, by decide, by decide, by omega⟩ (by decide)).2 (.retireTopic "a") 5 12
    ⟨rfl, rfl, by decide, by decide, fun m hm hm' => by interval_cases m <;> nofun⟩ rfl (by decide) (by decide)

end Narad.Metastore.Versions
