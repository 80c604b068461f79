import Mathlib.Order.Nat
import Mathlib.Data.List.Basic

/-!
# The dispatch checkpoint

The checkpoint is one value in a file that is overwritten in place. A store writes it and arms a
background flush; the flush syncs the file without the writer's lock, so further stores may land
meanwhile. `synced` is the highest value known to be on stable storage.

A file remembers the values written to it. A sync covers those written before it started, and a power
loss brings back the last covered value or any later one. An overwrite of the value is atomic.
-/

namespace Narad.Ingress

open Option

structure CheckpointFile where
  present : Bool
  /-- The values written, oldest first. -/
  values : List ℕ
  /-- How many of them a successful sync covered. -/
  covered : ℕ
  deriving DecidableEq

namespace CheckpointFile

variable (f : CheckpointFile)

def write (n : ℕ) : CheckpointFile :=
  { f with values := f.values ++ [n] }

def cover (k : ℕ) : CheckpointFile :=
  { f with covered := max f.covered k }

/-- The file after a power loss that keeps the first `k` writes, and all that were covered. With none of
them only its name may be left. -/
def powerLoss (k : ℕ) (named : Bool) : CheckpointFile :=
  let kept := f.values.take (max f.covered k)
  ⟨f.present && (named || !kept.isEmpty), kept, kept.length⟩

end CheckpointFile

/-- A missing or empty file reads as 0. -/
def loadCheckpoint (f : CheckpointFile) : ℕ :=
  f.values.getLast?.getD 0

structure CheckpointWriter where
  fileOpen : Bool
  dirSynced : Bool
  dirty : Bool
  flushArmed : Bool
  /-- The value a running flush covers, and the number of writes before it. -/
  syncing : Option (ℕ × ℕ)
  syncErr : Bool
  written : ℕ
  synced : ℕ
  deriving DecidableEq

def newCheckpointWriter : CheckpointWriter :=
  ⟨false, false, false, false, none, false, 0, 0⟩

/-- Which effects of a store succeed; a failed write may have landed. -/
structure StoreIO where
  opens : Bool
  writes : Bool
  lands : Bool
  syncs : Bool
  syncsDir : Bool

def StoreIO.calm : StoreIO :=
  ⟨true, true, true, true, true⟩

/-- The writer, the file and whether the call returned no error. -/
abbrev Stored := CheckpointWriter × CheckpointFile × Bool

namespace CheckpointWriter

variable (w : CheckpointWriter)

def markSynced (v : ℕ) : CheckpointWriter :=
  { w with synced := max w.synced v }

/-- `resetLocked`; it waits for a running flush. -/
def reset : Option CheckpointWriter :=
  if w.syncing.isSome then none else some { w with fileOpen := false, dirty := false }

variable (f : CheckpointFile)

/-- The part of a store after the file is open. -/
def storeOpen (n : ℕ) (io : StoreIO) : Option Stored :=
  if !io.writes then
    w.reset.map fun w => (w, if io.lands then f.write n else f, false)
  else
    let w := { w with written := n }
    let f := f.write n
    if !w.dirSynced then
      if !io.syncs then w.reset.map fun w => (w, f, false)
      else if !io.syncsDir then some (w, f, false)
      else some ({ w.markSynced n with dirSynced := true }, f.cover f.values.length, true)
    else some ({ w with dirty := true, flushArmed := true }, f, true)

def store (n : ℕ) (io : StoreIO) : Option Stored :=
  if w.syncErr then w.reset.map fun w => ({ w with syncErr := false }, f, false)
  else if w.fileOpen then w.storeOpen f n io
  else if !io.opens then some (w, f, false)
  else
    -- a file that was already there is taken to have a durable name
    storeOpen { w with fileOpen := true, dirSynced := f.present } { f with present := true } n io

/-- The background flush starts: it takes the value written last. -/
def flush : Option CheckpointWriter :=
  if !w.flushArmed then none
  else
    let w := { w with flushArmed := false }
    if !w.fileOpen || !w.dirty || w.syncing.isSome then some w
    else some { w with dirty := false, syncing := some (w.written, f.values.length) }

/-- The flush ends; a store that landed meanwhile gets a flush of its own. -/
def flushed (ok : Bool) : Option (CheckpointWriter × CheckpointFile) :=
  w.syncing.map fun (value, count) =>
    if ok then
      let w := { w.markSynced value with syncing := none }
      ({ w with flushArmed := w.flushArmed || (w.dirty && w.fileOpen) }, f.cover count)
    else ({ w with syncing := none, dirty := true, syncErr := true }, f)

/-- The rest of `storeDurable` after its store. -/
def settle : CheckpointWriter × CheckpointFile :=
  ({ w.markSynced w.written with dirty := false }, if w.dirty then f.cover f.values.length else f)

def close (ok : Bool) : Option (CheckpointWriter × CheckpointFile) :=
  if w.syncing.isSome then none
  else if !w.fileOpen then some (w, f)
  else if w.dirty && ok then
    some ({ w.markSynced w.written with dirty := false, fileOpen := false }, f.cover f.values.length)
  else some ({ w with dirty := false, fileOpen := false }, f)

end CheckpointWriter

/-- Every value that the file can come back with, or that the writer takes for synced, has a property. -/
structure AllValues (P : ℕ → Prop) (w : CheckpointWriter) (f : CheckpointFile) : Prop where
  values : ∀ v ∈ f.values, P v
  written : P w.written
  synced : P w.synced
  syncing : ∀ p, w.syncing = some p → P p.1

section

variable {P : ℕ → Prop} {w w' : CheckpointWriter} {f f' : CheckpointFile} {n : ℕ} {io : StoreIO} {ok : Bool}

theorem AllValues.mono {Q : ℕ → Prop} (h : AllValues P w f) (hle : ∀ v, P v → Q v) : AllValues Q w f :=
  ⟨fun v hv => hle v (h.values v hv), hle _ h.written, hle _ h.synced, fun p hp => hle _ (h.syncing p hp)⟩

theorem max_of {v u : ℕ} (hv : P v) (hu : P u) : P (max v u) := by
  rcases le_total v u with hle | hle
  · rwa [max_eq_right hle]
  · rwa [max_eq_left hle]

theorem mem_write {v : ℕ} (hf : ∀ v ∈ f.values, P v) (hn : P n) (hv : v ∈ (f.write n).values) : P v := by
  rcases List.mem_append.mp hv with hv | hv
  · exact hf v hv
  · rw [List.mem_singleton.mp hv]
    exact hn

section

variable (h : AllValues P w f)
include h

theorem AllValues.reset (hw : w.reset = some w') : AllValues P w' f := by
  unfold CheckpointWriter.reset at hw
  split at hw <;> cases hw
  exact { h with }

theorem AllValues.storeOpen (hn : P n) (hstore : w.storeOpen f n io = some (w', f', ok)) : AllValues P w' f' := by
  unfold CheckpointWriter.storeOpen at hstore
  split at hstore
  · obtain ⟨w₁, hw, heq⟩ := map_eq_some_iff.mp hstore
    cases heq
    have hw₁ := h.reset hw
    split
    · exact { hw₁ with values := fun v hv => mem_write hw₁.values hn hv }
    · exact hw₁
  have hwritten : AllValues P { w with written := n } (f.write n) :=
    { h with written := hn, values := fun v hv => mem_write h.values hn hv }
  dsimp only at hstore
  split at hstore
  · split at hstore
    · obtain ⟨w₁, hw, heq⟩ := map_eq_some_iff.mp hstore
      cases heq
      exact hwritten.reset hw
    split at hstore
    · cases hstore
      exact hwritten
    · cases hstore
      exact { hwritten with synced := max_of h.synced hn }
  · cases hstore
    exact { hwritten with }

theorem AllValues.store (hn : P n) (hstore : w.store f n io = some (w', f', ok)) : AllValues P w' f' := by
  unfold CheckpointWriter.store at hstore
  split at hstore
  · obtain ⟨w₁, hw, heq⟩ := map_eq_some_iff.mp hstore
    cases heq
    exact { h.reset hw with }
  split at hstore
  · exact h.storeOpen hn hstore
  split at hstore
  · cases hstore
    exact h
  have hopen : AllValues P { w with fileOpen := true, dirSynced := f.present } { f with present := true } :=
    { h with }
  exact hopen.storeOpen hn hstore

theorem AllValues.flush (hflush : w.flush f = some w') : AllValues P w' f := by
  unfold CheckpointWriter.flush at hflush
  split at hflush
  · cases hflush
  dsimp only at hflush
  split at hflush <;> cases hflush
  · exact { h with }
  · refine { h with syncing := fun p hp => ?_ }
    cases hp
    exact h.written

theorem AllValues.flushed (hflushed : w.flushed f ok = some (w', f')) : AllValues P w' f' := by
  obtain ⟨⟨value, count⟩, hsyncing, heq⟩ := map_eq_some_iff.mp hflushed
  dsimp only at heq
  split at heq <;> cases heq
  · exact { h with synced := max_of h.synced (h.syncing _ hsyncing), syncing := fun p hp => absurd hp (by simp) }
  · exact { h with syncing := fun p hp => absurd hp (by simp) }

theorem AllValues.settle : AllValues P (w.settle f).1 (w.settle f).2 := by
  unfold CheckpointWriter.settle
  refine { h with synced := max_of h.synced h.written, values := ?_ }
  split <;> exact h.values

theorem AllValues.close (hclose : w.close f ok = some (w', f')) : AllValues P w' f' := by
  unfold CheckpointWriter.close at hclose
  split at hclose
  · cases hclose
  split at hclose
  · cases hclose
    exact h
  split at hclose <;> cases hclose
  · exact { h with synced := max_of h.synced h.written }
  · exact { h with }

end

theorem loadCheckpoint_of (hf : ∀ v ∈ f.values, P v) (hzero : P 0) : P (loadCheckpoint f) := by
  unfold loadCheckpoint
  cases hlast : f.values.getLast? with
  | none => exact hzero
  | some v => exact hf v (List.mem_of_getLast? hlast)

/-- On a new writer a store with no failure succeeds. -/
theorem store_new (f : CheckpointFile) (n : ℕ) : ∃ w f', newCheckpointWriter.store f n .calm = some (w, f', true) := by
  unfold CheckpointWriter.store CheckpointWriter.storeOpen newCheckpointWriter StoreIO.calm
  cases f.present <;> exact ⟨_, _, rfl⟩

end

end Narad.Ingress
