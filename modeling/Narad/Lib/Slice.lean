import Mathlib.Data.List.Basic
import Mathlib.Order.Nat

/-!
# Slices of shared arrays

A slice names an array and how many of its cells it covers; the nil slice is `none`. Appending
writes the next cell in place, or moves to a new array when the capacity is used up. Slices of
different arrays do not see each other's writes, which is what the frame lemmas say.
-/

namespace Narad.Lib

open List
open Function (update_of_ne update_self)

variable {α : Type*}

structure Slice where
  array : ℕ
  len : ℕ
  deriving DecidableEq

/-- The arrays allocated so far; a cell may hold nothing. -/
structure Arrays (α : Type*) where
  cells : ℕ → List (Option α)
  fresh : ℕ

namespace Arrays

def read (h : Arrays α) : Option Slice → List (Option α)
  | none => []
  | some s => (h.cells s.array).take s.len

/-- Append one element, in place unless the array has to grow. -/
def push (h : Arrays α) (s : Option Slice) (x : α) (grow : Bool) : Arrays α × Slice :=
  match s, grow with
  | some s, false =>
    let cells := (h.cells s.array).take s.len ++ some x :: (h.cells s.array).drop (s.len + 1)
    ({ h with cells := Function.update h.cells s.array cells }, ⟨s.array, s.len + 1⟩)
  | s, _ =>
    (⟨Function.update h.cells h.fresh (h.read s ++ [some x]), h.fresh + 1⟩, ⟨h.fresh, (h.read s).length + 1⟩)

/-- Overwrite the slice's cells. -/
def store (h : Arrays α) (s : Option Slice) (xs : List (Option α)) : Arrays α :=
  match s with
  | none => h
  | some s => { h with cells := Function.update h.cells s.array (xs ++ (h.cells s.array).drop s.len) }

def clear (h : Arrays α) (s : Option Slice) : Arrays α :=
  h.store s (List.replicate (h.read s).length none)

/-- The slice lies within an allocated array. -/
def Valid (h : Arrays α) (s : Option Slice) : Prop :=
  ∀ t ∈ s, t.array < h.fresh ∧ t.len ≤ (h.cells t.array).length

/-- The slices are of different arrays. -/
def Apart (s t : Option Slice) : Prop :=
  ∀ a ∈ s, ∀ b ∈ t, a.array ≠ b.array

variable {h : Arrays α} {s t : Option Slice} {x : α} {grow : Bool} {xs : List (Option α)}

theorem Apart.symm (hst : Apart s t) : Apart t s :=
  fun a ha b hb => (hst b hb a ha).symm

theorem valid_none (h : Arrays α) : h.Valid none := by
  simp [Valid]

theorem Valid.read_length {s : Slice} (hs : h.Valid (some s)) : (h.read (some s)).length = s.len := by
  simp only [read, length_take]
  have := (hs s rfl).2
  omega

theorem read_push (hs : h.Valid s) : (h.push s x grow).1.read (some (h.push s x grow).2) = h.read s ++ [some x] := by
  unfold push
  split
  next s =>
    have hlen : ((h.cells s.array).take s.len).length = s.len := hs.read_length
    simp only [read, update_self]
    rw [take_append, hlen, take_of_length_le (by omega), Nat.add_sub_cancel_left]
    rfl
  · change (Function.update h.cells h.fresh (h.read s ++ [some x]) h.fresh).take _ = _
    rw [update_self]
    exact take_of_length_le (by simp)

theorem valid_push (hs : h.Valid s) : (h.push s x grow).1.Valid (some (h.push s x grow).2) := by
  unfold push
  split
  next s =>
    intro t ht
    cases ht
    have hlen : ((h.cells s.array).take s.len).length = s.len := hs.read_length
    refine ⟨(hs s rfl).1, ?_⟩
    simp only [update_self, length_append, length_cons, hlen]
    omega
  · intro t ht
    cases ht
    exact ⟨Nat.lt_succ_self _, by simp⟩

/-- Another slice does not see an append. -/
theorem read_push_of_apart (ht : h.Valid t) (hst : Apart s t) : (h.push s x grow).1.read t = h.read t := by
  cases t with
  | none => rfl
  | some t =>
    unfold push
    split
    next s => simp only [read, update_of_ne (hst s rfl t rfl).symm]
    · simp only [read, update_of_ne (ht t rfl).1.ne]

theorem valid_push_of_apart (ht : h.Valid t) (hst : Apart s t) : (h.push s x grow).1.Valid t := by
  intro t' ht'
  cases ht'
  have hold := ht t' rfl
  unfold push
  split
  next s =>
    dsimp only
    rw [update_of_ne (hst s rfl t' rfl).symm]
    exact hold
  · dsimp only
    rw [update_of_ne hold.1.ne]
    exact ⟨Nat.lt_succ_of_lt hold.1, hold.2⟩

/-- The slice after an append is of its old array or of a new one. -/
theorem apart_push (ht : h.Valid t) (hst : Apart s t) : Apart (some (h.push s x grow).2) t := by
  intro a ha b hb
  cases ha
  unfold push
  split
  next s => exact hst s rfl b hb
  · exact (ht b hb).1.ne'

theorem read_store (hs : h.Valid s) (hlen : xs.length = (h.read s).length) : (h.store s xs).read s = xs := by
  cases s with
  | none => exact (length_eq_zero_iff.mp hlen).symm
  | some s =>
    rw [hs.read_length] at hlen
    simp [store, read, update_self, ← hlen]

theorem read_store_of_apart (hst : Apart s t) : (h.store s xs).read t = h.read t := by
  cases s with
  | none => rfl
  | some s =>
    cases t with
    | none => rfl
    | some t => simp only [store, read, update_of_ne (hst s rfl t rfl).symm]

theorem valid_store (hs : h.Valid s) (hlen : xs.length = (h.read s).length) (ht : h.Valid t) :
    (h.store s xs).Valid t := by
  cases s with
  | none => exact ht
  | some s =>
    rw [hs.read_length] at hlen
    intro t' ht'
    cases ht'
    have hold := ht t' rfl
    refine ⟨hold.1, ?_⟩
    simp only [store]
    by_cases heq : t'.array = s.array
    · rw [heq] at hold ⊢
      rw [update_self, length_append, length_drop, hlen]
      omega
    · rw [update_of_ne heq]
      exact hold.2

end Arrays

end Narad.Lib
