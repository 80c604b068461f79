import Mathlib.Data.List.Infix

/-!
# Lists in order of use

A least-recently-used store as the list of its entries, most recent first: an entry can be moved
to the front, a new one pushed, and entries dropped from the back while a budget is exceeded. The
newest entry is never dropped.

What a cache may hold is a property of its entries one by one, so the laws here are about
membership: none of the operations brings in an entry that was not there or was not pushed.
-/

namespace Narad.Lib

open List

variable {α : Type}

/-- Move the first entry with `p` to the front. -/
def moveToFront (p : α → Bool) (l : List α) : List α :=
  match l.find? p with
  | some x => x :: l.eraseP p
  | none => l

/-- Drop entries from the back while the list is over budget, but never the front one. -/
def evict (full : List α → Bool) : ℕ → List α → List α
  | 0, l => l
  | fuel + 1, l => if full l && decide (1 < l.length) then evict full fuel l.dropLast else l

/-- Push a new entry and evict down to the budget. -/
def pushFront (full : List α → Bool) (x : α) (l : List α) : List α :=
  evict full l.length (x :: l)

theorem mem_of_mem_moveToFront {p : α → Bool} {l : List α} {x : α} (h : x ∈ moveToFront p l) : x ∈ l := by
  unfold moveToFront at h
  split at h
  next y hy =>
    rcases mem_cons.mp h with rfl | hx
    · exact mem_of_find?_eq_some hy
    · exact mem_of_mem_eraseP hx
  · exact h

theorem evict_isPrefix (full : List α → Bool) (fuel : ℕ) (l : List α) : evict full fuel l <+: l := by
  induction fuel generalizing l with
  | zero => exact prefix_rfl
  | succ fuel ih =>
    unfold evict
    split
    · exact (ih _).trans (List.dropLast_prefix l)
    · exact prefix_rfl

theorem mem_of_mem_pushFront {full : List α → Bool} {x y : α} {l : List α}
    (h : y ∈ pushFront full x l) : y = x ∨ y ∈ l :=
  mem_cons.mp ((evict_isPrefix full l.length (x :: l)).subset h)

end Narad.Lib
