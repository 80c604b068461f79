import Mathlib.Data.List.Basic

/-!
# Maps from a range of offsets

A list of items assigned to consecutive offsets from `first` on. Assigning at an offset replaces
everything from there on, so what lies below stays. `Holds` says that a list of items is what the
map has from an offset on; it is the form in which partial copies of the map are described.

`Runs` says that a range of offsets is cut into consecutive runs, one for each owner in a list.
-/

namespace Narad.Lib

open List

variable {α : Type*}

structure OffsetMap (α : Type*) where
  first : ℕ
  items : List α

namespace OffsetMap

variable (m : OffsetMap α)

/-- The offset after the last item. -/
def next : ℕ :=
  m.first + m.items.length

def get (o : ℕ) : Option α :=
  if o < m.first then none else m.items[o - m.first]?

/-- Give `xs` the offsets from `o` on. -/
def assign (o : ℕ) (xs : List α) : OffsetMap α :=
  { m with items := m.items.take (o - m.first) ++ xs }

/-- The map has the items `xs` from offset `base` on. -/
def Holds (base : ℕ) (xs : List α) : Prop :=
  ∀ i x, xs[i]? = some x → m.get (base + i) = some x

variable {m : OffsetMap α} {base o i : ℕ} {x : α} {xs ys : List α}

@[simp] theorem assign_first (m : OffsetMap α) (o : ℕ) (xs : List α) : (m.assign o xs).first = m.first :=
  rfl

theorem assign_next (hlow : m.first ≤ o) (hhigh : o ≤ m.next) : (m.assign o xs).next = o + xs.length := by
  simp only [next, assign, length_append, length_take] at hhigh ⊢
  omega

theorem get_assign_of_lt (hhigh : o ≤ m.next) (hi : i < o) : (m.assign o xs).get i = m.get i := by
  unfold next at hhigh
  unfold get
  rw [assign_first]
  split
  · rfl
  · rw [assign, getElem?_append_left (by rw [length_take]; omega), getElem?_take_of_lt (by omega)]

theorem holds_assign (hlow : m.first ≤ o) (hhigh : o ≤ m.next) : (m.assign o xs).Holds o xs := by
  intro i x hx
  unfold next at hhigh
  have hlen : (m.items.take (o - m.first)).length = o - m.first := by
    rw [length_take]
    omega
  rw [get, assign_first, if_neg (by omega), assign, getElem?_append_right (by rw [hlen]; omega), hlen, ← hx]
  congr 1
  omega

namespace Holds

section

variable (h : m.Holds base xs)
include h

/-- What lies below the assigned offsets is still there. -/
theorem assign (hend : base + xs.length ≤ o) (hhigh : o ≤ m.next) : (m.assign o ys).Holds base xs := by
  intro i x hx
  have hlt := (List.getElem?_eq_some_iff.mp hx).1
  rw [get_assign_of_lt hhigh (by omega)]
  exact h i x hx

theorem take (n : ℕ) : m.Holds base (xs.take n) := by
  intro i x hx
  rw [getElem?_take] at hx
  split at hx
  · exact h i x hx
  · cases hx

theorem drop (n : ℕ) : m.Holds (base + n) (xs.drop n) := by
  intro i x hx
  rw [getElem?_drop] at hx
  rw [Nat.add_assoc]
  exact h (n + i) x hx

theorem append (h' : m.Holds (base + xs.length) ys) : m.Holds base (xs ++ ys) := by
  intro i x hx
  rw [getElem?_append] at hx
  split at hx
  · exact h i x hx
  · have := h' (i - xs.length) x hx
    rwa [show base + xs.length + (i - xs.length) = base + i by omega] at this

end

theorem nil (m : OffsetMap α) (base : ℕ) : m.Holds base [] := by
  intro i x hx
  cases hx

end Holds

end OffsetMap

/-- The owners hold consecutive runs that fill the offsets from `start` up to `stop`. -/
def Runs {ι : Type*} (first len : ι → ℕ) : ℕ → List ι → ℕ → Prop
  | start, [], stop => start = stop
  | start, i :: owners, stop => first i = start ∧ Runs first len (start + len i) owners stop

namespace Runs

variable {ι : Type*} {first len : ι → ℕ} {start stop : ℕ} {owners : List ι}

section

variable (h : Runs first len start owners stop)
include h

theorem le : start ≤ stop := by
  induction owners generalizing start with
  | nil => exact Nat.le_of_eq h
  | cons i owners ih => exact Nat.le_trans (Nat.le_add_right _ _) (ih h.2)

theorem within {i : ι} (hi : i ∈ owners) : start ≤ first i ∧ first i + len i ≤ stop := by
  induction owners generalizing start with
  | nil => exact absurd hi (by simp)
  | cons j owners ih =>
    obtain ⟨hfirst, hrest⟩ := h
    rcases mem_cons.mp hi with rfl | hi
    · have := hrest.le
      omega
    · have := ih hrest hi
      omega

theorem congr {first' len' : ι → ℕ} (hsame : ∀ i ∈ owners, first' i = first i ∧ len' i = len i) :
    Runs first' len' start owners stop := by
  induction owners generalizing start with
  | nil => exact h
  | cons i owners ih =>
    obtain ⟨hfirst, hlen⟩ := hsame i (.head _)
    refine ⟨hfirst.trans h.1, ?_⟩
    rw [hlen]
    exact ih h.2 fun j hj => hsame j (.tail _ hj)

/-- Every offset of the range lies in some owner's run. -/
theorem covers {o : ℕ} (hlow : start ≤ o) (hhigh : o < stop) : ∃ i ∈ owners, first i ≤ o ∧ o < first i + len i := by
  induction owners generalizing start with
  | nil => exact absurd h (show start ≠ stop by omega)
  | cons i owners ih =>
    obtain ⟨hfirst, hrest⟩ := h
    by_cases ho : o < start + len i
    · exact ⟨i, .head _, by omega, by omega⟩
    · obtain ⟨j, hj, hrun⟩ := ih hrest (by omega)
      exact ⟨j, .tail _ hj, hrun⟩

/-- No offset lies in the runs of two owners. -/
theorem disjoint {i j : ι} (hi : i ∈ owners) (hj : j ∈ owners) {o : ℕ} (hoi : first i ≤ o ∧ o < first i + len i)
    (hoj : first j ≤ o ∧ o < first j + len j) : i = j := by
  induction owners generalizing start with
  | nil => exact absurd hi (by simp)
  | cons k owners ih =>
    obtain ⟨hfirst, hrest⟩ := h
    rcases mem_cons.mp hi with rfl | hi' <;> rcases mem_cons.mp hj with rfl | hj'
    · rfl
    · have := hrest.within hj'
      omega
    · have := hrest.within hi'
      omega
    · exact ih hrest hi' hj'

end

/-- Each owner's run of the concatenation is its own part. -/
theorem holds {m : OffsetMap α} {part : ι → List α} (h : Runs first (fun i => (part i).length) start owners stop)
    (hall : m.Holds start (owners.flatMap part)) {i : ι} (hi : i ∈ owners) : m.Holds (first i) (part i) := by
  induction owners generalizing start with
  | nil => exact absurd hi (by simp)
  | cons j owners ih =>
    obtain ⟨hfirst, hrest⟩ := h
    rw [flatMap_cons] at hall
    rcases mem_cons.mp hi with rfl | hi
    · have := hall.take (part i).length
      rwa [take_left, ← hfirst] at this
    have := hall.drop (part j).length
    rw [drop_left] at this
    exact ih hrest this hi

end Runs

end Narad.Lib
