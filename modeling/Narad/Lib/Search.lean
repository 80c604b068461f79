import Mathlib.Tactic.Linarith

/-!
# Binary search over a list

The halving search for the first index at which a predicate holds. On a list whose elements fail
the predicate up to some point and satisfy it from there on, it returns exactly that point.
-/

namespace Narad.Lib

open List

/-- Narrow `[i, j)` by halves towards the first index where `f` holds. -/
def searchLoop (f : ℕ → Bool) : ℕ → ℕ → ℕ → ℕ
  | 0, i, _ => i
  | fuel + 1, i, j =>
    if i < j then
      let h := (i + j) / 2
      if f h then searchLoop f fuel i h else searchLoop f fuel (h + 1) j
    else i

/-- The index of the first element with `p`, by halving. -/
def search {α : Type} (l : List α) (p : α → Bool) : ℕ :=
  searchLoop (fun i => l[i]?.any p) l.length 0 l.length

/-- The loop finds the switch point `m` of a predicate that is false below it and true from it. -/
theorem searchLoop_eq (f : ℕ → Bool) (m fuel i j : ℕ) (hfuel : j ≤ i + fuel) (hi : i ≤ m)
    (hj : m ≤ j) (hlow : ∀ k, i ≤ k → k < m → f k = false) (hhigh : ∀ k, m ≤ k → k < j → f k = true) :
    searchLoop f fuel i j = m := by
  induction fuel generalizing i j with unfold searchLoop
  | zero => omega
  | succ fuel ih =>
    split
    · dsimp only
      split
      next hh =>
        have hle : m ≤ (i + j) / 2 := by
          by_contra hlt
          rw [hlow _ (by omega) (by omega)] at hh
          cases hh
        exact ih i _ (by omega) hi hle hlow fun k hk hlt => hhigh k hk (by omega)
      next hh =>
        have hlt : (i + j) / 2 < m := by
          by_contra hle
          exact hh (hhigh _ (by omega) (by omega))
        exact ih _ j (by omega) hlt hj (fun k hk => hlow k (by omega)) hhigh
    · omega

/-- On a list that fails `p` up to `b` and satisfies it from there, the search stops at `b`. -/
theorem search_append {α : Type} {a b : List α} {p : α → Bool} (ha : ∀ x ∈ a, p x = false)
    (hb : ∀ x ∈ b, p x = true) : search (a ++ b) p = a.length := by
  refine searchLoop_eq _ a.length _ _ _ (by omega) (by omega) (by simp) ?_ ?_
  · intro k _ hk
    rw [getElem?_append_left hk, getElem?_eq_getElem hk]
    exact ha _ (getElem_mem hk)
  · intro k hk hlt
    have hlen : k - a.length < b.length := by
      rw [length_append] at hlt
      omega
    rw [getElem?_append_right hk, getElem?_eq_getElem hlen]
    exact hb _ (getElem_mem hlen)

/-- A list along which `p` never turns false again splits at the point the search returns. -/
theorem exists_search_split {α : Type} (l : List α) (p : α → Bool) (h : l.Pairwise fun x y => p x = true → p y = true) :
    ∃ a b, l = a ++ b ∧ (∀ x ∈ a, p x = false) ∧ (∀ x ∈ b, p x = true) ∧ search l p = a.length := by
  have hsplit : ∃ a b, l = a ++ b ∧ (∀ x ∈ a, p x = false) ∧ ∀ x ∈ b, p x = true := by
    induction l with
    | nil => exact ⟨[], [], rfl, by simp, by simp⟩
    | cons x l ih =>
      obtain ⟨hx, hl⟩ := pairwise_cons.mp h
      cases hp : p x with
      | true =>
        refine ⟨[], x :: l, rfl, by simp, fun y hy => ?_⟩
        rcases mem_cons.mp hy with rfl | hy
        · exact hp
        · exact hx y hy hp
      | false =>
        obtain ⟨a, b, rfl, ha, hb⟩ := ih hl
        refine ⟨x :: a, b, rfl, fun y hy => ?_, hb⟩
        rcases mem_cons.mp hy with rfl | hy
        · exact hp
        · exact ha y hy
  obtain ⟨a, b, rfl, ha, hb⟩ := hsplit
  exact ⟨a, b, rfl, ha, hb, search_append ha hb⟩

end Narad.Lib
