import Mathlib

/-!
# A slice-backed binary min-heap

The array form of a priority queue: the children of position `i` are at `2 * i + 1` and
`2 * i + 2`, and the smallest key is at position zero. The operations are total functions on
arrays; each loop carries a step budget that its own index already bounds. Every operation permutes the
elements and ends with the heap order.
-/

namespace Narad.Lib.MinHeap

open List

variable {α : Type*} [Inhabited α]

variable (key : α → ℤ)

/-- Compare the keys of two positions. -/
def less (h : Array α) (i j : ℕ) : Bool :=
  decide (key h[i]! < key h[j]!)

/-- Move the element at `j` towards the root while it is smaller than its parent. -/
def upLoop (key : α → ℤ) : ℕ → Array α → ℕ → Array α
  | 0, h, _ => h
  | budget + 1, h, j =>
    let i := (j - 1) / 2
    if i = j ∨ less key h j i = false then h
    else upLoop key budget (h.swapIfInBounds i j) i

/-- Sift up from `j`; the parent index is strictly smaller, so `j` steps are enough. -/
def up (h : Array α) (j : ℕ) : Array α := upLoop key j h j

/-- Move the element at `i` away from the root, within the first `n` positions. -/
def downLoop (key : α → ℤ) (n : ℕ) : ℕ → Array α → ℕ → Array α
  | 0, h, _ => h
  | budget + 1, h, i =>
    let j1 := 2 * i + 1
    if n ≤ j1 then h
    else
      let j := if j1 + 1 < n ∧ less key h (j1 + 1) j1 then j1 + 1 else j1
      if less key h j i = false then h
      else downLoop key n budget (h.swapIfInBounds i j) j

/-- Sift down from `i`; the child index grows at every step, so `n` steps are enough. -/
def down (h : Array α) (i n : ℕ) : Array α := downLoop key n n h i

/-- Add an element. -/
def push (h : Array α) (e : α) : Array α := up key (h.push e) h.size

/-- Remove the root, returning it with the remaining heap. -/
def pop (h : Array α) : α × Array α :=
  let n := h.size - 1
  let sifted := down key (h.swapIfInBounds 0 n) 0 n
  (sifted[n]!, sifted.pop)

/-- Establish the heap order over a whole array, from the last parent down to the root. -/
def init (h : Array α) : Array α :=
  (List.range (h.size / 2)).reverse.foldl (fun acc i => down key acc i h.size) h

variable {key : α → ℤ} {h : Array α} {i j k n lo : ℕ}

/-- No position below `n` whose parent is at `lo` or later has a smaller key than its parent. -/
def OrderedFrom (key : α → ℤ) (lo n : ℕ) (h : Array α) : Prop :=
  ∀ k, 0 < k → k < n → lo ≤ (k - 1) / 2 → key h[(k - 1) / 2]! ≤ key h[k]!

/-- No element has a smaller key than its parent. -/
def Ordered (key : α → ℤ) (h : Array α) : Prop :=
  OrderedFrom key 0 h.size h

theorem getElem!_swap (hi : i < h.size) (hj : j < h.size) (k : ℕ) : (h.swapIfInBounds i j)[k]! =
    if k = i then h[j]! else if k = j then h[i]! else h[k]! := by
  by_cases hk : k < h.size
  · simp only [Array.swapIfInBounds, hi, hj, dite_true]
    rw [getElem!_pos _ k (by simpa using hk), Array.getElem_swap]
    grind
  · grind [Array.size_swapIfInBounds]

omit [Inhabited α] in
theorem swap_perm (h : Array α) (i j : ℕ) : (h.swapIfInBounds i j).Perm h := by
  unfold Array.swapIfInBounds
  split
  · split
    · exact Array.swap_perm ..
    · exact .refl h
  · exact .refl h

/-- The smallest key is at the root. -/
theorem Ordered.root_le (hord : Ordered key h) (hk : k < h.size) : key h[0]! ≤ key h[k]! := by
  induction k using Nat.strongRecOn with
  | ind k ih =>
    rcases Nat.eq_zero_or_pos k with rfl | hpos
    · exact le_rfl
    · exact le_trans (ih _ (by omega) (by omega)) (hord k hpos hk (Nat.zero_le _))

theorem upLoop_perm (budget : ℕ) (h : Array α) (j : ℕ) : (upLoop key budget h j).Perm h := by
  induction budget generalizing h j with
  | zero => exact .refl h
  | succ budget ih =>
    unfold upLoop
    dsimp only
    split
    · exact .refl h
    · exact (ih _ _).trans (swap_perm ..)

/-- Sifting up mends the order between a position and its parent. -/
theorem upLoop_ordered {budget : ℕ} (hbudget : j ≤ budget) (hj : j < h.size)
    (hrest : ∀ k, 0 < k → k < h.size → k ≠ j → key h[(k - 1) / 2]! ≤ key h[k]!)
    (hgrand : ∀ k, 0 < k → k < h.size → (k - 1) / 2 = j → 0 < j → key h[(j - 1) / 2]! ≤ key h[k]!) :
    OrderedFrom key 0 h.size (upLoop key budget h j) := by
  induction budget generalizing h j with
  | zero =>
    intro k hpos hk _
    exact hrest k hpos hk (by omega)
  | succ budget ih =>
    unfold upLoop
    dsimp only
    split
    next hstop =>
      intro k hpos hk _
      rcases eq_or_ne k j with rfl | hne
      · simpa [less, show (k - 1) / 2 ≠ k by omega] using hstop
      · exact hrest k hpos hk hne
    next hstop =>
      have hlt : key h[j]! < key h[(j - 1) / 2]! := by simp [less] at hstop; omega
      have hswap := getElem!_swap (h := h) (i := (j - 1) / 2) (j := j) (by omega) hj
      rw [← show (h.swapIfInBounds ((j - 1) / 2) j).size = h.size from Array.size_swapIfInBounds]
      apply ih
      · omega
      · rw [Array.size_swapIfInBounds]; omega
      · intro k hpos hk hne
        rw [Array.size_swapIfInBounds] at hk
        rw [hswap, hswap]
        have hk' := hrest k hpos hk
        have hchild := hgrand k hpos hk
        clear hrest hgrand ih hswap
        grind
      · intro k hpos hk hparent hpos'
        rw [Array.size_swapIfInBounds] at hk
        rw [hswap, hswap]
        have hk' := hrest k hpos hk
        have hparent' := hrest ((j - 1) / 2)
        clear hrest hgrand ih hswap
        grind

theorem downLoop_perm (n budget : ℕ) (h : Array α) (i : ℕ) : (downLoop key n budget h i).Perm h := by
  induction budget generalizing h i with
  | zero => exact .refl h
  | succ budget ih =>
    unfold downLoop
    dsimp only
    split_ifs
    all_goals first | exact .refl h | exact (ih _ _).trans (swap_perm ..)

/-- Sifting down mends the order between a position and its children, and leaves the rest alone. -/
theorem downLoop_ordered {budget : ℕ} (hbudget : n ≤ i + budget) (hn : n ≤ h.size) (hi : lo ≤ i)
    (hrest : ∀ k, 0 < k → k < n → lo ≤ (k - 1) / 2 → (k - 1) / 2 ≠ i → key h[(k - 1) / 2]! ≤ key h[k]!)
    (hgrand : ∀ k, 0 < k → k < n → (k - 1) / 2 = i → 0 < i → lo ≤ (i - 1) / 2 → key h[(i - 1) / 2]! ≤ key h[k]!) :
    OrderedFrom key lo n (downLoop key n budget h i) ∧ ∀ k, n ≤ k → (downLoop key n budget h i)[k]! = h[k]! := by
  induction budget generalizing h i with
  | zero => exact ⟨fun k hpos hk hlo => hrest k hpos hk hlo (by omega), fun _ _ => rfl⟩
  | succ budget ih =>
    unfold downLoop
    dsimp only
    split
    · exact ⟨fun k hpos hk hlo => hrest k hpos hk hlo (by omega), fun _ _ => rfl⟩
    next hchild =>
      generalize hj : (if 2 * i + 1 + 1 < n ∧ less key h (2 * i + 1 + 1) (2 * i + 1) = true then 2 * i + 1 + 1
        else 2 * i + 1) = j
      -- the chosen child is the smaller one
      obtain ⟨hjn, hij, hparent, hmin⟩ : j < n ∧ i < j ∧ (j - 1) / 2 = i ∧
          ∀ k, 0 < k → k < n → (k - 1) / 2 = i → key h[j]! ≤ key h[k]! := by
        simp only [less, decide_eq_true_eq] at hj
        split at hj
        all_goals
          subst hj
          refine ⟨by omega, by omega, by omega, fun k hpos hk heq => ?_⟩
          obtain rfl | rfl : k = 2 * i + 1 ∨ k = 2 * i + 1 + 1 := by omega
          all_goals omega
      split
      next hstop =>
        simp only [less, decide_eq_false_iff_not, not_lt] at hstop
        refine ⟨fun k hpos hk hlo => ?_, fun _ _ => rfl⟩
        rcases eq_or_ne ((k - 1) / 2) i with heq | hne
        · rw [heq]
          exact le_trans hstop (hmin k hpos hk heq)
        · exact hrest k hpos hk hlo hne
      next hstop =>
        simp only [less, decide_eq_false_iff_not, not_lt, not_le] at hstop
        have hswap := getElem!_swap (h := h) (i := i) (j := j) (by omega) (by omega)
        obtain ⟨hord, hsame⟩ := ih (h := h.swapIfInBounds i j) (i := j) (by omega)
          (by rw [Array.size_swapIfInBounds]; exact hn) (by omega)
          (by
            intro k hpos hk hlo hne
            rw [hswap, hswap]
            have hk' := hrest k hpos hk hlo
            have hsmall := hmin k hpos hk
            have hup := hgrand j
            clear hrest hgrand ih hswap hmin
            grind)
          (by
            intro k hpos hk heq hj hlo
            rw [hswap, hswap]
            have hk' := hrest k hpos hk
            clear hrest hgrand ih hswap hmin
            grind)
        refine ⟨hord, fun k hk => ?_⟩
        rw [hsame k hk, hswap, if_neg (by omega), if_neg (by omega)]

theorem push_perm (h : Array α) (e : α) : (push key h e).Perm (h.push e) :=
  upLoop_perm ..

theorem push_ordered (hord : Ordered key h) (e : α) : Ordered key (push key h e) := by
  have hsize : (push key h e).size = h.size + 1 := by rw [(push_perm h e).size_eq, Array.size_push]
  have hup : OrderedFrom key 0 _ (push key h e) := upLoop_ordered (Nat.le_refl _) (by simp)
    (by
      intro k hpos hk hne
      rw [Array.size_push] at hk
      have hk' := hord k hpos (by omega) (Nat.zero_le _)
      grind)
    (by
      intro k hpos hk heq
      rw [Array.size_push] at hk
      omega)
  rwa [Array.size_push, ← hsize] at hup

/-- The root leaves the heap. -/
theorem pop_spec (hord : Ordered key h) (hpos : 0 < h.size) :
    (pop key h).1 = h[0]! ∧ ((pop key h).2.push h[0]!).Perm h ∧ Ordered key (pop key h).2 := by
  have hswap := getElem!_swap (h := h) (i := 0) (j := h.size - 1) hpos (by omega)
  simp only [pop, down]
  obtain ⟨sifted, hsifted⟩ : ∃ a, downLoop key (h.size - 1) (h.size - 1) (h.swapIfInBounds 0 (h.size - 1)) 0 = a :=
    ⟨_, rfl⟩
  have hperm : sifted.Perm h := hsifted ▸ (downLoop_perm ..).trans (swap_perm ..)
  obtain ⟨hdown, hsame⟩ : OrderedFrom key 0 (h.size - 1) sifted ∧
      ∀ k, h.size - 1 ≤ k → sifted[k]! = (h.swapIfInBounds 0 (h.size - 1))[k]! := by
    rw [← hsifted]
    refine downLoop_ordered (by omega) (by simp) (Nat.le_refl 0) (fun k hpos hk _ hne => ?_) (by omega)
    have hk' := hord k hpos (by omega) (Nat.zero_le _)
    grind
  rw [hsifted]
  have hsize := hperm.size_eq
  have hlast : sifted[h.size - 1]! = h[0]! := by
    rw [hsame _ (Nat.le_refl _), hswap]
    grind
  refine ⟨hlast, ?_, ?_⟩
  · rw [← hlast]
    have : sifted.pop.push sifted[h.size - 1]! = sifted := by grind
    rw [this]
    exact hperm
  · intro k hpos hk hlo
    have hk' := hdown k hpos (by simpa [hsize] using hk) hlo
    grind

theorem init_spec (h : Array α) : (init key h).Perm h ∧ Ordered key (init key h) := by
  suffices ∀ m, m ≤ h.size / 2 → ∀ acc : Array α, acc.Perm h → OrderedFrom key m h.size acc →
      ((range m).reverse.foldl (fun acc i => down key acc i h.size) acc).Perm h ∧
        OrderedFrom key 0 h.size ((range m).reverse.foldl (fun acc i => down key acc i h.size) acc) by
    obtain ⟨hperm, hord⟩ := this _ (Nat.le_refl _) h (.refl h) fun k hpos hk hlo => by omega
    exact ⟨hperm, by rwa [Ordered, init, hperm.size_eq]⟩
  intro m
  induction m with
  | zero => exact fun _ acc hperm hord => ⟨hperm, hord⟩
  | succ m ih =>
    intro hm acc hperm hord
    rw [range_succ, reverse_append, reverse_singleton, singleton_append, foldl_cons]
    refine ih (by omega) _ ((downLoop_perm ..).trans hperm) (downLoop_ordered (by omega)
      (Nat.le_of_eq hperm.size_eq.symm) (Nat.le_refl m) ?_ ?_).1
    · intro k hpos hk hlo hne
      exact hord k hpos hk (by omega)
    · intro k _ _ _ _ hlo
      omega

end Narad.Lib.MinHeap
