import Narad.Lib.Bytes

/-!
# Searching a file for a byte pattern

The first position of a pattern in a buffer, and the search of a file for it in chunks. Each chunk
after the first starts early enough to see a pattern that crosses into it, so the chunking does not
show in the result: `FirstIn` describes it.
-/

namespace Narad.Lib

/-- The first position of the pattern in the buffer. -/
def indexOf (pat : Bytes) : Bytes → Option ℕ
  | [] => if pat.isEmpty then some 0 else none
  | b :: rest => if pat.isPrefixOf (b :: rest) then some 0 else (indexOf pat rest).map (· + 1)

/-- Search `file` for the pattern, from `pos` up to `size`; a search that began at `start`. -/
def searchFrom (pat : Bytes) (chunk : ℕ) (file : Bytes) (start size : ℕ) : ℕ → ℕ → ℕ
  | 0, _ => size
  | fuel + 1, pos =>
    if size ≤ pos then size
    else
      let stop := min (pos + chunk) size
      let readStart := if start < pos then pos - (pat.length - 1) else pos
      match indexOf pat (readAt file readStart (stop - readStart)) with
      | some i => readStart + i
      | none => searchFrom pat chunk file start size fuel stop

/-- `r` is the first position of the pattern from `start` on that lies wholly below `size`, or
`size` when there is none. -/
structure FirstIn (file pat : Bytes) (start size r : ℕ) : Prop where
  none_before : ∀ i, start ≤ i → i < r → i + pat.length ≤ size → ¬HoldsAt file i pat
  found : r = size ∨ start ≤ r ∧ r + pat.length ≤ size ∧ HoldsAt file r pat

section

variable {file pat buf : Bytes} {start size pos n i r chunk : ℕ}

theorem indexOf_some (hpat : pat ≠ []) (h : indexOf pat buf = some i) :
    HoldsAt buf i pat ∧ ∀ j, j < i → ¬HoldsAt buf j pat := by
  induction buf generalizing i with
  | nil => exact absurd h (by simp [indexOf, hpat])
  | cons b rest ih =>
    rw [indexOf] at h
    split at h
    next hpre =>
      cases h
      exact ⟨by simpa [HoldsAt] using hpre, by omega⟩
    next hpre =>
      obtain ⟨k, hk, rfl⟩ := Option.map_eq_some_iff.mp h
      obtain ⟨hat, hbefore⟩ := ih hk
      refine ⟨hat, fun j hj => ?_⟩
      cases j with
      | zero => simpa [HoldsAt] using hpre
      | succ j => exact hbefore j (by omega)

theorem indexOf_none (hpat : pat ≠ []) (h : indexOf pat buf = none) (j : ℕ) : ¬HoldsAt buf j pat := by
  induction buf generalizing j with
  | nil => simpa [HoldsAt] using hpat
  | cons b rest ih =>
    rw [indexOf] at h
    split at h
    · cases h
    next hpre =>
      cases j with
      | zero => simpa [HoldsAt] using hpre
      | succ j => exact ih (by simpa using h) j

/-- A pattern seen through a read is one of the file, and conversely when the read covers it. -/
theorem holdsAt_readAt (hi : i + pat.length ≤ n) : HoldsAt (readAt file pos n) i pat ↔ HoldsAt file (pos + i) pat := by
  rw [HoldsAt.iff_getElem?, HoldsAt.iff_getElem?]
  refine forall_congr' fun k => imp_congr_right fun hk => ?_
  rw [getElem?_readAt, if_pos (by omega), add_assoc]

theorem not_holdsAt_readAt (hpat : pat ≠ []) (hi : n < i + pat.length) : ¬HoldsAt (readAt file pos n) i pat := by
  intro h
  have hle := h.end_le hpat
  rw [readAt_length] at hle
  omega

/-- The chunked search finds the first pattern once everything below `pos` has been searched. -/
theorem searchFrom_firstIn (hpat : pat ≠ []) (hchunk : pat.length ≤ chunk) (fuel pos : ℕ)
    (hfuel : size < pos + fuel) (hpos : pos = start ∨ start + pat.length ≤ pos ∨ size ≤ pos)
    (hbefore : ∀ i, start ≤ i → i + pat.length ≤ pos → ¬HoldsAt file i pat) :
    FirstIn file pat start size (searchFrom pat chunk file start size fuel pos) := by
  have hlen : 0 < pat.length := List.length_pos_iff.mpr hpat
  induction fuel generalizing pos with
  | zero => exact ⟨fun i hi _ hle => hbefore i hi (by omega), .inl rfl⟩
  | succ fuel ih =>
    unfold searchFrom
    split
    · exact ⟨fun i hi _ hle => hbefore i hi (by omega), .inl rfl⟩
    dsimp only
    set stop := min (pos + chunk) size with hstop
    set readStart := if start < pos then pos - (pat.length - 1) else pos with hread
    have hrs : start ≤ readStart ∧ readStart ≤ pos ∧ pos < readStart + pat.length := by
      rw [hread]
      split <;> omega
    have hgap : ∀ i, start ≤ i → i < readStart → ¬HoldsAt file i pat := by
      intro i hi hlt
      refine hbefore i hi ?_
      rw [hread] at hlt
      split at hlt <;> omega
    cases hfind : indexOf pat (readAt file readStart (stop - readStart)) with
    | some k =>
      obtain ⟨hat, hnone⟩ := indexOf_some hpat hfind
      have hk : k + pat.length ≤ stop - readStart := by
        by_contra hout
        exact not_holdsAt_readAt hpat (by omega) hat
      refine ⟨fun i hi hlt _ hm => ?_, .inr ⟨?_, ?_, (holdsAt_readAt hk).mp hat⟩⟩
      · by_cases hcase : i < readStart
        · exact hgap i hi hcase hm
        dsimp only at hlt
        refine hnone (i - readStart) (by omega) ?_
        rw [holdsAt_readAt (by omega)]
        rwa [Nat.add_sub_cancel' (by omega)]
      · dsimp only
        omega
      · dsimp only
        omega
    | none =>
      refine ih stop (by omega) (by omega) fun i hi hle hm => ?_
      by_cases hcase : i < readStart
      · exact hgap i hi hcase hm
      refine indexOf_none hpat hfind (i - readStart) ?_
      rw [holdsAt_readAt (by omega)]
      rwa [Nat.add_sub_cancel' (by omega)]

/-- Where no pattern is left to see, the search runs to the end. -/
theorem searchFrom_eq_size (hpat : pat ≠ []) (fuel pos : ℕ)
    (hnone : ∀ i, pos - (pat.length - 1) ≤ i → i + pat.length ≤ size → ¬HoldsAt file i pat) :
    searchFrom pat chunk file start size fuel pos = size := by
  have hlen : 0 < pat.length := List.length_pos_iff.mpr hpat
  induction fuel generalizing pos with
  | zero => rfl
  | succ fuel ih =>
    unfold searchFrom
    split
    · rfl
    dsimp only
    set stop := min (pos + chunk) size with hstop
    set readStart := if start < pos then pos - (pat.length - 1) else pos with hread
    have hrs : pos - (pat.length - 1) ≤ readStart := by
      rw [hread]
      split <;> omega
    cases hfind : indexOf pat (readAt file readStart (stop - readStart)) with
    | some k =>
      have hat := (indexOf_some hpat hfind).1
      have hk : k + pat.length ≤ stop - readStart := by
        by_contra hout
        exact not_holdsAt_readAt hpat (by omega) hat
      exact absurd ((holdsAt_readAt hk).mp hat) (hnone _ (by omega) (by omega))
    | none => exact ih stop fun i hi => hnone i (by omega)

end

end Narad.Lib
