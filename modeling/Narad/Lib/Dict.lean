import Mathlib.Data.List.Sort

/-!
# Maps with text keys

A map in memory: what it holds under each key, and how many keys it has.
-/

namespace Narad.Lib

/-- A lookup after an update is of the new value or of another key. -/
theorem update_eq_some {α : Type} {lookup : String → Option α} {key k : String} {x : Option α} {v : α}
    (h : Function.update lookup key x k = some v) : k = key ∧ x = some v ∨ k ≠ key ∧ lookup k = some v := by
  rw [Function.update_apply] at h
  split at h
  next heq => exact .inl ⟨heq, h⟩
  next hne => exact .inr ⟨hne, h⟩

abbrev Dict (α : Type) := Std.TreeMap String α

namespace Dict

variable {α : Type}

variable (b : Dict α)

/-- What the map holds under a key. -/
def lookup (key : String) : Option α :=
  b[key]?

theorem lookup_insert (key : String) (value : α) :
    lookup (b.insert key value) = Function.update b.lookup key (some value) := by
  funext k
  rw [lookup, Std.TreeMap.getElem?_insert, Function.update_apply]
  simp only [Std.LawfulEqCmp.compare_eq_iff_eq, lookup, eq_comm (a := k)]

theorem lookup_erase (key : String) : lookup (b.erase key) = Function.update b.lookup key none := by
  funext k
  rw [lookup, Std.TreeMap.getElem?_erase, Function.update_apply]
  simp only [Std.LawfulEqCmp.compare_eq_iff_eq, lookup, eq_comm (a := k)]

theorem of_lookup_insert {b : Dict α} {key k : String} {value v : α}
    (h : lookup (b.insert key value) k = some v) : k = key ∧ v = value ∨ k ≠ key ∧ b.lookup k = some v := by
  rw [lookup_insert] at h
  exact (update_eq_some h).imp_left fun hnew => ⟨hnew.1, (Option.some.inj hnew.2).symm⟩

theorem of_lookup_erase {b : Dict α} {key k : String} {v : α} (h : lookup (b.erase key) k = some v) :
    k ≠ key ∧ b.lookup k = some v := by
  rw [lookup_erase] at h
  exact (update_eq_some h).resolve_left fun hnew => nomatch hnew.2

variable {b : Dict α} {key : String}

theorem eq_empty_of_isEmpty (h : b.isEmpty = true) : b = ∅ := by
  obtain ⟨⟨t, wf⟩⟩ := b
  cases t with
  | leaf => rfl
  | inner => cases h

theorem lookup_of_size_eq_zero (h : b.size = 0) (key : String) : b.lookup key = none := by
  have hempty : b.isEmpty = true := by simp [Std.TreeMap.isEmpty_eq_size_eq_zero, h]
  exact Std.TreeMap.getElem?_eq_none (Std.TreeMap.not_mem_of_isEmpty hempty)

theorem size_insert_of_none (value : α) (h : b.lookup key = none) : (b.insert key value).size = b.size + 1 := by
  rw [Std.TreeMap.size_insert, Std.TreeMap.contains_eq_isSome_getElem?]
  rw [lookup] at h
  simp [h]

theorem size_insert_of_some {old : α} (value : α) (h : b.lookup key = some old) :
    (b.insert key value).size = b.size := by
  rw [Std.TreeMap.size_insert, Std.TreeMap.contains_eq_isSome_getElem?]
  rw [lookup] at h
  simp [h]

theorem size_erase_of_some {old : α} (h : b.lookup key = some old) : (b.erase key).size + 1 = b.size := by
  have hpos : b.size ≠ 0 := by
    intro hzero
    rw [lookup_of_size_eq_zero hzero] at h
    cases h
  rw [Std.TreeMap.size_erase, Std.TreeMap.contains_eq_isSome_getElem?]
  rw [lookup] at h
  simp only [h, Option.isSome_some, if_true]
  omega

end Dict

end Narad.Lib
