import Narad.Lib.Dict
import Mathlib.Data.List.TakeWhile
import Mathlib.Data.String.Basic

/-!
# Ordered stores

What a transaction meets of an embedded key-value store: buckets of text keys that are read, written and
deleted one by one, listed in key order, and walked with a cursor. A cursor that has deleted the key it
stands on stays at its place, and moves on to the first key behind it.

`OrderedStore` is the interface with its laws; `OrderedStore.tree` is an instance of it. Everything else
is derived from the laws.

A transaction is a function that returns the changed tables or an error; with an error nothing it wrote is
kept. `bind_eq_ok` and `refuse_eq_ok` take a transaction that went through apart into what each of its steps
returned.
-/

namespace Narad.Lib

/-- The length of the longest key, in bytes. -/
def maxKeySize : ℕ := 32768

inductive KeyError where
  | required
  | tooLarge

/-- A store: the operations on its buckets and what they promise. -/
structure OrderedStore where
  Bucket : Type → Type
  empty {α : Type} : Bucket α
  lookup {α : Type} : Bucket α → String → Option α
  insert {α : Type} : Bucket α → String → α → Bucket α
  erase {α : Type} : Bucket α → String → Bucket α
  /-- Every key with its value, as a listing gives them. -/
  entries {α : Type} : Bucket α → List (String × α)
  lookup_empty {α : Type} (key : String) : lookup (empty : Bucket α) key = none
  lookup_insert {α : Type} (b : Bucket α) (key : String) (value : α) :
    lookup (insert b key value) = Function.update (lookup b) key (some value)
  lookup_erase {α : Type} (b : Bucket α) (key : String) : lookup (erase b key) = Function.update (lookup b) key none
  mem_entries {α : Type} {b : Bucket α} {key : String} {value : α} :
    (key, value) ∈ entries b ↔ lookup b key = some value
  entries_sorted {α : Type} (b : Bucket α) : (entries b).Pairwise fun e f => e.1 < f.1
  /-- A bucket with nothing in it is like a new one. -/
  eq_empty {α : Type} {b : Bucket α} : entries b = [] → b = empty

/-- A store whose buckets are search trees. -/
def OrderedStore.tree : OrderedStore where
  Bucket := Dict
  empty := ∅
  lookup := Dict.lookup
  insert b key value := b.insert key value
  erase b key := b.erase key
  entries b := b.toList
  lookup_empty _ := Std.TreeMap.getElem?_emptyc
  lookup_insert b key value := Dict.lookup_insert b key value
  lookup_erase b key := Dict.lookup_erase b key
  mem_entries := Std.TreeMap.mem_toList_iff_getElem?_eq_some
  entries_sorted b := (Std.TreeMap.ordered_keys_toList (t := b)).imp fun h => Std.LawfulLTCmp.eq_lt_iff_lt.mp h
  eq_empty h := Dict.eq_empty_of_isEmpty (by rw [← Std.TreeMap.isEmpty_toList, h]; rfl)

section

variable {α : Type} {p : α → Bool} {l : List α}

/-- Where what meets a condition comes before what does not, the front that meets it is all that does. -/
theorem takeWhile_eq_filter (h : l.Pairwise fun a b => p b = true → p a = true) : l.takeWhile p = l.filter p := by
  induction l with
  | nil => rfl
  | cons a l ih =>
    obtain ⟨hfirst, hrest⟩ := List.pairwise_cons.mp h
    by_cases ha : p a = true
    · simp [ha, ih hrest]
    · have hnone : l.filter p = [] := List.filter_eq_nil_iff.mpr fun b hb hp => ha (hfirst b hb hp)
      simp [ha, hnone]

theorem dropWhile_eq_filter (h : l.Pairwise fun a b => p b = true → p a = true) : l.dropWhile p = l.filter (!p ·) := by
  induction l with
  | nil => rfl
  | cons a l ih =>
    obtain ⟨hfirst, hrest⟩ := List.pairwise_cons.mp h
    by_cases ha : p a = true
    · simp [ha, ih hrest]
    · have hall : l.filter (!p ·) = l := List.filter_eq_self.mpr fun b hb => by simpa using mt (hfirst b hb) ha
      simp [ha, hall]

end

/-- Keys between a text and a key that starts with it start with it too. -/
theorem lt_of_not_prefix {start inside key : List Char} (hinside : start <+: inside) (hle : ¬key < start)
    (hout : ¬start <+: key) : inside < key := by
  obtain ⟨rest, rfl⟩ := hinside
  induction start generalizing key with
  | nil => exact absurd List.nil_prefix hout
  | cons c cs ih =>
    cases key with
    | nil => exact absurd (List.nil_lt_cons c cs) hle
    | cons d ds =>
      rw [List.cons_lt_cons_iff, not_or] at hle
      rw [List.cons_append, List.cons_lt_cons_iff]
      rcases lt_trichotomy c d with hlt | rfl | hgt
      · exact .inl hlt
      · refine .inr ⟨rfl, ih (fun h => hle.2 ⟨rfl, h⟩) fun h => hout ?_⟩
        exact (List.prefix_cons_inj c).mpr h
      · exact absurd hgt hle.1

namespace OrderedStore.Bucket

variable {S : OrderedStore} {α : Type}

instance : EmptyCollection (S.Bucket α) :=
  ⟨S.empty⟩

section

variable (b : S.Bucket α)

def lookup (key : String) : Option α :=
  S.lookup b key

def insert (key : String) (value : α) : S.Bucket α :=
  S.insert b key value

def erase (key : String) : S.Bucket α :=
  S.erase b key

/-- The key a cursor stands on after seeking. -/
def seek (start : String) : Option String :=
  ((S.entries b).find? fun e => decide (start ≤ e.1)).map Prod.fst

/-- The key a cursor moves on to from the place of a key, which may be deleted. -/
def next (key : String) : Option String :=
  ((S.entries b).find? fun e => decide (key < e.1)).map Prod.fst

/-- A write refuses the empty key and keys that are too long. -/
def put (key : String) (value : α) : Except KeyError (S.Bucket α) :=
  if key = "" then .error .required
  else if maxKeySize < key.utf8ByteSize then .error .tooLarge
  else .ok (b.insert key value)

def keys : List String :=
  (S.entries b).map Prod.fst

/-- The values, in key order. -/
def records : List α :=
  (S.entries b).map Prod.snd

def size : ℕ :=
  (S.entries b).length

def isEmpty : Bool :=
  (S.entries b).isEmpty

/-- The entries a cursor meets from `start` on, as long as their keys start with it. -/
def scan (start : String) : List (String × α) :=
  ((S.entries b).dropWhile fun e => decide (e.1 < start)).takeWhile fun e => start.isPrefixOf e.1

end

variable {b b' : S.Bucket α} {key k start : String} {value v : α}

theorem lookup_empty (key : String) : (∅ : S.Bucket α).lookup key = none :=
  S.lookup_empty key

theorem lookup_insert (b : S.Bucket α) (key : String) (value : α) :
    (b.insert key value).lookup = Function.update b.lookup key (some value) :=
  S.lookup_insert b key value

theorem lookup_erase (b : S.Bucket α) (key : String) : (b.erase key).lookup = Function.update b.lookup key none :=
  S.lookup_erase b key

theorem of_lookup_insert (h : (b.insert key value).lookup k = some v) :
    k = key ∧ v = value ∨ k ≠ key ∧ b.lookup k = some v := by
  rw [lookup_insert] at h
  exact (update_eq_some h).imp_left fun hnew => ⟨hnew.1, (Option.some.inj hnew.2).symm⟩

theorem of_lookup_erase (h : (b.erase key).lookup k = some v) : k ≠ key ∧ b.lookup k = some v := by
  rw [lookup_erase] at h
  exact (update_eq_some h).resolve_left fun hnew => nomatch hnew.2

theorem put_eq_ok : b.put key value = .ok b' ↔ key ≠ "" ∧ key.utf8ByteSize ≤ maxKeySize ∧ b.insert key value = b' := by
  unfold put
  split
  · simp_all
  split
  next hlong => simp [not_le.mpr hlong]
  next hne hshort => simp [hne, Nat.le_of_not_lt hshort]

theorem mem_entries : (key, value) ∈ S.entries b ↔ b.lookup key = some value :=
  S.mem_entries

theorem mem_keys : key ∈ b.keys ↔ (b.lookup key).isSome := by
  simp only [keys, List.mem_map, Prod.exists, exists_and_right, exists_eq_right, mem_entries, Option.isSome_iff_exists]

theorem mem_records : value ∈ b.records ↔ ∃ key, b.lookup key = some value := by
  simp only [records, List.mem_map, Prod.exists, mem_entries, exists_eq_right]

theorem lookup_of_size_eq_zero (h : b.size = 0) (key : String) : b.lookup key = none := by
  rw [S.eq_empty (List.length_eq_zero_iff.mp h)]
  exact S.lookup_empty key

theorem eq_empty_of_isEmpty (h : b.isEmpty = true) : b = ∅ :=
  S.eq_empty (List.isEmpty_iff.mp h)

/-- The key of the first entry that meets a condition. -/
theorem of_find? {p : String → Bool} (h : ((S.entries b).find? fun e => p e.1).map Prod.fst = some key) :
    p key = true ∧ ∃ value, b.lookup key = some value := by
  obtain ⟨e, he, rfl⟩ := Option.map_eq_some_iff.mp h
  have hp := List.find?_some he
  exact ⟨hp, e.2, mem_entries.mp (List.mem_of_find?_eq_some he)⟩

/-- The first entry that meets a condition comes before all others that do. -/
theorem find?_le {p : String → Bool} (hk : b.lookup k = some v) (hp : p k = true) :
    ∃ first, ((S.entries b).find? fun e => p e.1).map Prod.fst = some first ∧ first ≤ k := by
  have hmem := mem_entries.mpr hk
  obtain ⟨e, he⟩ : ∃ e, (S.entries b).find? (fun e => p e.1) = some e :=
    Option.isSome_iff_exists.mp (List.find?_isSome.mpr ⟨(k, v), hmem, hp⟩)
  obtain ⟨-, front, back, heq, hfront⟩ := List.find?_eq_some_iff_append.mp he
  refine ⟨e.1, by rw [he]; rfl, ?_⟩
  have hsorted := S.entries_sorted b
  rw [heq] at hsorted hmem
  rcases List.mem_append.mp hmem with hin | hin
  · have := hfront _ hin
    simp [hp] at this
  rcases List.mem_cons.mp hin with rfl | hin
  · exact le_refl _
  · exact le_of_lt ((List.pairwise_cons.mp (List.pairwise_append.mp hsorted).2.1).1 _ hin)

/-- Keys that start with `start` come from it on. -/
theorem start_le_of_starts (h : start.isPrefixOf key = true) : start ≤ key := by
  rw [String.isPrefixOf, String.startsWith_string_iff] at h
  obtain ⟨rest, hrest⟩ := h
  rw [← not_lt, String.lt_iff_toList_lt, ← hrest]
  intro hlt
  have : ∀ l : List Char, ¬l ++ rest < l := by
    intro l hl
    induction l with
    | nil => exact absurd hl (List.not_lt_nil _)
    | cons c cs ih =>
      rw [List.cons_append, List.cons_lt_cons_iff] at hl
      rcases hl with hlt | ⟨-, hl⟩
      · exact absurd hlt (lt_irrefl c)
      · exact ih hl
  exact this _ hlt

/-- A key from `start` on that comes before one of its range is in the range. -/
theorem prefix_of_le (hstart : start ≤ k) (hle : k ≤ key) (h : start.isPrefixOf key = true) :
    start.isPrefixOf k = true := by
  rw [String.isPrefixOf, String.startsWith_string_iff] at h ⊢
  by_contra hout
  refine absurd hle (not_le.mpr ?_)
  rw [String.lt_iff_toList_lt]
  refine lt_of_not_prefix h ?_ hout
  rw [← String.lt_iff_toList_lt]
  exact not_lt.mpr hstart

theorem mem_scan : (key, value) ∈ b.scan start ↔ b.lookup key = some value ∧ start.isPrefixOf key = true := by
  have hsorted := S.entries_sorted b
  rw [scan, dropWhile_eq_filter (hsorted.imp fun h h' => decide_eq_true (h.trans (of_decide_eq_true h'))),
    takeWhile_eq_filter]
  · simp only [List.mem_filter, mem_entries, Bool.not_eq_true', decide_eq_false_iff_not]
    exact ⟨fun h => ⟨h.1.1, h.2⟩, fun h => ⟨⟨h.1, not_lt.mpr (start_le_of_starts h.2)⟩, h.2⟩⟩
  · refine (hsorted.filter _).imp_of_mem fun he _ hlt hp => prefix_of_le ?_ hlt.le hp
    rw [List.mem_filter, Bool.not_eq_true', decide_eq_false_iff_not] at he
    exact not_lt.mp he.2

/-- Deleting a key that is there makes the bucket smaller. -/
theorem size_erase_lt (h : b.lookup key = some value) : (b.erase key).size < b.size := by
  have hnodup : ∀ c : S.Bucket α, c.keys.Nodup := fun c =>
    List.pairwise_map.mpr ((S.entries_sorted c).imp fun hlt heq => absurd heq (ne_of_lt hlt))
  have hsub : key :: (b.erase key).keys ⊆ b.keys := by
    intro k hk
    rw [mem_keys]
    rcases List.mem_cons.mp hk with rfl | hk
    · rw [h]
      rfl
    obtain ⟨v, hv⟩ := Option.isSome_iff_exists.mp (mem_keys.mp hk)
    rw [(of_lookup_erase hv).2]
    rfl
  have hnew : key ∉ (b.erase key).keys := by
    rw [mem_keys, lookup_erase, Function.update_self]
    simp
  have hle := (List.subperm_of_subset (List.nodup_cons.mpr ⟨hnew, hnodup _⟩) hsub).length_le
  rw [List.length_cons, keys, keys, List.length_map, List.length_map] at hle
  exact hle

end OrderedStore.Bucket

section

variable {ε α β : Type}

/-- Fails with `e` when the condition holds. -/
def refuse (c : Prop) [Decidable c] (e : ε) : Except ε Unit :=
  if c then .error e else .ok ()

@[simp] theorem refuse_eq_ok {c : Prop} [Decidable c] {e : ε} {u : Unit} : refuse c e = .ok u ↔ ¬c := by
  unfold refuse
  split <;> simp_all

theorem bind_eq_ok {x : Except ε α} {f : α → Except ε β} {b : β} :
    (x >>= f) = .ok b ↔ ∃ a, x = .ok a ∧ f a = .ok b := by
  cases x <;> simp [bind, Except.bind]

theorem map_eq_ok {x : Except ε α} {f : α → β} {b : β} : (f <$> x) = .ok b ↔ ∃ a, x = .ok a ∧ f a = b := by
  cases x <;> simp [Functor.map, Except.map]

end

end Narad.Lib
