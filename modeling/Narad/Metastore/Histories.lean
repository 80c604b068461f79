import Narad.Metastore.Links

/-!
# Dense schema histories

Topic names hold no colon, so the keys of two topics' schemas never meet and a key gives back the topic
and the version it was made from. Read through these keys the schemas table is a history for every
topic. The histories are dense, no name without a topic has one, and a child's history is its parent's,
version by version.

This module says what the functions that read and write histories do, and that the writes keep the
histories so.
-/

namespace Narad.Metastore

open Function (update_apply update_of_ne update_self)
open Lib OrderedStore List Option

variable {S : OrderedStore}

def ColonFree (name : String) : Prop :=
  ':' ∉ name.toList

instance (name : String) : Decidable (ColonFree name) :=
  inferInstanceAs (Decidable (_ ∉ _))

section

variable {m n : String} {v w : ℤ} {key : String}

theorem schemaKey_toList (n : String) (v : ℤ) : (schemaKey n v).toList = n.toList ++ ':' :: (toString v).toList := by
  simp [schemaKey]

theorem keyRange_toList (n : String) : (keyRange n).toList = n.toList ++ [':'] := by
  simp [keyRange]

/-- A text up to the first colon. -/
theorem leads_iff_of_colonFree {a b rest : List Char} (ha : ':' ∉ a) (hb : ':' ∉ b) :
    a ++ [':'] <+: b ++ ':' :: rest ↔ a = b := by
  induction a generalizing b with
  | nil =>
    cases b with
    | nil => simp
    | cons c b => simp_all [eq_comm]
  | cons x a ih =>
    cases b with
    | nil => simp_all [eq_comm]
    | cons c b =>
      rw [mem_cons, not_or] at ha hb
      simp [cons_prefix_cons, ih ha.2 hb.2]

theorem isPrefixOf_schemaKey (hm : ColonFree m) (hn : ColonFree n) :
    (keyRange m).isPrefixOf (schemaKey n v) = true ↔ m = n := by
  rw [String.isPrefixOf, String.startsWith_string_iff, keyRange_toList, schemaKey_toList,
    leads_iff_of_colonFree hm hn, String.toList_inj]

theorem toDigits_inj {a b : ℕ} (h : Nat.toDigits 10 a = Nat.toDigits 10 b) : a = b := by
  rw [← Nat.ofDigitChars_ten_toDigits (n := a), h, Nat.ofDigitChars_ten_toDigits]

theorem toDigits_ne_minus {a : ℕ} {cs : List Char} : Nat.toDigits 10 a ≠ '-' :: cs := by
  intro heq
  have : ('-').isDigit = true :=
    Nat.isDigit_of_mem_toDigits (b := 10) (n := a) (by decide) (by decide) (heq ▸ (.head _))
  exact absurd this (by decide)

theorem toString_inj (h : toString v = toString w) : v = w := by
  have hpos : ∀ a : ℕ, (toString (Int.ofNat a)).toList = Nat.toDigits 10 a := fun _ => Nat.toList_repr
  have hneg : ∀ a : ℕ, (toString (Int.negSucc a)).toList = '-' :: Nat.toDigits 10 (a + 1) := by
    intro a
    have : toString (Int.negSucc a) = "-" ++ Nat.repr (a + 1) := rfl
    rw [this, String.toList_append, Nat.toList_repr]
    rfl
  have hchars := congrArg String.toList h
  cases v with
  | ofNat a =>
    cases w with
    | ofNat b =>
      rw [hpos, hpos] at hchars
      rw [toDigits_inj hchars]
    | negSucc b =>
      rw [hpos, hneg] at hchars
      exact absurd hchars toDigits_ne_minus
  | negSucc a =>
    cases w with
    | ofNat b =>
      rw [hpos, hneg] at hchars
      exact absurd hchars.symm toDigits_ne_minus
    | negSucc b =>
      rw [hneg, hneg, cons.injEq] at hchars
      have := toDigits_inj hchars.2
      rw [Nat.succ.inj this]

theorem schemaKey_inj (hm : ColonFree m) (hn : ColonFree n) : schemaKey m v = schemaKey n w ↔ m = n ∧ v = w := by
  refine ⟨fun heq => ?_, fun ⟨hmn, hvw⟩ => by rw [hmn, hvw]⟩
  obtain rfl : m = n := by
    rw [← isPrefixOf_schemaKey (v := w) hm hn, ← heq, isPrefixOf_schemaKey hm hm]
  have hchars := congrArg String.toList heq
  rw [schemaKey_toList, schemaKey_toList, append_cancel_left_eq, cons.injEq] at hchars
  exact ⟨rfl, toString_inj (String.toList_inj.mp hchars.2)⟩

theorem digits_toDigits (k : ℕ) : digits (Nat.toDigits 10 k) = some k := by
  have hdigit : (Nat.toDigits 10 k).all Char.isDigit = true :=
    all_eq_true.mpr fun c hc => Nat.isDigit_of_mem_toDigits (by decide) (by decide) hc
  have hvalue : (Nat.toDigits 10 k).foldl (fun n c => n * 10 + (c.toNat - '0'.toNat)) 0 = k := by
    have := Nat.ofDigitChars_ten_toDigits (n := k)
    rw [Nat.ofDigitChars_eq_foldl] at this
    simpa only [mul_comm] using this
  unfold digits
  split
  next hnil => exact absurd hnil Nat.toDigits_ne_nil
  · rw [if_pos hdigit, hvalue]

theorem atoi_toDigits {k : ℕ} (hk : k < 2 ^ 63) : atoi (Nat.toDigits 10 k) = some (k : ℤ) := by
  have hdigit : ∀ c cs, Nat.toDigits 10 k = c :: cs → c.isDigit = true := fun c cs heq =>
    Nat.isDigit_of_mem_toDigits (b := 10) (n := k) (by decide) (by decide) (heq ▸ (.head _))
  have hrange : fitting 64 (k : ℤ) = some (k : ℤ) := if_pos (by omega)
  unfold atoi parseInt
  split
  next cs heq => exact absurd (hdigit _ cs heq) (by decide)
  next cs heq => exact absurd (hdigit _ cs heq) (by decide)
  · rw [digits_toDigits, bind_some, hrange]

theorem versionOf_schemaKey (n : String) (hv : 0 ≤ v) (hlt : v < 2 ^ 63) : versionOf n (schemaKey n v) = .ok v := by
  obtain ⟨k, rfl⟩ := Int.eq_ofNat_of_zero_le hv
  have hdrop : (schemaKey n k).toList.drop (keyRange n).length = Nat.toDigits 10 k := by
    have hlength : (keyRange n).length = n.toList.length + 1 := by
      rw [← String.length_toList, keyRange_toList, length_append, length_singleton]
    have htext : (toString (k : ℤ)).toList = Nat.toDigits 10 k := Nat.toList_repr
    rw [schemaKey_toList, hlength, htext, ← drop_drop, drop_left, drop_one, tail_cons]
  rw [versionOf, hdrop, atoi_toDigits (by omega)]

end

/-- What the schemas table holds of a topic. -/
def history (schemas : String → Option Bytes) (n : String) (v : ℤ) : Option Bytes :=
  schemas (schemaKey n v)

/-- The versions are exactly those from one to `m`. -/
structure DenseTo (m : ℕ) (h : ℤ → Option Bytes) : Prop where
  le : (m : ℤ) ≤ maxSchemaVersions
  iff : ∀ v, (h v).isSome = true ↔ 1 ≤ v ∧ v ≤ m

/-- The table holds a dense history of the topic and nothing else in its range. -/
structure Readable (schemas : String → Option Bytes) (n : String) (m : ℕ) : Prop where
  dense : DenseTo m (history schemas n)
  keys : ∀ key x, schemas key = some x → (keyRange n).isPrefixOf key = true → ∃ v, key = schemaKey n v

section

variable {n : String} {m : ℕ} {db : Tables S}

theorem mem_range_of_isPrefixOf_self (n : String) (v : ℤ) : (keyRange n).isPrefixOf (schemaKey n v) = true := by
  rw [String.isPrefixOf, String.startsWith_string_iff, keyRange_toList, schemaKey_toList]
  exact ⟨(toString v).toList, by simp⟩

/-- The version of a key in the topic's range. -/
theorem Readable.versionOf_eq (h : Readable db.schemas.lookup n m) {key : String} {x : Bytes}
    (hmem : (key, x) ∈ db.schemas.scan (keyRange n)) :
    ∃ v, key = schemaKey n v ∧ versionOf n key = .ok v ∧ history db.schemas.lookup n v = some x := by
  obtain ⟨hlookup, hrange⟩ := Bucket.mem_scan.mp hmem
  obtain ⟨v, rfl⟩ := h.keys key x hlookup hrange
  have hv := (h.dense.iff v).mp (by rw [history, hlookup]; rfl)
  have hmax : maxSchemaVersions = 1000 := rfl
  have := h.dense.le
  exact ⟨v, rfl, versionOf_schemaKey n (by omega) (by omega), hlookup⟩

variable {es : List (String × Bytes)}

theorem foldlM_latest {acc r : ℤ}
    (h : es.foldlM (fun latest e => (versionOf n e.1).map fun version => max latest version) acc = .ok r) :
    acc ≤ r ∧ (∀ e ∈ es, ∀ v, versionOf n e.1 = .ok v → v ≤ r) ∧ (r = acc ∨ ∃ e ∈ es, versionOf n e.1 = .ok r) := by
  induction es generalizing acc with
  | nil =>
    cases h
    exact ⟨Int.le_refl _, nofun, .inl rfl⟩
  | cons e es ih =>
    rw [foldlM_cons, bind_eq_ok] at h
    obtain ⟨mid, hmid, hrest⟩ := h
    obtain ⟨v, hv, rfl⟩ := map_eq_ok.mp hmid
    obtain ⟨hle, hall, hor⟩ := ih hrest
    refine ⟨(le_max_left _ _).trans hle, fun e' he' w hw => ?_, ?_⟩
    · rcases mem_cons.mp he' with rfl | he'
      · cases hv.symm.trans hw
        exact (le_max_right _ _).trans hle
      · exact hall e' he' w hw
    · rcases hor with rfl | ⟨e', he', hw⟩
      · rcases max_choice acc v with hacc | hver
        · exact .inl hacc
        · exact .inr ⟨e, .head _, by rw [hver]; exact hv⟩
      · exact .inr ⟨e', .tail _ he', hw⟩

theorem Readable.latestSchemaVersion_eq (h : Readable db.schemas.lookup n m) {latest : ℤ}
    (hok : latestSchemaVersion db n = .ok latest) : latest = m := by
  obtain ⟨hpos, hall, hor⟩ := foldlM_latest hok
  refine Int.le_antisymm ?_ ?_
  · rcases hor with rfl | ⟨e, he, hver⟩
    · omega
    obtain ⟨v, -, hv, hx⟩ := h.versionOf_eq he
    cases hv.symm.trans hver
    exact ((h.dense.iff latest).mp (hx ▸ rfl)).2
  · rcases eq_zero_or_pos m with rfl | hm
    · exact hpos
    obtain ⟨x, hx⟩ := isSome_iff_exists.mp ((h.dense.iff m).mpr ⟨by omega, Int.le_refl _⟩)
    have hmem := Bucket.mem_scan.mpr ⟨hx, mem_range_of_isPrefixOf_self n m⟩
    obtain ⟨v, hkey, hver, hx'⟩ := h.versionOf_eq hmem
    have hle := hall _ hmem _ hver
    have := (h.dense.iff v).mp (by rw [hx']; rfl)
    have hmax : maxSchemaVersions = 1000 := rfl
    have := h.dense.le
    rw [versionOf_schemaKey n (by omega) (by omega)] at hver
    cases hver
    exact hle

theorem foldlM_load {acc out : History} {F : ℤ → Option Bytes}
    (h : es.foldlM (fun out e => (versionOf n e.1).map fun version => out.insert version e.2) acc = .ok out)
    (hF : ∀ e ∈ es, ∀ v, versionOf n e.1 = .ok v → F v = some e.2) (hacc : ∀ v x, acc[v]? = some x → F v = some x) :
    (∀ (v : ℤ) x, out[v]? = some x → F v = some x) ∧ (∀ (v : ℤ) x, acc[v]? = some x → out[v]? = some x) ∧
      ∀ e ∈ es, ∀ v, versionOf n e.1 = .ok v → out[v]? = some e.2 := by
  induction es generalizing acc with
  | nil =>
    cases h
    exact ⟨hacc, fun _ _ hx => hx, nofun⟩
  | cons e es ih =>
    rw [foldlM_cons, bind_eq_ok] at h
    obtain ⟨mid, hmid, hrest⟩ := h
    obtain ⟨v, hv, rfl⟩ := map_eq_ok.mp hmid
    have hinsert : ∀ w : ℤ, (acc.insert v e.2)[w]? = if v = w then some e.2 else acc[w]? := by
      intro w
      rw [Std.TreeMap.getElem?_insert]
      simp only [Std.LawfulEqCmp.compare_eq_iff_eq]
    have hnew : ∀ w x, (acc.insert v e.2)[w]? = some x → F w = some x := by
      intro w x hx
      rw [hinsert] at hx
      split at hx
      next heq => rw [← heq, hF e (.head _) v hv, ← hx]
      · exact hacc w x hx
    obtain ⟨hout, hkeep, hall⟩ := ih hrest (fun e' he' => hF e' (.tail _ he')) hnew
    have hself : out[v]? = some e.2 := hkeep v e.2 (by rw [hinsert, if_pos rfl])
    refine ⟨hout, fun w x hx => ?_, fun e' he' w hw => ?_⟩
    · by_cases heq : v = w
      · subst heq
        rw [hself, ← hF e (.head _) v hv, hacc v x hx]
      · exact hkeep w x (by rw [hinsert, if_neg heq, hx])
    · rcases mem_cons.mp he' with rfl | he'
      · cases hv.symm.trans hw
        exact hself
      · exact hall e' he' w hw

theorem Readable.loadSchemaHistory_eq (h : Readable db.schemas.lookup n m) {out : History}
    (hok : loadSchemaHistory db n = .ok out) (v : ℤ) : out[v]? = history db.schemas.lookup n v := by
  have hF : ∀ e ∈ db.schemas.scan (keyRange n), ∀ v, versionOf n e.1 = .ok v →
      history db.schemas.lookup n v = some e.2 := by
    intro e he v hv
    obtain ⟨w, -, hw, hx⟩ := h.versionOf_eq he
    cases hw.symm.trans hv
    exact hx
  obtain ⟨hout, -, hall⟩ := foldlM_load hok hF (by simp)
  cases hx : history db.schemas.lookup n v with
  | some x =>
    have hmem := Bucket.mem_scan.mpr ⟨hx, mem_range_of_isPrefixOf_self n v⟩
    have hv := (h.dense.iff v).mp (hx ▸ rfl)
    have hmax : maxSchemaVersions = 1000 := rfl
    have := h.dense.le
    exact hall _ hmem v (versionOf_schemaKey n (by omega) (by omega))
  | none =>
    cases hy : out[v]? with
    | none => rfl
    | some y =>
      rw [hout v y hy] at hx
      cases hx

end

/-- The bytes are equal, or they hold equal JSON values. -/
def SameValue (env : Env) (a b : Bytes) : Prop :=
  jsonValueEqual env.decodeJSON a b = true

/-- Every history is a topic's, dense, empty for a stub and for a child the same as its parent's. -/
structure Histories (env : Env) (topic : String → Option Topic) (schemas : String → Option Bytes) : Prop where
  named : ∀ {n t}, topic n = some t → ColonFree n
  owned : ∀ {key x}, schemas key = some x → ∃ n v t, topic n = some t ∧ key = schemaKey n v
  dense : ∀ {n t}, topic n = some t → ∃ m, DenseTo m (history schemas n)
  stub : ∀ {n t}, topic n = some t → t.isRemoteChild → ∀ v, history schemas n v = none
  linked : ∀ {c u}, topic c = some u → u.isChild → ¬u.isRemoteChild → ∀ v,
    Option.Rel (SameValue env) (history schemas u.parent v) (history schemas c v)

/-- No stored schema is changed or goes, but those of the topics named. -/
def Keeps (gone : String → Prop) (schemas schemas' : String → Option Bytes) : Prop :=
  ∀ key x, schemas key = some x → schemas' key = some x ∨ ∃ n v, gone n ∧ ColonFree n ∧ key = schemaKey n v

section

variable {env : Env} {topic topic' : String → Option Topic} {schemas schemas' : String → Option Bytes}
  {n c p : String} {t u : Topic} {h : ℤ → Option Bytes}

theorem denseTo_zero (hnone : ∀ v, h v = none) : DenseTo 0 h := by
  refine ⟨by decide, fun v => ?_⟩
  rw [hnone]
  simp only [isSome_none, Bool.false_eq_true, false_iff]
  omega

theorem Histories.none_of_free (h : Histories env topic schemas) (hfree : topic n = none) (hcolon : ColonFree n)
    (v : ℤ) : history schemas n v = none := by
  cases hx : history schemas n v with
  | none => rfl
  | some x =>
    obtain ⟨n', v', t, ht, hkey⟩ := h.owned hx
    rw [((schemaKey_inj hcolon (h.named ht)).mp hkey).1, ht] at hfree
    cases hfree

theorem Histories.readable (h : Histories env topic schemas) (ht : topic n = some t) : ∃ m, Readable schemas n m := by
  obtain ⟨m, hm⟩ := h.dense ht
  refine ⟨m, hm, fun key x hx hrange => ?_⟩
  obtain ⟨n', v, t', ht', rfl⟩ := h.owned hx
  rw [isPrefixOf_schemaKey (h.named ht) (h.named ht')] at hrange
  exact ⟨v, hrange ▸ rfl⟩

/-- Records change, are created or go with their schemas; every attached child agrees with its parent. -/
theorem Histories.frame (h : Histories env topic schemas) (hforest : Forest topic')
    (hagree : ∀ c u, topic' c = some u → u.isChild → ¬u.isRemoteChild → ∀ v,
      Option.Rel (SameValue env) (history schemas u.parent v) (history schemas c v))
    (hnames : ∀ n t', topic' n = some t' → (∃ t, topic n = some t ∧ (t'.isRemoteChild → t.isRemoteChild)) ∨
      topic n = none ∧ ColonFree n) (hkept : ∀ n t', topic' n = some t' → history schemas' n = history schemas n)
    (hgone : ∀ key x, schemas' key = some x → schemas key = some x ∧
      ∀ n t v, topic n = some t → key = schemaKey n v → ∃ t', topic' n = some t') : Histories env topic' schemas' where
  named {n t'} ht' := by
    rcases hnames n t' ht' with ⟨t, ht, -⟩ | ⟨-, hcolon⟩
    · exact h.named ht
    · exact hcolon
  owned {key x} hx := by
    obtain ⟨hx, hin⟩ := hgone key x hx
    obtain ⟨n, v, t, ht, hkey⟩ := h.owned hx
    obtain ⟨t', ht'⟩ := hin n t v ht hkey
    exact ⟨n, v, t', ht', hkey⟩
  dense {n t'} ht' := by
    rw [hkept n t' ht']
    rcases hnames n t' ht' with ⟨t, ht, -⟩ | ⟨hfree, hcolon⟩
    · exact h.dense ht
    · exact ⟨0, denseTo_zero (h.none_of_free hfree hcolon)⟩
  stub {n t'} ht' hstub v := by
    rw [hkept n t' ht']
    rcases hnames n t' ht' with ⟨t, ht, hwas⟩ | ⟨hfree, hcolon⟩
    · exact h.stub ht (hwas hstub) v
    · exact h.none_of_free hfree hcolon v
  linked {c u'} hu' hchild hlocal v := by
    obtain ⟨p, hp, -⟩ := (hforest.node hu').attached hchild
    rw [hkept c u' hu', hkept _ p hp]
    exact hagree c u' hu' hchild hlocal v

/-- The table with a version written for every name. -/
def putAll (schemas : String → Option Bytes) (names : List String) (v : ℤ) (x : Bytes) : String → Option Bytes :=
  fun key => if ∃ n ∈ names, key = schemaKey n v then some x else schemas key

variable {names : List String}

theorem history_putAll (hnames : ∀ m ∈ names, ColonFree m) (hn : ColonFree n) (v : ℤ) (x : Bytes) :
    history (putAll schemas names v x) n = if n ∈ names then Function.update (history schemas n) v (some x)
      else history schemas n := by
  funext w
  have hiff : (∃ m ∈ names, schemaKey n w = schemaKey m v) ↔ n ∈ names ∧ w = v := by
    constructor
    · rintro ⟨m, hm, hkey⟩
      obtain ⟨rfl, hw⟩ := (schemaKey_inj hn (hnames m hm)).mp hkey
      exact ⟨hm, hw⟩
    · rintro ⟨hmem, rfl⟩
      exact ⟨n, hmem, rfl⟩
  simp only [history, putAll, hiff]
  by_cases hmem : n ∈ names
  · by_cases hw : w = v
    · subst hw
      simp [hmem]
    · simp [hmem, hw, history]
  · simp [hmem, history]

theorem DenseTo.update {m : ℕ} {v : ℤ} (hm : DenseTo m h) (hv : v = m + 1)
    (hmax : v ≤ maxSchemaVersions) (x : Bytes) : DenseTo (m + 1) (Function.update h v (some x)) := by
  refine ⟨by omega, fun w => ?_⟩
  rw [update_apply]
  split
  · simp only [isSome_some, true_iff]
    omega
  · rw [hm.iff]
    omega

/-- The next version is written for a topic and all its local children. -/
theorem Histories.put (h : Histories env topic schemas) {v : ℤ}
    (hnames : ∀ n ∈ names, ∃ t, topic n = some t ∧ ¬t.isRemoteChild)
    (hnext : ∀ n ∈ names, ∃ m, DenseTo m (history schemas n) ∧ v = m + 1) (hmax : v ≤ maxSchemaVersions)
    (hclosed : ∀ c u, topic c = some u → u.isChild → ¬u.isRemoteChild → (c ∈ names ↔ u.parent ∈ names))
    (hforest : Forest topic) (x : Bytes) :
    Histories env topic (putAll schemas names v x) ∧ Keeps (fun _ => False) schemas (putAll schemas names v x) := by
  have hcolon : ∀ n ∈ names, ColonFree n := fun n hn => by
    obtain ⟨t, ht, -⟩ := hnames n hn
    exact h.named ht
  have hget : ∀ {n t}, topic n = some t → history (putAll schemas names v x) n =
      if n ∈ names then Function.update (history schemas n) v (some x) else history schemas n :=
    fun ht => history_putAll hcolon (h.named ht) v x
  refine ⟨⟨h.named, fun {key y} hy => ?_, fun {n t} ht => ?_, fun {n t} ht hstub w => ?_,
      fun {c u} hu his hlocal w => ?_⟩,
    fun key y hy => .inl ?_⟩
  · unfold putAll at hy
    split at hy
    next hmem =>
      obtain ⟨n, hn, hkey⟩ := hmem
      obtain ⟨t, ht, -⟩ := hnames n hn
      exact ⟨n, v, t, ht, hkey⟩
    · exact h.owned hy
  · rw [hget ht]
    split
    next hmem =>
      obtain ⟨m, hm, hv⟩ := hnext n hmem
      exact ⟨m + 1, hm.update hv hmax x⟩
    · exact h.dense ht
  · rw [hget ht, if_neg]
    · exact h.stub ht hstub w
    · intro hmem
      obtain ⟨t', ht', hlocal⟩ := hnames n hmem
      rw [ht, some.injEq] at ht'
      exact hlocal (ht' ▸ hstub)
  · obtain ⟨p, hp, -⟩ := (hforest.node hu).attached his
    rw [hget hu, hget hp]
    by_cases hmem : c ∈ names
    · rw [if_pos hmem, if_pos ((hclosed c u hu his hlocal).mp hmem)]
      by_cases hw : w = v
      · subst hw
        rw [update_self, update_self]
        exact .some (jsonValueEqual_self _ x)
      · rw [update_of_ne hw, update_of_ne hw]
        exact h.linked hu his hlocal w
    · rw [if_neg hmem, if_neg fun hpar => hmem ((hclosed c u hu his hlocal).mpr hpar)]
      exact h.linked hu his hlocal w
  · rw [putAll, if_neg]
    · exact hy
    · rintro ⟨n, hn, rfl⟩
      obtain ⟨m, hm, hv⟩ := hnext n hn
      have := (hm.iff v).mp (by rw [history, hy]; rfl)
      omega

/-- A topic that stands alone and has no history takes over another's. -/
theorem Histories.adopt (h : Histories env topic schemas) (hforest : Forest topic) (hc : topic c = some u)
    (hnotChild : ¬u.isChild) (hnotParent : ¬u.isParent) (hp : topic p = some t)
    (hchild : history schemas' c = history schemas p)
    (hother : ∀ key, (∀ v, key ≠ schemaKey c v) → schemas' key = schemas key) : Histories env topic schemas' := by
  have hget : ∀ {n t}, topic n = some t → n ≠ c → history schemas' n = history schemas n := by
    intro n t ht hne
    funext v
    refine hother _ fun w hkey => hne ((schemaKey_inj (h.named ht) (h.named hc)).mp hkey).1
  refine ⟨h.named, fun {key y} hy => ?_, fun {n t'} ht => ?_, fun {n t'} ht hstub w => ?_,
    fun {c' u'} hu' his hlocal w => ?_⟩
  · by_cases hkey : ∃ v, key = schemaKey c v
    · obtain ⟨v, hv⟩ := hkey
      exact ⟨c, v, u, hc, hv⟩
    · rw [hother key fun v hv => hkey ⟨v, hv⟩] at hy
      exact h.owned hy
  · by_cases hn : n = c
    · rw [hn, hchild]
      exact h.dense hp
    · rw [hget ht hn]
      exact h.dense ht
  · by_cases hn : n = c
    · subst hn
      rw [hc, some.injEq] at ht
      exact absurd (ht ▸ hstub.2) hnotChild
    · rw [hget ht hn]
      exact h.stub ht hstub w
  · obtain ⟨p', hp', -⟩ := (hforest.node hu').attached his
    have hne : c' ≠ c := by
      rintro rfl
      rw [hc, some.injEq] at hu'
      exact hnotChild (hu' ▸ his)
    have hnep : u'.parent ≠ c := by
      intro heq
      exact hforest.not_childOf (p := c) (fun t ht => by
        rw [hc, some.injEq] at ht
        exact ht ▸ hnotParent) ⟨u', hu', his, heq⟩
    rw [hget hu' hne, hget hp' hnep]
    exact h.linked hu' his hlocal w

end

end Narad.Metastore
