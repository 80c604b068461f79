import Narad.Consumer.ShardInvariant

/-!
# Runs of a shard, and the scan hint

Every operation whose arguments are `int64` values keeps `Shard.WellFormed`, so every run from a shard
that was recovered below the largest `int64` does. The hint that `reserveNext` scans from is then exact:
`oracleLocked` searches from the frontier over all offsets below the tail, and the two answers agree.
-/

namespace Narad.Consumer

open Lib List Finmap

variable {sh : Shard}

/-- A scan that finds an offset found the lowest free one. -/
theorem scanFree_some {count : ℕ} {start off : ℤ} (h : scanFree sh count start = some off) :
    start ≤ off ∧ off < start + count ∧ ¬ sh.Taken off ∧ ∀ o, start ≤ o → o < off → sh.Taken o := by
  induction count generalizing start with
  | zero => cases h
  | succ count ih =>
    by_cases htaken : sh.Taken start
    · simp only [scanFree, (resolvedOrReservedLocked_iff sh start).2 htaken, if_true] at h
      obtain ⟨hle, hlt, hfree, hbelow⟩ := ih h
      refine ⟨by omega, by push_cast; omega, hfree, fun o hlow hhigh => ?_⟩
      by_cases ho : o = start
      · exact ho ▸ htaken
      · exact hbelow o (by omega) hhigh
    · rw [← resolvedOrReservedLocked_iff] at htaken
      simp only [scanFree, htaken, if_false, Option.some.injEq, Bool.false_eq_true] at h
      subst h
      refine ⟨le_rfl, by push_cast; omega, by simpa using htaken, fun o hlow hhigh => by omega⟩

/-- A scan that finds nothing passed only taken offsets. -/
theorem scanFree_none {count : ℕ} {start : ℤ} (h : scanFree sh count start = none) :
    ∀ o, start ≤ o → o < start + count → sh.Taken o := by
  induction count generalizing start with
  | zero => intro o hlow hhigh; push_cast at hhigh; omega
  | succ count ih =>
    by_cases htaken : sh.Taken start
    · simp only [scanFree, (resolvedOrReservedLocked_iff sh start).2 htaken, if_true] at h
      intro o hlow hhigh
      by_cases ho : o = start
      · exact ho ▸ htaken
      · exact ih h o (by omega) (by push_cast at hhigh; omega)
    · rw [← resolvedOrReservedLocked_iff] at htaken
      simp [scanFree, htaken] at h

/-- The lowest free offset between the frontier and the tail, by exhaustive search. -/
def lowestFree (sh : Shard) (tail : ℤ) : Option ℤ :=
  scanFree sh (tail - succ sh.committed).toNat (succ sh.committed)

/-- The brute-force answer of a reservation on the stored state. -/
def oracleLocked (sh : Shard) (tail : ℤ) : Except SkipReason ℤ :=
  if sh.maxInFlight ≤ (sh.entries.keys.card : ℤ) then .error .cap
  else if tail ≤ succ sh.committed then .error .empty
  else if aheadFullLocked sh then
    if resolvedOrReservedLocked sh (succ sh.committed) then .error .aheadFull
    else .ok (succ sh.committed)
  else
    match lowestFree sh tail with
    | some off => .ok off
    | none => .error .allReserved

/-- An offset a reservation may hand out below the tail. -/
def Shard.Free (sh : Shard) (tail off : ℤ) : Prop :=
  sh.committed < off ∧ off < tail ∧ ¬ sh.Taken off

/-- What a choice hands out whether or not an offset wraps: nothing holds it, there is room for its lease,
and with the ahead state full it is the offset the frontier waits for. -/
theorem chooseNext_ok {tail off : ℤ} (h : chooseNext sh tail = .ok off) :
    (sh.entries.keys.card : ℤ) < sh.maxInFlight ∧ ¬ sh.Taken off ∧
      (aheadFullLocked sh = true → off = succ sh.committed) := by
  unfold chooseNext at h
  dsimp only at h
  split_ifs at h with hcap htail hfull hnext
  · cases h
    exact ⟨not_le.1 hcap, by simpa using hnext, fun _ => rfl⟩
  split at h
  · cases h
    exact ⟨not_le.1 hcap, (scanFree_some ‹_›).2.2.1, fun h => absurd h hfull⟩
  · cases h

section

variable (hc : sh.committed < maxInt64) (tail : ℤ)
include hc

theorem lowestFree_eq_none_iff : lowestFree sh tail = none ↔ ∀ o, ¬ sh.Free tail o := by
  rw [lowestFree, succ_of_lt hc]
  constructor
  · rintro h o ⟨hlow, hhigh, hfree⟩
    exact hfree (scanFree_none h o (by omega) (by omega))
  · intro h
    cases hscan : scanFree sh (tail - (sh.committed + 1)).toNat (sh.committed + 1) with
    | none => rfl
    | some off =>
      obtain ⟨hle, hlt, hfree, -⟩ := scanFree_some hscan
      exact absurd ⟨by omega, by omega, hfree⟩ (h off)

theorem lowestFree_eq_some_iff (off : ℤ) : lowestFree sh tail = some off ↔
      sh.Free tail off ∧ ∀ o, sh.committed < o → o < off → sh.Taken o := by
  have hspec : ∀ o, lowestFree sh tail = some o →
      sh.Free tail o ∧ ∀ o', sh.committed < o' → o' < o → sh.Taken o' := by
    intro o h
    rw [lowestFree, succ_of_lt hc] at h
    obtain ⟨hle, hlt, hfree, hbelow⟩ := scanFree_some h
    exact ⟨⟨by omega, by omega, hfree⟩, fun o' hlow hhigh => hbelow o' (by omega) hhigh⟩
  refine ⟨hspec off, fun ⟨hfree, hbelow⟩ => ?_⟩
  cases hscan : lowestFree sh tail with
  | none => exact absurd hfree ((lowestFree_eq_none_iff hc tail).1 hscan off)
  | some o =>
    obtain ⟨ho, hbelow'⟩ := hspec o hscan
    congr 1
    by_contra hne
    rcases Int.lt_or_gt_of_ne hne with hlt | hgt
    · exact ho.2.2 (hbelow o ho.1 hlt)
    · exact hfree.2.2 (hbelow' off hfree.1 hgt)

/-- What an admitted reservation hands out: a free offset, with nothing free below it. -/
theorem oracleLocked_ok {off : ℤ} (h : oracleLocked sh tail = .ok off) :
    sh.Free tail off ∧ ∀ o, sh.committed < o → o < off → sh.Taken o := by
  unfold oracleLocked at h
  rw [succ_of_lt hc] at h
  split_ifs at h with hcap htail hfull hnext
  · cases h
    refine ⟨⟨by omega, by omega, ?_⟩, fun o hlow hhigh => by omega⟩
    simpa using hnext
  split at h
  · cases h
    exact (lowestFree_eq_some_iff hc tail _).1 ‹_›
  · cases h

end

/-- Scanning from the hint finds the lowest free offset of the whole range. -/
theorem scanFree_eq_lowestFree (hsh : sh.Sound) (tail : ℤ) :
    scanFree sh (tail - max (succ sh.committed) sh.nextFree).toNat
      (max (succ sh.committed) sh.nextFree) = lowestFree sh tail := by
  have hc := hsh.committed_lt
  rw [succ_of_lt hc]
  have hskip : ∀ o, sh.committed < o → o < max (sh.committed + 1) sh.nextFree → sh.Taken o :=
    fun o hlow hhigh => hsh.covered o hlow (by omega)
  cases hscan : scanFree sh (tail - max (sh.committed + 1) sh.nextFree).toNat
      (max (sh.committed + 1) sh.nextFree) with
  | some off =>
    obtain ⟨hle, hlt, hfree, hbelow⟩ := scanFree_some hscan
    refine ((lowestFree_eq_some_iff hc tail off).2 ⟨⟨by omega, by omega, hfree⟩, ?_⟩).symm
    intro o hlow hhigh
    by_cases ho : o < max (sh.committed + 1) sh.nextFree
    · exact hskip o hlow ho
    · exact hbelow o (not_lt.1 ho) hhigh
  | none =>
    refine ((lowestFree_eq_none_iff hc tail).2 ?_).symm
    rintro o ⟨hlow, hhigh, hfree⟩
    by_cases ho : o < max (sh.committed + 1) sh.nextFree
    · exact hfree (hskip o hlow ho)
    · exact hfree (scanFree_none hscan o (not_lt.1 ho) (by omega))

/-- The fast choice is the brute-force one. -/
theorem chooseNext_eq_oracleLocked (hsh : sh.Sound) (tail : ℤ) : chooseNext sh tail = oracleLocked sh tail := by
  cases hfree : lowestFree sh tail <;>
    simp only [chooseNext, oracleLocked, scanFree_eq_lowestFree hsh tail, hfree]

/-- The state a fresh reservation leaves behind. -/
theorem reserveLocked_shard (sh : Shard) (off now timeout nonce : ℤ) : (reserveLocked sh off now timeout nonce).1 =
      { lease sh off { expiresAtUnixMs := wrap (now + milliseconds timeout), nonce := nonce } with
        nextFree := if sh.nextFree ≤ off then succ off else sh.nextFree } := by
  simp only [reserveLocked]
  split_ifs with hhint hhint'
  · rfl
  · exact absurd hhint hhint'
  · exact absurd ‹_› hhint
  · rfl

variable {off : ℤ}

theorem Shard.Apart.reserve (hsh : sh.Apart) (hfree : ¬ sh.Taken off) (now timeout nonce : ℤ) :
    (reserveLocked sh off now timeout nonce).1.Apart := by
  rw [reserveLocked_shard]
  refine ⟨fun o ho => ?_, fun o ho => ?_, hsh.ackedAhead_corrupt⟩
  · rcases mem_insert.1 ho with rfl | ho
    · exact fun h => hfree (.inr (.inl h))
    · exact hsh.entries_ackedAhead o ho
  · rcases mem_insert.1 ho with rfl | ho
    · exact fun h => hfree (.inr (.inr h))
    · exact hsh.entries_corrupt o ho

/-- A lease on a free offset, with nothing free below it, keeps the invariant. -/
theorem reserveLocked_wellFormed (hsh : sh.WellFormed) (habove : sh.committed < off) (hfree : ¬ sh.Taken off)
    (hbelow : ∀ o, sh.committed < o → o < off → sh.Taken o) (hmax : off < maxInt64) (now timeout nonce : ℤ) :
    (reserveLocked sh off now timeout nonce).1.WellFormed := by
  have hapart := hsh.toApart.reserve hfree now timeout nonce
  rw [reserveLocked_shard] at hapart ⊢
  have hwas : ∀ o, (lease sh off { expiresAtUnixMs := wrap (now + milliseconds timeout), nonce }).Taken o →
      o = off ∨ sh.Taken o :=
    fun o ho => ho.elim (fun h => (mem_insert.1 h).imp_right .inl) fun h => .inr (.inr h)
  refine ⟨⟨hapart, ⟨hsh.committed_lt, fun o ho => ?_⟩, fun o ho => ?_, fun o hlow hhigh => ?_⟩,
    hsh.next_ackedAhead, hsh.next_corrupt⟩
  · exact (hwas o ho).elim (· ▸ hmax) (hsh.taken_lt o)
  · exact (hwas o ho).elim (· ▸ habove) (hsh.above o)
  · -- What lies between the frontier and the new hint was taken before, or is leased now.
    by_cases ho : o = off
    · exact .inl (mem_insert.2 (.inl ho))
    have htaken : sh.Taken o := by
      by_cases hlt : o < off
      · exact hbelow o hlow hlt
      refine hsh.covered o hlow ?_
      simp only [succ_of_lt hmax] at hhigh
      split_ifs at hhigh <;> omega
    exact htaken.imp_left fun hent => mem_insert.2 (.inr hent)

/-- Absorbing the leased offset right above the frontier leaves a state ready to collapse. -/
theorem Shard.WellFormed.commitNext (hsh : sh.WellFormed) (hheld : sh.committed + 1 ∈ sh.entries) :
    (commitAt (sh.committed + 1) sh).Sound where
  toApart := hsh.toApart.mono (fun _ hoff => (mem_erase.1 hoff).2) subset_rfl subset_rfl
  committed_lt := hsh.taken_lt _ (.inl hheld)
  taken_lt off hoff := hsh.taken_lt off (hoff.imp_left fun h => (mem_erase.1 h).2)
  above off hoff := by
    have hne : off ≠ sh.committed + 1 := by
      rintro rfl
      rcases hoff with h | h | h
      · exact (mem_erase.1 h).1 rfl
      · exact hsh.next_ackedAhead h
      · exact hsh.next_corrupt h
    have := hsh.above off (hoff.imp_left fun h => (mem_erase.1 h).2)
    simp only [commitAt]
    omega
  covered off hlow hhigh := by
    simp only [commitAt] at hlow
    refine (hsh.covered off (by omega) hhigh).imp_left fun hent => ?_
    exact mem_erase.2 ⟨by omega, hent⟩

theorem Shard.Apart.park (hsh : sh.Apart) (kind : AheadOf) (hheld : off ∈ sh.entries) (version : ℕ) :
    Shard.Apart { dropLease off (kind.park off sh) with aheadVersion := version } := by
  cases kind with
  | ackedAhead =>
    refine ⟨fun o ho hacked => ?_, fun o ho => hsh.entries_corrupt o (mem_erase.1 ho).2, fun o ho => ?_⟩
    · obtain ⟨hne, hmem⟩ := mem_erase.1 ho
      exact hsh.entries_ackedAhead o hmem (Finset.mem_of_mem_insert_of_ne hacked hne)
    · rcases Finset.mem_insert.1 ho with rfl | ho
      · exact hsh.entries_corrupt o hheld
      · exact hsh.ackedAhead_corrupt o ho
  | corrupt =>
    refine ⟨fun o ho => hsh.entries_ackedAhead o (mem_erase.1 ho).2, fun o ho hcorrupt => ?_, fun o ho hcorrupt => ?_⟩
    · obtain ⟨hne, hmem⟩ := mem_erase.1 ho
      exact hsh.entries_corrupt o hmem (Finset.mem_of_mem_insert_of_ne hcorrupt hne)
    · rcases Finset.mem_insert.1 hcorrupt with rfl | hcorrupt
      · exact hsh.entries_ackedAhead o hheld ho
      · exact hsh.ackedAhead_corrupt o ho hcorrupt

/-- Parking moves an offset from the leases to a resolved set. -/
theorem taken_park_iff (kind : AheadOf) (hheld : off ∈ sh.entries) (version : ℕ) (o : ℤ) :
    Shard.Taken { dropLease off (kind.park off sh) with aheadVersion := version } o ↔ sh.Taken o := by
  by_cases ho : o = off
  · subst ho
    cases kind <;> simp [Shard.Taken, AheadOf.park, dropLease, hheld]
  · cases kind <;> simp [Shard.Taken, AheadOf.park, dropLease, ho]

/-- Parking a leased offset above the frontier keeps the invariant. -/
theorem Shard.WellFormed.park (hsh : sh.WellFormed) (kind : AheadOf)
    (hheld : off ∈ sh.entries) (hnext : off ≠ sh.committed + 1) (version : ℕ) :
    Shard.WellFormed { dropLease off (kind.park off sh) with aheadVersion := version } := by
  have hapart := hsh.toApart.park kind hheld version
  have htaken := taken_park_iff kind hheld version
  have hlt := fun o ho => hsh.taken_lt o ((htaken o).1 ho)
  have habove := fun o ho => hsh.above o ((htaken o).1 ho)
  have hcovered := fun o hlow hhigh => (htaken o).2 (hsh.covered o hlow hhigh)
  cases kind with
  | ackedAhead =>
    refine ⟨⟨hapart, ⟨hsh.committed_lt, hlt⟩, habove, hcovered⟩, fun h => ?_, hsh.next_corrupt⟩
    exact hsh.next_ackedAhead (Finset.mem_of_mem_insert_of_ne h (Ne.symm hnext))
  | corrupt =>
    refine ⟨⟨hapart, ⟨hsh.committed_lt, hlt⟩, habove, hcovered⟩, hsh.next_ackedAhead, fun h => ?_⟩
    exact hsh.next_corrupt (Finset.mem_of_mem_insert_of_ne h (Ne.symm hnext))

variable (order : RangeOrder)

/-- Dropping the leases below `oldest` keeps exactly the others. -/
theorem lookup_dropLeasesBelow (oldest : ℤ) (entries : Entries) (off : ℤ) :
    (dropLeasesBelow order oldest entries).lookup off = if off < oldest then none else entries.lookup off := by
  have hfold : ∀ (keys : List ℤ) (m : Entries),
      (keys.foldl (fun m k => if k < oldest then m.erase k else m) m).lookup off =
        if off < oldest ∧ off ∈ keys then none else m.lookup off := by
    intro keys
    induction keys with
    | nil => simp
    | cons k keys ih =>
      intro m
      rw [foldl_cons, ih]
      by_cases hk : k < oldest
      · by_cases hoff : off = k
        · subst hoff; simp [hk]
        · simp [hk, hoff, lookup_erase_ne hoff]
      have hne : off < oldest → off ≠ k := by omega
      by_cases hlt : off < oldest
      · simp [hk, hlt, hne hlt]
      · simp [hk, hlt]
  rw [dropLeasesBelow, hfold]
  simp only [order.mem_visit, Finmap.mem_keys]
  by_cases hlt : off < oldest
  · by_cases hmem : off ∈ entries
    · simp [hlt, hmem]
    · simp [hlt, hmem, lookup_eq_none.2 hmem]
  · simp [hlt]

theorem mem_dropLeasesBelow (oldest : ℤ) (entries : Entries) (off : ℤ) :
    off ∈ dropLeasesBelow order oldest entries ↔ oldest ≤ off ∧ off ∈ entries := by
  rw [← lookup_isSome, ← lookup_isSome, lookup_dropLeasesBelow]
  by_cases hlt : off < oldest
  · simp [hlt, not_le.2 hlt]
  · simp [hlt, not_lt.1 hlt]

theorem Shard.Apart.forgetBelow (hsh : sh.Apart) (order : RangeOrder) (oldest : ℤ) :
    (Consumer.forgetBelow order oldest sh).Apart :=
  hsh.mono (fun off hoff => ((mem_dropLeasesBelow order oldest sh.entries off).1 hoff).2)
    (Finset.filter_subset ..) (Finset.filter_subset ..)

/-- Forgetting everything below `oldest` leaves a state ready to collapse. -/
theorem Shard.WellFormed.forgetBelow (hsh : sh.WellFormed) (order : RangeOrder)
    {oldest : ℤ} (hmax : oldest ≤ maxInt64) : (Consumer.forgetBelow order oldest sh).Sound := by
  have hcommitted : (Consumer.forgetBelow order oldest sh).committed = max sh.committed (oldest - 1) := by
    simp only [Consumer.forgetBelow]
    split_ifs <;> omega
  have hc := hsh.committed_lt
  have htaken : ∀ off, (Consumer.forgetBelow order oldest sh).Taken off ↔ oldest ≤ off ∧ sh.Taken off := by
    intro off
    simp only [Shard.Taken, Consumer.forgetBelow, mem_dropLeasesBelow, Finset.mem_filter]
    tauto
  refine ⟨hsh.toApart.forgetBelow order oldest, ⟨by omega, ?_⟩, ?_, ?_⟩
  · exact fun off hoff => hsh.taken_lt off ((htaken off).1 hoff).2
  · intro off hoff
    obtain ⟨hold, hwas⟩ := (htaken off).1 hoff
    have := hsh.above off hwas
    omega
  · intro off hlow hhigh
    exact (htaken off).2 ⟨by omega, hsh.covered off (by omega) hhigh⟩

theorem mem_insert_of_held {entries : Entries} (hheld : off ∈ entries) (rsv : Reservation) (o : ℤ) :
    o ∈ entries.insert off rsv ↔ o ∈ entries := by
  rw [mem_insert]
  exact or_iff_right_of_imp fun h => h ▸ hheld

/-- Renewing the lease of a leased offset keeps the invariant. -/
theorem Shard.WellFormed.renew (hsh : sh.WellFormed)
    (hheld : off ∈ sh.entries) (rsv : Reservation) : (lease sh off rsv).WellFormed := by
  have hmem := mem_insert_of_held hheld rsv
  exact ⟨⟨hsh.toApart.mono (fun o ho => (hmem o).1 ho) subset_rfl subset_rfl,
    ⟨hsh.committed_lt, fun o ho => hsh.taken_lt o (ho.imp_left (hmem o).1)⟩,
    fun o ho => hsh.above o (ho.imp_left (hmem o).1),
    fun o hlow hhigh => (hsh.covered o hlow hhigh).imp_left (hmem o).2⟩,
    hsh.next_ackedAhead, hsh.next_corrupt⟩

/-- The offset of a held handle is leased. -/
theorem mem_entries_of_heldBy {off nonce : ℤ} (h : heldBy sh off nonce = true) : off ∈ sh.entries := by
  unfold heldBy at h
  split at h
  · exact mem_of_lookup_eq_some ‹_›
  · cases h

/-- How far up an operation's arguments reach: the tail it reserves below, or the oldest retained offset
it skips to. -/
def Op.reach : Op → ℤ
  | .reserveNext _ _ _ _ logTail => logTail
  | .skipMissingBelow _ _ _ _ oldest => oldest
  | _ => 0

/-- The arguments of an operation are `int64` values. -/
def Op.Fits (op : Op) : Prop := op.reach ≤ maxInt64

instance (op : Op) : Decidable op.Fits := inferInstanceAs (Decidable (_ ≤ _))

/-- What an operation with arguments up to `reach` does once the expired leases are gone. -/
inductive After : ℤ → Shard → Shard → Prop where
  | none {reach : ℤ} {p : Shard} : After reach p p
  | reserve {p : Shard} {tail off : ℤ} (now timeout nonce : ℤ) (h : chooseNext p tail = .ok off) :
      After tail p (reserveLocked p off now timeout nonce).1
  | commit {reach : ℤ} {p : Shard} (h : succ p.committed ∈ p.entries) :
      After reach p (advanceCommittedLocked (commitAt (succ p.committed) p))
  | park {reach : ℤ} {p : Shard} {off : ℤ} (kind : AheadOf) (version : ℕ) (h : off ∈ p.entries)
      (hnext : off ≠ succ p.committed) :
      After reach p { dropLease off (kind.park off p) with aheadVersion := version }
  | forget {p : Shard} (order : RangeOrder) (oldest : ℤ) :
      After oldest p (advanceCommittedLocked (forgetBelow order oldest p))
  | renew {reach : ℤ} {p : Shard} {off : ℤ} (rsv : Reservation) (h : off ∈ p.entries) :
      After reach p (lease p off rsv)
  | release {reach : ℤ} {p : Shard} {off : ℤ} (h : off ∈ p.entries) :
      After reach p (freedLocked off (dropLease off p))

/-- An operation sweeps the shard, or turns its arguments down before that, and changes it in one way. -/
theorem perform_after (op : Op) (sh : Shard) (hop : ∀ caps, op ≠ .refreshCaps caps) :
    ∃ p, (p = sh ∨ ∃ order now, p = (purgeExpiredLocked order now sh).1) ∧ After op.reach p (op.perform sh).shard := by
  have hresolve : ∀ kind order now off nonce, After 0 (purgeExpiredLocked order now sh).1
      (resolveReserved kind order now off nonce sh).shard := by
    intro kind order now off nonce
    simp only [resolveReserved]
    split_ifs with hheld hnext
    · subst hnext
      exact .commit (mem_entries_of_heldBy hheld)
    · exact .park kind _ (mem_entries_of_heldBy hheld) hnext
    · exact .park kind _ (mem_entries_of_heldBy hheld) hnext
    · exact .none
  cases op with
  | reserveNext order now nonce timeout tail =>
    refine ⟨_, .inr ⟨order, now, rfl⟩, ?_⟩
    simp only [Op.perform, Call.map, reserveNext]
    split
    · exact .none
    · exact .reserve now timeout nonce ‹_›
  | commitHandle order now off nonce => exact ⟨_, .inr ⟨order, now, rfl⟩, hresolve ..⟩
  | skipCorrupt order now off nonce => exact ⟨_, .inr ⟨order, now, rfl⟩, hresolve ..⟩
  | skipMissingBelow order now off nonce oldest =>
    simp only [Op.perform, Call.map, skipMissingBelow]
    split_ifs
    · exact ⟨sh, .inl rfl, .none⟩
    · exact ⟨_, .inr ⟨order, now, rfl⟩, .forget order oldest⟩
    · exact ⟨_, .inr ⟨order, now, rfl⟩, .none⟩
  | extendHandle order now off nonce timeout =>
    refine ⟨_, .inr ⟨order, now, rfl⟩, ?_⟩
    simp only [Op.perform, Call.map, extendHandle]
    split_ifs with hheld
    · exact .renew _ (mem_entries_of_heldBy hheld)
    · exact .none
  | releaseHandle order now off nonce =>
    refine ⟨_, .inr ⟨order, now, rfl⟩, ?_⟩
    simp only [Op.perform, Call.map, releaseHandle]
    split_ifs with hheld
    · exact .release (mem_entries_of_heldBy hheld)
    · exact .none
  | purgeAll order now => exact ⟨_, .inr ⟨order, now, rfl⟩, .none⟩
  | refreshCaps caps => exact absurd rfl (hop caps)

/-- The three sets stay disjoint, whether or not an offset wraps. -/
theorem After.apart {reach : ℤ} {p q : Shard} (h : After reach p q) (hp : p.Apart) : q.Apart := by
  cases h with
  | none => exact hp
  | reserve now timeout nonce hoff => exact hp.reserve (chooseNext_ok hoff).2.1 now timeout nonce
  | commit =>
    refine advanceCommittedLocked_apart (hp.mono ?_ subset_rfl subset_rfl)
    exact fun _ hoff => (mem_erase.1 hoff).2
  | park kind version hheld => exact hp.park kind hheld version
  | forget order => exact advanceCommittedLocked_apart (hp.forgetBelow order reach)
  | renew rsv hheld =>
    exact hp.mono (fun o ho => (mem_insert_of_held hheld rsv o).1 ho) subset_rfl subset_rfl
  | release hheld => exact (Swept.evict _ hheld).apart hp

theorem After.wellFormed {reach : ℤ} {p q : Shard} (h : After reach p q) (hp : p.WellFormed)
    (hmax : reach ≤ maxInt64) : q.WellFormed := by
  have hsucc := succ_of_lt hp.committed_lt
  cases h with
  | none => exact hp
  | reserve now timeout nonce hoff =>
    rw [chooseNext_eq_oracleLocked hp.toSound] at hoff
    obtain ⟨⟨habove, hlt, hfree⟩, hbelow⟩ := oracleLocked_ok hp.committed_lt _ hoff
    exact reserveLocked_wellFormed hp habove hfree hbelow (hlt.trans_le hmax) now timeout nonce
  | commit hheld =>
    rw [hsucc] at hheld ⊢
    exact advanceCommittedLocked_wellFormed (hp.commitNext hheld)
  | park kind version hheld hnext => exact hp.park kind hheld (hsucc ▸ hnext) version
  | forget order => exact advanceCommittedLocked_wellFormed (hp.forgetBelow order hmax)
  | renew rsv hheld => exact hp.renew hheld rsv
  | release hheld => exact (Swept.evict _ hheld).wellFormed hp

section

variable (hsh : sh.WellFormed)
include hsh

/-- Step lemma: one operation keeps the invariant. -/
theorem perform_wellFormed {op : Op} (hfits : op.Fits) : (op.perform sh).shard.WellFormed := by
  by_cases hop : ∃ caps, op = .refreshCaps caps
  · obtain ⟨caps, rfl⟩ := hop
    change (refreshCaps caps sh).WellFormed
    unfold refreshCaps
    split_ifs
    · exact hsh
    · exact { hsh with }
  obtain ⟨p, rfl | ⟨order, now, rfl⟩, hafter⟩ := perform_after op sh (not_exists.mp hop)
  · exact hafter.wellFormed hsh hfits
  · exact hafter.wellFormed ((purge_swept order now sh).wellFormed hsh) hfits

/-- Run lemma: a sequence of operations keeps the invariant. -/
theorem run_wellFormed {ops : List Op} (hfits : ∀ op ∈ ops, op.Fits) : (run sh ops).WellFormed := by
  induction ops generalizing sh with
  | nil => exact hsh
  | cons op ops ih =>
    exact ih (perform_wellFormed hsh (hfits op (.head _))) fun op hop => hfits op (.tail _ hop)

end

/-- What seeding inserts: the offsets above the frontier, and nothing else changes. -/
theorem insertAhead_spec (offsets : List ℤ) (sh : Shard) : ∃ version, insertAhead sh offsets = { sh with
      ackedAhead := sh.ackedAhead ∪ offsets.toFinset.filter (sh.committed < ·), aheadVersion := version } := by
  induction offsets generalizing sh with
  | nil => exact ⟨sh.aheadVersion, by simp [insertAhead]⟩
  | cons off offsets ih =>
    rw [insertAhead, foldl_cons, ← insertAhead]
    by_cases hoff : sh.committed < off
    · obtain ⟨version, h⟩ := ih { sh with
        ackedAhead := insert off sh.ackedAhead
        aheadVersion := sh.aheadVersion + 1 }
      refine ⟨version, ?_⟩
      rw [if_pos hoff, h]
      congr 1
      ext o
      simp only [Finset.mem_union, Finset.mem_insert, Finset.mem_filter, mem_toFinset, mem_cons]
      constructor
      · rintro ((rfl | h) | h)
        · exact .inr ⟨.inl rfl, hoff⟩
        · exact .inl h
        · exact .inr ⟨.inr h.1, h.2⟩
      · rintro (h | ⟨rfl | h, hlt⟩)
        · exact .inl (.inr h)
        · exact .inl (.inl rfl)
        · exact .inr ⟨h, hlt⟩
    · obtain ⟨version, h⟩ := ih sh
      refine ⟨version, ?_⟩
      rw [if_neg hoff, h]
      congr 1
      ext o
      simp only [Finset.mem_union, Finset.mem_filter, mem_toFinset, mem_cons]
      refine or_congr_right ⟨fun h => ⟨.inr h.1, h.2⟩, fun h => ⟨?_, h.2⟩⟩
      exact h.1.resolve_left fun ho => hoff (ho ▸ h.2)

theorem insertAhead_newPartitionShard_apart (c : ℤ) (caps : Caps) (offsets : List ℤ) :
    (insertAhead (newPartitionShard c caps) offsets).Apart := by
  obtain ⟨version, h⟩ := insertAhead_spec offsets (newPartitionShard c caps)
  rw [h]
  exact ⟨fun off hoff => absurd hoff notMem_empty, fun off hoff => absurd hoff notMem_empty,
    fun off _ => Finset.notMem_empty off⟩

variable {c : ℤ} {offsets : List ℤ} (caps : Caps)

/-- A new shard with its recovered offsets inserted is ready to collapse. -/
theorem insertAhead_newPartitionShard_sound (hc : c < maxInt64) (hoffsets : ∀ off ∈ offsets, off < maxInt64) :
    (insertAhead (newPartitionShard c caps) offsets).Sound := by
  have hapart := insertAhead_newPartitionShard_apart c caps offsets
  obtain ⟨version, h⟩ := insertAhead_spec offsets (newPartitionShard c caps)
  rw [h] at hapart ⊢
  have hacked : ∀ off, off ∈ (newPartitionShard c caps).ackedAhead ∪ offsets.toFinset.filter (c < ·) →
      off ∈ offsets ∧ c < off := by simp [newPartitionShard]
  refine ⟨hapart, ⟨hc, ?_⟩, ?_, ?_⟩
  · rintro off (hoff | hoff | hoff)
    · exact absurd hoff notMem_empty
    · exact hoffsets off (hacked off hoff).1
    · exact absurd hoff (Finset.notMem_empty off)
  · rintro off (hoff | hoff | hoff)
    · exact absurd hoff notMem_empty
    · exact (hacked off hoff).2
    · exact absurd hoff (Finset.notMem_empty off)
  · intro off hlow hhigh
    simp only [newPartitionShard, succ_of_lt hc] at hlow hhigh
    omega

theorem seedAheadLocked_wellFormed (hc : c < maxInt64) (hoffsets : ∀ off ∈ offsets, off < maxInt64) :
    (seedAheadLocked offsets (newPartitionShard c caps)).WellFormed :=
  advanceCommittedLocked_wellFormed (insertAhead_newPartitionShard_sound caps hc hoffsets)

/-- The recovered frontier and offsets are below the largest `int64`. -/
def Recovered.Fits (r : Recovered) : Prop :=
  r.frontier < maxInt64 ∧ ∀ off ∈ r.offsets, off < maxInt64

instance (r : Recovered) : Decidable r.Fits := inferInstanceAs (Decidable (_ ∧ _))

theorem recoverShard_wellFormed {r : Recovered} (hr : r.Fits) (caps : Caps) : (recoverShard r caps).WellFormed :=
  seedAheadLocked_wellFormed caps hr.1 hr.2

/-- The value a reservation returns for a given choice. -/
def answer (now nonce visibilityTimeout : ℤ) : Except SkipReason ℤ → ReserveResult
  | .ok off => .reserved off nonce (wrap (now + milliseconds visibilityTimeout))
  | .error reason => .skipped reason

theorem reserveNext_result (now nonce timeout tail : ℤ) (sh : Shard) :
    (reserveNext order now nonce timeout tail sh).result =
      answer now nonce timeout (chooseNext (purgeExpiredLocked order now sh).1 tail) := by
  simp only [reserveNext]
  split <;> simp [answer, reserveLocked, *]

/-- In every run of a shard that was recovered below the largest `int64` the representation invariant
holds, and a reservation there answers exactly what the brute-force search over the purged state
answers. -/
theorem reachable_wellFormed_and_reserveNext_eq_oracle (c : ℤ) (caps : Caps) (offsets : List ℤ)
    (ops : List Op) (hc : c < maxInt64) (hoffsets : ∀ off ∈ offsets, off < maxInt64) (hops : ∀ op ∈ ops, op.Fits) :
    (run (seedAheadLocked offsets (newPartitionShard c caps)) ops).WellFormed ∧
      ∀ (order : RangeOrder) (now nonce timeout tail : ℤ), (reserveNext order now nonce timeout tail
            (run (seedAheadLocked offsets (newPartitionShard c caps)) ops)).result = answer now nonce timeout
            (oracleLocked (purgeExpiredLocked order now
              (run (seedAheadLocked offsets (newPartitionShard c caps)) ops)).1 tail) := by
  have hrun : (run (seedAheadLocked offsets (newPartitionShard c caps)) ops).WellFormed :=
    run_wellFormed (seedAheadLocked_wellFormed caps hc hoffsets) hops
  refine ⟨hrun, fun order now nonce timeout tail => ?_⟩
  have hp := (purge_swept order now _).wellFormed hrun
  rw [reserveNext_result, chooseNext_eq_oracleLocked hp.toSound]

/-- Two offsets recovered ahead, one of them right above the frontier, and the lease between them. -/
def seededAndLeased : Shard :=
  run (seedAheadLocked [0, 2] (newPartitionShard (-1) ⟨2, 4⟩)) [.reserveNext .ascending 0 1 1000000 4]

theorem seededAndLeased_eq_oracle : seededAndLeased.WellFormed ∧
    (reserveNext .ascending 0 2 1000000 4 seededAndLeased).result =
      answer 0 2 1000000 (oracleLocked (purgeExpiredLocked .ascending 0 seededAndLeased).1 4) := by
  have h := reachable_wellFormed_and_reserveNext_eq_oracle (-1) ⟨2, 4⟩ [0, 2]
    [.reserveNext .ascending 0 1 1000000 4] (by decide) (by decide) (by simp [Op.Fits, Op.reach, maxInt64])
  exact ⟨h.1, h.2 .ascending 0 2 1000000 4⟩

/-- A frontier that collapses onto the largest `int64` wraps: the search from the frontier finds the
smallest offset, and the scan from the hint finds none. -/
theorem wrapped_frontier_hides_offsets : (reserveNext .ascending 0 1 1000000 5
      (seedAheadLocked [maxInt64] (newPartitionShard (maxInt64 - 1) ⟨2, 4⟩))).result = .skipped .allReserved ∧
    oracleLocked (purgeExpiredLocked .ascending 0
      (seedAheadLocked [maxInt64] (newPartitionShard (maxInt64 - 1) ⟨2, 4⟩))).1 5 = .ok minInt64 := by
  constructor
  · decide
  · decide

end Narad.Consumer
