import Narad.Consumer.Expiry

/-!
# Wake-ups of parked long-polls

A long-poll parks when the stored state admits no reservation, and is woken by the release
notifier. With the caps and the tail fixed, an operation that turns a blocked state into one that
admits a reservation should therefore have notified. Every operation computes its own condition
for that; all of them get it right except two, which drop the count of leases their inline purge
released: `reserveNext`, and the stale return of `skipMissingBelow`. `LosesWake` says, of the stored state
and the arguments of the call, exactly when those two leave a poller asleep.
-/

namespace Narad.Consumer

open Lib Finmap

/-- The stored state hands out an offset. -/
def Admits (sh : Shard) (tail : ℤ) : Prop := ∃ off, oracleLocked sh tail = .ok off

/-- The stored state refuses, and not for want of records. -/
def Blocked (sh : Shard) (tail : ℤ) : Prop :=
  ∃ reason, oracleLocked sh tail = .error reason ∧ reason ≠ .empty

/-- An operation that leaves a blocked state reservable has notified. -/
def NoLostWake (tail : ℤ) (sh : Shard) (op : Op) : Prop :=
  Blocked sh tail → Admits (op.perform sh).shard tail → (op.perform sh).notified = true

/-- The operations that leave the caps alone and see the tail as it is. -/
def Op.AtTail (tail : ℤ) : Op → Prop
  | .reserveNext _ _ _ _ logTail => logTail = tail
  | .refreshCaps _ => False
  | _ => True

/-- The leases of the stored state that still run at `now`. -/
def Shard.running (sh : Shard) (now : ℤ) : Finset ℤ :=
  sh.entries.keys.filter fun off => (sh.entries.lookup off).any fun rsv => now < rsv.expiresAtUnixMs

/-- An offset below the tail that nothing but a lapsed lease holds at `now`. -/
def Shard.FreeAt (sh : Shard) (now tail off : ℤ) : Prop :=
  sh.committed < off ∧ off < tail ∧ ¬ (off ∈ sh.running now ∨ off ∈ sh.ackedAhead ∨ off ∈ sh.corrupt)

/-- The handle names a lease that still runs at `now`. -/
def Shard.HeldAt (sh : Shard) (now off nonce : ℤ) : Prop :=
  ∃ rsv, sh.entries.lookup off = some rsv ∧ now < rsv.expiresAtUnixMs ∧ rsv.nonce = nonce

/-- The calls that tell nobody what their purge freed. A reservation does so when the leases that still
run leave room for two more and two offsets are free; a skip does so when its handle has lapsed or was
never handed out, and one lease has room. -/
def LosesWake (tail : ℤ) (sh : Shard) : Op → Prop
  | .reserveNext _ now _ _ _ =>
    ((sh.running now).card : ℤ) + 1 < sh.maxInFlight ∧ aheadFullLocked sh = false ∧
      ∃ a b, a < b ∧ sh.FreeAt now tail a ∧ sh.FreeAt now tail b
  | .skipMissingBelow _ now off nonce oldest =>
    off < oldest ∧ ¬ sh.HeldAt now off nonce ∧ ((sh.running now).card : ℤ) < sh.maxInFlight ∧
      ∃ a, sh.FreeAt now tail a ∧ (aheadFullLocked sh = true → a = sh.committed + 1)
  | _ => False

variable {sh : Shard}

theorem admits_iff (hc : sh.committed < maxInt64) (tail : ℤ) :
    Admits sh tail ↔ (sh.entries.keys.card : ℤ) < sh.maxInFlight ∧
      ∃ off, sh.Free tail off ∧ (aheadFullLocked sh = true → off = sh.committed + 1) := by
  unfold Admits oracleLocked
  rw [succ_of_lt hc]
  split_ifs with hcap htail hfull hnext
  · simp only [exists_false, false_iff, not_and]
    exact fun h => absurd h (not_lt.2 hcap)
  · simp only [exists_false, false_iff, not_and, not_exists]
    rintro - off ⟨hlow, hhigh, -⟩
    omega
  · rw [resolvedOrReservedLocked_iff] at hnext
    simp only [exists_false, false_iff, not_and, not_exists]
    rintro - off ⟨-, -, hfree⟩ hoff
    exact hfree (hoff hfull ▸ hnext)
  · rw [resolvedOrReservedLocked_iff] at hnext
    simp only [Except.ok.injEq, exists_eq', true_iff]
    exact ⟨not_le.1 hcap, _, ⟨by omega, by omega, hnext⟩, fun _ => rfl⟩
  · cases hlowest : lowestFree sh tail with
    | some off =>
      simp only [Except.ok.injEq, exists_eq', true_iff]
      exact ⟨not_le.1 hcap, off, ((lowestFree_eq_some_iff hc tail off).1 hlowest).1, fun h => absurd h hfull⟩
    | none =>
      simp only [reduceCtorEq, exists_false, false_iff, not_and, not_exists]
      exact fun _ off hfree => absurd hfree ((lowestFree_eq_none_iff hc tail).1 hlowest off)

variable {tail : ℤ}

theorem Blocked.not_admits (h : Blocked sh tail) : ¬ Admits sh tail := by
  rintro ⟨off, hok⟩
  obtain ⟨reason, herr, -⟩ := h
  rw [herr] at hok
  cases hok

/-- Two states with the same offsets taken and the same room admit the same. -/
theorem Admits.of_same {sh sh' : Shard} (h : Admits sh tail) (hc : sh.committed < maxInt64)
    (hcommitted : sh'.committed = sh.committed) (hkeys : sh'.entries.keys = sh.entries.keys)
    (hacked : sh'.ackedAhead = sh.ackedAhead) (hcorrupt : sh'.corrupt = sh.corrupt)
    (hmax : sh'.maxInFlight = sh.maxInFlight) (hahead : sh'.maxAckedAhead = sh.maxAckedAhead) : Admits sh' tail := by
  have hmem : ∀ off, off ∈ sh'.entries ↔ off ∈ sh.entries := by
    intro off
    rw [← mem_keys, hkeys, mem_keys]
  rw [admits_iff hc] at h
  rw [admits_iff (hcommitted ▸ hc)]
  simpa only [Shard.Free, Shard.Taken, aheadFullLocked, hcommitted, hkeys, hacked, hcorrupt, hmax, hahead, hmem] using h

/-- A sweep that released nothing does not make a blocked state reservable. -/
theorem Swept.not_admits {sh p : Shard} (h : Swept sh p 0) (hc : sh.committed < maxInt64)
    (hsh : ¬ Admits sh tail) : ¬ Admits p tail := fun hp =>
  hsh <| hp.of_same (h.committed ▸ hc) h.committed.symm (by rw [h.entries_eq]) h.ackedAhead.symm h.corrupt.symm h.maxInFlight.symm h.maxAckedAhead.symm

theorem keys_insert (entries : Entries) (off : ℤ) (rsv : Reservation) :
    (entries.insert off rsv).keys = insert off entries.keys := by
  ext o
  simp only [mem_keys, mem_insert, Finset.mem_insert]

variable {p : Shard}

/-- Absorbing the leased frontier offset frees nothing. -/
theorem free_of_free_commitNext (hp : p.WellFormed) {tail off : ℤ} (hheld : p.committed + 1 ∈ p.entries)
    (h : (advanceCommittedLocked (commitAt (p.committed + 1) p)).Free tail off) : p.Free tail off := by
  have hsound := hp.commitNext hheld
  obtain ⟨hcollapsed, -⟩ := advanceCommittedLocked_collapsed _ hsound.ackedAhead_corrupt hsound.toFits
  obtain ⟨hlow, hhigh, hfree⟩ := h
  have hle : p.committed + 1 ≤ _ := hcollapsed.le
  refine ⟨by omega, hhigh, fun htaken => hfree ?_⟩
  rw [Shard.Taken, hcollapsed.entries, hcollapsed.mem_ackedAhead, hcollapsed.mem_corrupt]
  rcases htaken with hent | hres | hres
  · exact .inl (mem_erase.2 ⟨by omega, hent⟩)
  · exact .inr (.inl ⟨hres, by omega⟩)
  · exact .inr (.inr ⟨hres, by omega⟩)

variable {kind : AheadOf} {version : ℕ}

/-- Parking a leased offset frees nothing. -/
theorem free_of_free_park {tail held off : ℤ}
    (h : Shard.Free { dropLease held (kind.park held p) with aheadVersion := version } tail off) : p.Free tail off := by
  cases kind <;>
  · obtain ⟨hlow, hhigh, hfree⟩ := h
    refine ⟨hlow, hhigh, fun htaken => hfree ?_⟩
    simp only [Shard.Taken, dropLease, AheadOf.park, mem_erase, Finset.mem_insert]
    by_cases hoff : off = held
    · tauto
    · rcases htaken with hent | hres | hres <;> tauto

/-- Parking an offset does not make room in a full ahead state. -/
theorem aheadFullLocked_park {held : ℤ} (h : aheadFullLocked p = true) :
    aheadFullLocked { dropLease held (kind.park held p) with aheadVersion := version } = true := by
  simp only [aheadFullLocked, decide_eq_true_eq] at h ⊢
  have hacked := Finset.card_le_card (Finset.subset_insert held p.ackedAhead)
  have hcorrupt := Finset.card_le_card (Finset.subset_insert held p.corrupt)
  cases kind <;> simp only [dropLease, AheadOf.park] <;> omega

/-- Parking does not make a refusing state with room for another lease reservable. -/
theorem not_admits_park {tail held : ℤ} (hc : p.committed < maxInt64)
    (hcap : (p.entries.keys.card : ℤ) < p.maxInFlight) (h : ¬ Admits p tail) :
    ¬ Admits { dropLease held (kind.park held p) with aheadVersion := version } tail := by
  rw [admits_iff hc] at h
  rw [admits_iff (by cases kind <;> exact hc)]
  rintro ⟨-, off, hfree, hnext⟩
  refine h ⟨hcap, off, free_of_free_park hfree, fun hfull => ?_⟩
  have hoff := hnext (aheadFullLocked_park hfull)
  cases kind <;> exact hoff

theorem resolveReserved_notifies (hsh : sh.WellFormed) (kind : AheadOf)
    (order : RangeOrder) (now held nonce tail : ℤ) (hblocked : ¬ Admits sh tail)
    (hadmits : Admits (resolveReserved kind order now held nonce sh).shard tail) :
    (resolveReserved kind order now held nonce sh).notified = true := by
  have hswept := purge_swept order now sh
  have hp := hswept.wellFormed hsh
  have hc := hp.committed_lt
  revert hadmits
  simp only [resolveReserved, succ_of_lt hc]
  rcases Nat.eq_zero_or_pos (purgeExpiredLocked order now sh).2 with hreleased | hreleased
  · rw [hreleased] at hswept
    have hrefuses := hswept.not_admits hsh.committed_lt hblocked
    split_ifs with hheld hnext hpersisted
    · subst hnext
      have hleased := mem_entries_of_heldBy hheld
      intro hadmits
      by_contra hquiet
      simp only [Bool.or_eq_true, decide_eq_true_eq, not_or, not_le] at hquiet
      obtain ⟨⟨-, hcap⟩, hroom⟩ := hquiet
      have hwell := advanceCommittedLocked_wellFormed (hp.commitNext hleased)
      obtain ⟨-, off, hfree, -⟩ := (admits_iff hwell.committed_lt _).1 hadmits
      exact hrefuses ((admits_iff hc _).2
        ⟨hcap, off, free_of_free_commitNext hp hleased hfree, fun hfull => absurd hfull hroom⟩)
    all_goals
      intro hadmits
      by_contra hquiet
    · simp only [Bool.or_eq_true, decide_eq_true_eq, not_or, not_le] at hquiet
      exact not_admits_park hc hquiet.2 hrefuses hadmits
    · simp only [Bool.or_eq_true, decide_eq_true_eq, not_or, not_le] at hquiet
      exact not_admits_park hc hquiet.2 hrefuses hadmits
    · exact hrefuses hadmits
  · split_ifs <;> simp [hreleased]

theorem extendHandle_notifies (hc : sh.committed < maxInt64) (order : RangeOrder) (now held nonce timeout tail : ℤ)
    (hblocked : ¬ Admits sh tail) (hadmits : Admits (extendHandle order now held nonce timeout sh).shard tail) :
    (extendHandle order now held nonce timeout sh).notified = true := by
  have hswept := purge_swept order now sh
  revert hadmits
  simp only [extendHandle]
  rcases Nat.eq_zero_or_pos (purgeExpiredLocked order now sh).2 with hreleased | hreleased
  · rw [hreleased] at hswept
    have hrefuses := hswept.not_admits hc hblocked
    split_ifs with hheld
    · intro hadmits
      refine (hrefuses (hadmits.of_same (hswept.committed ▸ hc) rfl ?_ rfl rfl rfl rfl)).elim
      rw [lease, keys_insert, Finset.insert_eq_of_mem (mem_keys.2 (mem_entries_of_heldBy hheld))]
    · exact fun hadmits => absurd hadmits hrefuses
  · split_ifs <;> simp [hreleased]

theorem releaseHandle_notifies (hc : sh.committed < maxInt64) (order : RangeOrder) (now held nonce tail : ℤ)
    (hblocked : ¬ Admits sh tail) (hadmits : Admits (releaseHandle order now held nonce sh).shard tail) :
    (releaseHandle order now held nonce sh).notified = true := by
  have hswept := purge_swept order now sh
  revert hadmits
  simp only [releaseHandle]
  split_ifs with hheld
  · exact fun _ => rfl
  intro hadmits
  by_contra hquiet
  simp only [decide_eq_true_eq, not_lt, Nat.le_zero] at hquiet
  rw [hquiet] at hswept
  exact hswept.not_admits hc hblocked hadmits

theorem purgeAll_notifies (hc : sh.committed < maxInt64) (order : RangeOrder) (now tail : ℤ)
    (hblocked : ¬ Admits sh tail) (hadmits : Admits (purgeAll order now sh).shard tail) :
    (purgeAll order now sh).notified = true := by
  have hswept := purge_swept order now sh
  by_contra hquiet
  simp only [purgeAll, decide_eq_true_eq, not_lt, Nat.le_zero] at hquiet
  rw [hquiet] at hswept
  exact hswept.not_admits hc hblocked hadmits

/-- What a reservation leaves reservable: a second free offset, when there is room for it. -/
theorem admits_reserveNext_iff (hsh : sh.WellFormed) (order : RangeOrder) (now nonce timeout tail : ℤ) :
    Admits (reserveNext order now nonce timeout tail sh).shard tail ↔
      ((purgeExpiredLocked order now sh).1.entries.keys.card : ℤ) + 1 <
          (purgeExpiredLocked order now sh).1.maxInFlight ∧
        aheadFullLocked (purgeExpiredLocked order now sh).1 = false ∧
        ∃ a b, a < b ∧ (purgeExpiredLocked order now sh).1.Free tail a ∧
          (purgeExpiredLocked order now sh).1.Free tail b := by
  have hp := (purge_swept order now sh).wellFormed hsh
  simp only [reserveNext]
  generalize (purgeExpiredLocked order now sh).1 = p at hp ⊢
  have hc := hp.committed_lt
  cases hchoice : chooseNext p tail with
  | error reason =>
    have hrefused : ¬ Admits p tail := by
      rintro ⟨off, hok⟩
      rw [← chooseNext_eq_oracleLocked hp.toSound, hchoice] at hok
      cases hok
    refine iff_of_false hrefused ?_
    rintro ⟨hroom, hfull, a, b, -, ha, -⟩
    refine hrefused ((admits_iff hc tail).2 ⟨by omega, a, ha, fun h => ?_⟩)
    rw [hfull] at h
    cases h
  | ok off =>
    obtain ⟨hfree, hlowest⟩ := oracleLocked_ok hc tail (chooseNext_eq_oracleLocked hp.toSound tail ▸ hchoice)
    have hcard : ∀ rsv, (p.entries.insert off rsv).keys.card = p.entries.keys.card + 1 := by
      intro rsv
      rw [keys_insert]
      exact Finset.card_insert_of_notMem fun h => hfree.2.2 (.inl (mem_keys.1 h))
    dsimp only
    rw [reserveLocked_shard, admits_iff (by exact hc)]
    simp only [lease, hcard, Int.natCast_add, Int.natCast_one, Shard.Free, Shard.Taken, mem_insert]
    refine and_congr_right fun _ => ?_
    constructor
    · rintro ⟨o, ⟨hlow, hhigh, hout⟩, hnext⟩
      have hne : o ≠ off := fun h => hout (.inl (.inl h))
      have ho : p.Free tail o := ⟨hlow, hhigh, fun h => hout (h.imp_left .inr)⟩
      have hlt : off < o := by
        by_contra hge
        exact ho.2.2 (hlowest o hlow (by omega))
      refine ⟨?_, off, o, hlt, hfree, ho⟩
      by_contra hfull
      rw [Bool.not_eq_false] at hfull
      have hoff := (chooseNext_ok hchoice).2.2 hfull
      rw [succ_of_lt hc] at hoff
      exact hne ((hnext hfull).trans hoff.symm)
    · rintro ⟨hfull, a, b, hab, ha, hb⟩
      have hle : off ≤ a := by
        by_contra hlt
        exact ha.2.2 (hlowest a ha.1 (by omega))
      refine ⟨b, ⟨hb.1, hb.2.1, ?_⟩, fun h => absurd h (Bool.eq_false_iff.1 hfull)⟩
      rintro ((h | h) | h)
      · omega
      · exact hb.2.2 (.inl h)
      · exact hb.2.2 (.inr h)

theorem notified_reserveNext (order : RangeOrder) (now nonce timeout tail : ℤ) (sh : Shard) :
    (reserveNext order now nonce timeout tail sh).notified = false := by
  simp only [reserveNext]
  split <;> rfl

section

variable (htimed : sh.Timed) (order : RangeOrder) (now : ℤ)
include htimed

/-- The leases that survive a sweep are those that still run. -/
theorem mem_entries_purge (off : ℤ) : off ∈ (purgeExpiredLocked order now sh).1.entries ↔ off ∈ sh.running now := by
  simp only [mem_iff, (htimed.purge order now).2, Shard.running, Finset.mem_filter, mem_keys, Option.any_eq_true,
    decide_eq_true_eq]
  constructor
  · rintro ⟨rsv, hrsv, hnow⟩
    exact ⟨⟨rsv, hrsv⟩, rsv, hrsv, hnow⟩
  · rintro ⟨-, rsv, hrsv, hnow⟩
    exact ⟨rsv, hrsv, hnow⟩

theorem keys_purge : (purgeExpiredLocked order now sh).1.entries.keys = sh.running now := by
  ext off
  rw [mem_keys, mem_entries_purge htimed]

theorem free_purge_iff (tail off : ℤ) : (purgeExpiredLocked order now sh).1.Free tail off ↔ sh.FreeAt now tail off := by
  have hswept := purge_swept order now sh
  rw [Shard.Free, Shard.FreeAt, Shard.Taken, mem_entries_purge htimed, hswept.committed, hswept.ackedAhead,
    hswept.corrupt]

theorem heldBy_purge_iff (off nonce : ℤ) :
    heldBy (purgeExpiredLocked order now sh).1 off nonce = true ↔ sh.HeldAt now off nonce := by
  have hlookup := (htimed.purge order now).2 off
  unfold heldBy Shard.HeldAt
  split
  next rsv hrsv =>
    obtain ⟨hstored, hnow⟩ := (hlookup rsv).1 hrsv
    simp [hstored, hnow]
  next hnone =>
    simp only [Bool.false_eq_true, false_iff]
    rintro ⟨rsv, hrsv, hnow, -⟩
    rw [(hlookup rsv).2 ⟨hrsv, hnow⟩] at hnone
    cases hnone

end

theorem aheadFullLocked_purge (sh : Shard) (order : RangeOrder) (now : ℤ) :
    aheadFullLocked (purgeExpiredLocked order now sh).1 = aheadFullLocked sh := by
  have hswept := purge_swept order now sh
  rw [aheadFullLocked, aheadFullLocked, hswept.maxAckedAhead, hswept.ackedAhead, hswept.corrupt]

/-- A call from a blocked state loses no wake-up, unless it is one of the two. -/
theorem noLostWake_iff_of_wellFormed (hsh : sh.WellFormed) (htimed : sh.Timed) (tail : ℤ) (op : Op)
    (hop : op.AtTail tail) : NoLostWake tail sh op ↔ (Blocked sh tail → ¬ LosesWake tail sh op) := by
  have hc := hsh.committed_lt
  cases op with
  | reserveNext order now nonce timeout logTail =>
    obtain rfl : logTail = tail := hop
    have hswept := purge_swept order now sh
    simp only [NoLostWake, Op.perform, Call.map, notified_reserveNext, admits_reserveNext_iff hsh,
      keys_purge htimed, free_purge_iff htimed, aheadFullLocked_purge, hswept.maxInFlight, LosesWake,
      Bool.false_eq_true, imp_false]
  | commitHandle | skipCorrupt =>
    exact iff_of_true (fun hblocked hadmits =>
      resolveReserved_notifies hsh _ _ _ _ _ _ hblocked.not_admits hadmits) fun _ => id
  | skipMissingBelow order now off nonce oldest =>
    have hswept := purge_swept order now sh
    simp only [NoLostWake, Op.perform, Call.map, LosesWake, skipMissingBelow]
    split_ifs with hinvalid hheld
    · refine iff_of_true (fun hblocked hadmits => absurd hadmits hblocked.not_admits) ?_
      exact fun _ h => absurd h.1 (not_lt.2 hinvalid)
    · exact iff_of_true (fun _ _ => rfl) fun _ h => h.2.1 ((heldBy_purge_iff htimed ..).1 hheld)
    · rw [heldBy_purge_iff htimed] at hheld
      simp only [admits_iff (hswept.committed ▸ hc), keys_purge htimed, free_purge_iff htimed,
        aheadFullLocked_purge, hswept.maxInFlight, hswept.committed, not_le.1 hinvalid, hheld, imp_false,
        true_and, not_false_eq_true]
  | extendHandle order now off nonce timeout =>
    exact iff_of_true (fun hblocked hadmits =>
      extendHandle_notifies hc _ _ _ _ _ _ hblocked.not_admits hadmits) fun _ => id
  | releaseHandle order now off nonce =>
    exact iff_of_true (fun hblocked hadmits =>
      releaseHandle_notifies hc _ _ _ _ _ hblocked.not_admits hadmits) fun _ => id
  | purgeAll order now =>
    exact iff_of_true (fun hblocked hadmits =>
      purgeAll_notifies hc _ _ _ hblocked.not_admits hadmits) fun _ => id
  | refreshCaps caps => exact hop.elim

/-- In every reachable state, with the caps and the tail fixed, a call from a blocked state wakes the parked
pollers it unblocks unless it is a reservation or a stale skip made while the leases that have lapsed at
its clock reading leave room for more than it takes. -/
theorem reachable_noLostWake_iff (r : Recovered) (caps : Caps) (ops : List Op) (tail : ℤ) (op : Op)
    (hr : r.Fits) (hops : ∀ op ∈ ops, op.Fits) (hop : op.AtTail tail) :
    NoLostWake tail (run (recoverShard r caps) ops) op ↔
      (Blocked (run (recoverShard r caps) ops) tail → ¬ LosesWake tail (run (recoverShard r caps) ops) op) :=
  noLostWake_iff_of_wellFormed (run_wellFormed (recoverShard_wellFormed hr caps) hops)
    (reachable_timed r caps ops) tail op hop

/-- Two leases that fill the cap and lapse together, over a log of two records. -/
def twoLapsedLeases : List Op :=
  [.reserveNext .ascending 0 1 1000000 2, .reserveNext .ascending 0 2 1000000 2]

/-- A reservation after both leases lapsed takes offset 0 and leaves offset 1 reservable, and a
stale skip leaves both reservable; neither tells the pollers parked on the cap. -/
theorem lapsed_leases_lose_wake : ¬ NoLostWake 2 (run (recoverShard ⟨none, none⟩ ⟨2, 4⟩) twoLapsedLeases)
        (.reserveNext .ascending 10 3 1000000 2) ∧
      ¬ NoLostWake 2 (run (recoverShard ⟨none, none⟩ ⟨2, 4⟩) twoLapsedLeases)
        (.skipMissingBelow .ascending 10 0 9 1) := by
  constructor
  · intro h
    exact absurd (h ⟨.cap, by decide, by decide⟩ ⟨1, by decide⟩) (by decide)
  · intro h
    exact absurd (h ⟨.cap, by decide, by decide⟩ ⟨0, by decide⟩) (by decide)

/-- A reservation before the leases lapse frees nothing, so it has nothing to announce. -/
theorem reserveNext_running_leases_wakes : NoLostWake 2 (run (recoverShard ⟨none, none⟩ ⟨2, 4⟩) twoLapsedLeases)
      (.reserveNext .ascending 0 3 1000000 2) := by
  refine (reachable_noLostWake_iff ⟨none, none⟩ ⟨2, 4⟩ twoLapsedLeases 2 (.reserveNext .ascending 0 3 1000000 2)
    (by decide) (by decide) rfl).2 fun _ h => ?_
  exact absurd h.1 (by decide)

end Narad.Consumer
