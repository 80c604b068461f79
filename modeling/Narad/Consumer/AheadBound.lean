import Narad.Consumer.Expiry
import Narad.Consumer.WakeUp

/-!
# The ahead state stays bounded

The cap on the resolved offsets above the frontier gates reservations only: what is leased may still be
resolved past it. The bound rests on the load of a shard, the resolved offsets together with the leases
that would join them. A full shard leases only the offset its frontier waits for, which is no part of the
load, and nothing else but a lease makes the load larger. None of it needs the offsets to be ordered, so
the bound holds also where an offset wraps.
-/

namespace Narad.Consumer

open Finmap Finset

/-- The offsets resolved above the frontier. -/
def Shard.ahead (sh : Shard) : ℕ :=
  sh.ackedAhead.card + sh.corrupt.card

/-- The resolved offsets and the leases that would join them. -/
def Shard.load (sh : Shard) : ℕ :=
  sh.ahead + (sh.entries.keys.erase (succ sh.committed)).card

variable {sh p q : Shard}

/-- The load does not grow when leases and resolved offsets go, as long as a lease that the frontier
waits for stays that. -/
theorem load_le (hahead : q.ahead ≤ p.ahead) (hentries : ∀ off ∈ q.entries, off ∈ p.entries)
    (hnext : succ p.committed ∈ q.entries → succ q.committed = succ p.committed) : q.load ≤ p.load := by
  refine Nat.add_le_add hahead (card_le_card fun off hoff => ?_)
  simp only [Finset.mem_erase, Finmap.mem_keys] at hoff ⊢
  refine ⟨?_, hentries off hoff.2⟩
  rintro rfl
  exact hoff.1 (hnext hoff.2).symm

theorem Drained.ahead_le (h : Drained p q) : q.ahead ≤ p.ahead :=
  Nat.add_le_add (card_le_card h.ackedAhead) (card_le_card h.corrupt)

/-- What bounds a shard: its leases are within their cap, and its load within `n`. -/
structure Within (caps : Caps) (n : ℤ) (sh : Shard) : Prop where
  apart : sh.Apart
  maxInFlight : sh.maxInFlight = caps.maxInFlight
  maxAckedAhead : sh.maxAckedAhead = caps.maxAckedAhead
  leases : (sh.entries.keys.card : ℤ) ≤ caps.maxInFlight
  load : (sh.load : ℤ) ≤ n

variable {caps : Caps} {n : ℤ}

/-- Leases and resolved offsets go, and the frontier may move. -/
theorem Within.shrink (h : Within caps n p) (hapart : q.Apart) (hflight : q.maxInFlight = p.maxInFlight)
    (hcap : q.maxAckedAhead = p.maxAckedAhead) (hahead : q.ahead ≤ p.ahead)
    (hentries : ∀ off ∈ q.entries, off ∈ p.entries)
    (hnext : succ p.committed ∈ q.entries → succ q.committed = succ p.committed) : Within caps n q where
  apart := hapart
  maxInFlight := hflight.trans h.maxInFlight
  maxAckedAhead := hcap.trans h.maxAckedAhead
  leases := by
    have hsub : q.entries.keys ⊆ p.entries.keys := fun off hoff =>
      mem_keys.mpr (hentries off (mem_keys.mp hoff))
    have := card_le_card hsub
    have := h.leases
    omega
  load := by
    have := load_le hahead hentries hnext
    have := h.load
    omega

theorem Within.swept {released : ℕ} (h : Within caps n sh) (hs : Swept sh p released) : Within caps n p := by
  refine h.shrink (hs.apart h.apart) hs.maxInFlight hs.maxAckedAhead ?_ (fun off => hs.mem_entries)
    fun _ => by rw [hs.committed]
  rw [Shard.ahead, Shard.ahead, hs.ackedAhead, hs.corrupt]

/-- A reservation takes the offset the frontier waits for, or leaves room below the bound. -/
theorem Within.reserve {tail off : ℤ} (h : Within caps n p) (hn : caps.maxAckedAhead + caps.maxInFlight - 1 ≤ n)
    (now timeout nonce : ℤ) (hoff : chooseNext p tail = .ok off) :
    Within caps n (reserveLocked p off now timeout nonce).1 := by
  have hapart := (After.reserve now timeout nonce hoff).apart h.apart
  obtain ⟨hroom, -, hnext⟩ := chooseNext_ok hoff
  rw [reserveLocked_shard] at hapart ⊢
  have hcard : ((insert off p.entries.keys).card : ℤ) ≤ caps.maxInFlight := by
    have := card_insert_le off p.entries.keys
    have := h.maxInFlight
    omega
  refine ⟨hapart, h.maxInFlight, h.maxAckedAhead, ?_, ?_⟩
  · simpa only [lease, keys_insert] using hcard
  · by_cases hfull : aheadFullLocked p = true
    · rw [hnext hfull, Shard.load]
      have hsame : (insert (succ p.committed) p.entries.keys).erase (succ p.committed) =
          p.entries.keys.erase (succ p.committed) := erase_insert_eq_erase ..
      simp only [lease, keys_insert, hsame]
      exact h.load
    have hless : (p.ahead : ℤ) < caps.maxAckedAhead := by
      rw [← h.maxAckedAhead]
      simpa [aheadFullLocked, Shard.ahead] using hfull
    have herase := card_erase_le (s := insert off p.entries.keys) (a := succ p.committed)
    simp only [Shard.load, Shard.ahead, lease, keys_insert] at hless ⊢
    omega

/-- A skip that keeps the lease the frontier waits for leaves the frontier where it is. -/
theorem committed_forget_of_mem (hp : p.Apart) {order : RangeOrder} {oldest : ℤ}
    (h : succ p.committed ∈ (forgetBelow order oldest p).entries) :
    (advanceCommittedLocked (forgetBelow order oldest p)).committed = p.committed := by
  obtain ⟨hold, hmem⟩ := (mem_dropLeasesBelow ..).mp h
  have hsame : (forgetBelow order oldest p).committed = p.committed := by
    refine if_neg fun hlt => ?_
    unfold succ at hold
    split_ifs at hold with hmax
    · simp only [maxInt64, minInt64] at hmax hold
      omega
    · omega
  have hdrained := advanceCommittedLocked_drained (forgetBelow order oldest p)
  rw [hdrained.stays, hsame] <;> rw [hsame]
  · exact fun hacked => hp.entries_ackedAhead _ hmem (mem_filter.mp hacked).1
  · exact fun hcorrupt => hp.entries_corrupt _ hmem (mem_filter.mp hcorrupt).1

theorem Within.after {reach : ℤ} (h : Within caps n p) (hn : caps.maxAckedAhead + caps.maxInFlight - 1 ≤ n)
    (ha : After reach p q) : Within caps n q := by
  have hapart := ha.apart h.apart
  cases ha with
  | none => exact h
  | reserve now timeout nonce hoff => exact h.reserve hn now timeout nonce hoff
  | commit hnext =>
    have hcol := advanceCommittedLocked_drained (commitAt (succ p.committed) p)
    refine h.shrink hapart hcol.maxInFlight hcol.maxAckedAhead hcol.ahead_le (fun off hoff => ?_) fun hleft => ?_
    · rw [hcol.entries] at hoff
      exact (Finmap.mem_erase.mp hoff).2
    · rw [hcol.entries] at hleft
      exact absurd rfl (Finmap.mem_erase.mp hleft).1
  | @park _ _ off kind version hmem hnext =>
    have habove : off ∈ p.entries.keys.erase (succ p.committed) := mem_erase.mpr ⟨hnext, mem_keys.mpr hmem⟩
    have hload := h.load
    have hleases := h.leases
    have hgone := card_erase_add_one habove
    have hgone' := card_erase_add_one (mem_keys.mpr hmem)
    have hacked := card_insert_le off p.ackedAhead
    have hcorrupt := card_insert_le off p.corrupt
    cases kind
    all_goals
      refine ⟨hapart, h.maxInFlight, h.maxAckedAhead, ?_, ?_⟩
      all_goals
        simp only [Shard.load, Shard.ahead, dropLease, AheadOf.park, keys_erase, erase_right_comm (a := off)] at hload ⊢
        omega
  | forget order =>
    have hcol := advanceCommittedLocked_drained (forgetBelow order reach p)
    refine h.shrink hapart hcol.maxInFlight hcol.maxAckedAhead (hcol.ahead_le.trans ?_) (fun off hoff => ?_)
      fun hleft => ?_
    · exact Nat.add_le_add (card_filter_le ..) (card_filter_le ..)
    · rw [hcol.entries] at hoff
      exact ((mem_dropLeasesBelow ..).mp hoff).2
    · rw [hcol.entries] at hleft
      rw [committed_forget_of_mem h.apart hleft]
  | renew rsv hmem =>
    exact h.shrink hapart rfl rfl le_rfl (fun o => (mem_insert_of_held hmem rsv o).mp) fun _ => rfl
  | release hmem => exact h.swept (Swept.evict p hmem)

theorem Within.run (h : Within caps n sh) (hn : caps.maxAckedAhead + caps.maxInFlight - 1 ≤ n) (ops : List Op)
    (hfixed : ∀ caps', .refreshCaps caps' ∈ ops → caps' = caps) : Within caps n (run sh ops) := by
  induction ops generalizing sh with
  | nil => exact h
  | cons op ops ih =>
    refine ih (?_ : Within caps n (op.perform sh).shard) fun caps' hmem => hfixed caps' (.tail _ hmem)
    by_cases hop : ∃ caps', op = .refreshCaps caps'
    · obtain ⟨caps', rfl⟩ := hop
      obtain rfl := hfixed caps' (.head _)
      have hsame : refreshCaps caps' sh = sh := by
        rw [refreshCaps, ← h.maxInFlight, ← h.maxAckedAhead, ite_self]
      simpa only [Op.perform, hsame] using h
    · obtain ⟨p, rfl | ⟨order, now, rfl⟩, hafter⟩ := perform_after op sh (not_exists.mp hop)
      · exact h.after hn hafter
      · exact (h.swept (purge_swept order now sh)).after hn hafter

/-- A lease that has not lapsed can be resolved. -/
theorem resolveReserved_ok {off : ℤ} {rsv : Reservation} (h : sh.Timed) (kind : AheadOf) (order : RangeOrder)
    {now : ℤ} (hrsv : sh.entries.lookup off = some rsv) (hnow : now < rsv.expiresAtUnixMs) :
    (resolveReserved kind order now off rsv.nonce sh).result = .ok () := by
  have hheld : heldBy (purgeExpiredLocked order now sh).1 off rsv.nonce = true := by
    simp [heldBy, ((h.purge order now).2 off rsv).mpr ⟨hrsv, hnow⟩]
  simp only [resolveReserved, hheld, not_true_eq_false, if_false]
  split_ifs <;> rfl

/-- With fixed caps the ahead state stays within its cap and the leases that were out, or within what was
recovered, the leases stay within theirs, no live handle is turned down, and a full shard hands out only
the offset its frontier waits for. -/
theorem ahead_stays_bounded (r : Recovered) (caps : Caps) (hflight : 0 < caps.maxInFlight) (ops : List Op)
    (hfixed : ∀ caps', .refreshCaps caps' ∈ ops → caps' = caps) : let sh := run (recoverShard r caps) ops
    (sh.ahead : ℤ) ≤ max ((recoverShard r caps).ahead : ℤ) (caps.maxAckedAhead + caps.maxInFlight - 1) ∧
      (sh.entries.keys.card : ℤ) ≤ caps.maxInFlight ∧
      (∀ order now off rsv, sh.entries.lookup off = some rsv → now < rsv.expiresAtUnixMs →
        (commitHandle order now off rsv.nonce sh).result = .ok () ∧
          (skipCorrupt order now off rsv.nonce sh).result = .ok ()) ∧
      (caps.maxAckedAhead ≤ sh.ahead → ∀ order now nonce timeout tail off nonce' exp,
        (reserveNext order now nonce timeout tail sh).result = .reserved off nonce' exp → off = succ sh.committed) := by
  intro sh
  have hstart : Within caps (max (recoverShard r caps).ahead (caps.maxAckedAhead + caps.maxInFlight - 1))
      (recoverShard r caps) := by
    have hapart := insertAhead_newPartitionShard_apart r.frontier caps r.offsets
    have hcol := advanceCommittedLocked_drained (insertAhead (newPartitionShard r.frontier caps) r.offsets)
    obtain ⟨version, heq⟩ := insertAhead_spec r.offsets (newPartitionShard r.frontier caps)
    rw [heq] at hcol
    have hempty : (recoverShard r caps).entries = ∅ := by
      rw [recoverShard, seedAheadLocked, heq, hcol.entries]
      rfl
    refine ⟨advanceCommittedLocked_apart hapart, ?_, ?_, by simpa [hempty] using hflight.le, by simp [Shard.load, hempty]⟩
    · rw [recoverShard, seedAheadLocked, heq, hcol.maxInFlight]
      rfl
    · rw [recoverShard, seedAheadLocked, heq, hcol.maxAckedAhead]
      rfl
  have hend : Within _ _ sh := hstart.run (le_max_right _ _) ops hfixed
  have htimed : sh.Timed := reachable_timed r caps ops
  refine ⟨?_, hend.leases, ?_, ?_⟩
  · have := hend.load
    have : sh.ahead ≤ sh.load := Nat.le_add_right ..
    omega
  · exact fun order now off rsv hrsv hnow => ⟨resolveReserved_ok htimed _ order hrsv hnow,
      resolveReserved_ok htimed _ order hrsv hnow⟩
  · intro hfull order now nonce timeout tail off nonce' exp hres
    have hs := purge_swept order now sh
    rw [reserveNext_result] at hres
    cases hor : chooseNext (purgeExpiredLocked order now sh).1 tail with
    | error reason => simp [hor, answer] at hres
    | ok o =>
      simp only [hor, answer, ReserveResult.reserved.injEq] at hres
      rw [← hres.1, (chooseNext_ok hor).2.2, hs.committed]
      rw [aheadFullLocked, hs.maxAckedAhead, hs.ackedAhead, hs.corrupt, hend.maxAckedAhead]
      simpa [Shard.ahead] using hfull

/-- The second of two leased offsets is acked first. -/
def parkOne : List Op :=
  [.reserveNext .ascending 0 1 1000000 2, .reserveNext .ascending 0 2 1000000 2, .commitHandle .ascending 0 1 2]

theorem parkOne_bounded : ((run (recoverShard ⟨none, none⟩ ⟨2, 1⟩) parkOne).ahead : ℤ) ≤
    max ((recoverShard ⟨none, none⟩ ⟨2, 1⟩).ahead : ℤ) (1 + 2 - 1) :=
  (ahead_stays_bounded ⟨none, none⟩ ⟨2, 1⟩ (by decide) parkOne (by simp [parkOne])).1

end Narad.Consumer
