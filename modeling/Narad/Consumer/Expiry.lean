import Narad.Consumer.ShardRun

/-!
# Lease expiry

The expiry heap is ordered by deadline and holds a slot for every live lease, beside the slots of leases
that were resolved, given back or renewed. A sweep therefore pops the slot of every lease whose deadline
has passed, and the lease that a popped slot still describes has lapsed.
-/

namespace Narad.Consumer

open Lib Finmap

/-- The slot that describes a lease. -/
def slotOf (off : ℤ) (rsv : Reservation) : ExpiryEntry :=
  ⟨off, rsv.expiresAtUnixMs, rsv.nonce⟩

/-- Every live lease has its slot in an ordered heap. -/
structure Shard.Timed (sh : Shard) : Prop where
  slots : ∀ off rsv, sh.entries.lookup off = some rsv → slotOf off rsv ∈ sh.expiry
  ordered : MinHeap.Ordered ExpiryEntry.expiresAtUnixMs sh.expiry

variable {sh p q : Shard} {off : ℤ} {rsv : Reservation}

/-- Leases may go while the heap stays. -/
theorem Shard.Timed.of_lookup (h : p.Timed) (hexpiry : q.expiry = p.expiry)
    (hentries : ∀ off rsv, q.entries.lookup off = some rsv → p.entries.lookup off = some rsv) : q.Timed where
  slots off rsv hrsv := hexpiry ▸ h.slots off rsv (hentries off rsv hrsv)
  ordered := hexpiry ▸ h.ordered

theorem Shard.Timed.lease (h : p.Timed) (off : ℤ) (rsv : Reservation) : (lease p off rsv).Timed where
  slots o r hr := by
    refine (MinHeap.push_perm p.expiry _).mem_iff.mpr (Array.mem_push.mpr ?_)
    rcases eq_or_ne o off with rfl | hne
    · rw [Consumer.lease, lookup_insert] at hr
      cases hr
      exact .inr rfl
    · rw [Consumer.lease, lookup_insert_of_ne _ hne] at hr
      exact .inl (h.slots o r hr)
  ordered := MinHeap.push_ordered h.ordered _

theorem Shard.Timed.compact (h : p.Timed) (order : RangeOrder) : (compactExpiryLocked order p).Timed := by
  unfold compactExpiryLocked
  split
  · exact h
  refine ⟨fun off rsv hrsv => ?_, (MinHeap.init_spec _).2⟩
  refine (MinHeap.init_spec _).1.mem_iff.mpr (List.mem_toArray.mpr (List.mem_filterMap.mpr ⟨off, ?_, ?_⟩))
  · exact (order.mem_visit _ off).mpr (mem_keys.mpr (mem_of_lookup_eq_some hrsv))
  · rw [hrsv]
    rfl

theorem describesLive_iff {e : ExpiryEntry} :
    describesLive sh e = true ↔ ∃ rsv, sh.entries.lookup e.offset = some rsv ∧ slotOf e.offset rsv = e := by
  obtain ⟨offset, deadline, nonce⟩ := e
  unfold describesLive slotOf
  split
  · simp_all [and_comm]
  · simp_all

/-- The slots that are left when the root is popped. -/
theorem Shard.Timed.mem_pop (h : sh.Timed) (hpos : 0 < sh.expiry.size) (hrsv : sh.entries.lookup off = some rsv) :
    slotOf off rsv ∈ (MinHeap.pop ExpiryEntry.expiresAtUnixMs sh.expiry).2 ∨ slotOf off rsv = sh.expiry[0]! :=
  Array.mem_push.mp ((MinHeap.pop_spec h.ordered hpos).2.1.mem_iff.mpr (h.slots off rsv hrsv))

theorem freedLocked_same (off : ℤ) (sh : Shard) :
    (freedLocked off sh).entries = sh.entries ∧ (freedLocked off sh).expiry = sh.expiry := by
  unfold freedLocked
  split <;> exact ⟨rfl, rfl⟩

theorem purgeLoop_exact (now : ℤ) (budget : ℕ) (sh : Shard) (released : ℕ) (h : sh.Timed)
    (hbudget : sh.expiry.size ≤ budget) : (purgeLoop now budget sh released).1.Timed ∧ ∀ off rsv,
      (purgeLoop now budget sh released).1.entries.lookup off = some rsv ↔
        sh.entries.lookup off = some rsv ∧ now < rsv.expiresAtUnixMs := by
  induction budget generalizing sh released with
  | zero =>
    refine ⟨h, fun off rsv => ⟨fun hrsv => ?_, And.left⟩⟩
    have := Array.size_pos_of_mem (h.slots off rsv hrsv)
    omega
  | succ budget ih =>
    unfold purgeLoop
    split
    next hroot =>
      obtain ⟨hpop, hperm, hord⟩ := MinHeap.pop_spec h.ordered hroot.1
      have hsize := hperm.size_eq
      rw [Array.size_push] at hsize
      dsimp only
      rw [hpop]
      split
      · -- the lease of the root's slot has lapsed
        rename_i hlive
        obtain ⟨gone, hgone, hslot⟩ := describesLive_iff.mp hlive
        have hlapsed : gone.expiresAtUnixMs ≤ now := by
          rw [← hslot] at hroot
          exact hroot.2
        obtain ⟨hentries, hexpiry⟩ := freedLocked_same sh.expiry[0]!.offset { sh with
          expiry := (MinHeap.pop ExpiryEntry.expiresAtUnixMs sh.expiry).2
          entries := sh.entries.erase sh.expiry[0]!.offset }
        refine (ih _ (released + 1) ⟨?_, by rwa [hexpiry]⟩ (by rw [hexpiry]; dsimp only; omega)).imp_right
          fun hiff off rsv => (hiff off rsv).trans ?_
        · intro off rsv hrsv
          rw [hentries] at hrsv
          rw [hexpiry]
          refine (h.mem_pop hroot.1 (lookup_erase_cases hrsv).2).resolve_right fun heq => ?_
          rw [← heq] at hrsv
          exact absurd hrsv (by simp [slotOf])
        · rw [hentries]
          refine and_congr_left fun hnow => ⟨fun h => (lookup_erase_cases h).2, fun hrsv => ?_⟩
          refine (lookup_erase_ne ?_).trans hrsv
          rintro rfl
          cases hrsv.symm.trans hgone
          exact absurd hnow (not_lt.mpr hlapsed)
      next hdead =>
        refine ih _ released ⟨fun off rsv hrsv => ?_, hord⟩ (by dsimp only; omega)
        refine (h.mem_pop hroot.1 hrsv).resolve_right fun heq => hdead (describesLive_iff.mpr ⟨rsv, ?_, ?_⟩)
        · rw [← heq]
          exact hrsv
        · rw [← heq]
          rfl
    next hroot =>
      refine ⟨h, fun off rsv => ⟨fun hrsv => ⟨hrsv, ?_⟩, And.left⟩⟩
      obtain ⟨k, hk, hslot⟩ := Array.mem_iff_getElem.mp (h.slots off rsv hrsv)
      have hle := h.ordered.root_le hk
      rw [getElem!_pos sh.expiry k hk, hslot] at hle
      by_contra hnow
      exact hroot ⟨by omega, le_trans hle (not_lt.mp hnow)⟩

/-- What a sweep evicts: exactly the leases that have lapsed. -/
theorem Shard.Timed.purge (h : sh.Timed) (order : RangeOrder) (now : ℤ) :
    (purgeExpiredLocked order now sh).1.Timed ∧ ∀ off rsv,
      (purgeExpiredLocked order now sh).1.entries.lookup off = some rsv ↔
        sh.entries.lookup off = some rsv ∧ now < rsv.expiresAtUnixMs := by
  obtain ⟨htimed, hlookup⟩ := purgeLoop_exact now _ sh 0 h le_rfl
  refine ⟨htimed.compact order, fun off rsv => ?_⟩
  rw [← hlookup, purgeExpiredLocked]
  unfold compactExpiryLocked
  split <;> rfl

theorem advanceLoop_same (budget : ℕ) (sh : Shard) :
    (advanceLoop budget sh).entries = sh.entries ∧ (advanceLoop budget sh).expiry = sh.expiry := by
  induction budget generalizing sh with
  | zero => exact ⟨rfl, rfl⟩
  | succ budget ih =>
    unfold advanceLoop
    dsimp only
    split_ifs
    · exact ih _
    · exact ih _
    · exact ⟨rfl, rfl⟩

theorem Shard.Timed.advance (h : p.Timed) : (advanceCommittedLocked p).Timed := by
  obtain ⟨hentries, hexpiry⟩ := advanceLoop_same (p.ackedAhead.card + p.corrupt.card) p
  refine h.of_lookup ?_ ?_ <;> simp only [advanceCommittedLocked] <;> split_ifs
  · exact hexpiry
  · exact hexpiry
  · exact fun off rsv => hentries ▸ id
  · exact fun off rsv => hentries ▸ id

theorem Shard.Timed.after {reach : ℤ} (h : p.Timed) (ha : After reach p q) : q.Timed := by
  cases ha with
  | none => exact h
  | reserve now timeout nonce =>
    rw [reserveLocked_shard]
    exact (h.lease _ _).of_lookup rfl fun _ _ => id
  | commit => exact .advance (h.of_lookup rfl fun _ _ h => (lookup_erase_cases h).2)
  | park kind version => cases kind <;> exact h.of_lookup rfl fun _ _ h => (lookup_erase_cases h).2
  | forget order =>
    refine .advance (h.of_lookup rfl fun off rsv hrsv => ?_)
    rw [forgetBelow, lookup_dropLeasesBelow] at hrsv
    split at hrsv
    · cases hrsv
    · exact hrsv
  | renew rsv => exact h.lease _ rsv
  | @release _ _ off =>
    obtain ⟨hentries, hexpiry⟩ := freedLocked_same off (dropLease off p)
    refine h.of_lookup hexpiry fun _ _ hrsv => ?_
    rw [hentries] at hrsv
    exact (lookup_erase_cases hrsv).2

theorem run_timed (h : sh.Timed) (ops : List Op) : (run sh ops).Timed := by
  induction ops generalizing sh with
  | nil => exact h
  | cons op ops ih =>
    refine ih (?_ : (op.perform sh).shard.Timed)
    by_cases hop : ∃ caps, op = .refreshCaps caps
    · obtain ⟨caps, rfl⟩ := hop
      simp only [Op.perform, refreshCaps]
      split_ifs
      · exact h
      · exact h.of_lookup rfl fun _ _ => id
    · obtain ⟨p, rfl | ⟨order, now, rfl⟩, hafter⟩ := perform_after op sh (not_exists.mp hop)
      · exact h.after hafter
      · exact (h.purge order now).1.after hafter

theorem reachable_timed (r : Recovered) (caps : Caps) (ops : List Op) : (run (recoverShard r caps) ops).Timed := by
  obtain ⟨version, heq⟩ := insertAhead_spec r.offsets (newPartitionShard r.frontier caps)
  have hstart : (insertAhead (newPartitionShard r.frontier caps) r.offsets).Timed := by
    rw [heq]
    refine ⟨fun off rsv hrsv => ?_, fun k _ hk => ?_⟩
    · simp [newPartitionShard] at hrsv
    · simp [newPartitionShard] at hk
  exact run_timed hstart.advance ops

/-- A shard whose sweeps are exact: the heap has the slot of every live lease and is ordered, before and
after the sweep, and the sweep takes exactly the leases that have lapsed and counts them. -/
structure SweepsExactly (order : RangeOrder) (now : ℤ) (sh : Shard) : Prop where
  timed : sh.Timed
  swept : (purgeExpiredLocked order now sh).1.Timed
  lookup : ∀ off rsv, (purgeExpiredLocked order now sh).1.entries.lookup off = some rsv ↔
    sh.entries.lookup off = some rsv ∧ now < rsv.expiresAtUnixMs
  released : (purgeExpiredLocked order now sh).2 =
    (sh.entries.keys \ (purgeExpiredLocked order now sh).1.entries.keys).card

/-- Lease expiry is exact in every state that a recovered shard reaches. -/
theorem reachable_sweepsExactly (r : Recovered) (caps : Caps) (ops : List Op) (order : RangeOrder) (now : ℤ) :
    SweepsExactly order now (run (recoverShard r caps) ops) := by
  have htimed := reachable_timed r caps ops
  obtain ⟨hswept, hlookup⟩ := htimed.purge order now
  have hsweep := purge_swept order now (run (recoverShard r caps) ops)
  refine ⟨htimed, hswept, hlookup, ?_⟩
  rw [Finset.card_sdiff_of_subset fun off hoff => mem_keys.mpr (hsweep.mem_entries (mem_keys.mp hoff)),
    ← hsweep.card, Nat.add_sub_cancel_left]

end Narad.Consumer
