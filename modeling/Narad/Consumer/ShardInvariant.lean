import Narad.Consumer.Reserve

/-!
# The representation invariant of a shard

`Shard.WellFormed` is what every operation relies on: the leases and the two resolved sets are
disjoint and above the frontier, the offset right above the frontier is not resolved, and no free
offset lies between the frontier and the scan hint. It holds while every offset of the shard is below
the largest `int64`; that the three sets are disjoint (`Shard.Apart`) holds whether or not one wraps.
-/

namespace Narad.Consumer

open Lib Finmap Finset

/-- An offset that is leased, acked ahead, or skipped as corrupt. -/
def Shard.Taken (sh : Shard) (off : ℤ) : Prop :=
  off ∈ sh.entries ∨ off ∈ sh.ackedAhead ∨ off ∈ sh.corrupt

@[simp]
theorem resolvedOrReservedLocked_iff (sh : Shard) (off : ℤ) :
    resolvedOrReservedLocked sh off = true ↔ sh.Taken off := by
  simp [resolvedOrReservedLocked, Shard.Taken, or_assoc]

/-- The leases and the two resolved sets have no offset in common. -/
structure Shard.Apart (sh : Shard) : Prop where
  entries_ackedAhead : ∀ off ∈ sh.entries, off ∉ sh.ackedAhead
  entries_corrupt : ∀ off ∈ sh.entries, off ∉ sh.corrupt
  ackedAhead_corrupt : ∀ off ∈ sh.ackedAhead, off ∉ sh.corrupt

/-- Every offset of the shard has a successor among the `int64` values. -/
structure Shard.Fits (sh : Shard) : Prop where
  committed_lt : sh.committed < maxInt64
  taken_lt : ∀ off, sh.Taken off → off < maxInt64

/-- The invariant without the collapse: a resolved run may still touch the frontier. -/
structure Shard.Sound (sh : Shard) : Prop extends sh.Apart, sh.Fits where
  above : ∀ off, sh.Taken off → sh.committed < off
  covered : ∀ off, sh.committed < off → off < sh.nextFree → sh.Taken off

/-- The representation invariant. -/
structure Shard.WellFormed (sh : Shard) : Prop extends sh.Sound where
  next_ackedAhead : sh.committed + 1 ∉ sh.ackedAhead
  next_corrupt : sh.committed + 1 ∉ sh.corrupt

/-- Disjoint sets stay disjoint when offsets leave them. -/
theorem Shard.Apart.mono {p q : Shard} (h : p.Apart) (hentries : ∀ off ∈ q.entries, off ∈ p.entries)
    (hacked : q.ackedAhead ⊆ p.ackedAhead) (hcorrupt : q.corrupt ⊆ p.corrupt) : q.Apart where
  entries_ackedAhead off hoff hout := h.entries_ackedAhead off (hentries off hoff) (hacked hout)
  entries_corrupt off hoff hout := h.entries_corrupt off (hentries off hoff) (hcorrupt hout)
  ackedAhead_corrupt off hoff hout := h.ackedAhead_corrupt off (hacked hoff) (hcorrupt hout)

/-- What an expiry sweep may do: forget leases, with the scan hint lowered to each of them. -/
structure Swept (sh p : Shard) (released : ℕ) : Prop where
  committed : p.committed = sh.committed
  ackedAhead : p.ackedAhead = sh.ackedAhead
  corrupt : p.corrupt = sh.corrupt
  maxInFlight : p.maxInFlight = sh.maxInFlight
  maxAckedAhead : p.maxAckedAhead = sh.maxAckedAhead
  entries : ∀ off rsv, p.entries.lookup off = some rsv → sh.entries.lookup off = some rsv
  freed : ∀ off ∈ sh.entries, off ∉ p.entries → p.nextFree ≤ off
  nextFree : p.nextFree ≤ sh.nextFree
  card : p.entries.keys.card + released = sh.entries.keys.card

theorem Swept.refl (sh : Shard) : Swept sh sh 0 where
  committed := rfl
  ackedAhead := rfl
  corrupt := rfl
  maxInFlight := rfl
  maxAckedAhead := rfl
  entries _ _ h := h
  freed _ h h' := absurd h h'
  nextFree := le_rfl
  card := rfl

theorem Swept.trans {sh p q : Shard} {m n : ℕ} (hp : Swept sh p m) (hq : Swept p q n) : Swept sh q (m + n) where
  committed := hq.committed.trans hp.committed
  ackedAhead := hq.ackedAhead.trans hp.ackedAhead
  corrupt := hq.corrupt.trans hp.corrupt
  maxInFlight := hq.maxInFlight.trans hp.maxInFlight
  maxAckedAhead := hq.maxAckedAhead.trans hp.maxAckedAhead
  entries off rsv h := hp.entries off rsv (hq.entries off rsv h)
  freed off h h' := by
    by_cases hmid : off ∈ p.entries
    · exact hq.freed off hmid h'
    · exact hq.nextFree.trans (hp.freed off h hmid)
  nextFree := hq.nextFree.trans hp.nextFree
  card := by have := hp.card; have := hq.card; omega

variable {sh p : Shard}

/-- A lease that survives a sweep was there before it. -/
theorem Swept.mem_entries {n : ℕ} (h : Swept sh p n) {off : ℤ} (hoff : off ∈ p.entries) : off ∈ sh.entries := by
  obtain ⟨rsv, hrsv⟩ := mem_iff.1 hoff
  exact mem_of_lookup_eq_some (h.entries off rsv hrsv)

/-- A sweep that released nothing left every lease in place. -/
theorem Swept.entries_eq (h : Swept sh p 0) : p.entries = sh.entries := by
  have hsub : p.entries.keys ⊆ sh.entries.keys := fun off hoff =>
    mem_keys.2 (h.mem_entries (mem_keys.1 hoff))
  have hkeys : p.entries.keys = sh.entries.keys := eq_of_subset_of_card_le hsub (by have := h.card; omega)
  refine ext_lookup fun off => ?_
  cases hp : p.entries.lookup off with
  | some rsv => exact (h.entries off rsv hp).symm
  | none =>
    have hout : off ∉ sh.entries := by
      rw [← mem_keys, ← hkeys, mem_keys]
      exact lookup_eq_none.1 hp
    exact (lookup_eq_none.2 hout).symm

/-- Popping the heap touches no lease. -/
theorem Swept.withExpiry (sh : Shard) (expiry : Array ExpiryEntry) : Swept sh { sh with expiry := expiry } 0 :=
  ⟨rfl, rfl, rfl, rfl, rfl, fun _ _ h => h, fun _ h h' => absurd h h', le_rfl, rfl⟩

/-- Evicting one lease and lowering the hint to it is a sweep that released one. -/
theorem Swept.evict (sh : Shard) {off : ℤ} (hoff : off ∈ sh.entries) :
    Swept sh (freedLocked off { sh with entries := sh.entries.erase off }) 1 := by
  have hgone : ∀ o ∈ sh.entries, o ∉ sh.entries.erase off → o = off := by
    intro o ho h
    by_contra hne
    exact h (mem_erase.2 ⟨hne, ho⟩)
  have hcard : (sh.entries.erase off).keys.card + 1 = sh.entries.keys.card := by
    rw [keys_erase]
    exact card_erase_add_one (mem_keys.2 hoff)
  unfold freedLocked
  split
  · exact ⟨rfl, rfl, rfl, rfl, rfl, fun _ _ h => (lookup_erase_cases h).2, fun o ho h => (hgone o ho h).ge,
      by simp only at *; omega, hcard⟩
  · exact ⟨rfl, rfl, rfl, rfl, rfl, fun _ _ h => (lookup_erase_cases h).2,
      fun o ho h => by have := hgone o ho h; simp only at *; omega, le_rfl, hcard⟩

theorem purgeLoop_swept (now : ℤ) (budget : ℕ) (sh : Shard) (released : ℕ) :
    ∃ n, (purgeLoop now budget sh released).2 = released + n ∧ Swept sh (purgeLoop now budget sh released).1 n := by
  induction budget generalizing sh released with
  | zero => exact ⟨0, rfl, Swept.refl sh⟩
  | succ budget ih =>
    unfold purgeLoop
    split
    · let popped := MinHeap.pop ExpiryEntry.expiresAtUnixMs sh.expiry
      have hpop := Swept.withExpiry sh popped.2
      by_cases hlive : describesLive { sh with expiry := popped.2 } popped.1 = true
      · have hleased : popped.1.offset ∈ sh.entries := by
          unfold describesLive at hlive
          split at hlive
          · exact mem_of_lookup_eq_some ‹_›
          · cases hlive
        have hevict := hpop.trans (Swept.evict _ hleased)
        obtain ⟨n, hn, hswept⟩ := ih _ (released + 1)
        refine ⟨1 + n, ?_, ?_⟩
        · simpa only [popped, hlive, if_true, add_assoc] using hn
        · simpa only [popped, hlive, if_true, zero_add] using hevict.trans hswept
      · obtain ⟨n, hn, hswept⟩ := ih { sh with expiry := popped.2 } released
        refine ⟨n, ?_, ?_⟩
        · simpa only [popped, hlive, Bool.false_eq_true, if_false] using hn
        · simpa only [popped, hlive, Bool.false_eq_true, if_false, zero_add] using hpop.trans hswept
    · exact ⟨0, rfl, Swept.refl sh⟩

theorem compactExpiryLocked_swept (order : RangeOrder) (sh : Shard) : Swept sh (compactExpiryLocked order sh) 0 := by
  unfold compactExpiryLocked
  split
  · exact Swept.refl sh
  · exact Swept.withExpiry sh _

/-- The specification of the inline purge. -/
theorem purge_swept (order : RangeOrder) (now : ℤ) (sh : Shard) :
    Swept sh (purgeExpiredLocked order now sh).1 (purgeExpiredLocked order now sh).2 := by
  obtain ⟨n, hn, hswept⟩ := purgeLoop_swept now sh.expiry.size sh 0
  have h := hswept.trans (compactExpiryLocked_swept order _)
  simpa only [purgeExpiredLocked, hn, zero_add, add_zero] using h

theorem Swept.apart {n : ℕ} (h : Swept sh p n) (hsh : sh.Apart) : p.Apart :=
  hsh.mono (fun _ => h.mem_entries) h.ackedAhead.subset h.corrupt.subset

/-- What is taken after a sweep was taken before it. -/
theorem Swept.taken {n : ℕ} (h : Swept sh p n) {off : ℤ} (hoff : p.Taken off) : sh.Taken off := by
  rw [Shard.Taken, h.ackedAhead, h.corrupt] at hoff
  exact hoff.imp_left h.mem_entries

/-- An expiry sweep keeps the invariant: what it frees lies at or above the lowered hint. -/
theorem Swept.wellFormed {n : ℕ} (h : Swept sh p n) (hsh : sh.WellFormed) : p.WellFormed where
  toApart := h.apart hsh.toApart
  committed_lt := by rw [h.committed]; exact hsh.committed_lt
  taken_lt off hoff := hsh.taken_lt off (h.taken hoff)
  above off hoff := by rw [h.committed]; exact hsh.above off (h.taken hoff)
  next_ackedAhead := by rw [h.committed, h.ackedAhead]; exact hsh.next_ackedAhead
  next_corrupt := by rw [h.committed, h.corrupt]; exact hsh.next_corrupt
  covered off hlow hhigh := by
    rw [h.committed] at hlow
    rw [Shard.Taken, h.ackedAhead, h.corrupt]
    rcases hsh.covered off hlow (lt_of_lt_of_le hhigh h.nextFree) with hent | hres
    · refine .inl (by_contra fun hout => ?_)
      exact absurd (h.freed off hent hout) (not_le.2 hhigh)
    · exact .inr hres

/-- What the collapse leaves alone, whether or not the frontier wraps. -/
structure Drained (sh a : Shard) : Prop where
  entries : a.entries = sh.entries
  maxInFlight : a.maxInFlight = sh.maxInFlight
  maxAckedAhead : a.maxAckedAhead = sh.maxAckedAhead
  ackedAhead : a.ackedAhead ⊆ sh.ackedAhead
  corrupt : a.corrupt ⊆ sh.corrupt
  stays : succ sh.committed ∉ sh.ackedAhead → succ sh.committed ∉ sh.corrupt → a.committed = sh.committed

theorem advanceLoop_drained (budget : ℕ) (sh : Shard) : Drained sh (advanceLoop budget sh) := by
  induction budget generalizing sh with
  | zero => exact ⟨rfl, rfl, rfl, subset_rfl, subset_rfl, fun _ _ => rfl⟩
  | succ budget ih =>
    unfold advanceLoop
    dsimp only
    split_ifs with hacked hcorrupt
    · refine { ih _ with ackedAhead := (ih _).ackedAhead.trans (erase_subset ..), stays := ?_ }
      exact fun h => absurd hacked h
    · refine { ih _ with corrupt := (ih _).corrupt.trans (erase_subset ..), stays := ?_ }
      exact fun _ h => absurd hcorrupt h
    · exact ⟨rfl, rfl, rfl, subset_rfl, subset_rfl, fun _ _ => rfl⟩

theorem advanceCommittedLocked_drained (sh : Shard) : Drained sh (advanceCommittedLocked sh) := by
  have h := advanceLoop_drained (sh.ackedAhead.card + sh.corrupt.card) sh
  unfold advanceCommittedLocked
  dsimp only
  split_ifs
  · exact { h with }
  · exact h

/-- What is taken after the collapse was taken before it. -/
theorem Drained.taken {sh a : Shard} (h : Drained sh a) {off : ℤ} (hoff : a.Taken off) : sh.Taken off := by
  rw [Shard.Taken, h.entries] at hoff
  exact hoff.imp_right (.imp (h.ackedAhead ·) (h.corrupt ·))

theorem advanceCommittedLocked_apart {sh : Shard} (h : sh.Apart) : (advanceCommittedLocked sh).Apart := by
  have hdrained := advanceCommittedLocked_drained sh
  exact h.mono (fun _ hoff => hdrained.entries ▸ hoff) hdrained.ackedAhead hdrained.corrupt

/-- What the collapse does: it removes the resolved run right above the frontier, and only that. -/
structure Collapsed (sh a : Shard) : Prop where
  le : sh.committed ≤ a.committed
  entries : a.entries = sh.entries
  run : ∀ off, sh.committed < off → off ≤ a.committed → off ∈ sh.ackedAhead ∨ off ∈ sh.corrupt
  mem_ackedAhead : ∀ off, off ∈ a.ackedAhead ↔ off ∈ sh.ackedAhead ∧ ¬ (sh.committed < off ∧ off ≤ a.committed)
  mem_corrupt : ∀ off, off ∈ a.corrupt ↔ off ∈ sh.corrupt ∧ ¬ (sh.committed < off ∧ off ≤ a.committed)
  next_ackedAhead : a.committed + 1 ∉ a.ackedAhead
  next_corrupt : a.committed + 1 ∉ a.corrupt
  version : a.aheadVersion + a.ackedAhead.card = sh.aheadVersion + sh.ackedAhead.card

/-- The frontier moves only over resolved offsets. -/
theorem Collapsed.committed_lt {sh a : Shard} (h : Collapsed sh a) (hsh : sh.Fits) : a.committed < maxInt64 := by
  rcases h.le.lt_or_eq with hlt | heq
  · exact hsh.taken_lt _ (.inr (h.run _ hlt le_rfl))
  · exact heq ▸ hsh.committed_lt

/-- A collapse that starts after an acked offset was absorbed. -/
theorem Collapsed.absorb_acked {sh a : Shard} (hdisj : ∀ off ∈ sh.ackedAhead, off ∉ sh.corrupt)
    (hnext : sh.committed + 1 ∈ sh.ackedAhead) (h : Collapsed { sh with
      ackedAhead := sh.ackedAhead.erase (sh.committed + 1), aheadVersion := sh.aheadVersion + 1
      committed := sh.committed + 1 } a) : Collapsed sh a := by
  have hle := h.le
  have hcard := card_erase_add_one hnext
  have hversion := h.version
  refine { h with
    le := by simp only at hle; omega, run := ?_, mem_ackedAhead := ?_, mem_corrupt := ?_,
    version := by simp only at hversion; omega }
  · intro off hlow hhigh
    by_cases hoff : off = sh.committed + 1
    · exact .inl (hoff ▸ hnext)
    · exact (h.run off (by simp only; omega) hhigh).imp_left (mem_of_mem_erase ·)
  · intro off
    rw [h.mem_ackedAhead off, Finset.mem_erase]
    simp only at hle ⊢
    constructor
    · rintro ⟨⟨hne, hmem⟩, hout⟩; exact ⟨hmem, by omega⟩
    · rintro ⟨hmem, hout⟩; exact ⟨⟨by omega, hmem⟩, by omega⟩
  · intro off
    rw [h.mem_corrupt off]
    simp only at hle ⊢
    refine and_congr_right fun hmem => ?_
    have hne : off ≠ sh.committed + 1 := fun he => hdisj _ hnext (he ▸ hmem)
    omega

/-- A collapse that starts after a corrupt offset was absorbed. -/
theorem Collapsed.absorb_corrupt {sh a : Shard}
    (hacked : sh.committed + 1 ∉ sh.ackedAhead) (hnext : sh.committed + 1 ∈ sh.corrupt) (h : Collapsed { sh with
      corrupt := sh.corrupt.erase (sh.committed + 1), committed := sh.committed + 1 } a) : Collapsed sh a := by
  have hle := h.le
  refine { h with le := by simp only at hle; omega, run := ?_, mem_ackedAhead := ?_, mem_corrupt := ?_ }
  · intro off hlow hhigh
    by_cases hoff : off = sh.committed + 1
    · exact .inr (hoff ▸ hnext)
    · exact (h.run off (by simp only; omega) hhigh).imp_right (mem_of_mem_erase ·)
  · intro off
    rw [h.mem_ackedAhead off]
    simp only at hle ⊢
    refine and_congr_right fun hmem => ?_
    have hne : off ≠ sh.committed + 1 := fun he => hacked (he ▸ hmem)
    omega
  · intro off
    rw [h.mem_corrupt off, Finset.mem_erase]
    simp only at hle ⊢
    constructor
    · rintro ⟨⟨hne, hmem⟩, hout⟩; exact ⟨hmem, by omega⟩
    · rintro ⟨hmem, hout⟩; exact ⟨⟨by omega, hmem⟩, by omega⟩

theorem advanceLoop_collapsed (budget : ℕ) (sh : Shard)
    (hdisj : ∀ off ∈ sh.ackedAhead, off ∉ sh.corrupt) (hfits : sh.Fits)
    (hbudget : sh.ackedAhead.card + sh.corrupt.card ≤ budget) :
    Collapsed sh (advanceLoop budget sh) ∧ (advanceLoop budget sh).nextFree = sh.nextFree := by
  induction budget generalizing sh with
  | zero =>
    have hacked : sh.ackedAhead = ∅ := card_eq_zero.1 (by omega)
    have hcorrupt : sh.corrupt = ∅ := card_eq_zero.1 (by omega)
    exact ⟨⟨le_rfl, rfl, fun off hlow hhigh => absurd (hlow.trans_le hhigh) (lt_irrefl _),
      fun off => by simp [advanceLoop, hacked], fun off => by simp [advanceLoop, hcorrupt],
      by simp [advanceLoop, hacked], by simp [advanceLoop, hcorrupt], rfl⟩, rfl⟩
  | succ budget ih =>
    unfold advanceLoop
    simp only [succ_of_lt hfits.committed_lt]
    split_ifs with hacked hcorrupt
    · have hcard := card_erase_add_one hacked
      obtain ⟨hrest, hfree⟩ := ih { sh with
        ackedAhead := sh.ackedAhead.erase (sh.committed + 1)
        aheadVersion := sh.aheadVersion + 1
        committed := sh.committed + 1 }
        (fun off hoff => hdisj off (mem_of_mem_erase hoff))
        ⟨hfits.taken_lt _ (.inr (.inl hacked)), fun off hoff => hfits.taken_lt off
          (hoff.imp_right (.imp_left (mem_of_mem_erase ·)))⟩ (by simp only; omega)
      exact ⟨hrest.absorb_acked hdisj hacked, hfree⟩
    · have hcard := card_erase_add_one hcorrupt
      obtain ⟨hrest, hfree⟩ := ih { sh with
        corrupt := sh.corrupt.erase (sh.committed + 1)
        committed := sh.committed + 1 }
        (fun off hoff h => hdisj off hoff (mem_of_mem_erase h))
        ⟨hfits.taken_lt _ (.inr (.inr hcorrupt)), fun off hoff => hfits.taken_lt off
          (hoff.imp_right (.imp_right (mem_of_mem_erase ·)))⟩ (by simp only; omega)
      exact ⟨hrest.absorb_corrupt hacked hcorrupt, hfree⟩
    · exact ⟨⟨le_rfl, rfl, fun off hlow hhigh => absurd (hlow.trans_le hhigh) (lt_irrefl _),
        fun off => by simp, fun off => by simp, hacked, hcorrupt, rfl⟩, rfl⟩

/-- The specification of the collapse: the resolved run is absorbed and the hint stays above the
frontier. -/
theorem advanceCommittedLocked_collapsed (sh : Shard) (hdisj : ∀ off ∈ sh.ackedAhead, off ∉ sh.corrupt)
    (hfits : sh.Fits) : Collapsed sh (advanceCommittedLocked sh) ∧ (advanceCommittedLocked sh).nextFree =
        max sh.nextFree ((advanceCommittedLocked sh).committed + 1) := by
  obtain ⟨hloop, hfree⟩ := advanceLoop_collapsed _ sh hdisj hfits le_rfl
  unfold advanceCommittedLocked
  simp only [succ_of_lt (hloop.committed_lt hfits)]
  split_ifs with hlow
  · refine ⟨{ hloop with }, ?_⟩
    rw [hfree] at hlow
    simp only
    omega
  · refine ⟨hloop, ?_⟩
    rw [hfree] at hlow ⊢
    omega

/-- Collapsing a sound state gives a well-formed one. -/
theorem advanceCommittedLocked_wellFormed {sh : Shard} (hsh : sh.Sound) : (advanceCommittedLocked sh).WellFormed := by
  obtain ⟨h, hfree⟩ := advanceCommittedLocked_collapsed sh hsh.ackedAhead_corrupt hsh.toFits
  have hdrained := advanceCommittedLocked_drained sh
  refine ⟨⟨advanceCommittedLocked_apart hsh.toApart,
    ⟨h.committed_lt hsh.toFits, fun off hoff => hsh.taken_lt off (hdrained.taken hoff)⟩, ?_, ?_⟩,
    h.next_ackedAhead, h.next_corrupt⟩
  · intro off hoff
    by_contra hle
    -- An offset the frontier passed was resolved, and the collapse has removed it.
    have hpassed := And.intro (hsh.above off (hdrained.taken hoff)) (not_lt.1 hle)
    rcases hoff with hent | hacked | hcorrupt
    · rw [hdrained.entries] at hent
      exact (h.run off hpassed.1 hpassed.2).elim (hsh.entries_ackedAhead off hent) (hsh.entries_corrupt off hent)
    · exact ((h.mem_ackedAhead off).1 hacked).2 hpassed
    · exact ((h.mem_corrupt off).1 hcorrupt).2 hpassed
  · intro off hlow hhigh
    have hle := h.le
    rw [Shard.Taken, hdrained.entries, h.mem_ackedAhead, h.mem_corrupt]
    rcases hsh.covered off (by omega) (by omega) with hent | hacked | hcorrupt
    · exact .inl hent
    · exact .inr (.inl ⟨hacked, by omega⟩)
    · exact .inr (.inr ⟨hcorrupt, by omega⟩)

end Narad.Consumer
