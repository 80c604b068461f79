import Mathlib
import Narad.Consumer.ShardRun
import Narad.Lib.LeaseLedger

/-!
# What a run of a shard acknowledged

`ledger` forgets the representation of a shard: the settled offsets are those at or below the
frontier, acked ahead, or skipped as corrupt, and a lease's token is its nonce. Every operation is
one step of the abstract ledger, so no offset is settled without a successful resolve of its live
lease or a skip over deleted records, and a settled offset is never handed out again, as long as no
recovered offset is the largest `int64`.
-/

namespace Narad.Consumer

open Lib Finmap Finset Op

/-- The abstract delivery state of a shard. -/
def ledger (sh : Shard) : Ledger ℤ ℤ where
  resolved := {off | off ≤ sh.committed ∨ off ∈ sh.ackedAhead ∨ off ∈ sh.corrupt}
  holder off := (sh.entries.lookup off).map Reservation.nonce

/-- What an operation made of the abstract state, read off its arguments and its outcome. -/
def Op.event (op : Op) (sh : Shard) : Ledger.Event ℤ ℤ :=
  match op, (op.perform sh).result with
  | .reserveNext .., .reserve (.reserved off nonce _) => .lease off nonce
  | .commitHandle _ _ off nonce, .unit (.ok _) => .resolve off nonce
  | .skipCorrupt _ _ off nonce, .unit (.ok _) => .resolve off nonce
  | .skipMissingBelow _ _ _ _ oldest, .offset (.ok _) => .writeOff (Set.Iio oldest)
  | _, _ => .quiet

/-- The events of a run. -/
def events (sh : Shard) : List Op → List (Ledger.Event ℤ ℤ)
  | [] => []
  | op :: ops => op.event sh :: events (op.perform sh).shard ops

theorem Swept.lapsed {sh p : Shard} {n : ℕ} (h : Swept sh p n) : (ledger sh).Lapsed (ledger p) where
  resolved := by simp only [ledger, h.committed, h.ackedAhead, h.corrupt]
  holder off nonce hoff := by
    obtain ⟨rsv, hrsv, hnonce⟩ := Option.map_eq_some_iff.1 hoff
    exact Option.map_eq_some_iff.2 ⟨rsv, h.entries off rsv hrsv, hnonce⟩

/-- The collapse settles nothing new. -/
theorem Collapsed.ledger_eq {sh a : Shard} (h : Collapsed sh a) : ledger a = ledger sh := by
  have hresolved : (ledger a).resolved = (ledger sh).resolved := by
    ext off
    simp only [ledger, Set.mem_ofPred_eq, h.mem_ackedAhead, h.mem_corrupt]
    have hle := h.le
    constructor
    · rintro (hoff | hoff | hoff)
      · by_cases hlow : off ≤ sh.committed
        · exact .inl hlow
        · exact .inr (h.run off (not_le.1 hlow) hoff)
      · exact .inr (.inl hoff.1)
      · exact .inr (.inr hoff.1)
    · rintro (hoff | hoff | hoff)
      · exact .inl (hoff.trans hle)
      · by_cases hlow : off ≤ a.committed
        · exact .inl hlow
        · exact .inr (.inl ⟨hoff, fun h => hlow h.2⟩)
      · by_cases hlow : off ≤ a.committed
        · exact .inl hlow
        · exact .inr (.inr ⟨hoff, fun h => hlow h.2⟩)
  have hholder : (ledger a).holder = (ledger sh).holder := by
    simp only [ledger, h.entries]
  exact Ledger.ext hresolved hholder

variable {sh : Shard} {off nonce : ℤ}

theorem holder_of_heldBy (h : heldBy sh off nonce = true) : (ledger sh).holder off = some nonce := by
  unfold heldBy at h
  split at h
  next rsv hrsv => exact Option.map_eq_some_iff.2 ⟨rsv, hrsv, by simpa using h⟩
  · cases h

/-- Dropping a lease leaves the other leases as they were. -/
theorem holder_erase {entries : Entries} {off b t : ℤ}
    (h : ((entries.erase off).lookup b).map Reservation.nonce = some t) :
    (entries.lookup b).map Reservation.nonce = some t := by
  by_cases hb : b = off
  · subst hb
    simp at h
  · rwa [lookup_erase_ne hb] at h

theorem reserveNext_step (hsh : sh.WellFormed) (order : RangeOrder) (now nonce timeout tail : ℤ) :
    (ledger sh).Step ((Op.reserveNext order now nonce timeout tail).event sh)
      (ledger (reserveNext order now nonce timeout tail sh).shard) := by
  have hswept := purge_swept order now sh
  have hp := hswept.wellFormed hsh
  refine ⟨ledger (purgeExpiredLocked order now sh).1, hswept.lapsed, ?_⟩
  cases hchoice : chooseNext (purgeExpiredLocked order now sh).1 tail with
  | error reason =>
    simp only [event, perform, Call.map, reserveNext, hchoice]
    exact (Swept.refl _).lapsed
  | ok off =>
    have hoff := hchoice
    rw [chooseNext_eq_oracleLocked hp.toSound] at hoff
    obtain ⟨⟨habove, -, hfree⟩, -⟩ := oracleLocked_ok hp.committed_lt tail hoff
    simp only [event, perform, Call.map, reserveNext, hchoice]
    rw [reserveLocked_shard]
    refine ⟨?_, ?_, rfl, ?_⟩
    · rintro (h | h | h)
      · exact absurd h (not_le.2 habove)
      · exact hfree (.inr (.inl h))
      · exact hfree (.inr (.inr h))
    · have hout : off ∉ (purgeExpiredLocked order now sh).1.entries := fun h => hfree (.inl h)
      simp [ledger, lookup_eq_none.2 hout]
    · intro b t hb
      by_cases hne : b = off
      · subst hne
        simp only [ledger, lease, lookup_insert, Option.map_some, Option.some.injEq] at hb
        exact .inl ⟨rfl, hb.symm⟩
      · simp only [ledger, lease, lookup_insert_of_ne _ hne] at hb
        exact .inr hb

/-- Parking an offset settles it, whichever set it lands in. -/
theorem ledger_park (kind : AheadOf) (off : ℤ) (sh : Shard) (version : ℕ) :
    (ledger { dropLease off (kind.park off sh) with aheadVersion := version }).resolved =
      insert off (ledger sh).resolved := by
  ext o
  cases kind <;>
    simp only [ledger, dropLease, AheadOf.park, Set.mem_ofPred_eq, Set.mem_insert_iff, Finset.mem_insert] <;>
    tauto

theorem holder_erase_park {kind : AheadOf} {off b t : ℤ} {version : ℕ}
    (h : (ledger { dropLease off (kind.park off sh) with aheadVersion := version }).holder b =
      some t) : (ledger sh).holder b = some t := by
  cases kind <;> exact holder_erase h

theorem resolveReserved_step (hsh : sh.WellFormed) (kind : AheadOf) (order : RangeOrder) (now off nonce : ℤ) :
    (ledger sh).Step (match (resolveReserved kind order now off nonce sh).result with
        | .ok _ => .resolve off nonce
        | .error _ => .quiet)
      (ledger (resolveReserved kind order now off nonce sh).shard) := by
  have hswept := purge_swept order now sh
  have hp := hswept.wellFormed hsh
  refine ⟨ledger (purgeExpiredLocked order now sh).1, hswept.lapsed, ?_⟩
  simp only [resolveReserved, succ_of_lt hp.committed_lt]
  split_ifs with hheld hnext hpersisted
  · have hsound := hp.commitNext (hnext ▸ mem_entries_of_heldBy hheld)
    rw [← hnext] at hsound
    obtain ⟨hcollapsed, -⟩ := advanceCommittedLocked_collapsed _ hsound.ackedAhead_corrupt hsound.toFits
    refine ⟨holder_of_heldBy hheld, ?_, ?_⟩
    · rw [hcollapsed.ledger_eq]
      ext o
      simp only [ledger, commitAt, Set.mem_ofPred_eq, Set.mem_insert_iff]
      rw [show o ≤ off ↔ o = off ∨ o ≤ (purgeExpiredLocked order now sh).1.committed by omega, or_assoc]
    · rw [hcollapsed.ledger_eq]
      exact fun b t hb => holder_erase hb
  · exact ⟨holder_of_heldBy hheld, ledger_park kind off _ _, fun b t hb => holder_erase_park hb⟩
  · exact ⟨holder_of_heldBy hheld, ledger_park kind off _ _, fun b t hb => holder_erase_park hb⟩
  · exact (Swept.refl _).lapsed

theorem skipMissingBelow_step (hsh : sh.WellFormed) (order : RangeOrder) (now off nonce : ℤ) {oldest : ℤ}
    (hmax : oldest ≤ maxInt64) : (ledger sh).Step ((Op.skipMissingBelow order now off nonce oldest).event sh)
      (ledger (skipMissingBelow order now off nonce oldest sh).shard) := by
  have hswept := purge_swept order now sh
  have hp := hswept.wellFormed hsh
  simp only [event, perform, Call.map, skipMissingBelow]
  split_ifs with hinvalid hheld
  · exact ⟨ledger sh, (Swept.refl sh).lapsed, (Swept.refl sh).lapsed⟩
  · have hsound := hp.forgetBelow order hmax
    obtain ⟨hcollapsed, -⟩ := advanceCommittedLocked_collapsed _ hsound.ackedAhead_corrupt hsound.toFits
    refine ⟨ledger (purgeExpiredLocked order now sh).1, hswept.lapsed, ?_, ?_⟩
    · rw [hcollapsed.ledger_eq]
      ext o
      simp only [ledger, forgetBelow, Set.mem_ofPred_eq, Set.mem_union, Set.mem_Iio, mem_filter]
      by_cases hlow : o < oldest
      · simp only [hlow, or_true, iff_true]
        left
        split_ifs <;> omega
      · simp only [hlow, or_false, not_lt.1 hlow, and_true]
        refine or_congr_left ?_
        split_ifs <;> omega
    · rw [hcollapsed.ledger_eq]
      intro b t hb
      simp only [ledger, forgetBelow, lookup_dropLeasesBelow] at hb ⊢
      split_ifs at hb with hlow
      · cases hb
      · exact hb
  · exact ⟨ledger (purgeExpiredLocked order now sh).1, hswept.lapsed, (Swept.refl _).lapsed⟩

theorem extendHandle_lapsed (sh : Shard) (order : RangeOrder) (now off nonce timeout : ℤ) :
    (ledger (purgeExpiredLocked order now sh).1).Lapsed
      (ledger (extendHandle order now off nonce timeout sh).shard) := by
  simp only [extendHandle]
  split_ifs with hheld
  · refine ⟨rfl, fun b t hb => ?_⟩
    by_cases hne : b = off
    · subst hne
      simp only [ledger, lease, lookup_insert, Option.map_some, Option.some.injEq] at hb
      exact hb ▸ holder_of_heldBy hheld
    · simpa only [ledger, lease, lookup_insert_of_ne _ hne] using hb
  · exact (Swept.refl _).lapsed

theorem releaseHandle_lapsed (sh : Shard) (order : RangeOrder) (now off nonce : ℤ) :
    (ledger (purgeExpiredLocked order now sh).1).Lapsed (ledger (releaseHandle order now off nonce sh).shard) := by
  simp only [releaseHandle]
  split_ifs with hheld
  · exact (Swept.evict _ (mem_entries_of_heldBy hheld)).lapsed
  · exact (Swept.refl _).lapsed

/-- Simulation step: an operation on a shard is a step of its ledger. -/
theorem perform_step (hsh : sh.WellFormed) {op : Op} (hfits : op.Fits) :
    (ledger sh).Step (op.event sh) (ledger (op.perform sh).shard) := by
  cases op with
  | reserveNext order now nonce timeout tail => exact reserveNext_step hsh ..
  | commitHandle order now off nonce =>
    have h := resolveReserved_step hsh .ackedAhead order now off nonce
    simp only [event, perform, Call.map, commitHandle]
    cases hresult : (resolveReserved .ackedAhead order now off nonce sh).result <;>
      simpa only [hresult] using h
  | skipCorrupt order now off nonce =>
    have h := resolveReserved_step hsh .corrupt order now off nonce
    simp only [event, perform, Call.map, skipCorrupt]
    cases hresult : (resolveReserved .corrupt order now off nonce sh).result <;>
      simpa only [hresult] using h
  | skipMissingBelow order now off nonce oldest => exact skipMissingBelow_step hsh _ _ _ _ hfits
  | extendHandle order now off nonce timeout =>
    exact ⟨_, (purge_swept order now sh).lapsed, extendHandle_lapsed ..⟩
  | releaseHandle order now off nonce =>
    exact ⟨_, (purge_swept order now sh).lapsed, releaseHandle_lapsed ..⟩
  | purgeAll order now =>
    exact ⟨_, (purge_swept order now sh).lapsed, (Swept.refl _).lapsed⟩
  | refreshCaps caps =>
    refine ⟨ledger sh, (Swept.refl sh).lapsed, ?_⟩
    change (ledger sh).Lapsed (ledger (refreshCaps caps sh))
    unfold refreshCaps
    split_ifs <;> exact (Swept.refl sh).lapsed

/-- Simulation: a run of a shard is a run of its ledger. -/
theorem run_ledger (hsh : sh.WellFormed) {ops : List Op} (hops : ∀ op ∈ ops, op.Fits) :
    (ledger sh).Run (events sh ops) (ledger (run sh ops)) := by
  induction ops generalizing sh with
  | nil => exact .nil _
  | cons op ops ih =>
    have hop := hops op (.head _)
    exact .cons (perform_step hsh hop) (ih (perform_wellFormed hsh hop) fun op h => hops op (.tail _ h))

/-- A reservation of the run handed `off` out under `nonce`. -/
def Delivered (sh : Shard) (ops : List Op) (off nonce : ℤ) : Prop :=
  ∃ before order now timeout tail after exp, ops = before ++ Op.reserveNext order now nonce timeout tail :: after ∧
      (reserveNext order now nonce timeout tail (run sh before)).result = .reserved off nonce exp

/-- An ack or a corrupt skip of `off` that returned nil, and carried the nonce of the reservation
that was live at its clock reading; that nonce had been handed out with `off` before. -/
def ResolvedByHandle (sh : Shard) (ops : List Op) (off : ℤ) : Prop :=
  ∃ before op after order now nonce, ops = before ++ op :: after ∧
    (op = .commitHandle order now off nonce ∨ op = .skipCorrupt order now off nonce) ∧
    (op.perform (run sh before)).result = .unit (.ok ()) ∧
    heldBy (purgeExpiredLocked order now (run sh before)).1 off nonce ∧
    Delivered sh before off nonce

/-- A skip over deleted records that returned nil with `off` below its `oldest`. -/
def SkippedAsMissing (sh : Shard) (ops : List Op) (off : ℤ) : Prop :=
  ∃ before order now held nonce oldest after moved,
    ops = before ++ Op.skipMissingBelow order now held nonce oldest :: after ∧
      (skipMissingBelow order now held nonce oldest (run sh before)).result = .ok moved ∧
      off < oldest

variable (r : Recovered)

/-- How an offset can come to be settled in a run that starts from a recovered shard. -/
def Settled (caps : Caps) (ops : List Op) (off : ℤ) : Prop :=
  off ≤ r.frontier ∨ off ∈ r.offsets ∨ ResolvedByHandle (recoverShard r caps) ops off ∨
    SkippedAsMissing (recoverShard r caps) ops off

theorem run_append (sh : Shard) (before after : List Op) :
    run sh (before ++ after) = run (run sh before) after := List.foldl_append

variable {ops : List Op}

/-- An event of a run belongs to one of its operations. -/
theorem exists_op_of_mem_events {event : Ledger.Event ℤ ℤ} (h : event ∈ events sh ops) :
    ∃ before op after, ops = before ++ op :: after ∧ event = op.event (run sh before) := by
  induction ops generalizing sh with
  | nil => cases h
  | cons op ops ih =>
    rcases List.mem_cons.1 h with rfl | h
    · exact ⟨[], op, ops, rfl, rfl⟩
    · obtain ⟨before, op', after, rfl, hevent⟩ := ih h
      exact ⟨op :: before, op', after, rfl, hevent⟩

variable {op : Op}

theorem reserveNext_of_event_lease (h : op.event sh = .lease off nonce) :
    ∃ order now timeout tail exp, op = .reserveNext order now nonce timeout tail ∧
      (reserveNext order now nonce timeout tail sh).result = .reserved off nonce exp := by
  unfold event at h
  split at h
  case h_1 order now minted timeout tail off' nonce' exp hresult =>
    cases h
    simp only [perform, Call.map, Outcome.reserve.injEq] at hresult
    have hanswer := hresult
    rw [reserveNext_result] at hanswer
    cases hchoice : chooseNext (purgeExpiredLocked order now sh).1 tail with
    | error reason => rw [hchoice] at hanswer; cases hanswer
    | ok chosen =>
      rw [hchoice] at hanswer
      cases hanswer
      exact ⟨order, now, timeout, tail, _, rfl, hresult⟩
  all_goals cases h

theorem heldBy_of_resolveReserved_ok {kind : AheadOf} {order : RangeOrder} {now off nonce : ℤ}
    (h : (resolveReserved kind order now off nonce sh).result = .ok ()) :
    heldBy (purgeExpiredLocked order now sh).1 off nonce = true := by
  by_contra hheld
  simp only [resolveReserved, hheld, not_false_eq_true, if_true] at h
  cases h

theorem resolve_of_event_resolve (h : op.event sh = .resolve off nonce) :
    ∃ order now, (op = .commitHandle order now off nonce ∨ op = .skipCorrupt order now off nonce) ∧
      (op.perform sh).result = .unit (.ok ()) ∧ heldBy (purgeExpiredLocked order now sh).1 off nonce = true := by
  unfold event at h
  split at h
  case h_2 order now off' nonce' ok hresult =>
    cases h
    refine ⟨order, now, .inl rfl, hresult, ?_⟩
    simp only [perform, Call.map, Outcome.unit.injEq] at hresult
    exact heldBy_of_resolveReserved_ok hresult
  case h_3 order now off' nonce' ok hresult =>
    cases h
    refine ⟨order, now, .inr rfl, hresult, ?_⟩
    simp only [perform, Call.map, Outcome.unit.injEq] at hresult
    exact heldBy_of_resolveReserved_ok hresult
  all_goals cases h

theorem skipMissingBelow_of_event_writeOff {gone : Set ℤ} (h : op.event sh = .writeOff gone) :
    ∃ order now held nonce oldest moved, op = .skipMissingBelow order now held nonce oldest ∧
      (skipMissingBelow order now held nonce oldest sh).result = .ok moved ∧ gone = Set.Iio oldest := by
  unfold event at h
  split at h
  case h_4 order now held nonce oldest moved hresult =>
    cases h
    simp only [perform, Call.map, Outcome.offset.injEq] at hresult
    exact ⟨order, now, held, nonce, oldest, moved, rfl, hresult, rfl⟩
  all_goals cases h

/-- What a recovered shard considers settled: the recovered frontier and the recovered list. -/
theorem recoverShard_ledger {r : Recovered} (hr : r.Fits) (caps : Caps) : ledger (recoverShard r caps) =
      { resolved := {off | off ≤ r.frontier ∨ off ∈ r.offsets}, holder := fun _ => none } := by
  have hsound := insertAhead_newPartitionShard_sound caps hr.1 hr.2
  obtain ⟨hcollapsed, -⟩ := advanceCommittedLocked_collapsed _ hsound.ackedAhead_corrupt hsound.toFits
  obtain ⟨version, hinsert⟩ := insertAhead_spec r.offsets (newPartitionShard r.frontier caps)
  rw [recoverShard, seedAheadLocked, hcollapsed.ledger_eq, hinsert]
  refine Ledger.ext ?_ (funext fun off => by simp [ledger, newPartitionShard])
  ext off
  simp only [ledger, Set.mem_ofPred_eq, Finset.mem_union, Finset.mem_filter, List.mem_toFinset]
  simp only [newPartitionShard, Finset.notMem_empty, false_or, or_false]
  constructor
  · exact Or.imp_right fun h => h.1
  · rintro (h | h)
    · exact .inl h
    · by_cases hlow : off ≤ r.frontier
      · exact .inl hlow
      · exact .inr ⟨h, not_le.1 hlow⟩

variable {r : Recovered} {caps : Caps}

/-- A lease that is live after a run was delivered in it. -/
theorem delivered_of_holder (hr : r.Fits) (hops : ∀ op ∈ ops, op.Fits)
    (h : (ledger (run (recoverShard r caps) ops)).holder off = some nonce) :
    Delivered (recoverShard r caps) ops off nonce := by
  rcases (run_ledger (recoverShard_wellFormed hr caps) hops).holder_cause h with hstart | hlease
  · rw [recoverShard_ledger hr] at hstart
    cases hstart
  obtain ⟨before, op, after, rfl, hevent⟩ := exists_op_of_mem_events hlease
  obtain ⟨order, now, timeout, tail, exp, rfl, hresult⟩ := reserveNext_of_event_lease hevent.symm
  exact ⟨before, order, now, timeout, tail, after, exp, rfl, hresult⟩

/-- A longer run settles at least as much. -/
theorem Settled.append {off : ℤ} (h : Settled r caps ops off) (more : List Op) : Settled r caps (ops ++ more) off := by
  rcases h with h | h | h | h
  · exact .inl h
  · exact .inr (.inl h)
  · obtain ⟨before, op, after, order, now, nonce, rfl, hrest⟩ := h
    exact .inr (.inr (.inl ⟨before, op, after ++ more, order, now, nonce, by simp, hrest⟩))
  · obtain ⟨before, order, now, held, nonce, oldest, after, moved, rfl, hrest⟩ := h
    exact .inr (.inr (.inr ⟨before, order, now, held, nonce, oldest, after ++ more, moved, by simp, hrest⟩))

/-- Every settled offset of the shard has a cause in the run. -/
theorem settled_of_mem_resolved (hr : r.Fits) (hops : ∀ op ∈ ops, op.Fits)
    (h : off ∈ (ledger (run (recoverShard r caps) ops)).resolved) : Settled r caps ops off := by
  induction ops using List.reverseRecOn with
  | nil =>
    rw [show run (recoverShard r caps) [] = recoverShard r caps from rfl, recoverShard_ledger hr] at h
    rcases h with h | h
    · exact .inl h
    · exact .inr (.inl h)
  | append_singleton ops op ih =>
    rw [run_append] at h
    have hbefore : ∀ op ∈ ops, op.Fits := fun op hop => hops op (List.mem_append_left _ hop)
    have hrun := run_wellFormed (recoverShard_wellFormed hr caps) hbefore
    have hstep := perform_step hrun (hops op (by simp))
    rcases hstep.resolved_cause h with h | ⟨nonce, hevent, hholder⟩ | ⟨gone, hevent, hgone⟩
    · exact (ih hbefore h).append [op]
    · obtain ⟨order, now, hop, hresult, hheld⟩ := resolve_of_event_resolve hevent
      exact .inr (.inr (.inl ⟨ops, op, [], order, now, nonce, rfl, hop, hresult, hheld,
        delivered_of_holder hr hbefore hholder⟩))
    · obtain ⟨order, now, held, nonce, oldest, moved, rfl, hresult, rfl⟩ :=
        skipMissingBelow_of_event_writeOff hevent
      exact .inr (.inr (.inr ⟨ops, order, now, held, nonce, oldest, [], moved, rfl, hresult, hgone⟩))

/-- An offset settled by an operation stays settled to the end of the run. -/
theorem mem_resolved_of_event (hsh : sh.WellFormed) {before after : List Op}
    (hops : ∀ o ∈ before ++ op :: after, o.Fits)
    {off : ℤ} (h : off ∈ (ledger (op.perform (run sh before)).shard).resolved) :
    off ∈ (ledger (run sh (before ++ op :: after))).resolved := by
  rw [run_append]
  have hbefore := run_wellFormed hsh fun o ho => hops o (List.mem_append_left _ ho)
  have hstep := perform_wellFormed hbefore (hops op (by simp))
  exact (run_ledger hstep fun o ho => hops o (by simp [ho])).resolved_subset h

/-- Every cause settles the offset in the shard. -/
theorem mem_resolved_of_settled (hr : r.Fits) (hops : ∀ op ∈ ops, op.Fits) {off : ℤ}
    (h : Settled r caps ops off) : off ∈ (ledger (run (recoverShard r caps) ops)).resolved := by
  have hsh := recoverShard_wellFormed hr caps
  have hstart : off ≤ r.frontier ∨ off ∈ r.offsets →
      off ∈ (ledger (run (recoverShard r caps) ops)).resolved := by
    intro h
    refine (run_ledger hsh hops).resolved_subset ?_
    rw [recoverShard_ledger hr]
    exact h
  rcases h with h | h | h | h
  · exact hstart (.inl h)
  · exact hstart (.inr h)
  · obtain ⟨before, op, after, order, now, nonce, rfl, hop, hresult, -⟩ := h
    have hevent : op.event (run (recoverShard r caps) before) = .resolve off nonce := by
      rcases hop with rfl | rfl <;> simp only [event, hresult]
    have hbefore := run_wellFormed hsh fun o ho => hops o (List.mem_append_left _ ho)
    obtain ⟨M, -, hstep⟩ := perform_step hbefore (hops op (by simp))
    rw [hevent] at hstep
    refine mem_resolved_of_event hsh hops ?_
    rw [hstep.2.1]
    exact Set.mem_insert off _
  · obtain ⟨before, order, now, held, nonce, oldest, after, moved, rfl, hresult, hlow⟩ := h
    have hevent : (Op.skipMissingBelow order now held nonce oldest).event
        (run (recoverShard r caps) before) = .writeOff (Set.Iio oldest) := by
      simp only [event, perform, Call.map, hresult]
    have hbefore := run_wellFormed hsh fun o ho => hops o (List.mem_append_left _ ho)
    obtain ⟨M, -, hstep⟩ := perform_step hbefore (hops (.skipMissingBelow order now held nonce oldest) (by simp))
    rw [hevent] at hstep
    refine mem_resolved_of_event hsh hops ?_
    rw [hstep.1]
    exact .inr hlow

/-- No acknowledged message is skipped and none is redelivered after its ack: whatever the run, an
offset at or below the frontier or acked ahead was recovered, resolved through its live
reservation, or skipped with the deleted records; and once settled in one of these ways it is
never handed out again. The recovered offsets have to be below the largest `int64`. -/
theorem acked_has_cause_and_is_not_redelivered (r : Recovered) (caps : Caps) (ops : List Op) (off : ℤ)
    (hr : r.Fits) (hops : ∀ op ∈ ops, op.Fits) : (off ≤ (run (recoverShard r caps) ops).committed ∨
        off ∈ (run (recoverShard r caps) ops).ackedAhead → Settled r caps ops off) ∧
      (Settled r caps ops off → ∀ (later : List Op), (∀ op ∈ later, op.Fits) → ∀ (order : RangeOrder)
        (now nonce timeout tail handedOut exp : ℤ), (reserveNext order now nonce timeout tail
          (run (recoverShard r caps) (ops ++ later))).result ≠ .reserved off handedOut exp) := by
  constructor
  · intro h
    exact settled_of_mem_resolved hr hops (h.imp_right .inl)
  · intro h later hlater order now nonce timeout tail handedOut exp hresult
    have hall : ∀ op ∈ ops ++ later, op.Fits := fun op hop =>
      (List.mem_append.1 hop).elim (hops op) (hlater op)
    have hsettled := mem_resolved_of_settled hr hall (h.append later)
    have hstep := reserveNext_step (run_wellFormed (recoverShard_wellFormed hr caps) hall)
      order now nonce timeout tail
    simp only [event, perform, Call.map, hresult] at hstep
    exact hstep.not_mem_of_lease hsettled

/-- Offsets 0 and 1 are handed out, 1 is acked, and the skip over deleted records passes both. -/
def ackThenSkip : List Op :=
  [.reserveNext .ascending 0 1 1000000 3, .reserveNext .ascending 0 2 1000000 3, .commitHandle .ascending 0 1 2,
    .skipMissingBelow .ascending 0 0 1 2]

/-- Offset 1, acked out of order and then passed by the frontier, is not handed out again. -/
theorem ackThenSkip_not_redelivered : Settled ⟨none, none⟩ ⟨2, 4⟩ ackThenSkip 1 ∧
    ∀ exp, (reserveNext .ascending 0 3 1000000 3 (run (recoverShard ⟨none, none⟩ ⟨2, 4⟩) ackThenSkip)).result ≠
      .reserved 1 3 exp := by
  have h := acked_has_cause_and_is_not_redelivered ⟨none, none⟩ ⟨2, 4⟩ ackThenSkip 1 (by decide) (by decide)
  have hsettled := h.1 (.inl (by decide))
  exact ⟨hsettled, h.2 hsettled [] (by simp) .ascending 0 3 1000000 3 3⟩

/-- The frontier wraps: recovered at the largest `int64` it hands out the smallest offset, below it; and
recovered at -1 with the largest offset acked ahead, a skip to that offset leaves offset 1, which is below
the skip's `oldest`, to be handed out. -/
theorem wrapped_frontier_redelivers : Settled ⟨some maxInt64, none⟩ ⟨2, 4⟩ [] minInt64 ∧
    (reserveNext .ascending 0 1 1000000 5 (recoverShard ⟨some maxInt64, none⟩ ⟨2, 4⟩)).result =
      .reserved minInt64 1 1 ∧ Settled ⟨none, some (-1, [maxInt64])⟩ ⟨2, 4⟩
      [.reserveNext .ascending 0 1 1000000 5, .skipMissingBelow .ascending 0 0 1 maxInt64] 1 ∧
    (reserveNext .ascending 0 2 1000000 5 (run (recoverShard ⟨none, some (-1, [maxInt64])⟩ ⟨2, 4⟩)
      [.reserveNext .ascending 0 1 1000000 5, .skipMissingBelow .ascending 0 0 1 maxInt64])).result =
      .reserved 1 2 1 := by
  refine ⟨.inl (by decide), by decide, .inr (.inr (.inr ?_)), by decide +kernel⟩
  exact ⟨[.reserveNext .ascending 0 1 1000000 5], .ascending, 0, 0, 1, maxInt64, [],
    wrap (maxInt64 + 1), rfl, by decide, by decide⟩

end Narad.Consumer
