import Narad.Cluster.AckCoalescer

/-!
# The slots of an owner

The requests that hold a slot are as many as `inflight` says and never more than the limit, and while the
queue is not empty every slot is taken. The queue holds exactly the batches that have not left, each once.
-/

namespace Narad.Cluster.Ack

open Lib List Option

variable {i : ℕ}

theorem countP_set_add {α : Type*} {p : α → Bool} {l : List α} {x y : α} (h : l[i]? = some x) :
    (l.set i y).countP p + (if p x then 1 else 0) = l.countP p + (if p y then 1 else 0) := by
  obtain ⟨hlt, rfl⟩ := List.getElem?_eq_some_iff.mp h
  rw [countP_set hlt]
  by_cases hp : p l[i] = true
  · have : 0 < l.countP p := countP_pos_iff.mpr ⟨l[i], getElem_mem hlt, hp⟩
    simp only [hp, if_true]
    omega
  · simp only [hp]
    simp

/-- What holds of the slots when `owed` of them are counted and their holders are gone. -/
structure State.Slots (owed : ℕ) (s : State) : Prop where
  holders : s.holders + owed = s.inflight
  limit : s.inflight ≤ s.limit
  busy : s.queue ≠ [] → s.inflight = s.limit
  queued : ∀ b, b ∈ s.queue ↔ ∃ a, s.batches[b]? = some a ∧ a.pc = .queued
  nodup : s.queue.Nodup

namespace State.Slots

variable {owed : ℕ} {s : State} (h : s.Slots owed)

include h

/-- A call moves on; it may give up its slot. -/
theorem setCall {c c' : Call} (hc : s.calls[i]? = some c) {owed' : ℕ}
    (howed : (if c'.holdsSlot then 1 else 0) + owed' = (if c.holdsSlot then 1 else 0) + owed) :
    (s.setCall i c').Slots owed' :=
  { h with
    holders := by
      have hcount := countP_set_add (p := Call.holdsSlot) (y := c') hc
      have hholders := h.holders
      simp only [State.holders, State.setCall] at hholders ⊢
      omega }

/-- A batch moves on, queued or not as before; it may give up its slot. -/
theorem setBatch {b : ℕ} {a a' : AckBatch} (ha : s.batches[b]? = some a)
    (hqueued : a'.pc = .queued ↔ a.pc = .queued) {owed' : ℕ}
    (howed : (if a'.holdsSlot then 1 else 0) + owed' = (if a.holdsSlot then 1 else 0) + owed) :
    (s.setBatch b a').Slots owed' :=
  { h with
    holders := by
      have hcount := countP_set_add (p := AckBatch.holdsSlot) (y := a') ha
      have hholders := h.holders
      simp only [State.holders, State.setBatch] at hholders ⊢
      omega
    queued := by
      intro b'
      have hlt := (List.getElem?_eq_some_iff.mp ha).1
      show b' ∈ s.queue ↔ ∃ a'', (s.batches.set b a')[b']? = some a'' ∧ a''.pc = .queued
      rw [h.queued b', getElem?_set]
      by_cases hb : b = b'
      · subst hb
        simp only [hlt, if_true, ha, some.injEq, exists_eq_left', hqueued]
      · simp [hb] }

/-- A slot is taken. -/
theorem take (hlt : s.inflight < s.limit) {c c' : Call} (hc : s.calls[i]? = some c)
    (hfree : c.holdsSlot = false) (hheld : c'.holdsSlot = true) :
    ({ s with inflight := s.inflight + 1 }.setCall i c').Slots owed where
  holders := by
    have hcount := countP_set_add (p := Call.holdsSlot) (y := c') hc
    have hholders := h.holders
    simp only [State.holders, State.setCall, hfree, hheld, if_true, Bool.false_eq_true, if_false] at hholders hcount ⊢
    omega
  limit := hlt
  busy := fun hne => by
    have := h.busy hne
    omega
  queued := h.queued
  nodup := h.nodup

/-- A new batch at the tail of the queue. -/
theorem openBatch (hfull : ¬s.inflight < s.limit) {a : AckBatch} (ha : a.pc = .queued) :
    State.Slots owed { s with batches := s.batches ++ [a], queue := s.queue ++ [s.batches.length] } where
  holders := by
    have hfree : a.holdsSlot = false := by simp [AckBatch.holdsSlot, ha]
    have hholders := h.holders
    simp only [State.holders, countP_append, countP_cons, countP_nil, hfree] at hholders ⊢
    simpa using hholders
  limit := h.limit
  busy := fun _ => le_antisymm h.limit (Nat.le_of_not_lt hfull)
  queued := by
    intro b
    show b ∈ s.queue ++ [s.batches.length] ↔ ∃ a', (s.batches ++ [a])[b]? = some a' ∧ a'.pc = .queued
    rw [mem_append, mem_singleton, h.queued b, getElem?_append]
    rcases lt_trichotomy b s.batches.length with hlt | rfl | hgt
    · simp [hlt, ne_of_lt hlt]
    · simp [ha]
    · have hpos : b - s.batches.length ≠ 0 := by omega
      obtain ⟨n, hn⟩ := Nat.exists_eq_succ_of_ne_zero hpos
      simp [not_lt.mpr (le_of_lt hgt), hn, ne_of_gt hgt]
  nodup := by
    have hfresh : s.batches.length ∉ s.queue := by
      rw [h.queued]
      simp
    exact nodup_append.mpr ⟨h.nodup, by simp, by simpa using fun b hb => ne_of_mem_of_not_mem hb hfresh⟩

theorem join (hfull : ¬s.inflight < s.limit) (i : ℕ) (item : AckBatchItem) : (s.join i item).1.Slots owed := by
  unfold State.join
  split
  next b a hlast =>
    split
    · obtain ⟨b', hb', hmap⟩ := bind_eq_some_iff.mp hlast
      obtain ⟨a', ha', hpair⟩ := map_eq_some_iff.mp hmap
      cases hpair
      have hqueued : (a.add i item).pc = .queued ↔ a.pc = .queued := Iff.rfl
      exact h.setBatch ha' hqueued rfl
    · exact h.openBatch hfull rfl
  next => exact h.openBatch hfull rfl

end State.Slots

/-- The freed slot is passed on, or counted no more. -/
theorem State.Slots.release {s : State} (h : s.Slots 1) : s.releaseAckSlot.Slots 0 := by
  unfold State.releaseAckSlot
  split
  next hempty =>
    have hholders := h.holders
    have hlimit := h.limit
    exact
      { holders := by
          show s.holders + 0 = s.inflight - 1
          omega
        limit := by
          show s.inflight - 1 ≤ s.limit
          omega
        busy := fun hne => absurd hempty hne
        queued := h.queued
        nodup := h.nodup }
  next b rest hqueue =>
    obtain ⟨a, ha, hpc⟩ := (h.queued b).mp (by simp [hqueue])
    have hnodup := h.nodup
    rw [hqueue, nodup_cons] at hnodup
    rw [ha]
    have hlt := (List.getElem?_eq_some_iff.mp ha).1
    exact
      { holders := by
          have hcount := countP_set_add (p := AckBatch.holdsSlot) (y := a.depart) ha
          have hholders := h.holders
          have hfree : a.holdsSlot = false := by simp [AckBatch.holdsSlot, hpc]
          have hheld : a.depart.holdsSlot = true := rfl
          simp only [hfree, hheld, if_true, Bool.false_eq_true, if_false] at hcount
          simp only [State.holders] at hholders ⊢
          omega
        limit := h.limit
        busy := fun _ => h.busy (by simp [hqueue])
        queued := by
          intro b'
          show b' ∈ rest ↔ ∃ a', (s.batches.set b a.depart)[b']? = some a' ∧ a'.pc = .queued
          have hmem := h.queued b'
          rw [hqueue, mem_cons] at hmem
          rw [getElem?_set]
          by_cases hb : b = b'
          · subst hb
            simp [hlt, AckBatch.depart, hnodup.1]
          · simp only [hb, if_false, ← hmem]
            exact ⟨.inr, fun hor => hor.resolve_left (Ne.symm hb)⟩
        nodup := hnodup.2 }

namespace State.Slots

variable {s s' : State} (h : s.Slots 0)

include h

theorem leave (b k : ℕ) : (s.leave b k).1.Slots 0 := by
  unfold State.leave
  split
  · exact h
  next a ha =>
    split
    · exact h
    · have hqueued : ({ a with gone := a.gone.set k true } : AckBatch).pc = .queued ↔ a.pc = .queued := Iff.rfl
      exact h.setBatch ha hqueued rfl

theorem collect {c : Call} (hc : s.calls[i]? = some c) (hfree : c.holdsSlot = false) {b k : ℕ}
    (hstep : s.collect i c b k = some s') : s'.Slots 0 := by
  unfold State.collect at hstep
  split at hstep
  · cases hstep
  split at hstep
  · split at hstep
    · cases hstep
      exact h.setCall hc (hfree ▸ rfl)
    · obtain ⟨out, -, rfl⟩ := map_eq_some_iff.mp hstep
      exact h.setCall hc (hfree ▸ rfl)
  · cases hstep

variable {answer : Option Response}

theorem stepCall {c : Call} (hc : s.calls[i]? = some c) {wake : Wake}
    (hstep : s.stepCall i c wake answer = some s') : s'.Slots 0 := by
  unfold State.stepCall at hstep
  cases hpc : c.pc <;> simp only [hpc] at hstep
  case arriving =>
    have hfree : c.holdsSlot = false := by simp [Call.holdsSlot, hpc]
    split at hstep <;> cases hstep
    next hlt => exact h.take hlt hc hfree rfl
    next hfull =>
      refine (h.join hfull i c.item).setCall (c := c) ?_ (hfree ▸ rfl)
      unfold State.join
      split
      · split <;> exact hc
      · exact hc
  case sending slotted =>
    cases hstep
    have hsame : c.holdsSlot = slotted := by simp [Call.holdsSlot, hpc]
    have hlog : State.Slots 0 { s with requests := s.requests ++ [c.toRequest i] } := { h with }
    exact hlog.setCall hc (hsame ▸ rfl)
  case waiting slotted =>
    cases hstep
    have hsame : c.holdsSlot = slotted := by simp [Call.holdsSlot, hpc]
    refine h.setCall hc ?_
    rw [hsame]
    cases slotted <;> rfl
  case releasing out =>
    cases hstep
    have hheld : c.holdsSlot = true := by simp [Call.holdsSlot, hpc]
    have hended : (s.setCall i { c with pc := .returned out }).Slots 1 := h.setCall hc (by rw [hheld]; rfl)
    exact hended.release
  case queued b k =>
    have hfree : c.holdsSlot = false := by simp [Call.holdsSlot, hpc]
    have hkept : (s.leave b k).1.calls[i]? = some c := by
      unfold State.leave
      split
      · exact hc
      · split <;> exact hc
    cases wake with
    | done => exact h.collect hc hfree hstep
    | cancelled =>
      cases hstep
      exact (h.leave b k).setCall hkept (hfree ▸ rfl)
    | timeout =>
      cases hstep
      refine (h.leave b k).setCall hkept ?_
      rw [hfree]
      cases (s.leave b k).2 <;> rfl
  case late b k =>
    have hfree : c.holdsSlot = false := by simp [Call.holdsSlot, hpc]
    cases wake with
    | done => exact h.collect hc hfree hstep
    | cancelled =>
      cases hstep
      exact h.setCall hc (hfree ▸ rfl)
    | timeout => cases hstep
  case returned => cases hstep

theorem stepBatch {w : Wire} {b : ℕ} {a : AckBatch} (ha : s.batches[b]? = some a)
    (hstep : s.stepBatch w b a answer = some s') : s'.Slots 0 := by
  unfold State.stepBatch at hstep
  cases hpc : a.pc <;> simp only [hpc] at hstep
  case queued => cases hstep
  case finished => cases hstep
  case leaving =>
    have hheld : a.holdsSlot = true := by simp [AckBatch.holdsSlot, hpc]
    split at hstep <;> cases hstep
    · exact h.setBatch ha (by simp [hpc]) (by rw [hheld]; rfl)
    · have hlog : State.Slots 0 { s with requests := s.requests ++ [a.toRequest] } := { h with }
      exact hlog.setBatch ha (by simp [hpc]) (by rw [hheld]; rfl)
  case waiting =>
    have hheld : a.holdsSlot = true := by simp [AckBatch.holdsSlot, hpc]
    have hclosing : (a.answered w answer).pc = .closing := by
      unfold AckBatch.answered
      dsimp only
      split
      · rfl
      · split <;> rfl
    cases hstep
    exact h.setBatch ha (by simp [hpc, hclosing]) (by rw [hheld]; simp [AckBatch.holdsSlot, hclosing])
  case closing =>
    have hheld : a.holdsSlot = true := by simp [AckBatch.holdsSlot, hpc]
    cases hstep
    exact h.setBatch ha (by simp [hpc]) (by rw [hheld]; rfl)
  case releasing =>
    have hheld : a.holdsSlot = true := by simp [AckBatch.holdsSlot, hpc]
    cases hstep
    have hended : (s.setBatch b { a with pc := .finished }).Slots 1 :=
      h.setBatch ha (by simp [hpc]) (by rw [hheld]; rfl)
    exact hended.release

theorem step {w : Wire} {label : Label} (hstep : s.step w label = some s') : s'.Slots 0 := by
  cases label with
  | forward item alone =>
    cases hstep
    refine { h with holders := ?_ }
    have hholders := h.holders
    simp only [State.holders, countP_append] at hholders ⊢
    rw [← hholders]
    cases alone <;> rfl
  | call i wake answer =>
    obtain ⟨c, hc, hnext⟩ := bind_eq_some_iff.mp hstep
    exact h.stepCall hc hnext
  | batch b answer =>
    obtain ⟨a, ha, hnext⟩ := bind_eq_some_iff.mp hstep
    exact h.stepBatch ha hnext

end State.Slots

end Narad.Cluster.Ack
