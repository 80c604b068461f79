import Narad.Messaging.CombinerInvariant
import Mathlib.Algebra.Order.BigOperators.Group.List

/-!
# Every caller is served once

From the invariant: cycles do not overlap, no request is drained twice or left behind, a caller is
woken at most once and reads the outcome of the cycle that drained it, and nobody waits without a
leader. A cycle's offsets follow from `Numbered`.

That every caller does return is a matter of progress. While some call is under way some caller can
move, and each move lowers `work`, which only a new call raises.
-/

namespace Narad.Messaging

open Function (update_apply update_of_ne update_self)
open Lib List Option

/-- The caller runs a cycle. -/
def Pc.inCycle : Pc → Bool
  | .resolving .. | .locked .. | .committing .. | .failed .. | .waking .. | .recycling _ => true
  | .idle | .waiting | .handingOver | .handing _ | .returned => false

/-- The caller leads or has been chosen to. -/
def Combiner.leads (s : Combiner) (i : ℕ) : Prop :=
  (s.pc i).inCycle = true ∨ s.pc i = .handingOver ∨ (∃ next, s.pc i = .handing next) ∨
    (s.pc i = .waiting ∧ (s.requests i).lead = true)

namespace Traced

/-- The requests a cycle has in hand, or may get. -/
def load (t : Traced) : Option Slice → ℕ
  | none => t.callers.length
  | some b => (t.machine.arrays.read (some b)).length

/-- The steps a caller may still take. -/
def weight (t : Traced) (i : ℕ) : ℕ :=
  match t.machine.pc i with
  | .idle | .returned => 0
  | .waiting => t.callers.length + if (t.machine.requests i).wake = some 1 then 14 else 15
  | .resolving a b => t.load b + 7 + 3 * (staleLogAttempts - a)
  | .locked a _ b => t.load b + 6 + 3 * (staleLogAttempts - a)
  | .committing a _ b => t.load b + 5 + 3 * (staleLogAttempts - a)
  | .failed _ b => t.load b + 5
  | .waking b k => (t.load b - k) + 4
  | .recycling _ => 3
  | .handingOver => 2
  | .handing _ => 1

def work (t : Traced) : ℕ :=
  (t.callers.map t.weight).sum

/-- What callers of the combiner can rely on. -/
structure ServesOnce (t : Traced) : Prop where
  one_cycle : ∀ i j, (t.machine.pc i).inCycle = true → (t.machine.pc j).inCycle = true → i = j
  drained_once : t.drained.Nodup
  woken_once : ∀ i, t.woken i ≤ 1
  returned : ∀ i, t.machine.pc i = .returned →
    (t.woken i = if (t.machine.requests i).wake = none then 0 else 1) ∧ (t.machine.requests i).wake ≠ some 1 ∧
      ∃ c ∈ t.cycles, i ∈ c.members ∧ ∃ o, c.outcome = some o ∧ Reports (t.machine.requests i) (o.requests i)
  led : ∀ i, t.machine.pc i = .waiting → (t.machine.requests i).wake = some 0 → ∃ l, t.machine.leads l
  sound : ∀ c ∈ t.cycles, ∀ o, c.outcome = some o → o.Sound c.members t.submitted
  progress : (∃ i, t.machine.pc i ≠ .idle ∧ t.machine.pc i ≠ .returned) → ∃ a, a.isCall = false ∧ (t.step a).isSome
  bounded : ∀ a t', a.isCall = false → t.step a = some t' → t'.work < t.work

variable {t t' : Traced} {φ : Phase} {queue carried : List ℕ} {i : ℕ}

theorem At.leader_of_inCycle (h : t.At φ queue carried) (hi : (t.machine.pc i).inCycle = true) : φ.leader = some i := by
  refine h.leader_of_busy ⟨?_, ?_, ?_⟩ <;>
    · intro hpc
      exact absurd hi (by simp [hpc, Pc.inCycle])

theorem At.leads (h : t.At φ queue carried) (hφ : φ ≠ .standing) : ∃ l, t.machine.leads l := by
  have hphase := h.phase
  cases φ with
  | standing => exact absurd rfl hφ
  | handed next => exact ⟨next, .inr (.inr (.inr ⟨hphase.2.2.2.2.pc, hphase.2.2.2.2.lead⟩))⟩
  | handing l next => exact ⟨l, .inr (.inr (.inl ⟨next, hphase.2.2.2.2.1⟩))⟩
  | handingOver l => exact ⟨l, .inr (.inl hphase.2.2.2.2)⟩
  | recycling l =>
    obtain ⟨-, -, -, -, b, -, hpc⟩ := hphase
    exact ⟨l, .inl (hpc ▸ rfl)⟩
  | waking l =>
    obtain ⟨-, -, -, b, k, -, -, hpc⟩ := hphase
    exact ⟨l, .inl (hpc ▸ rfl)⟩
  | drained l =>
    obtain ⟨-, -, -, -, b, -, -, ⟨a, -, hpc | ⟨inc, hpc | hpc⟩⟩ | ⟨reason, hpc⟩⟩ := hphase <;>
      exact ⟨l, .inl (hpc ▸ rfl)⟩
  | undrained l =>
    obtain ⟨-, -, -, -, ⟨a, -, hpc | ⟨inc, hpc⟩⟩ | ⟨reason, hpc⟩⟩ := hphase <;>
      exact ⟨l, .inl (hpc ▸ rfl)⟩

theorem At.token_of_standing (h : t.At .standing queue carried) (hidle : t.machine.pc i ≠ .idle)
    (hreturned : t.machine.pc i ≠ .returned) : t.Waits i 1 false := by
  obtain ⟨-, rfl, rfl, -⟩ := h.phase
  have hd : i ∈ t.drained := by
    by_contra hd
    exact hidle (h.places.outside i (by simp) hd).1
  exact (h.places.done i hd (by simp) (by simp [Phase.leader])).resolve_right fun hdone =>
    hreturned hdone.1

theorem step_isSome {a : Action} (h : (t.machine.step a).isSome) : (t.step a).isSome := by
  rw [step, isSome_map]
  exact h

theorem Waits.receive {lead : Bool} (h : t.Waits i 1 lead) : (t.step (.receive i)).isSome := by
  refine step_isSome ?_
  simp only [Combiner.step, h.pc, h.wake]
  rfl

theorem Waits.signal {lead : Bool} (h : t.Waits i 0 lead) : (t.machine.signal i).isSome := by
  rw [Combiner.signal, h.wake]
  rfl

/-- The leader can always take its next step. -/
theorem At.progress_of_leader {l : ℕ} (h : t.At φ queue carried) (hl : φ.leader = some l) :
    ∃ a, a.isCall = false ∧ (t.step a).isSome := by
  have hphase := h.phase
  have hresolve : ∀ a b, t.machine.pc l = .resolving a b → (t.machine.step (.resolve l (.ok ""))).isSome := by
    intro a b hpc
    simp only [Combiner.step, hpc]
    rfl
  have hfail : ∀ reason b, t.machine.pc l = .failed reason b → (t.machine.step (.fail l)).isSome := by
    intro reason b hpc
    cases b <;> simp only [Combiner.step, hpc] <;> rfl
  have hdrain : ∀ a incarnation b, t.machine.pc l = .locked a incarnation b →
      (t.machine.step (.drain l)).isSome := by
    intro a incarnation b hpc
    cases b <;> simp only [Combiner.step, hpc] <;> rfl
  cases φ with
  | standing | handed => exact absurd hl (by simp [Phase.leader])
  | undrained l' =>
    cases hl
    obtain ⟨-, -, -, -, ⟨a, -, hpc | ⟨inc, hpc⟩⟩ | ⟨reason, hpc⟩⟩ := hphase
    · exact ⟨.resolve l (.ok ""), rfl, step_isSome (hresolve _ _ hpc)⟩
    · exact ⟨.drain l, rfl, step_isSome (hdrain _ _ _ hpc)⟩
    · exact ⟨.fail l, rfl, step_isSome (hfail _ _ hpc)⟩
  | drained l' =>
    cases hl
    obtain ⟨-, -, -, -, b, -, -, ⟨a, -, hpc | ⟨inc, hpc | hpc⟩⟩ | ⟨reason, hpc⟩⟩ := hphase
    · exact ⟨.resolve l (.ok ""), rfl, step_isSome (hresolve _ _ hpc)⟩
    · exact ⟨.drain l, rfl, step_isSome (hdrain _ _ _ hpc)⟩
    · refine ⟨.commit l ⟨true, false, true, fun _ => none, .ok "", none, none, ⟨0, []⟩⟩ ⟨0, []⟩, rfl, step_isSome ?_⟩
      simp only [Combiner.step, hpc]
      rfl
    · exact ⟨.fail l, rfl, step_isSome (hfail _ _ hpc)⟩
  | waking l' =>
    cases hl
    obtain ⟨-, -, -, b, k, -, hread, hpc⟩ := hphase
    refine ⟨.wake l, rfl, step_isSome ?_⟩
    simp only [Combiner.step, hpc]
    rw [show (t.machine.arrays.read (some b))[k]? = (carried.map some)[0]? by
      rw [← hread, getElem?_drop, add_zero]]
    cases carried with
    | nil => rfl
    | cons r rest =>
      simp only [map_cons, getElem?_cons_zero]
      by_cases hr : r = l
      · rw [if_pos hr]
        rfl
      have hwaits := h.places.waits r (.head _) fun heq => hr (some.inj heq).symm
      rw [if_neg hr, isSome_map]
      exact hwaits.signal
  | recycling l' =>
    cases hl
    obtain ⟨-, -, -, -, b, -, hpc⟩ := hphase
    refine ⟨.recycle l, rfl, step_isSome ?_⟩
    simp only [Combiner.step, hpc]
    rfl
  | handingOver l' =>
    cases hl
    refine ⟨.handOver l, rfl, step_isSome ?_⟩
    simp only [Combiner.step, hphase.2.2.2.2, h.slices.read]
    cases queue <;> rfl
  | handing l' next =>
    cases hl
    refine ⟨.send l, rfl, step_isSome ?_⟩
    simp only [Combiner.step, hphase.2.2.2.2.1]
    rw [isSome_map]
    exact hphase.2.2.2.2.2.2.signal

theorem At.progress (h : t.At φ queue carried) (hidle : t.machine.pc i ≠ .idle)
    (hreturned : t.machine.pc i ≠ .returned) : ∃ a, a.isCall = false ∧ (t.step a).isSome := by
  cases φ with
  | standing => exact ⟨.receive i, rfl, (h.token_of_standing hidle hreturned).receive⟩
  | handed next => exact ⟨.receive next, rfl, h.phase.2.2.2.2.receive⟩
  | undrained | drained | waking | recycling | handingOver | handing => exact h.progress_of_leader rfl

theorem work_lt (hcallers : t'.callers = t.callers) (hi : i ∈ t.callers)
    (hle : ∀ j, t'.weight j ≤ t.weight j) (hlt : t'.weight i < t.weight i) : t'.work < t.work := by
  unfold work
  rw [hcallers]
  exact sum_lt_sum _ _ (fun j _ => hle j) ⟨i, hi, hlt⟩

section

variable (h : t.At φ queue carried)
include h

/-- Whoever does not lead has no more to do than before. -/
theorem At.weight_le (hcallers : t'.callers = t.callers)
    (hl : φ.leader ≠ some i) (hpc : t'.machine.pc i = t.machine.pc i)
    (hwake : (t'.machine.requests i).wake = (t.machine.requests i).wake ∨
      (t'.machine.requests i).wake = some 1) : t'.weight i ≤ t.weight i := by
  have hcases : t.machine.pc i = .idle ∨ t.machine.pc i = .waiting ∨ t.machine.pc i = .returned := by
    by_contra hnot
    rw [not_or, not_or] at hnot
    exact hl (h.leader_of_busy hnot)
  unfold weight
  rcases hcases with hold | hold | hold <;> rw [hpc, hold]
  simp only [hcallers]
  rcases hwake with hwake | hwake
  · rw [hwake]
  · rw [hwake, if_pos rfl]
    split <;> omega

/-- A step of the leader that lowers its own weight lowers the work. -/
theorem At.work_lt {l : ℕ} {p : Pc} (hl : φ.leader = some l)
    (hcallers : t'.callers = t.callers) (hpc : t'.machine.pc = Function.update t.machine.pc l p)
    (hwake : ∀ i, i ≠ l → (t'.machine.requests i).wake = (t.machine.requests i).wake ∨
      (t'.machine.requests i).wake = some 1) (hlt : t'.weight l < t.weight l) : t'.work < t.work := by
  refine Traced.work_lt hcallers ((h.places.callers l).mpr (h.leader_mem hl)) (fun i => ?_) hlt
  by_cases hi : i = l
  · exact hi ▸ hlt.le
  · refine h.weight_le hcallers (fun heq => hi (some.inj (heq.symm.trans hl))) ?_ (hwake i hi)
    rw [hpc, update_of_ne hi]

theorem At.receive_lt (hstep : t.step (.receive i) = some t') : t'.work < t.work := by
  obtain ⟨s, hs, rfl⟩ := step_eq_some hstep
  simp only [Combiner.step] at hs
  split at hs <;> cases hs
  next hpc hwake =>
    have hmem : i ∈ t.callers := by
      rw [h.places.callers]
      by_contra hnot
      rw [not_or] at hnot
      exact absurd (hpc.symm.trans (h.idle_iff.mpr hnot)) (by simp)
    set t' : Traced := ⟨_, _, _, _, _⟩
    have hpc' : t'.machine.pc i = if (t.machine.requests i).lead then .resolving 1 none else .returned :=
      update_self ..
    have hlt : t'.weight i < t.weight i := by
      unfold weight
      rw [hpc', hpc]
      cases (t.machine.requests i).lead with
      | true =>
        simp only [if_true, hwake]
        exact Nat.add_lt_add_left (show 7 + 3 * (3 - 1) < 14 by decide) _
      | false =>
        rw [if_pos hwake]
        change 0 < t.callers.length + 14
        omega
    refine Traced.work_lt rfl hmem (fun j => ?_) hlt
    by_cases hj : j = i
    · exact hj ▸ hlt.le
    have hsame : t'.machine.requests j = t.machine.requests j := update_of_ne hj _ _
    have hpcj : t'.machine.pc j = t.machine.pc j := update_of_ne hj _ _
    unfold weight
    rw [hsame, hpcj]
    exact le_rfl

theorem At.resolve_lt {answer : Except String String}
    (hstep : t.step (.resolve i answer) = some t') : t'.work < t.work := by
  obtain ⟨s, hs, rfl⟩ := step_eq_some hstep
  simp only [Combiner.step] at hs
  split at hs
  next attempt batch hpc =>
    have hl := h.leader_of_inCycle (by rw [hpc]; rfl)
    cases answer with
    | ok incarnation =>
      cases hs
      refine h.work_lt hl rfl rfl (fun _ _ => .inl rfl) ?_
      simp only [weight, hpc, Combiner.goto, update_self]
      exact Nat.add_lt_add_right (Nat.add_lt_add_left (by decide) _) _
    | error reason =>
      cases hs
      refine h.work_lt hl rfl rfl (fun _ _ => .inl rfl) ?_
      simp only [weight, hpc, Combiner.goto, update_self]
      exact Nat.lt_add_right _ (Nat.add_lt_add_left (by decide) _)
  · cases hs

theorem At.load_queue_le : (t.machine.arrays.read t.machine.queue).length ≤ t.callers.length := by
  rw [h.slices.read, length_map]
  refine (subperm_of_subset (nodup_append.mp h.places.nodup).1 fun i hi => ?_).length_le
  exact (h.places.callers i).mpr (.inl hi)

theorem At.drain_lt (hstep : t.step (.drain i) = some t') : t'.work < t.work := by
  obtain ⟨s, hs, rfl⟩ := step_eq_some hstep
  simp only [Combiner.step] at hs
  split at hs
  next attempt incarnation hpc =>
    cases hs
    cases h.phase_eq hpc (by simp)
    obtain ⟨b, hb⟩ := h.queue_eq_some
    have hload := h.load_queue_le
    rw [hb] at hload
    refine h.work_lt rfl rfl rfl (fun _ _ => .inl rfl) ?_
    simp only [weight, hpc, Combiner.goto, update_self, hb]
    refine Nat.add_lt_add_right (Nat.add_lt_add_of_le_of_lt hload (by decide)) _
  next attempt incarnation b hpc =>
    cases hs
    have hl := h.leader_of_inCycle (by rw [hpc]; rfl)
    refine h.work_lt hl rfl rfl (fun _ _ => .inl rfl) ?_
    simp only [weight, hpc, Combiner.goto, update_self]
    exact Nat.add_lt_add_right (Nat.add_lt_add_left (by decide) _) _
  · cases hs

theorem At.fail_lt (hstep : t.step (.fail i) = some t') : t'.work < t.work := by
  obtain ⟨s, hs, rfl⟩ := step_eq_some hstep
  simp only [Combiner.step] at hs
  have hwake : ∀ (s : Combiner) reason b j, ((s.fail i reason b).requests j).wake = (s.requests j).wake := by
    intro s reason b j
    simp only [Combiner.fail, Combiner.goto]
    rw [setErrors_same j]
  split at hs
  next reason hpc =>
    cases hs
    cases h.phase_eq hpc (by simp)
    obtain ⟨b, hb⟩ := h.queue_eq_some
    have hload := h.load_queue_le
    rw [hb] at hload
    refine h.work_lt rfl rfl rfl (fun j _ => .inl (hwake _ _ _ j)) ?_
    simp only [weight, hpc, Combiner.fail, Combiner.goto, update_self, hb]
    exact add_lt_add_of_le_of_lt hload (by decide)
  next reason b hpc =>
    cases hs
    have hl := h.leader_of_inCycle (by rw [hpc]; rfl)
    refine h.work_lt hl rfl rfl (fun j _ => .inl (hwake _ _ _ j)) ?_
    simp only [weight, hpc, Combiner.fail, Combiner.goto, update_self]
    exact Nat.add_lt_add_left (by decide) _
  · cases hs

theorem At.commit_lt {e : CycleEnv} {log : OffsetMap Bytes}
    (hstep : t.step (.commit i e log) = some t') : t'.work < t.work := by
  obtain ⟨s, hs, rfl⟩ := step_eq_some hstep
  simp only [Combiner.step] at hs
  split at hs
  next attempt incarnation batch hpc =>
    have hφ := h.phase_eq hpc (by simp)
    cases batch with
    | none => exact absurd hφ (by simp [phaseAt])
    | some b =>
    cases hφ
    cases hs
    obtain ⟨-, -, -, -, b', hhand, hread,
      ⟨a, ha, hpc' | ⟨inc, hpc' | hpc'⟩⟩ | ⟨reason', hpc'⟩⟩ := h.phase <;> cases hpc.symm.trans hpc'
    obtain ⟨hperm, hsettled, hstale⟩ := h.commitResult_spec attempt incarnation e log hread
    generalize t.machine.commitResult attempt incarnation (some b) e log = r at *
    have hload : ((t.machine.arrays.store (some b) (r.batch.map some)).read (some b)).length =
        (t.machine.arrays.read (some b)).length := by
      have hlen : (r.batch.map some).length = (t.machine.arrays.read (some b)).length := by
        rw [hread, length_map, length_map, hperm.length_eq]
      rw [Arrays.read_store hhand.valid hlen, hlen]
    refine h.work_lt rfl rfl rfl (fun j _ => .inl ?_) ?_
    · cases hdone : r.done with
      | true => exact ((hsettled hdone).same j).wake
      | false =>
        obtain ⟨-, rfl⟩ := hstale hdone
        rfl
    · simp only [weight, hpc, Combiner.commit, Combiner.goto, update_self]
      cases hdone : r.done with
      | true =>
        simp only [if_true, load, hload]
        omega
      | false =>
        have hattempt : attempt ≠ staleLogAttempts := by simpa using (hstale hdone).1
        change ((t.machine.arrays.store (some b) (r.batch.map some)).read (some b)).length + 7 +
          3 * (staleLogAttempts - (attempt + 1)) <
            (t.machine.arrays.read (some b)).length + 5 + 3 * (staleLogAttempts - attempt)
        omega
  · cases hs

end

theorem signal_wake {s s' : Combiner} {r : ℕ} (h : s.signal r = some s') (j : ℕ) :
    (s'.requests j).wake = (s.requests j).wake ∨ (s'.requests j).wake = some 1 := by
  obtain ⟨-, rfl⟩ := signal_eq_some h
  by_cases hj : j = r
  · subst hj
    exact .inr (congrArg CommitRequest.wake (update_self j _ s.requests))
  · exact .inl (congrArg CommitRequest.wake (update_of_ne hj _ s.requests))

section

variable (h : t.At φ queue carried)
include h

theorem At.wake_lt (hstep : t.step (.wake i) = some t') : t'.work < t.work := by
  obtain ⟨s, hs, rfl⟩ := step_eq_some hstep
  simp only [Combiner.step] at hs
  split at hs
  next batch k hpc =>
    cases h.phase_eq hpc (by simp)
    obtain ⟨-, -, -, b, k', -, -, hpc'⟩ := h.phase
    cases hpc.symm.trans hpc'
    split at hs
    · cases hs
      refine h.work_lt rfl rfl rfl (fun _ _ => .inl rfl) ?_
      simp only [weight, hpc, Combiner.goto, update_self]
      omega
    · cases hs
    next r hr =>
      have hlt := (List.getElem?_eq_some_iff.mp hr).1
      split at hs
      · cases hs
        refine h.work_lt rfl rfl rfl (fun _ _ => .inl rfl) ?_
        simp only [weight, hpc, Combiner.goto, update_self]
        exact Nat.add_lt_add_right (by simp only [load]; omega) _
      obtain ⟨s', hsignal, rfl⟩ := map_eq_some_iff.mp hs
      refine h.work_lt rfl rfl (by rw [(signal_eq_some hsignal).2]; rfl) (fun j _ => signal_wake hsignal j) ?_
      rw [(signal_eq_some hsignal).2]
      simp only [weight, hpc, Combiner.goto, update_self]
      exact Nat.add_lt_add_right (by simp only [load, Combiner.setRequest]; omega) _
  · cases hs

theorem At.recycle_lt (hstep : t.step (.recycle i) = some t') : t'.work < t.work := by
  obtain ⟨s, hs, rfl⟩ := step_eq_some hstep
  simp only [Combiner.step] at hs
  split at hs <;> cases hs
  next batch hpc =>
    refine h.work_lt (h.leader_of_inCycle (hpc ▸ rfl)) rfl rfl (fun _ _ => .inl rfl) ?_
    simp only [weight, hpc, Combiner.goto, update_self]
    decide

theorem At.handOver_lt (hstep : t.step (.handOver i) = some t') : t'.work < t.work := by
  obtain ⟨s, hs, rfl⟩ := step_eq_some hstep
  simp only [Combiner.step] at hs
  split at hs
  next hpc =>
    have hl : φ.leader = some i := h.leader_of_busy (by simp [hpc])
    split at hs
    · cases hs
      refine h.work_lt hl rfl rfl (fun _ _ => .inl rfl) ?_
      simp only [weight, hpc, Combiner.goto, update_self]
      decide
    · cases hs
    next next _ =>
      cases hs
      refine h.work_lt hl rfl rfl (fun j _ => .inl ?_) ?_
      · simp only [Combiner.goto, Combiner.setRequest, update_apply]
        split
        · rw [‹j = next›]
        · rfl
      · simp only [weight, hpc, Combiner.goto, update_self]
        decide
  · cases hs

theorem At.send_lt (hstep : t.step (.send i) = some t') : t'.work < t.work := by
  obtain ⟨s, hs, rfl⟩ := step_eq_some hstep
  simp only [Combiner.step] at hs
  split at hs
  next next hpc =>
    have hl : φ.leader = some i := h.leader_of_busy (by simp [hpc])
    obtain ⟨s', hsignal, rfl⟩ := map_eq_some_iff.mp hs
    refine h.work_lt hl rfl (by rw [(signal_eq_some hsignal).2]; rfl) (fun j _ => signal_wake hsignal j) ?_
    simp only [weight, hpc, Combiner.goto, update_self]
    decide
  · cases hs

theorem At.lowers {a : Action} (hcall : a.isCall = false) (hstep : t.step a = some t') : t'.work < t.work := by
  cases a with
  | enqueue i incarnation payloads committedAt grow => exact absurd hcall (by simp [Action.isCall])
  | receive i => exact h.receive_lt hstep
  | resolve i answer => exact h.resolve_lt hstep
  | drain i => exact h.drain_lt hstep
  | commit i e log => exact h.commit_lt hstep
  | fail i => exact h.fail_lt hstep
  | wake i => exact h.wake_lt hstep
  | recycle i => exact h.recycle_lt hstep
  | handOver i => exact h.handOver_lt hstep
  | send i => exact h.send_lt hstep

end

section

variable (h : t.At φ queue carried)
include h

/-- The cycle of a request that is no longer carried has ended. -/
theorem At.outcome_ne_none {c : Cycle} (hc : c ∈ t.cycles)
    (hi : i ∈ c.members) (hcarried : i ∉ carried) : c.outcome ≠ none := by
  have hphase := h.phase
  cases φ with
  | drained l =>
    obtain ⟨-, -, -, ⟨cycles, hcycles, hsettled⟩, -⟩ := hphase
    rw [hcycles] at hc
    rcases mem_cons.mp hc with rfl | hc
    · exact absurd hi hcarried
    · exact hsettled c hc
  | standing => exact hphase.2.2.2 c hc
  | undrained | recycling | handingOver | handing => exact hphase.2.2.2.1 c hc
  | waking | handed => exact hphase.2.2.1 c hc

theorem At.over_or_unwoken (i : ℕ) : t.Over i ∨ t.woken i = 0 := by
  by_cases hl : φ.leader = some i
  · exact .inl (h.places.leading i hl)
  obtain ⟨-, token, hw⟩ | hw | ⟨-, -, hw | hdone⟩ | ⟨-, -, -, hzero⟩ := h.place hl
  · exact .inr hw.woken
  · exact .inr hw.woken
  · exact .inr hw.woken
  · exact .inl hdone.2
  · exact .inr hzero

theorem At.returned (hpc : t.machine.pc i = .returned) : i ∈ t.drained ∧ i ∉ carried ∧ t.Over i := by
  obtain ⟨-, token, hw⟩ | hw | ⟨hd, hc, hw | hdone⟩ | ⟨-, -, hidle, -⟩ :=
    h.place fun hl => (h.leader_busy hl).2.2 hpc
  · exact absurd (hpc.symm.trans hw.pc) (by simp)
  · exact absurd (hpc.symm.trans hw.pc) (by simp)
  · exact absurd (hpc.symm.trans hw.pc) (by simp)
  · exact ⟨hd, hc, hdone.2⟩
  · exact absurd (hpc.symm.trans hidle) (by simp)

theorem At.servesOnce : t.ServesOnce where
  one_cycle i j hi hj := some.inj ((h.leader_of_inCycle hi).symm.trans (h.leader_of_inCycle hj))
  drained_once := (nodup_append.mp h.places.nodup).2.1
  woken_once i := by
    rcases h.over_or_unwoken i with (hover | hover) | hzero <;> omega
  returned i hpc := by
    obtain ⟨hd, hcarried, hover⟩ := h.returned hpc
    obtain ⟨c, hc, hi⟩ := mem_flatMap.mp hd
    obtain ⟨o, ho⟩ := ne_none_iff_exists'.mp (h.outcome_ne_none hc hi hcarried)
    refine ⟨?_, ?_, c, hc, hi, o, ho, h.written.reports c hc o ho i hi⟩
    · rcases hover with ⟨hwake, hwoken⟩ | ⟨hwake, hwoken⟩ <;> simp [hwake, hwoken]
    · rcases hover with ⟨hwake, -⟩ | ⟨hwake, -⟩ <;> simp [hwake]
  led i hpc hwake := by
    refine h.leads fun hstanding => ?_
    subst hstanding
    have hwaits := h.token_of_standing (by simp [hpc]) (by simp [hpc] : t.machine.pc i ≠ .returned)
    exact absurd (hwake.symm.trans hwaits.wake) (by simp)
  sound := h.written.sound
  progress hcall := by
    obtain ⟨i, hidle, hreturned⟩ := hcall
    exact h.progress hidle hreturned
  bounded _ _ := h.lowers

end

end Traced

/-- In every state that any interleaving of calls reaches, every caller is served once. -/
theorem groupCommit_serves_once {actions : List Action} {t : Traced}
    (hrun : Traced.new.run actions = some t) : t.ServesOnce := by
  obtain ⟨φ, queue, carried, h⟩ := Traced.new_ok.run hrun
  exact h.servesOnce

/-- Three overlapping calls: the first commits alone, the second leads a cycle for the third. -/
def threeCalls : List Action :=
  let e : CycleEnv := ⟨true, false, true, fun _ => none, .ok "", none, none, ⟨0, []⟩⟩
  [.enqueue 0 "" [[1]] 5 true, .resolve 0 (.ok ""), .drain 0, .enqueue 1 "" [[2], [3]] 7 true,
    .enqueue 2 "" [[4]] 6 true, .commit 0 e ⟨0, []⟩, .wake 0, .wake 0, .recycle 0, .handOver 0, .send 0,
    .receive 1, .resolve 1 (.ok ""), .drain 1, .commit 1 e ⟨0, [[1]]⟩, .wake 1, .wake 1, .wake 1,
    .recycle 1, .handOver 1, .receive 2]

theorem threeCalls_served : ((Traced.new.run threeCalls).get (by decide +kernel)).ServesOnce ∧
      ((Traced.new.run threeCalls).get (by decide +kernel)).machine.pc 2 = .returned :=
  ⟨groupCommit_serves_once (some_get (x := Traced.new.run threeCalls) (by decide +kernel)).symm,
    by decide +kernel⟩

end Narad.Messaging
