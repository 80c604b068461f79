import Mathlib.Data.Set.Insert

/-!
# Items handed out under leases until they are resolved

A `Ledger` is the abstract state of at-least-once delivery: the set of items that are settled for
good, and for every other item the token of the lease it is handed out under, if any. A lease can
lapse at any moment; an unsettled item without a live lease can be leased; the holder of a live
lease can resolve its item; and a whole set of items can be written off at once.
-/

namespace Narad.Lib

variable {α ν : Type*}

/-- Settled items, and the token of each live lease. -/
@[ext]
structure Ledger (α ν : Type*) where
  resolved : Set α
  holder : α → Option ν

namespace Ledger

/-- What an operation made of the ledger, beyond letting leases lapse. -/
inductive Event (α ν : Type*) where
  | quiet
  | lease (a : α) (token : ν)
  | resolve (a : α) (token : ν)
  | writeOff (gone : Set α)

/-- `M` is `L` with some leases lapsed. -/
structure Lapsed (L M : Ledger α ν) : Prop where
  resolved : M.resolved = L.resolved
  holder : ∀ a token, M.holder a = some token → L.holder a = some token

/-- One step: leases lapse, then the event happens. -/
def Step (L : Ledger α ν) (event : Event α ν) (N : Ledger α ν) : Prop :=
  ∃ M, Lapsed L M ∧ match event with
    | .quiet => Lapsed M N
    | .lease a token => a ∉ M.resolved ∧ M.holder a = none ∧ N.resolved = M.resolved ∧
        ∀ b t, N.holder b = some t → (b = a ∧ t = token) ∨ M.holder b = some t
    | .resolve a token => M.holder a = some token ∧ N.resolved = insert a M.resolved ∧
        ∀ b t, N.holder b = some t → M.holder b = some t
    | .writeOff gone => N.resolved = M.resolved ∪ gone ∧ ∀ b t, N.holder b = some t → M.holder b = some t

/-- A finite run, with its events in order. -/
inductive Run : Ledger α ν → List (Event α ν) → Ledger α ν → Prop
  | nil (L) : Run L [] L
  | cons {L M N event events} : Step L event M → Run M events N → Run L (event :: events) N

variable {L N : Ledger α ν} {event : Event α ν}

theorem Step.resolved_subset (h : Step L event N) : L.resolved ⊆ N.resolved := by
  obtain ⟨M, hlapse, h⟩ := h
  rw [← hlapse.resolved]
  cases event with
  | quiet => exact h.resolved.ge
  | lease a token => exact h.2.2.1.ge
  | resolve a token => rw [h.2.1]; exact Set.subset_insert a _
  | writeOff gone => rw [h.1]; exact Set.subset_union_left

variable {events : List (Event α ν)}

/-- Settled items stay settled. -/
theorem Run.resolved_subset (h : Run L events N) : L.resolved ⊆ N.resolved := by
  induction h with
  | nil L => exact subset_rfl
  | cons hstep _ ih => exact hstep.resolved_subset.trans ih

variable {a : α} {token : ν}

/-- An item is never leased once it is settled. -/
theorem Step.not_mem_of_lease (h : Step L (.lease a token) N) : a ∉ L.resolved := by
  obtain ⟨M, hlapse, hfree, -⟩ := h
  rwa [← hlapse.resolved]

/-- An event settles an item only through the item's lease or a write-off that covers it. -/
theorem Step.resolved_cause (h : Step L event N) (ha : a ∈ N.resolved) :
    a ∈ L.resolved ∨ (∃ token, event = .resolve a token ∧ L.holder a = some token) ∨
      ∃ gone, event = .writeOff gone ∧ a ∈ gone := by
  obtain ⟨M, hlapse, h⟩ := h
  rw [← hlapse.resolved]
  cases event with
  | quiet => exact .inl (h.resolved ▸ ha)
  | lease b token => exact .inl (h.2.2.1 ▸ ha)
  | resolve b token =>
    rw [h.2.1] at ha
    rcases ha with rfl | ha
    · exact .inr (.inl ⟨token, rfl, hlapse.holder _ _ h.1⟩)
    · exact .inl ha
  | writeOff gone =>
    rw [h.1] at ha
    exact ha.imp_right fun ha => .inr ⟨gone, rfl, ha⟩

/-- Every lease that is live after a step was live before it or handed out by it. -/
theorem Step.holder_cause (h : Step L event N) (ha : N.holder a = some token) :
    L.holder a = some token ∨ event = .lease a token := by
  obtain ⟨M, hlapse, h⟩ := h
  cases event with
  | quiet => exact .inl (hlapse.holder _ _ (h.holder _ _ ha))
  | lease b t =>
    rcases h.2.2.2 a token ha with ⟨rfl, rfl⟩ | ha
    · exact .inr rfl
    · exact .inl (hlapse.holder _ _ ha)
  | resolve b t => exact .inl (hlapse.holder _ _ (h.2.2 a token ha))
  | writeOff gone => exact .inl (hlapse.holder _ _ (h.2 a token ha))

/-- Every lease that is live at the end of a run was live at its start or handed out in it. -/
theorem Run.holder_cause (h : Run L events N) (ha : N.holder a = some token) :
    L.holder a = some token ∨ Event.lease a token ∈ events := by
  induction h with
  | nil L => exact .inl ha
  | cons hstep _ ih =>
    rcases ih ha with hmid | hlater
    · rcases hstep.holder_cause hmid with hstart | rfl
      · exact .inl hstart
      · exact .inr (.head _)
    · exact .inr (.tail _ hlater)

end Ledger

end Narad.Lib
