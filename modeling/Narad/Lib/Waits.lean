import Mathlib.Data.Finset.Max

/-!
# Waiting for locks

Threads hold locks and wait for locks. When a thread only ever waits for a lock that ranks above every
lock it holds, no threads wait for each other in a circle: in every finite set of threads one does not
wait for a lock that another of the set holds.
-/

namespace Narad.Lib

variable {T L α : Type*}

/-- Each thread of the set waits for a lock that one of the set holds. -/
def CircularWait (waits : T → Option L) (holder : L → Option T) (threads : Finset T) : Prop :=
  threads.Nonempty ∧ ∀ t ∈ threads, ∃ l, waits t = some l ∧ ∃ u ∈ threads, holder l = some u

theorem no_circular_wait [LinearOrder α] {waits : T → Option L} {holder : L → Option T} (rank : L → α)
    (hrank : ∀ u l l', holder l = some u → waits u = some l' → rank l < rank l') (threads : Finset T) :
    ¬CircularWait waits holder threads := by
  rintro ⟨hne, hall⟩
  -- of the locks waited for, one with the highest rank
  let wanted : T → WithBot α := fun t => (waits t).map rank
  obtain ⟨t, ht, hmax⟩ := threads.exists_max_image wanted hne
  obtain ⟨l, hl, u, hu, hheld⟩ := hall t ht
  obtain ⟨l', hl', -⟩ := hall u hu
  have hle : (rank l' : WithBot α) ≤ rank l := by
    have := hmax u hu
    simp only [wanted, hl, hl', Option.map_some] at this
    exact this
  exact absurd (WithBot.coe_le_coe.mp hle) (not_le_of_gt (hrank u l l' hheld hl'))

end Narad.Lib
