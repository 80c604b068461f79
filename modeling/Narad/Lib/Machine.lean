import Mathlib.Init

/-!
# Runs of a machine

A machine is a partial step function on states and events. A run takes its events in order; it is
clean when every event meets a condition at the state it is taken from. What one clean step keeps, a
clean run keeps.
-/

namespace Narad.Lib

variable {S E : Type*}

/-- The state after the events, if each of them can be taken. -/
def runWith (step : S → E → Option S) : S → List E → Option S
  | s, [] => some s
  | s, e :: es => (step s e).bind fun s' => runWith step s' es

/-- Every event meets the condition at the state it is taken from. -/
def cleanRun (step : S → E → Option S) (ok : S → E → Bool) : S → List E → Bool
  | _, [] => true
  | s, e :: es => ok s e && (step s e).all fun s' => cleanRun step ok s' es

variable {step : S → E → Option S} {ok : S → E → Bool} {s s' : S} {es : List E}

theorem run_induction {P : S → Prop} (hstep : ∀ s e s', P s → ok s e = true → step s e = some s' → P s') (hs : P s)
    (hclean : cleanRun step ok s es = true) (hrun : runWith step s es = some s') : P s' := by
  induction es generalizing s with
  | nil =>
    obtain rfl : s = s' := Option.some.inj hrun
    exact hs
  | cons e es ih =>
    rw [runWith, Option.bind_eq_some_iff] at hrun
    obtain ⟨t, ht, hrest⟩ := hrun
    rw [cleanRun, ht, Option.all_some, Bool.and_eq_true] at hclean
    exact ih (hstep s e t hs hclean.1 ht) hclean.2 hrest

/-- Without a condition every run is clean. -/
theorem cleanRun_true (s : S) (es : List E) : cleanRun step (fun _ _ => true) s es = true := by
  induction es generalizing s with
  | nil => rfl
  | cons e es ih =>
    rw [cleanRun, Bool.true_and]
    cases step s e with
    | none => rfl
    | some t => exact ih t

end Narad.Lib
