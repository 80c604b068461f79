import Narad.Metastore.Records

/-!
# Delegating grants

A user may hand out only what they may do themselves. A grant's pattern is a literal name, or with a `*`
at its end a prefix; any other `*` stands for itself. `patternCovers` decides exactly whether one pattern
matches all that another does, and a delegation compares the patterns of each action one by one.
-/

namespace Narad.Security

open Narad.Metastore List

def actionAdmin : String := "admin"

/-- The pattern without its trailing star, if it has one. -/
def cutStar (pattern : String) : Option (List Char) :=
  if pattern.toList.getLast? = some '*' then some pattern.toList.dropLast else none

def matchPattern (pattern name : String) : Bool :=
  match cutStar pattern with
  | some start => start.isPrefixOf name.toList
  | none => pattern == name

def patternCovers (held want : String) : Bool :=
  match cutStar held with
  | some start => start.isPrefixOf ((cutStar want).getD want.toList)
  | none => held == want

variable (u : User)

def isAdmin : Bool :=
  u.root || u.grants.any fun g => g.action == actionAdmin

def allowed (action topicName : String) : Bool :=
  isAdmin u || u.grants.any fun g => g.action == action && g.patterns.any (matchPattern · topicName)

def allowedAny (topicName : String) : Bool :=
  isAdmin u || u.grants.any fun g => g.patterns.any (matchPattern · topicName)

def patternCovered (granted : List Grant) (action requested : String) : Bool :=
  granted.any fun g => g.action == action && g.patterns.any (patternCovers · requested)

def covers (granted requested : List Grant) : Bool :=
  isAdmin ⟨"", [], granted, false, 0, 0⟩ || requested.all fun want =>
    want.action != actionAdmin && want.patterns.all (patternCovered granted want.action)

def canDelegate (requested : List Grant) : Bool :=
  if requested.any fun g => g.action == actionAdmin && !u.root then false
  else isAdmin u || covers u.grants requested

variable {pattern name : String} {start : List Char}

theorem matchPattern_of_star (h : cutStar pattern = some start) :
    matchPattern pattern name ↔ start <+: name.toList := by
  rw [matchPattern, h, isPrefixOf_iff_prefix]

theorem matchPattern_of_literal (h : cutStar pattern = none) : matchPattern pattern name ↔ pattern = name := by
  rw [matchPattern, h, beq_iff_eq]

/-- Two names under a prefix are never one literal. -/
theorem not_forall_eq (start : List Char) : ¬∀ name : String, start <+: name.toList → pattern = name := by
  intro h
  have hself := h (String.ofList start) (by simp)
  have hlonger := h (String.ofList (start ++ ['*'])) (by simp)
  have hlist := congrArg String.toList (hself.symm.trans hlonger)
  rw [String.toList_ofList, String.toList_ofList] at hlist
  simp at hlist

theorem patternCovers_iff (held want : String) :
    patternCovers held want ↔ ∀ name, matchPattern want name → matchPattern held name := by
  cases hheld : cutStar held with
  | some start =>
    simp only [patternCovers, hheld, isPrefixOf_iff_prefix, matchPattern_of_star hheld]
    cases hwant : cutStar want with
    | some wanted =>
      simp only [Option.getD_some, matchPattern_of_star hwant]
      constructor
      · intro h name hname
        exact h.trans hname
      · intro h
        simpa using h (String.ofList wanted) (by simp)
    | none => simp [matchPattern_of_literal hwant]
  | none =>
    simp only [patternCovers, hheld, beq_iff_eq, matchPattern_of_literal hheld]
    cases hwant : cutStar want with
    | some wanted =>
      simp only [matchPattern_of_star hwant, not_forall_eq, iff_false]
      rintro rfl
      cases hheld.symm.trans hwant
    | none =>
      simp only [matchPattern_of_literal hwant]
      exact ⟨fun h name hname => h.trans hname, fun h => h want rfl⟩

variable {u v : User}

theorem allowed_iff {action : String} : allowed u action name ↔
    isAdmin u ∨ ∃ g ∈ u.grants, g.action = action ∧ ∃ p ∈ g.patterns, matchPattern p name := by
  simp [allowed]

theorem allowedAny_iff : allowedAny u name ↔ isAdmin u ∨ ∃ g ∈ u.grants, ∃ p ∈ g.patterns, matchPattern p name := by
  simp [allowedAny]

/-- What a pattern handed out matches, one of the delegating user matches for the same action. -/
theorem matched_of_canDelegate {g : Grant} {p : String} (h : canDelegate u v.grants) (hg : g ∈ v.grants)
    (hp : p ∈ g.patterns) (hname : matchPattern p name) :
    isAdmin u ∨ ∃ held ∈ u.grants, held.action = g.action ∧ ∃ q ∈ held.patterns, matchPattern q name := by
  unfold canDelegate at h
  split at h
  · cases h
  rcases Bool.or_eq_true_iff.mp h with hadmin | hcovers
  · exact .inl hadmin
  rcases Bool.or_eq_true_iff.mp hcovers with hadmin | hall
  · exact .inl (Bool.or_eq_true_iff.mpr (.inr hadmin))
  have hcovered := all_eq_true.mp (Bool.and_eq_true_iff.mp (all_eq_true.mp hall g hg)).2 p hp
  obtain ⟨held, hheld, hboth⟩ := any_eq_true.mp hcovered
  obtain ⟨haction, hany⟩ := Bool.and_eq_true_iff.mp hboth
  obtain ⟨q, hq, hqp⟩ := any_eq_true.mp hany
  exact .inr ⟨held, hheld, beq_iff_eq.mp haction, q, hq, (patternCovers_iff q p).mp hqp name hname⟩

theorem not_isAdmin_of_canDelegate (h : canDelegate u v.grants) (hu : u.root = false) (hv : v.root = false) :
    ¬isAdmin v := by
  unfold canDelegate at h
  split at h
  · cases h
  next hany => simpa [isAdmin, hu, hv] using hany

theorem delegation_never_escalates (u v : User) (hu : u.root = false) (hv : v.root = false) :
    (canDelegate u v.grants → (∀ action name, allowed v action name → allowed u action name) ∧
      (∀ name, allowedAny v name → allowedAny u name) ∧ ¬isAdmin v) ∧
    ∀ held want, patternCovers held want ↔ ∀ name, matchPattern want name → matchPattern held name := by
  refine ⟨fun h => ?_, patternCovers_iff⟩
  have hadmin := not_isAdmin_of_canDelegate h hu hv
  refine ⟨fun action name hallowed => ?_, fun name hallowed => ?_, hadmin⟩
  · obtain ⟨g, hg, rfl, p, hp, hname⟩ := (allowed_iff.mp hallowed).resolve_left hadmin
    exact allowed_iff.mpr (matched_of_canDelegate h hg hp hname)
  · obtain ⟨g, hg, p, hp, hname⟩ := (allowedAny_iff.mp hallowed).resolve_left hadmin
    obtain h | ⟨held, hheld, -, hq⟩ := matched_of_canDelegate h hg hp hname
    · exact allowedAny_iff.mpr (.inl h)
    · exact allowedAny_iff.mpr (.inr ⟨held, hheld, hq⟩)

/-- A producer hands out part of their names. -/
theorem narrower_grant_delegated : let ada : User := ⟨"ada", [], [⟨"produce", ["orders-*"]⟩], false, 0, 0⟩
    let bob : User := ⟨"bob", [], [⟨"produce", ["orders-eu-*", "orders-us"]⟩], false, 0, 0⟩
    canDelegate ada bob.grants ∧ ∀ action name, allowed bob action name → allowed ada action name :=
  ⟨by decide +kernel, ((delegation_never_escalates _ _ rfl rfl).1 (by decide +kernel)).1⟩

end Narad.Security
