import Narad.Security.Verify

/-!
# What a refused login rests on

A credential an entry remembers as rejected does not match the hash of its record, and a login is refused
only for a user that was missing, or a record that did not match, at some moment while the call ran. Both
need that a call finds its entry as it left it: a rejection that is settled on an entry refreshed with
another hash poisons it, and an entry evicted to make room is taken for a deleted user.
-/

namespace Narad.Security

open Narad.Lib Narad.Metastore List Option

variable {Token : Type} {cr : Crypto Token} {s s' : State Token}

/-- What an entry remembers as rejected does not match its record's hash. -/
def UserEntry.Rejects (cr : Crypto Token) (e : UserEntry Token) : Prop :=
  ∀ f ∈ e.failed, ∀ p, f.1 = cr.credToken p → cr.compareHashAndPassword e.record.passwordHash p = false

def Rejecting (cr : Crypto Token) (users : Dict (UserEntry Token)) : Prop :=
  ∀ username e, users.lookup username = some e → e.Rejects cr

theorem UserEntry.refresh_rejects {e : Option (UserEntry Token)} {version : ℕ} {rec : User}
    (he : ∀ e', e = some e' → e'.Rejects cr) : (UserEntry.refresh e version rec).Rejects cr := by
  intro f hf p hp
  show cr.compareHashAndPassword rec.passwordHash p = false
  unfold UserEntry.refresh at hf
  cases e with
  | none =>
    dsimp only [getD_none] at hf
    split at hf <;> simp at hf
  | some e' =>
    dsimp only [getD_some] at hf
    split at hf
    next hsame => rw [← hsame]; exact he e' rfl f hf p hp
    next => simp at hf

variable {users : Dict (UserEntry Token)} {e : UserEntry Token}

theorem Rejecting.insert (h : Rejecting cr users) {username : String} (he : e.Rejects cr) :
    Rejecting cr (users.insert username e) := by
  intro u e' hlookup
  rcases Dict.of_lookup_insert hlookup with ⟨-, rfl⟩ | ⟨-, hlookup⟩
  · exact he
  · exact h u e' hlookup

variable [DecidableEq Token]

theorem UserEntry.Rejects.denies (h : e.Rejects cr) {p : String} {now : ℤ}
    (hdenies : e.denies (cr.credToken p) now = true) : cr.compareHashAndPassword e.record.passwordHash p = false := by
  unfold UserEntry.denies at hdenies
  cases hlookup : e.failed.lookup (cr.credToken p) with
  | none => simp [hlookup] at hdenies
  | some at' =>
    obtain ⟨f, hf, hcred⟩ := lookup_isSome_iff.mp (isSome_iff_exists.mpr ⟨at', hlookup⟩)
    exact h f hf p (eq_of_beq hcred).symm

/-- A credential that did not match the hash of the entry's record. -/
theorem UserEntry.reject_rejects {e e' : UserEntry Token} {p : String} {now : ℤ} {oldest : Option Token}
    (he : e.Rejects cr) (hp : cr.compareHashAndPassword e.record.passwordHash p = false)
    (h : e.reject (cr.credToken p) now oldest = some e') : e'.Rejects cr := by
  have hkeep : ∀ (keep : Token × ℤ → Bool),
      UserEntry.Rejects cr { e with failed := (cr.credToken p, now) :: e.failed.filter keep } := by
    intro keep f hf q hq
    rcases mem_cons.mp hf with rfl | hf
    · rw [← cr.injective hq]
      exact hp
    · exact he f (mem_of_mem_filter hf) q hq
  unfold UserEntry.reject at h
  split at h
  · cases h
    exact hkeep _
  split at h
  · cases h
  split at h
  · cases h
    exact hkeep _
  · cases h

/-- What is rejected stays sound as long as a run that did not match is settled on an entry with the hash
it compared. -/
theorem Rejecting.advance (hrejecting : Rejecting cr s.users) {c : Call} (hc : c.Ok cr s) {o : Choice Token} {pc : Pc}
    (hstep : s.advance cr c o = some (users, pc))
    (hown : ∀ rec, c.pc = .settling rec false → ∀ e, s.users.lookup c.username = some e →
      e.record.passwordHash = rec.passwordHash) : Rejecting cr users := by
  unfold State.advance at hstep
  unfold Call.Ok at hc
  cases hpc : c.pc <;> simp only [hpc] at hc hstep
  case refreshing version rec =>
    obtain ⟨kept, hkept, heq⟩ := map_eq_some_iff.mp hstep
    have hsub : Rejecting cr kept := fun u e he => hrejecting u e (State.lookup_evictOneUser hkept he)
    cases heq
    exact hsub.insert (UserEntry.refresh_rejects (hsub c.username))
  case deleting =>
    cases hstep
    intro u e hlookup
    exact hrejecting u e (Dict.of_lookup_erase hlookup).2
  case settling rec ok =>
    split at hstep
    · cases hstep
      exact hrejecting
    next e he =>
      have hsame := hrejecting _ e he
      split at hstep
      · cases hstep
        refine hrejecting.insert ?_
        split <;> exact hsame
      next hok =>
        obtain ⟨e', he', heq⟩ := map_eq_some_iff.mp hstep
        cases heq
        have hno : ok = false := by simpa using hok
        have hhash := hown rec (by rw [hpc, hno]) e he
        exact hrejecting.insert (UserEntry.reject_rejects hsame (by rw [hhash, ← hc.2]; exact hno) he')
  all_goals
    repeat' split at hstep
    all_goals cases hstep <;> exact hrejecting

/-- A refused login had no record, or one that did not match, at some moment while it ran. -/
theorem State.Inv.advance_unauthorized (h : s.Inv cr) (hrejecting : Rejecting cr s.users) {c : Call}
    (hc : c.Ok cr s) {o : Choice Token} (hstep : s.advance cr c o = some (users, .returned .unauthorized))
    (hcached : ∀ rec, c.pc = .settling rec true → (s.users.lookup c.username).isSome) :
    ∃ m ∈ s.moments, c.start ≤ m.version ∧
      ∀ rec, m.records c.username = some rec → cr.compareHashAndPassword rec.passwordHash c.password = false := by
  have hwrong : ∀ {rec : User}, Held s.moments c.start c.username rec →
      cr.compareHashAndPassword rec.passwordHash c.password = false →
      ∃ m ∈ s.moments, c.start ≤ m.version ∧
        ∀ rec, m.records c.username = some rec → cr.compareHashAndPassword rec.passwordHash c.password = false := by
    rintro rec ⟨m, hm, hle, hrec⟩ hno
    refine ⟨m, hm, hle, fun rec' hrec' => ?_⟩
    rw [hrec, some_inj] at hrec'
    rw [← hrec']
    exact hno
  have hmissing : Missing s.moments c.start c.username → ∃ m ∈ s.moments, c.start ≤ m.version ∧
      ∀ rec, m.records c.username = some rec → cr.compareHashAndPassword rec.passwordHash c.password = false := by
    rintro ⟨m, hm, hle, hnone⟩
    exact ⟨m, hm, hle, fun rec hrec => by simp [hnone] at hrec⟩
  unfold State.advance at hstep
  unfold Call.Ok at hc
  cases hpc : c.pc <;> simp only [hpc] at hc hstep
  case fast version =>
    split at hstep
    · cases hstep
    next e he =>
      split at hstep
      · cases hstep
      split at hstep
      next hdenied =>
        have hheld := (h.entry _ e he).held
        rw [hdenied.1] at hheld
        exact hwrong (hheld.mono (fun _ hm => hm) hc.1) ((hrejecting _ e he).denies hdenied.2)
      next => cases hstep
  case refreshing version rec =>
    obtain ⟨kept, hkept, heq⟩ := map_eq_some_iff.mp hstep
    have hsub : Rejecting cr kept := fun u e he => hrejecting u e (State.lookup_evictOneUser hkept he)
    rw [Prod.mk.injEq] at heq
    obtain ⟨-, heq⟩ := heq
    split at heq
    · cases heq
    split at heq
    next hdenied =>
      have hno := (UserEntry.refresh_rejects (hsub c.username)).denies hdenied
      exact hwrong (hc.2.mono (fun _ hm => hm) hc.1) hno
    next => cases heq
  case settling rec ok =>
    split at hstep
    next hnone =>
      cases ok with
      | true =>
        have := hcached rec hpc
        simp [hnone] at this
      | false => exact hwrong hc.1 hc.2.symm
    next e he =>
      split at hstep
      · cases hstep
      next hok => exact hwrong hc.1 (by rw [← hc.2]; simpa using hok)
  case dropping => exact hmissing hc
  case deleting => exact hmissing hc
  case reading version =>
    split at hstep
    · cases hstep
    · split at hstep <;> cases hstep
  case comparing rec => split at hstep <;> cases hstep
  all_goals cases hstep

/-- A run that is settled finds the entry it was started from: it was not evicted, and a run that did not
match finds the hash it compared. -/
def State.ownEntry (s : State Token) : Label Token → Bool
  | .work index _ =>
    (s.calls[index]?).all fun c =>
      match c.pc with
      | .settling _ true => (s.users.lookup c.username).isSome
      | .settling rec false =>
        (s.users.lookup c.username).all fun e => e.record.passwordHash = rec.passwordHash
      | _ => true
  | _ => true

theorem Rejecting.step (h : s.Inv cr) (hrejecting : Rejecting cr s.users) {label : Label Token}
    (hown : s.ownEntry label = true) (hstep : s.step cr label = some s') : Rejecting cr s'.users := by
  cases label with
  | work index o =>
    obtain ⟨c, hc, hnext⟩ := bind_eq_some_iff.mp hstep
    obtain ⟨⟨users, pc⟩, hadvance, rfl⟩ := map_eq_some_iff.mp hnext
    refine hrejecting.advance (h.call c (mem_of_getElem? hc)) hadvance fun rec hpc e he => ?_
    simpa [State.ownEntry, hc, hpc, he] using hown
  | verify | tick =>
    cases hstep
    exact hrejecting
  | write | bump =>
    simp only [State.step] at hstep
    split at hstep <;> cases hstep
    exact hrejecting

/-- A login is refused as wrong only if, at some moment between the last bump completed before the call
began and its return, the user had no record or one whose hash the password does not match. -/
theorem refused_login_was_wrong {labels : List (Label Token)}
    (hclean : cleanRun (State.step cr) State.ownEntry {} labels = true)
    (hrun : runWith (State.step cr) {} labels = some s) {index : ℕ} {o : Choice Token} {c : Call}
    (hcall : s.calls[index]? = some c) (hown : s.ownEntry (.work index o) = true)
    (hstep : s.step cr (.work index o) = some s')
    (hreturned : (s'.calls[index]?).map Call.pc = some (.returned .unauthorized)) :
    ∃ m ∈ s'.moments, c.start ≤ m.version ∧ ∀ rec, m.records c.username = some rec →
      cr.compareHashAndPassword rec.passwordHash c.password = false := by
  obtain ⟨hmoments, hadvance⟩ := State.step_work hcall hstep hreturned
  obtain ⟨h, hrejecting⟩ : s.Inv cr ∧ Rejecting cr s.users :=
    run_induction (P := fun s => s.Inv cr ∧ Rejecting cr s.users)
      (fun _ _ _ hs hok hnext => ⟨hs.1.step hnext, hs.2.step hs.1 hok hnext⟩)
      ⟨State.Inv.init, by simp [Rejecting, Dict.lookup]⟩ hclean hrun
  rw [hmoments]
  refine h.advance_unauthorized hrejecting (h.call c (mem_of_getElem? hcall)) hadvance fun rec hpc => ?_
  simpa [State.ownEntry, hcall, hpc] using hown

/-- The account is created, and a call presents a wrong password. -/
def guessing : List (Label String) :=
  [Label.write "u" (some firstOwner), .bump, .verify "u" "q"] ++ refreshing 0 ++ [Label.work 0 {}]

def afterGuess : State String :=
  (runWith (State.step twoPasswords) {} guessing).get (by decide +kernel)

theorem guess_was_wrong : ∃ s', afterGuess.step twoPasswords (.work 0 {}) = some s' ∧ ∃ m ∈ s'.moments, 1 ≤ m.version ∧
      ∀ rec, m.records "u" = some rec → twoPasswords.compareHashAndPassword rec.passwordHash "q" = false := by
  have hrun := (some_get (x := runWith (State.step twoPasswords) {} guessing) (by decide +kernel)).symm
  have hcall : afterGuess.calls[0]? = some ⟨"u", "q", 1, .settling firstOwner false⟩ := by decide +kernel
  have hstep := (some_get (x := afterGuess.step twoPasswords (.work 0 {})) (by decide +kernel)).symm
  exact ⟨_, hstep, refused_login_was_wrong (by decide +kernel) hrun hcall (by decide +kernel) hstep
    (by decide +kernel)⟩

/-- The password is changed to the one a running call presents, and another call refreshes the entry. The
running call's rejection, of the old hash, is then remembered for the new one, and a later login with the
right password is refused: from the last bump before it began on, the stored hash matched. -/
theorem right_password_refused : (runWith (State.step twoPasswords) {} (guessing ++
        [Label.write "u" (some secondOwner), .bump, .verify "u" "p"] ++ refreshing 1 ++
        [Label.work 0 {}, .verify "u" "q", .work 2 {}, .work 2 {}])).map
      (fun s => (s.calls[2]?, s.store.version, s.store.records "u")) =
      some (some ⟨"u", "q", 2, .returned .unauthorized⟩, 2, some secondOwner) ∧
    twoPasswords.compareHashAndPassword secondOwner.passwordHash "q" = true := by
  decide +kernel

end Narad.Security
