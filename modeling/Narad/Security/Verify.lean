import Narad.Security.Authenticator

/-!
# What a login's answer rests on

A cached record was in the store at a moment not before the bump to the entry's version, and what is
remembered as verified matches its hash. A login that succeeds therefore answers for one record there was
while the call ran, with one exception: after its bcrypt run a call returns the identity of the entry as it
finds it, and another call may have refreshed it with another record meanwhile. The counterexample hands the
identity of a user created anew under the name to a call that presents the password of the deleted one.
-/

namespace Narad.Security

open Narad.Lib Narad.Metastore List Option

variable {Token : Type} (cr : Crypto Token) {username : String}

variable (moments : List Store)

/-- The record was the user's at some moment not before the bump to the version. -/
def Held (version : ℕ) (username : String) (rec : User) : Prop :=
  ∃ m ∈ moments, version ≤ m.version ∧ m.records username = some rec

theorem Held.mono {moments moments' : List Store} {version version' : ℕ} {rec : User}
    (h : Held moments version username rec) (hsub : moments ⊆ moments') (hle : version' ≤ version) :
    Held moments' version' username rec := by
  obtain ⟨m, hm, hversion, hrec⟩ := h
  exact ⟨m, hsub hm, hle.trans hversion, hrec⟩

/-- The user had no record at some moment not before the bump to the version. -/
def Missing (version : ℕ) (username : String) : Prop :=
  ∃ m ∈ moments, version ≤ m.version ∧ m.records username = none

/-- What a cache entry rests on. -/
structure UserEntry.Ok (moments : List Store) (username : String) (e : UserEntry Token) : Prop where
  held : Held moments e.version username e.record
  identity : e.identity = identityOf e.record
  verified : ∀ p, e.verified = some (cr.credToken p) → cr.compareHashAndPassword e.record.passwordHash p = true

/-- What a call knows at each place. -/
def Call.Ok (s : State Token) (c : Call) : Prop :=
  match c.pc with
  | .begun | .slow => c.start ≤ s.store.version
  | .fast version | .reading version => c.start ≤ version ∧ version ≤ s.store.version
  | .dropping | .deleting => Missing s.moments c.start c.username
  | .refreshing version rec => c.start ≤ version ∧ Held s.moments version c.username rec
  | .comparing rec => Held s.moments c.start c.username rec
  | .settling rec ok =>
    Held s.moments c.start c.username rec ∧ ok = cr.compareHashAndPassword rec.passwordHash c.password
  | _ => True

/-- Every entry of the cache is sound. -/
def Sound (users : Dict (UserEntry Token)) : Prop :=
  ∀ username e, users.lookup username = some e → e.Ok cr moments username

structure State.Inv (s : State Token) : Prop where
  entry : Sound cr s.moments s.users
  call : ∀ c ∈ s.calls, c.Ok cr s

variable {cr} {s s' : State Token} {e : UserEntry Token}

theorem UserEntry.Ok.mono {moments moments' : List Store}
    (h : e.Ok cr moments username) (hsub : moments ⊆ moments') : e.Ok cr moments' username :=
  ⟨h.held.mono hsub le_rfl, h.identity, h.verified⟩

variable {c : Call}

theorem Call.Ok.mono (h : c.Ok cr s) (hsub : s.moments ⊆ s'.moments)
    (hversion : s.store.version ≤ s'.store.version) : c.Ok cr s' := by
  unfold Call.Ok at h ⊢
  cases hpc : c.pc <;> rw [hpc] at h <;> try trivial
  case begun => exact h.trans hversion
  case slow => exact h.trans hversion
  case fast => exact ⟨h.1, h.2.trans hversion⟩
  case reading => exact ⟨h.1, h.2.trans hversion⟩
  case dropping =>
    obtain ⟨m, hm, hmissing⟩ := h
    exact ⟨m, hsub hm, hmissing⟩
  case deleting =>
    obtain ⟨m, hm, hmissing⟩ := h
    exact ⟨m, hsub hm, hmissing⟩
  case refreshing => exact ⟨h.1, h.2.mono hsub le_rfl⟩
  case comparing => exact h.mono hsub le_rfl
  case settling => exact ⟨h.1.mono hsub le_rfl, h.2⟩

/-- The store moves on. -/
theorem State.Inv.store (h : s.Inv cr) (husers : s'.users = s.users) (hcalls : s'.calls = s.calls)
    (hsub : s.moments ⊆ s'.moments) (hversion : s.store.version ≤ s'.store.version) : s'.Inv cr where
  entry := by
    intro username e he
    rw [husers] at he
    exact (h.entry username e he).mono hsub
  call := by
    intro c hc
    rw [hcalls] at hc
    exact (h.call c hc).mono hsub hversion

variable {users : Dict (UserEntry Token)}

theorem Sound.insert {moments : List Store} (h : Sound cr moments users)
    (he : e.Ok cr moments username) : Sound cr moments (users.insert username e) := by
  intro u e' hlookup
  rcases Dict.of_lookup_insert hlookup with ⟨rfl, rfl⟩ | ⟨-, hlookup⟩
  · exact he
  · exact h u e' hlookup

theorem Sound.erase {moments : List Store} (h : Sound cr moments users)
    (username : String) : Sound cr moments (users.erase username) := by
  intro u e' hlookup
  exact h u e' (Dict.of_lookup_erase hlookup).2

section

variable {moments : List Store} {username : String}

theorem State.Inv.init : State.Inv cr {} :=
  ⟨by simp [Sound, Dict.lookup], by simp⟩

/-- A refreshed entry holds the record just read; what was verified stays only for the same hash. -/
theorem UserEntry.refresh_ok {e : Option (UserEntry Token)} {version : ℕ} {rec : User}
    (he : ∀ e', e = some e' → e'.Ok cr moments username) (hheld : Held moments version username rec) :
    (UserEntry.refresh e version rec).Ok cr moments username where
  held := hheld
  identity := rfl
  verified := by
    intro p hp
    show cr.compareHashAndPassword rec.passwordHash p = true
    unfold UserEntry.refresh at hp
    cases e with
    | none =>
      dsimp only [getD_none] at hp
      split at hp <;> simp at hp
    | some e' =>
      dsimp only [getD_some] at hp
      split at hp
      next hsame => rw [← hsame]; exact (he e' rfl).verified p hp
      next => simp at hp

/-- A credential that matched the hash of the entry's record. -/
theorem UserEntry.verify_ok (he : e.Ok cr moments username) {p : String}
    (hp : cr.compareHashAndPassword e.record.passwordHash p = true) :
    UserEntry.Ok cr moments username { e with verified := some (cr.credToken p) } where
  held := he.held
  identity := he.identity
  verified := by
    intro q hq
    rw [← cr.injective (some.inj hq)]
    exact hp

variable [DecidableEq Token]

/-- What is rejected stays with its record. -/
theorem UserEntry.reject_ok {e e' : UserEntry Token} {cred : Token} {now : ℤ} {oldest : Option Token}
    (he : e.Ok cr moments username) (h : e.reject cred now oldest = some e') : e'.Ok cr moments username := by
  unfold UserEntry.reject at h
  split at h
  · cases h
    exact { he with }
  split at h
  · cases h
  split at h
  · cases h
    exact { he with }
  · cases h

end

theorem State.lookup_evictOneUser {users users' : Dict (UserEntry Token)} {username evicted : String}
    (h : State.evictOneUser users username evicted = some users') {u : String}
    (he : users'.lookup u = some e) : users.lookup u = some e := by
  unfold State.evictOneUser at h
  split at h
  · cases h
    exact he
  split at h
  · cases h
    exact (Dict.of_lookup_erase he).2
  · cases h

variable [DecidableEq Token] {o : Choice Token}

/-- What one step of a call leaves in the cache, and what the call knows then. -/
theorem State.Inv.advance (h : s.Inv cr) (hc : c.Ok cr s) {pc : Pc} (hstep : s.advance cr c o = some (users, pc)) :
    Sound cr s.moments users ∧ Call.Ok cr s { c with pc := pc } := by
  have hcur : s.store ∈ s.moments := (.head _)
  unfold State.advance at hstep
  unfold Call.Ok at hc
  cases hpc : c.pc <;> simp only [hpc] at hc hstep
  case begun =>
    cases hstep
    exact ⟨h.entry, hc, le_rfl⟩
  case fast version =>
    have hslow : c.start ≤ s.store.version := hc.1.trans hc.2
    split at hstep
    · cases hstep
      exact ⟨h.entry, hslow⟩
    split at hstep
    · cases hstep
      exact ⟨h.entry, trivial⟩
    split at hstep <;> cases hstep
    · exact ⟨h.entry, trivial⟩
    · exact ⟨h.entry, hslow⟩
  case slow =>
    cases hstep
    exact ⟨h.entry, hc, le_rfl⟩
  case reading version =>
    split at hstep
    · cases hstep
      exact ⟨h.entry, trivial⟩
    split at hstep
    next hnone =>
      cases hstep
      exact ⟨h.entry, _, hcur, hc.1.trans hc.2, hnone⟩
    next rec hrec =>
      cases hstep
      exact ⟨h.entry, hc.1, _, hcur, hc.2, hrec⟩
  case dropping =>
    split at hstep <;> cases hstep
    · exact ⟨h.entry, hc⟩
    · exact ⟨h.entry, trivial⟩
  case deleting =>
    cases hstep
    exact ⟨Sound.erase h.entry _, trivial⟩
  case refreshing version rec =>
    obtain ⟨kept, hkept, heq⟩ := map_eq_some_iff.mp hstep
    have hsound : Sound cr s.moments kept := fun u e he => h.entry u e (State.lookup_evictOneUser hkept he)
    cases heq
    refine ⟨hsound.insert (UserEntry.refresh_ok (hsound c.username) hc.2), ?_⟩
    split
    · trivial
    split
    · trivial
    · exact hc.2.mono (fun _ hm => hm) hc.1
  case comparing rec =>
    split at hstep <;> cases hstep
    · exact ⟨h.entry, hc, rfl⟩
    · exact ⟨h.entry, trivial⟩
  case settling rec ok =>
    split at hstep
    · cases hstep
      exact ⟨h.entry, trivial⟩
    next e he =>
      have heok := h.entry _ e he
      split at hstep
      next hok =>
        cases hstep
        refine ⟨Sound.insert h.entry ?_, trivial⟩
        split
        next hsame => exact UserEntry.verify_ok heok (by rw [hsame, ← hc.2]; exact hok)
        next => exact heok
      next =>
        obtain ⟨e', he', heq⟩ := map_eq_some_iff.mp hstep
        cases heq
        exact ⟨Sound.insert h.entry (UserEntry.reject_ok heok he'), trivial⟩
  case returned => cases hstep

theorem State.Inv.step (h : s.Inv cr) {label : Label Token} (hstep : s.step cr label = some s') : s'.Inv cr := by
  cases label with
  | verify username password =>
    cases hstep
    refine ⟨h.entry, fun c hc => ?_⟩
    rcases mem_append.mp hc with hc | hc
    · exact (h.call c hc).mono (fun _ hm => hm) le_rfl
    · rw [mem_singleton.mp hc]
      exact le_rfl
  | work index o =>
    obtain ⟨c, hc, hnext⟩ := bind_eq_some_iff.mp hstep
    obtain ⟨⟨users, pc⟩, hadvance, rfl⟩ := map_eq_some_iff.mp hnext
    obtain ⟨hsound, hcall⟩ := h.advance (h.call c (mem_of_getElem? hc)) hadvance
    refine ⟨hsound, fun c' hc' => ?_⟩
    rcases mem_or_eq_of_mem_set hc' with hc' | rfl
    · exact (h.call c' hc').mono (fun _ hm => hm) le_rfl
    · exact hcall.mono (fun _ hm => hm) le_rfl
  | write username record =>
    simp only [State.step] at hstep
    split at hstep <;> cases hstep
    exact h.store rfl rfl (subset_cons_self _ _) le_rfl
  | bump =>
    simp only [State.step] at hstep
    split at hstep <;> cases hstep
    exact h.store rfl rfl (subset_cons_self _ _) (Nat.le_succ _)
  | tick d =>
    cases hstep
    exact h.store rfl rfl (fun _ hm => hm) le_rfl

/-- A login that succeeds answers for the record its call read, or for the one the entry was refreshed
with since. -/
theorem State.Inv.advance_ok (h : s.Inv cr) (hc : c.Ok cr s) {id : User}
    (hstep : s.advance cr c o = some (users, .returned (.ok id)))
    (hown : ∀ rec, c.pc = .settling rec true → ∀ e, s.users.lookup c.username = some e → e.record = rec) :
    ∃ rec, Held s.moments c.start c.username rec ∧ identityOf rec = id ∧
      cr.compareHashAndPassword rec.passwordHash c.password = true := by
  unfold State.advance at hstep
  unfold Call.Ok at hc
  cases hpc : c.pc <;> simp only [hpc] at hc hstep
  case fast version =>
    split at hstep
    · cases hstep
    next e he =>
      have heok := h.entry _ e he
      split at hstep
      next hcur =>
        cases hstep
        have hheld := heok.held
        rw [hcur.1] at hheld
        exact ⟨e.record, hheld.mono (fun _ hm => hm) hc.1, heok.identity.symm, heok.verified _ hcur.2⟩
      next => split at hstep <;> cases hstep
  case reading version =>
    split at hstep
    · cases hstep
    · split at hstep <;> cases hstep
  case dropping => split at hstep <;> cases hstep
  case refreshing version rec =>
    obtain ⟨kept, hkept, heq⟩ := map_eq_some_iff.mp hstep
    have hsound : Sound cr s.moments kept := fun u e he => h.entry u e (State.lookup_evictOneUser hkept he)
    have heok := UserEntry.refresh_ok (hsound c.username) hc.2
    rw [Prod.mk.injEq] at heq
    obtain ⟨-, heq⟩ := heq
    split at heq
    next hverified =>
      cases heq
      exact ⟨rec, hc.2.mono (fun _ hm => hm) hc.1, rfl, heok.verified _ hverified⟩
    next => split at heq <;> cases heq
  case comparing rec => split at hstep <;> cases hstep
  case settling rec ok =>
    split at hstep
    · cases hstep
    next e he =>
      split at hstep
      next hok =>
        cases hstep
        have hrec : e.record = rec := hown rec (by rw [hpc, hok]) e he
        refine ⟨rec, hc.1, ?_, by rw [← hc.2]; exact hok⟩
        rw [(h.entry _ e he).identity, hrec]
      next =>
        obtain ⟨e', -, heq⟩ := map_eq_some_iff.mp hstep
        cases heq
  all_goals cases hstep

/-- A run that matched is settled on an entry that still has the record it compared. -/
def State.ownRecord (s : State Token) : Label Token → Bool
  | .work index _ =>
    (s.calls[index]?).all fun c =>
      match c.pc with
      | .settling rec true => (s.users.lookup c.username).all fun e => e.record = rec
      | _ => true
  | _ => true

theorem State.Inv.run {labels : List (Label Token)} (hrun : runWith (State.step cr) {} labels = some s) : s.Inv cr :=
  run_induction (fun _ _ _ h _ hstep => h.step hstep) State.Inv.init (cleanRun_true _ _) hrun

/-- The call a step moves on, and how. -/
theorem State.step_work {index : ℕ} {pc : Pc} (hcall : s.calls[index]? = some c)
    (hstep : s.step cr (.work index o) = some s') (hpc : (s'.calls[index]?).map Call.pc = some pc) :
    s'.moments = s.moments ∧ s.advance cr c o = some (s'.users, pc) := by
  obtain ⟨c', hc', hnext⟩ := bind_eq_some_iff.mp hstep
  rw [hcall, some_inj] at hc'
  subst hc'
  obtain ⟨⟨users, pc'⟩, hadvance, rfl⟩ := map_eq_some_iff.mp hnext
  refine ⟨rfl, ?_⟩
  have hlt : index < s.calls.length := (List.getElem?_eq_some_iff.mp hcall).1
  simp only [getElem?_set_self hlt, map_some, some_inj] at hpc
  rw [hadvance, hpc]

/-- A login that succeeds returns the identity of one record of the user whose own hash the password
matches, and that record was stored at some moment between the last bump completed before the call began and
its return. -/
theorem login_backed_by_one_record {labels : List (Label Token)}
    (hrun : runWith (State.step cr) {} labels = some s) {index : ℕ} {o : Choice Token} {c : Call} {id : User}
    (hcall : s.calls[index]? = some c) (hown : s.ownRecord (.work index o) = true)
    (hstep : s.step cr (.work index o) = some s')
    (hreturned : (s'.calls[index]?).map Call.pc = some (.returned (.ok id))) :
    ∃ m ∈ s'.moments, c.start ≤ m.version ∧ ∃ rec, m.records c.username = some rec ∧ identityOf rec = id ∧
      cr.compareHashAndPassword rec.passwordHash c.password = true := by
  obtain ⟨hmoments, hadvance⟩ := State.step_work hcall hstep hreturned
  have h := State.Inv.run hrun
  have hsame : ∀ rec, c.pc = .settling rec true → ∀ e, s.users.lookup c.username = some e → e.record = rec := by
    intro rec hpc e he
    simpa [State.ownRecord, hcall, hpc, he] using hown
  obtain ⟨rec, ⟨m, hm, hle, hrec⟩, hid, hmatch⟩ :=
    h.advance_ok (h.call c (mem_of_getElem? hcall)) hadvance hsame
  exact ⟨m, hmoments ▸ hm, hle, rec, hrec, hid, hmatch⟩

/-- Two hashes and their passwords. -/
def twoPasswords : Crypto String where
  compareHashAndPassword hash password := (hash, password) ∈ [([1], "p"), ([2], "q")]
  credToken := id
  injective := fun _ _ h => h

/-- The account as its first owner has it, with "p" as the password. -/
def firstOwner : User :=
  { username := "u", passwordHash := [1], grants := [] }

/-- The account created anew under the name for another owner, with "q" as the password. -/
def secondOwner : User :=
  { username := "u", passwordHash := [2], grants := [⟨"admin", ["*"]⟩] }

/-- The steps of a call up to its bcrypt run. -/
def refreshing (index : ℕ) : List (Label String) :=
  [.work index {}, .work index {}, .work index {}, .work index {}, .work index {}]

/-- The account is created, and its owner's call runs bcrypt. -/
def loggingIn : List (Label String) :=
  [Label.write "u" (some firstOwner), .bump, .verify "u" "p"] ++ refreshing 0 ++ [Label.work 0 {}]

def afterBcrypt : State String :=
  (runWith (State.step twoPasswords) {} loggingIn).get (by decide +kernel)

theorem loggingIn_backed :
    ∃ s', afterBcrypt.step twoPasswords (.work 0 {}) = some s' ∧ ∃ m ∈ s'.moments, 1 ≤ m.version ∧
      ∃ rec, m.records "u" = some rec ∧ identityOf rec = identityOf firstOwner ∧
        twoPasswords.compareHashAndPassword rec.passwordHash "p" = true := by
  have hrun := (some_get (x := runWith (State.step twoPasswords) {} loggingIn) (by decide +kernel)).symm
  have hcall : afterBcrypt.calls[0]? = some ⟨"u", "p", 1, .settling firstOwner true⟩ := by decide +kernel
  have hstep := (some_get (x := afterBcrypt.step twoPasswords (.work 0 {})) (by decide +kernel)).symm
  exact ⟨_, hstep, login_backed_by_one_record hrun hcall (by decide +kernel) hstep (by decide +kernel)⟩

/-- The account is deleted and created anew while the call runs bcrypt, and its new owner logs in. The call
then returns the new owner's identity, whose hash its password does not match. -/
theorem login_with_another_owners_identity : (runWith (State.step twoPasswords) {} (loggingIn ++
        [Label.write "u" none, .bump, .write "u" (some secondOwner), .bump, .verify "u" "q"] ++ refreshing 1 ++
        [Label.work 0 {}])).bind (fun s => s.calls[0]?) =
      some ⟨"u", "p", 1, .returned (.ok (identityOf secondOwner))⟩ ∧ identityOf secondOwner ≠ identityOf firstOwner ∧
    twoPasswords.compareHashAndPassword secondOwner.passwordHash "p" = false := by
  decide +kernel

end Narad.Security
