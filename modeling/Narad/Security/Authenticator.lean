import Narad.Lib.Machine
import Narad.Metastore.Records

/-!
# Verifying a login

`Verify` checks a presented password against the stored user record. A cache entry per user keeps the
record as of a version of the users domain, the credential that was verified against its hash, and the
credentials that were rejected. A call takes the fast path when the entry has the version it read;
otherwise it reads the record again, refreshes the entry and runs bcrypt outside every lock.

Every read, locked section and bcrypt run of a call is one step, and any number of calls run at once. A
change of a record is one step and the bump of the version that follows it another. The store keeps every
state it has been in, so that what a call returns can be compared with the records there were while it
ran. Whether a bcrypt run is throttled or cancelled is free, so the throttle's buckets and the gate are
left out; a run that is shared by identical attempts compares the same hash with the same password.
-/

namespace Narad.Security

open Narad.Lib Narad.Metastore

/-- bcrypt as a relation of stored hashes and passwords, and the tokens of the credential cache. -/
structure Crypto (Token : Type) where
  compareHashAndPassword : Bytes → String → Bool
  credToken : String → Token
  injective : Function.Injective credToken

/-- How long a rejected credential is denied from the cache, in nanoseconds. -/
def negativeTTL : ℤ := 60 * 10 ^ 9

def negativeCapPerUser : ℕ := 16

def maxCachedUsers : ℕ := 4096

/-- The users as stored, at a version of the users domain. -/
structure Store where
  records : String → Option User := fun _ => none
  version : ℕ := 0

/-- What a node remembers of one user. -/
structure UserEntry (Token : Type) where
  version : ℕ
  record : User
  identity : User
  /-- `verifiedCred`, when `hasVerified`. -/
  verified : Option Token := none
  failed : List (Token × ℤ) := []

inductive Result where
  | ok (identity : User)
  | unauthorized
  /-- Throttled, cancelled, or the store could not be read. -/
  | failed
  deriving DecidableEq

/-- Where a call is. -/
inductive Pc where
  | begun
  | fast (version : ℕ)
  | slow
  | reading (version : ℕ)
  | dropping
  | deleting
  | refreshing (version : ℕ) (record : User)
  | comparing (record : User)
  | settling (record : User) (ok : Bool)
  | returned (result : Result)
  deriving DecidableEq

structure Call where
  username : String
  password : String
  /-- The version of the last bump that had completed when the call began. -/
  start : ℕ
  pc : Pc := .begun
  deriving DecidableEq

structure State (Token : Type) where
  store : Store := {}
  /-- The states the store was in before. -/
  past : List Store := []
  /-- A record was written and the version is not bumped yet. -/
  dirty : Bool := false
  now : ℤ := 0
  users : Dict (UserEntry Token) := {}
  calls : List Call := []

/-- What the environment decides in one step of a call. -/
structure Choice (Token : Type) where
  storeFails : Bool := false
  /-- The user whose entry is evicted to make room. -/
  evicted : String := ""
  /-- The run is neither throttled nor cancelled. -/
  ran : Bool := true
  /-- The rejected credential that is forgotten to make room. -/
  oldest : Option Token := none

inductive Label (Token : Type) where
  | verify (username password : String)
  | work (index : ℕ) (choice : Choice Token)
  | write (username : String) (record : Option User)
  | bump
  | tick (d : ℤ)

variable {Token : Type} [DecidableEq Token]

/-- The user as requests see it: the record without its hash. -/
def identityOf (rec : User) : User :=
  { rec with passwordHash := [] }

namespace UserEntry

/-- The credential was rejected not long ago. -/
def denies (e : UserEntry Token) (cred : Token) (now : ℤ) : Bool :=
  (e.failed.lookup cred).any fun at' => now - at' < negativeTTL

/-- The entry with the record just read; another hash voids what was verified and rejected. -/
def refresh (e : Option (UserEntry Token)) (version : ℕ) (rec : User) : UserEntry Token :=
  let e := e.getD ⟨0, ⟨"", [], [], false, 0, 0⟩, ⟨"", [], [], false, 0, 0⟩, none, []⟩
  let e := if e.record.passwordHash = rec.passwordHash then e else { e with verified := none, failed := [] }
  { e with record := rec, identity := identityOf rec, version := version }

/-- No other rejected credential is older. -/
def isOldest (failed : List (Token × ℤ)) (cred : Token) : Bool :=
  (failed.lookup cred).any fun at' => failed.all fun e => at' ≤ e.2

/-- The credential is remembered as rejected; the oldest one makes room. -/
def reject (e : UserEntry Token) (cred : Token) (now : ℤ) (oldest : Option Token) : Option (UserEntry Token) :=
  if e.failed.length < negativeCapPerUser then
    some { e with failed := (cred, now) :: e.failed.filter fun f => f.1 ≠ cred }
  else
    match oldest with
    | none => none
    | some old =>
      if isOldest e.failed old then
        some { e with failed := (cred, now) :: e.failed.filter fun f => f.1 ≠ old ∧ f.1 ≠ cred }
      else none

end UserEntry

namespace State

/-- Every state the store has been in. -/
def moments (s : State Token) : List Store :=
  s.store :: s.past

/-- Room for the user's entry. -/
def evictOneUser (users : Dict (UserEntry Token)) (username evicted : String) : Option (Dict (UserEntry Token)) :=
  if (users.lookup username).isSome ∨ users.size < maxCachedUsers then some users
  else if (users.lookup evicted).isSome then some (users.erase evicted)
  else none

variable (cr : Crypto Token)

/-- One step of a call: what it leaves in the cache, and where it goes. -/
def advance (s : State Token) (c : Call) (o : Choice Token) : Option (Dict (UserEntry Token) × Pc) :=
  let cred := cr.credToken c.password
  match c.pc with
  | .begun => some (s.users, .fast s.store.version)
  | .fast version =>
    match s.users.lookup c.username with
    | none => some (s.users, .slow)
    | some e =>
      if e.version = version ∧ e.verified = some cred then some (s.users, .returned (.ok e.identity))
      else if e.version = version ∧ e.denies cred s.now then some (s.users, .returned .unauthorized)
      else some (s.users, .slow)
  | .slow => some (s.users, .reading s.store.version)
  | .reading version =>
    if o.storeFails then some (s.users, .returned .failed)
    else
      match s.store.records c.username with
      | none => some (s.users, .dropping)
      | some rec => some (s.users, .refreshing version rec)
  | .dropping =>
    if (s.users.lookup c.username).isSome then some (s.users, .deleting)
    else some (s.users, .returned .unauthorized)
  | .deleting => some (s.users.erase c.username, .returned .unauthorized)
  | .refreshing version rec =>
    (evictOneUser s.users c.username o.evicted).map fun users =>
      let e := UserEntry.refresh (users.lookup c.username) version rec
      (users.insert c.username e, if e.verified = some cred then .returned (.ok e.identity)
        else if e.denies cred s.now then .returned .unauthorized
        else .comparing rec)
  | .comparing rec =>
    if o.ran then some (s.users, .settling rec (cr.compareHashAndPassword rec.passwordHash c.password))
    else some (s.users, .returned .failed)
  | .settling rec ok =>
    match s.users.lookup c.username with
    | none => some (s.users, .returned .unauthorized)
    | some e =>
      if ok then
        -- the identity is the entry's, whichever record that is by now
        let e' := if e.record.passwordHash = rec.passwordHash then { e with verified := some cred } else e
        some (s.users.insert c.username e', .returned (.ok e.identity))
      else
        (e.reject cred s.now o.oldest).map fun e' => (s.users.insert c.username e', .returned .unauthorized)
  | .returned _ => none

def step (s : State Token) : Label Token → Option (State Token)
  | .verify username password =>
    some { s with calls := s.calls ++ [⟨username, password, s.store.version, .begun⟩] }
  | .work index o =>
    (s.calls[index]?).bind fun c =>
      (s.advance cr c o).map fun r => { s with users := r.1, calls := s.calls.set index { c with pc := r.2 } }
  | .write username record =>
    if s.dirty then none
    else some { s with
      store := { s.store with records := Function.update s.store.records username record }
      past := s.moments
      dirty := true }
  | .bump =>
    if s.dirty then
      some { s with store := { s.store with version := s.store.version + 1 }, past := s.moments, dirty := false }
    else none
  | .tick d => some { s with now := s.now + d }

end State

end Narad.Security
