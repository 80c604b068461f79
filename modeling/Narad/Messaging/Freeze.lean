import Narad.Lib.Dict
import Narad.Lib.Machine

/-!
# The handoff freeze

The owner of a partition stops committing to it while a destination takes over. A freeze is an entry of
the pause map with an expiry and a token; it is armed under the map's mutex and read under it, except
that a count of the entries is loaded first without any lock. A commit cycle holds the partition's
produce lock, asks for the freeze, and then appends and advances the high-watermark under the same lock.
A handoff call arms the freeze and then takes the produce lock to read the high-watermark.

Threads are numbered; a thread runs one call and its place in the call is its `Pc`. The counter is
raised before an entry is visible and lowered after it is gone, so these are steps of their own. Clock
readings are arbitrary. Tokens are fresh numbers. Of a listing only the high-watermark is kept, and the
consumer side of the freeze, which no commit reads, is left out.

`time`, `dead` and `advances` are history: a count of the steps, the tokens of freezes that were removed,
and when commits advanced which high-watermark.
-/

namespace Narad.Messaging.Freeze

open Lib

structure Pause where
  expires : ℤ
  token : ℕ

/-- A call of `prepareHandoff`: the clock is read before the mutex is taken. -/
structure Call where
  key : String
  ttl : ℤ
  require : Option ℕ
  now : ℤ
  started : ℕ
  deriving DecidableEq

def defaultTtl : ℤ := 30 * 1000000000

/-- When the freeze the call arms runs out. -/
def Call.expires (c : Call) : ℤ :=
  c.now + if c.ttl ≤ 0 then defaultTtl else c.ttl

/-- Where a thread stands. In `gating`, `looking` and `expiring` the flag says whether the thread asks as a
commit that holds the produce lock. -/
inductive Pc where
  | idle
  | gating (key : String) (locked : Bool)
  | looking (key : String) (locked : Bool)
  | expiring (key : String) (locked : Bool)
  | appending (key : String)
  | refused (key : String)
  | arming (c : Call)
  | clearing (c : Call)
  | minting (c : Call)
  | counted (c : Call) (token : ℕ)
  | armed (c : Call) (token : ℕ)
  | listing (c : Call) (token : ℕ)
  | listed (c : Call) (token hwm at' : ℕ)
  | returned (c : Call) (token hwm at' done : ℕ)
  | lapsed (c : Call)
  | resuming
  deriving DecidableEq

structure State where
  pauses : Dict Pause := ∅
  active : ℤ := 0
  pauseMu : Option ℕ := none
  produceLock : String → Option ℕ := fun _ => none
  hwm : String → ℕ := fun _ => 0
  minted : ℕ := 0
  threads : ℕ → Pc := fun _ => .idle
  time : ℕ := 0
  dead : List ℕ := []
  advances : List (String × ℕ) := []

inductive Label where
  /-- A commit cycle takes the produce lock. -/
  | commit (i : ℕ) (key : String)
  /-- Someone asks for the freeze without the lock. -/
  | poll (i : ℕ) (key : String)
  | load (i : ℕ)
  | look (i : ℕ) (now : ℤ)
  | lower (i : ℕ)
  /-- The records are appended and synced; none when that failed. -/
  | append (i : ℕ) (records : ℕ)
  | turnAway (i : ℕ)
  | handoff (i : ℕ) (key : String) (ttl : ℤ) (require : Option ℕ) (now : ℤ)
  | arm (i : ℕ)
  | clear (i : ℕ)
  | mint (i : ℕ)
  | store (i : ℕ)
  | lock (i : ℕ)
  | list (i : ℕ)
  | answer (i : ℕ)
  /-- The log cannot be opened or listed. -/
  | fail (i : ℕ)
  | resume (i : ℕ) (key : String)

namespace State

variable (s : State)

variable (i : ℕ)

def goto (pc : Pc) : State :=
  { s with threads := Function.update s.threads i pc }

variable (key : String)

def setLock (holder : Option ℕ) : State :=
  { s with produceLock := Function.update s.produceLock key holder }

/-- The entry goes and its token with it; the thread keeps the mutex until it has lowered the counter. -/
def remove (key : String) (p : Pause) : State :=
  { s with pauses := s.pauses.erase key, pauseMu := some i, dead := p.token :: s.dead }

/-- Past the gate a commit appends; anyone else only wanted to know. -/
def passed (locked : Bool) : Pc :=
  if locked then .appending key else .idle

def paused (locked : Bool) : Pc :=
  if locked then .refused key else .idle

/-- The section of `isProducePaused` under the mutex. -/
def look (key : String) (locked : Bool) (now : ℤ) : State :=
  match s.pauses.lookup key with
  | none => s.goto i (passed key locked)
  | some p =>
    if p.expires ≤ now then (s.remove i key p).goto i (.expiring key locked)
    else s.goto i (paused key locked)

/-- The first part of `armHandoffFreeze`: an active freeze is extended unless another token is required. -/
def arm (c : Call) : State :=
  match s.pauses.lookup c.key with
  | none => if c.require = none then { s with pauseMu := some i }.goto i (.minting c) else s.goto i (.lapsed c)
  | some p =>
    if p.expires ≤ c.now then (s.remove i c.key p).goto i (.clearing c)
    else if c.require = none ∨ c.require = some p.token then
      { s with pauses := s.pauses.insert c.key ⟨c.expires, p.token⟩ }.goto i (.armed c p.token)
    else s.goto i (.lapsed c)

def clear (c : Call) : State :=
  if c.require = none then { s with active := s.active - 1 }.goto i (.minting c)
  else { s with active := s.active - 1, pauseMu := none }.goto i (.lapsed c)

def append (records : ℕ) : State :=
  { s with
    hwm := Function.update s.hwm key (s.hwm key + records)
    advances := if records = 0 then s.advances else (key, s.time) :: s.advances }

def act : Label → Option State
  | .commit i key =>
    if s.threads i = .idle ∧ s.produceLock key = none then
      some ((s.setLock key (some i)).goto i (.gating key true))
    else none
  | .poll i key => if s.threads i = .idle then some (s.goto i (.gating key false)) else none
  | .load i =>
    match s.threads i with
    | .gating key locked => some (s.goto i (if s.active = 0 then passed key locked else .looking key locked))
    | _ => none
  | .look i now =>
    match s.threads i, s.pauseMu with
    | .looking key locked, none => some (s.look i key locked now)
    | _, _ => none
  | .lower i =>
    match s.threads i with
    | .expiring key locked => some ({ s with active := s.active - 1, pauseMu := none }.goto i (passed key locked))
    | .resuming => some ({ s with active := s.active - 1, pauseMu := none }.goto i .idle)
    | _ => none
  | .append i records =>
    match s.threads i with
    | .appending key => some (((s.append key records).setLock key none).goto i .idle)
    | _ => none
  | .turnAway i =>
    match s.threads i with
    | .refused key => some ((s.setLock key none).goto i .idle)
    | _ => none
  | .handoff i key ttl require now =>
    if s.threads i = .idle then some (s.goto i (.arming ⟨key, ttl, require, now, s.time⟩)) else none
  | .arm i =>
    match s.threads i, s.pauseMu with
    | .arming c, none => some (s.arm i c)
    | _, _ => none
  | .clear i =>
    match s.threads i with
    | .clearing c => some (s.clear i c)
    | _ => none
  | .mint i =>
    match s.threads i with
    | .minting c => some ({ s with active := s.active + 1, minted := s.minted + 1 }.goto i (.counted c s.minted))
    | _ => none
  | .store i =>
    match s.threads i with
    | .counted c token =>
      some ({ s with pauses := s.pauses.insert c.key ⟨c.expires, token⟩, pauseMu := none }.goto i (.armed c token))
    | _ => none
  | .lock i =>
    match s.threads i with
    | .armed c token =>
      if s.produceLock c.key = none then some ((s.setLock c.key (some i)).goto i (.listing c token)) else none
    | _ => none
  | .list i =>
    match s.threads i with
    | .listing c token => some (s.goto i (.listed c token (s.hwm c.key) s.time))
    | _ => none
  | .answer i =>
    match s.threads i with
    | .listed c token hwm at' => some ((s.setLock c.key none).goto i (.returned c token hwm at' s.time))
    | _ => none
  | .fail i =>
    match s.threads i with
    | .armed c _ => some (s.goto i (.lapsed c))
    | .listing c _ => some ((s.setLock c.key none).goto i (.lapsed c))
    | _ => none
  | .resume i key =>
    if s.threads i = .idle ∧ s.pauseMu = none then
      match s.pauses.lookup key with
      | none => some s
      | some p => some ((s.remove i key p).goto i .resuming)
    else none

def step (l : Label) : Option State :=
  (s.act l).map fun s' => { s' with time := s.time + 1 }

/-- The freeze a listing confirms is still armed when the listing is taken. -/
def stillArmed : Label → Bool
  | .list i =>
    match s.threads i with
    | .listing c token => c.require = none || (s.pauses.lookup c.key).any fun p => p.token = token
    | _ => true
  | _ => true

end State

end Narad.Messaging.Freeze
