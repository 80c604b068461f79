import Narad.Storage.Transfer
import Narad.Lib.Machine

/-!
# Copying a partition

A destination copies a partition's segments into a staging directory in passes. A pass lists the source
and fetches, chunk by chunk, what the session has not copied of each listed segment. The session
remembers how far it is in each segment, and it is used again after a call that failed.

A listing carries the committed bytes of the segments it names, and a fetch answers with bytes of that
listing: the source only adds to them. The consumer frontier, the fan-out cursors and the segment ages
that travel with a copy, the syncing of staged files and the pauses between passes are left out.
-/

namespace Narad.Cluster

open Narad.Lib Narad.Storage

def bytesOf (files : List SegmentFile) (base : ℕ) : Option Bytes :=
  (files.find? fun f => f.baseOffset == base).map SegmentFile.bytes

/-- The directory, listed by base offset, with a file written. -/
def writeSegmentFile : List SegmentFile → ℕ → Bytes → List SegmentFile
  | [], base, data => [⟨base, data, 0, 0⟩]
  | f :: rest, base, data =>
    if base < f.baseOffset then ⟨base, data, 0, 0⟩ :: f :: rest
    else if base = f.baseOffset then { f with bytes := data } :: rest
    else f :: writeSegmentFile rest base data

def appendToSegmentFile (files : List SegmentFile) (base : ℕ) (data : Bytes) : List SegmentFile :=
  writeSegmentFile files base ((bytesOf files base).getD [] ++ data)

structure Listing where
  segments : List SegmentFile
  highWatermark : ℕ
  deriving DecidableEq

inductive MoveError where
  | list
  | cut (base size : ℕ)
  | fetch (base at' : ℕ)
  | cancelled
  | lapsed
  | neverReached
  | behind (next hwm : ℕ)
  | straddles (next hwm : ℕ)
  | unverified (e : MoveError)

structure MoveSession where
  staged : List SegmentFile := []
  copied : ℕ → Option ℕ := fun _ => none
  total : ℕ := 0
  lastHWM : ℕ := 0
  sawInfo : Bool := false
  floorHWM : ℕ := 0

/-- What fetching a segment has come to: the directory, the position, the replies left, and whether it failed. -/
structure Fetched where
  files : List SegmentFile
  at' : ℕ
  replies : List (Option ℕ)
  failed : Bool

/-- Fetches the rest of a segment. A reply is an error or how many bytes of the range came. -/
def fetchLoop (chunkSize : ℕ) (seg : SegmentFile) : List (Option ℕ) → List SegmentFile → ℕ → Fetched
  | [], files, at' => ⟨files, at', [], decide (at' < seg.bytes.length)⟩
  | reply :: replies, files, at' =>
    if seg.bytes.length ≤ at' then ⟨files, at', reply :: replies, false⟩
    else
      let want := min chunkSize (seg.bytes.length - at')
      match reply with
      | none => ⟨files, at', replies, true⟩
      | some n =>
        let chunk := readAt seg.bytes at' (min n want)
        -- The source has not written this far yet.
        if chunk = [] then ⟨files, at', replies, false⟩
        else
          let files := if at' = 0 then writeSegmentFile files seg.baseOffset chunk
            else appendToSegmentFile files seg.baseOffset chunk
          fetchLoop chunkSize seg replies files (at' + chunk.length)

namespace MoveSession

variable (s : MoveSession)

def setCopied (base : ℕ) (at' : Option ℕ) : MoveSession :=
  { s with copied := Function.update s.copied base at' }

variable (chunkSize : ℕ)

/-- Fetches a segment from where the session is in it. The cursor moves only when the segment is done. -/
def fetchSegment (s : MoveSession) (seg : SegmentFile) (at' : ℕ) (replies : List (Option ℕ)) :
    MoveSession × List (Option ℕ) × Except MoveError ℕ :=
  let got := fetchLoop chunkSize seg replies s.staged at'
  if got.failed then
    ({ s with staged := got.files }, got.replies, .error (.fetch seg.baseOffset got.at'))
  else ({ s with staged := got.files }.setCopied seg.baseOffset (some got.at'), got.replies, .ok (got.at' - at'))

/-- Copies what is missing of one listed segment, and reports how many bytes that was. -/
def copySegment (s : MoveSession) (seg : SegmentFile) (replies : List (Option ℕ)) :
    MoveSession × List (Option ℕ) × Except MoveError ℕ :=
  match s.copied seg.baseOffset with
  | none =>
    if seg.bytes.length = 0 then
      ({ s with staged := writeSegmentFile s.staged seg.baseOffset [] }.setCopied seg.baseOffset (some 0), replies,
        .ok 0)
    else s.fetchSegment chunkSize seg 0 replies
  | some at' =>
    if seg.bytes.length < at' then
      -- Only an older source lists a segment shorter than before.
      match bytesOf s.staged seg.baseOffset with
      | none => (s, replies, .error (.cut seg.baseOffset seg.bytes.length))
      | some bytes =>
        ({ s with staged := writeSegmentFile s.staged seg.baseOffset (resize bytes seg.bytes.length) }.setCopied
          seg.baseOffset (some seg.bytes.length), replies, .ok 0)
    else s.fetchSegment chunkSize seg at' replies

def copySegments (chunkSize : ℕ) : MoveSession → List SegmentFile → List (Option ℕ) → ℕ →
    MoveSession × Except MoveError ℕ
  | s, [], _, newBytes => (s, .ok newBytes)
  | s, seg :: rest, replies, newBytes =>
    match s.copySegment chunkSize seg replies with
    | (s, _, .error e) => (s, .error e)
    | (s, replies, .ok n) => copySegments chunkSize s rest replies (newBytes + n)

/-- What a pass meets: the listing, unless it fails, and the replies to its fetches. -/
structure Round where
  listing : Option Listing
  replies : List (Option ℕ)

def pass (s : MoveSession) (r : Round) : MoveSession × Except MoveError (ℕ × Listing) :=
  match r.listing with
  | none => (s, .error .list)
  | some info =>
    match copySegments chunkSize { s with lastHWM := info.highWatermark, sawInfo := true } info.segments r.replies 0 with
    | (s, .error e) => (s, .error e)
    | (s, .ok newBytes) => ({ s with total := s.total + newBytes }, .ok (newBytes, info))

/-- The passes before the freeze, until the tail is short, stops shrinking or the rounds are over. The
rounds given end where the caller gives up. -/
def catchUpLoop (chunkSize lagBytes maxRounds stallRounds : ℕ) :
    MoveSession → List Round → ℕ → Option ℕ → ℕ → MoveSession × Except MoveError Bool
  | s, [], _, _, _ => (s, .error .cancelled)
  | s, r :: rest, passes, best, stalls =>
    match s.pass chunkSize r with
    | (s, .error e) => (s, .error e)
    | (s, .ok (newBytes, _)) =>
      if passes = 0 then catchUpLoop chunkSize lagBytes maxRounds stallRounds s rest 1 best stalls
      else if newBytes ≤ lagBytes then (s, .ok true)
      else
        let shrunk := best.all fun b => decide (newBytes < b)
        let best := if shrunk then some newBytes else best
        let stalls := if shrunk then 0 else stalls + 1
        if stallRounds ≤ stalls ∨ maxRounds ≤ passes then (s, .ok false)
        else catchUpLoop chunkSize lagBytes maxRounds stallRounds s rest (passes + 1) best stalls

def catchUp (s : MoveSession) (lagBytes maxRounds stallRounds : ℤ) (rounds : List Round) :
    MoveSession × Except MoveError Bool :=
  catchUpLoop chunkSize lagBytes.toNat (max 1 maxRounds.toNat) (max 1 stallRounds.toNat) s rounds 0 none 0

/-- Opens the staged copy and closes it again: the files as recovery leaves them, and the next offset. -/
def recoverNext (files : List SegmentFile) (hwm : ℕ) : List SegmentFile × ℕ :=
  let log := newLog defaultOptions ⟨files, ⟨.boundary hwm, true, .boundary hwm, []⟩⟩
  (log.disk.files, log.buffer.nextOffset)

/-- Lowers the cursors to the staged files, and forgets those whose files are gone. -/
def resyncCopied : MoveSession :=
  { s with
    copied := fun base => (s.copied base).bind fun at' =>
      (bytesOf s.staged base).map fun bytes => min at' bytes.length }

def verifyStaged (hwm : ℕ) : MoveSession × ℕ :=
  let (files, next) := recoverNext s.staged hwm
  let (files, next) := if hwm < next then
      match cutStagedCopy files hwm with
      | (files, true) => recoverNext files hwm
      | (files, false) => (files, next)
    else (files, next)
  ({ s with staged := files }.resyncCopied, next)

def finalizeStaged (hwm : ℕ) : MoveSession × Except MoveError ℕ :=
  match s.verifyStaged hwm with
  | (s, next) =>
    (s, if next < hwm then .error (.behind next hwm) else if hwm < next then .error (.straddles next hwm) else .ok hwm)

/-- The passes under the freeze, until two in a row find nothing new and the same high watermark. A lapse
of the freeze is what the call then reports. -/
def drainLoop (chunkSize : ℕ) (lapsed : Bool) :
    MoveSession → List Round → Option Listing → MoveSession × Except MoveError Listing
  | s, [], _ => (s, .error (if lapsed then .lapsed else .cancelled))
  | s, r :: rest, last =>
    match s.pass chunkSize r with
    | (s, .error e) => (s, .error (if lapsed then .lapsed else e))
    | (s, .ok (newBytes, info)) =>
      if newBytes = 0 ∧ last.map Listing.highWatermark = some info.highWatermark then
        (s, if lapsed then .error .lapsed else .ok info)
      else drainLoop chunkSize lapsed s rest (some info)

def finalize (s : MoveSession) (lapsed : Bool) (rounds : List Round) : MoveSession × Except MoveError Listing :=
  match drainLoop chunkSize lapsed s rounds none with
  | (s, .error e) => (s, .error e)
  | (s, .ok info) =>
    match s.finalizeStaged info.highWatermark with
    | (s, .error e) => (s, .error (.unverified e))
    | (s, .ok _) => (s, .ok info)

def promoteHWM : ℕ :=
  max s.lastHWM s.floorHWM

def forcePromote : MoveSession × Except MoveError ℕ :=
  if s.sawInfo then s.finalizeStaged s.promoteHWM else (s, .error .neverReached)

end MoveSession

/-- A listing after others: in the order of the base offsets, the segments listed before have only grown,
and those that are gone come before the ones that are left. -/
def Grows (known : List SegmentFile) (info : Listing) : Prop :=
  info.segments.Pairwise (fun f g => f.baseOffset < g.baseOffset) ∧ ∀ k ∈ known,
      (∀ f ∈ info.segments, f.baseOffset = k.baseOffset → (bytesOf known k.baseOffset).getD [] <+: f.bytes) ∧
        (bytesOf info.segments k.baseOffset = none →
          info.segments ≠ [] ∧ ∀ f ∈ info.segments, k.baseOffset < f.baseOffset)

instance (known : List SegmentFile) (info : Listing) : Decidable (Grows known info) :=
  inferInstanceAs (Decidable (_ ∧ ∀ k ∈ known, _ ∧ _))

/-- What the source has shown of its segments; the first file with a base offset is the latest. -/
def note (known : List SegmentFile) (r : MoveSession.Round) : Option (List SegmentFile) :=
  match r.listing with
  | none => some known
  | some info => if Grows known info then some (info.segments ++ known) else none

/-- The source answers a fetch with an error or with at least one byte. -/
def MoveSession.Round.answered (r : MoveSession.Round) : Bool :=
  r.replies.all fun reply => reply != some 0

inductive Call where
  | catchUp (lagBytes maxRounds stallRounds : ℤ) (rounds : List MoveSession.Round)
  | finalize (lapsed : Bool) (rounds : List MoveSession.Round)
  | forcePromote

def Call.rounds : Call → List MoveSession.Round
  | .catchUp _ _ _ rounds | .finalize _ rounds => rounds
  | .forcePromote => []

/-- A session, what its source has shown, and the last listing of a finalize that has just succeeded. -/
structure Copy where
  session : MoveSession := {}
  known : List SegmentFile := []
  finalized : Option Listing := none

/-- One call on the session; a call with listings no source gives is not a step. -/
def Copy.step (chunkSize : ℕ) (c : Copy) (call : Call) : Option Copy :=
  if call.rounds.all MoveSession.Round.answered then
    (call.rounds.foldlM note c.known).map fun known =>
      match call with
      | .catchUp lagBytes maxRounds stallRounds rounds =>
        ⟨(c.session.catchUp chunkSize lagBytes maxRounds stallRounds rounds).1, known, none⟩
      | .finalize lapsed rounds =>
        match c.session.finalize chunkSize lapsed rounds with
        | (session, .ok info) => ⟨session, known, some info⟩
        | (session, .error _) => ⟨session, known, none⟩
      | .forcePromote => ⟨c.session.forcePromote.1, known, none⟩
  else none

/-- Every segment with a cursor above 0 has a staged file exactly as long as its cursor. -/
def MoveSession.aligned (s : MoveSession) : Bool :=
  s.staged.all fun f => (s.copied f.baseOffset).all fun at' => decide (0 < at' → f.bytes.length = at')

end Narad.Cluster
