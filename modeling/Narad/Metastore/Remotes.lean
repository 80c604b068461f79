import Narad.Metastore.Users

/-!
# Sealed remote credentials

A stored credential is ciphertext, sealed against the name, the incarnation, the address, the user and
the trust anchor of one record; opened for any other record it is refused. Entries are proposed from
replicas that may lag, so what an entry was sealed against need not be the record it lands on. Which
tuple each ciphertext was sealed against is a parameter here: entries are taken as well sealed when a
create was sealed against its own record and an update against the tuple it names.

The key accounting counts every well-formed entry that carries a credential, accepted or refused.
-/

namespace Narad.Metastore

open Function (update_apply)
open Lib OrderedStore List Option Entry

variable {S : OrderedStore}

variable {r next : Remote} {prior : ℕ}

/-- How many passwords were sealed under a key version. -/
def Keys.seals (keys : Keys) (kv : String) : ℕ :=
  (keys.versions.lookup kv).elim 0 KeyVersion.seals

def PutRemote.wellFormed (op : PutRemote) : Bool :=
  validRemoteName op.record.name && op.record.id ≠ "" && sealedEnvelope op.record.credential

/-- The record a create stores. -/
def PutRemote.stored (op : PutRemote) : Remote :=
  { op.record with
    credentialVersion := 1, revision := 1, passwordSetAtMs := op.sealedAtMs, passwordSetBy := op.actor,
    createdAtMs := op.sealedAtMs, createdBy := op.actor }

def SealedCredential.wellFormed (s : SealedCredential) : Bool :=
  sealedEnvelope s.credential && s.sealedAgainst.isSome

/-- The key version under which a well-formed entry carries a sealed password. -/
def Entry.sealsUnder : Entry → Option String
  | .putRemote op => if op.wellFormed then some op.record.credential.kv else none
  | .updateRemote op => op.sealed.bind fun s => if s.wellFormed then some s.credential.kv else none
  | _ => none

section

variable {env : Env} {db db' : Tables S} {refused : Option Err}

theorem utf8ByteSize_le (s : String) : s.utf8ByteSize ≤ 4 * s.toList.length := by
  have hlist : ∀ l : List Char, (String.ofList l).utf8ByteSize ≤ 4 * l.length := by
    intro l
    induction l with
    | nil => simp
    | cons c l ih =>
      have hcons : String.ofList (c :: l) = String.singleton c ++ String.ofList l := by simp
      rw [hcons, String.utf8ByteSize_append, String.utf8ByteSize_singleton, length_cons]
      have := Char.utf8Size_le_four c
      omega
  simpa using hlist s.toList

variable {name : String}

/-- The name of a remote can be a key. -/
theorem putRecord_of_validRemoteName {α : Type} (b : S.Bucket α) (value : α)
    (h : validRemoteName name = true) : putRecord b name value = .ok (b.insert name value) := by
  have hput : b.put name value = .ok (b.insert name value) := by
    rw [Bucket.put_eq_ok]
    unfold validRemoteName at h
    split at h
    · cases h
    next c cs hlist =>
      simp only [Bool.and_eq_true, decide_eq_true_eq] at h
      have hsize := utf8ByteSize_le name
      rw [hlist, length_cons] at hsize
      have hlen : cs.length ≤ 62 := h.1.2
      refine ⟨?_, ?_, rfl⟩
      · rintro rfl
        simp at hlist
      · rw [maxKeySize]
        omega
  simp only [putRecord, hput]

variable (keys : Keys)

theorem countSeal_seals (kv k : String) (sealedAtMs : ℤ) :
    (countSeal keys kv sealedAtMs).1.seals k = keys.seals k + if k = kv then 1 else 0 := by
  unfold countSeal
  split
  next hnone =>
    rcases eq_or_ne k kv with rfl | hne
    · simp [Keys.seals, Dict.lookup_insert, hnone]
    · simp [Keys.seals, Dict.lookup_insert, hne]
  next v hsome =>
    rcases eq_or_ne k kv with rfl | hne
    · simp [Keys.seals, Dict.lookup_insert, hsome]
    · simp [Keys.seals, Dict.lookup_insert, hne]

theorem countSeal_prior (kv : String) (sealedAtMs : ℤ) : (countSeal keys kv sealedAtMs).2 = keys.seals kv := by
  unfold countSeal
  split <;> simp_all [Keys.seals]

theorem countSeal_salt (kv : String) (sealedAtMs : ℤ) : (countSeal keys kv sealedAtMs).1.salt = keys.salt := by
  unfold countSeal
  split <;> rfl

/-- The keys as a create's seal leaves them. -/
def PutRemote.counted (op : PutRemote) (db : Tables S) : Keys :=
  (countSeal db.remoteKeys op.record.credential.kv op.sealedAtMs).1

/-- A create that is well formed is counted, and stored unless it is refused. -/
theorem applyPutRemote_eq (op : PutRemote) : applyPutRemote db op = if op.wellFormed then
        match checkPutRemote db op (op.counted db) (db.remoteKeys.seals op.record.credential.kv) with
        | .error e => .ok ({ db with remoteKeys := op.counted db }, some e)
        | .ok () =>
          .ok ({ db with
            remotes := db.remotes.insert op.record.name op.stored
            remoteKeys := { op.counted db with salt := (op.counted db).salt.or (some op.salt) } }, none)
      else .error .malformed := by
  by_cases hwf : op.wellFormed = true
  · have hparts : validRemoteName op.record.name = true ∧ op.record.id ≠ "" ∧
        sealedEnvelope op.record.credential = true := by
      simpa [PutRemote.wellFormed, and_assoc] using hwf
    have hput := putRecord_of_validRemoteName db.remotes op.stored hparts.1
    have hpass : ¬(validRemoteName op.record.name = false ∨ op.record.id = "" ∨
        sealedEnvelope op.record.credential = false) := by simp [hparts]
    rw [if_pos hwf, applyPutRemote, refuse, if_neg hpass,
      ← countSeal_prior db.remoteKeys op.record.credential.kv op.sealedAtMs]
    simp only [PutRemote.counted, bind, Except.bind]
    cases checkPutRemote db op _ (countSeal db.remoteKeys op.record.credential.kv op.sealedAtMs).2 with
    | error e => rfl
    | ok _ =>
      simp only [PutRemote.stored] at hput
      simp only [putRemote, hput, PutRemote.stored, bind, Except.bind, pure, Except.pure]
  · have hfail : validRemoteName op.record.name = false ∨ op.record.id = "" ∨
        sealedEnvelope op.record.credential = false := by
      by_contra hnot
      simp only [not_or, Bool.not_eq_false] at hnot
      exact hwf (by simp [PutRemote.wellFormed, hnot])
    rw [if_neg hwf, applyPutRemote, refuse, if_pos hfail]
    rfl

/-- What an update that goes through makes of the stored record. -/
structure Rewrites (env : Env) (op : UpdateRemote) (prior : ℕ) (r next : Remote) : Prop where
  name : next.name = r.name
  id : next.id = r.id
  plain : op.sealed = none → next.url = r.url ∧ next.username = r.username ∧ next.caPem = r.caPem ∧
    next.credential = r.credential
  resealed : ∀ s, op.sealed = some s → next.credential = s.credential ∧
    next.credentialVersion = r.credentialVersion + 1 ∧ tupleOf env next ≠ none ∧
    tupleOf env next = s.sealedAgainst ∧ prior < sealCap

theorem applyRemoteFields_id {f : RemoteFields} (h : applyRemoteFields r f = .ok next) :
    next.name = r.name ∧ next.id = r.id ∧ next.credential = r.credential ∧
      next.credentialVersion = r.credentialVersion := by
  unfold applyRemoteFields at h
  split at h
  · cases h
    exact ⟨rfl, rfl, rfl, rfl⟩
  obtain ⟨_, -, h⟩ := bind_eq_ok.mp h
  cases h
  exact ⟨rfl, rfl, rfl, rfl⟩

variable {op : UpdateRemote}

theorem updatedRemote_rewrites (h : updatedRemote env r op prior = .ok next) : Rewrites env op prior r next := by
  simp only [updatedRemote, bind_eq_ok] at h
  obtain ⟨fields, hfields, _, hcheck, h⟩ := h
  obtain ⟨hname, hid, hcred, hversion⟩ := applyRemoteFields_id hfields
  simp only [checkRemoteUpdate, bind_eq_ok, refuse_eq_ok, exists_const] at hcheck
  obtain ⟨-, hbound, -, hcheck⟩ := hcheck
  cases hsealed : op.sealed with
  | none =>
    rw [hsealed] at h
    cases h
    have hsame : fields.url = r.url ∧ fields.username = r.username ∧ fields.caPem = r.caPem := by
      simpa [hsealed, and_assoc] using hbound
    exact ⟨hname, hid, fun _ => ⟨hsame.1, hsame.2.1, hsame.2.2, hcred⟩, fun s hs => by simp [hsealed] at hs⟩
  | some s =>
    rw [hsealed] at h hcheck
    cases h
    simp only [bind_eq_ok, refuse_eq_ok, exists_const] at hcheck
    obtain ⟨htuple, hcap⟩ := hcheck
    rw [not_or, not_not] at htuple
    refine ⟨hname, hid, fun hnone => by simp [hsealed] at hnone, fun s' hs' => ?_⟩
    cases hsealed.symm.trans hs'
    exact ⟨rfl, rfl, htuple.1, htuple.2, Nat.lt_of_not_le hcap⟩

theorem getRemote_eq_ok {r : Remote} (h : getRemote db name = .ok r) : db.remotes.lookup name = some r := by
  unfold getRemote at h
  split at h
  · cases h
  next heq =>
    split at h <;> cases h
    exact heq

/-- An update that is well formed. -/
def UpdateRemote.wellFormed (op : UpdateRemote) : Bool :=
  op.sealed.all SealedCredential.wellFormed

/-- Every stored remote stands under its own name. -/
def Named (remotes : S.Bucket Remote) : Prop :=
  ∀ name r, remotes.lookup name = some r → r.name = name ∧ validRemoteName name = true

/-- An update that is well formed is counted, and written unless it is refused. -/
theorem applyUpdateRemote_eq (hnamed : Named db.remotes) (op : UpdateRemote) : applyUpdateRemote env db op =
      if op.wellFormed then
        match getRemote db op.name >>= fun r => updatedRemote env r op (countedSeal db op).2 with
        | .error e => .ok ({ db with remoteKeys := (countedSeal db op).1 }, some e)
        | .ok next =>
          .ok ({ db with
            remotes := db.remotes.insert next.name next, remoteKeys := (countedSeal db op).1 }, none)
      else .error .malformed := by
  have hiff : (∃ s ∈ op.sealed, sealedEnvelope s.credential = false ∨ s.sealedAgainst = none) ↔
      ¬op.wellFormed = true := by
    cases hs : op.sealed with
    | none => simp [UpdateRemote.wellFormed, hs]
    | some s => cases hc : s.sealedAgainst <;> simp [UpdateRemote.wellFormed, SealedCredential.wellFormed, hs, hc]
  by_cases hwf : op.wellFormed = true
  · have hbody : applyUpdateRemote env db op =
        match getRemote db op.name >>= fun r => updatedRemote env r op (countedSeal db op).2 with
        | .error e => .ok ({ db with remoteKeys := (countedSeal db op).1 }, some e)
        | .ok next => (·, none) <$> putRemote { db with remoteKeys := (countedSeal db op).1 } next := by
      rw [applyUpdateRemote, refuse, if_neg (by rw [hiff]; exact not_not.mpr hwf)]
      rfl
    rw [if_pos hwf, hbody]
    cases hnext : getRemote db op.name >>= fun r => updatedRemote env r op (countedSeal db op).2 with
    | error e => rfl
    | ok next =>
      obtain ⟨r, hr, hupdated⟩ := bind_eq_ok.mp hnext
      have hname := (updatedRemote_rewrites hupdated).name
      obtain ⟨hself, hvalid⟩ := hnamed _ _ (getRemote_eq_ok hr)
      have hvalid' : validRemoteName next.name = true := by rw [hname, hself]; exact hvalid
      simp only [putRemote, putRecord_of_validRemoteName db.remotes next hvalid', bind, Except.bind]
      rfl
  · rw [if_neg hwf, applyUpdateRemote, refuse, if_pos (hiff.mpr hwf)]
    rfl

/-- What an entry can make of the stored remotes. -/
inductive RemoteStep (env : Env) (db : Tables S) (e : Entry) : S.Bucket Remote → Prop
  | kept : RemoteStep env db e db.remotes
  | created {op : PutRemote} (he : e = .putRemote op) (hvalid : validRemoteName op.record.name = true)
    (hfree : db.remotes.lookup op.record.name = none)
    (hcap : db.remoteKeys.seals op.record.credential.kv < sealCap) :
    RemoteStep env db e (db.remotes.insert op.record.name op.stored)
  | updated {op : UpdateRemote} {r next : Remote} (he : e = .updateRemote op)
    (hr : db.remotes.lookup op.name = some r)
    (hnext : Rewrites env op (countedSeal db op).2 r next) :
    RemoteStep env db e (db.remotes.insert op.name next)
  | deleted {name : String} {force : Bool} (he : e = .deleteRemote name force) :
    RemoteStep env db e (db.remotes.erase name)

/-- What an entry makes of the key accounting. -/
structure KeysStep (e : Entry) (keys keys' : Keys) : Prop where
  seals : ∀ kv, keys'.seals kv = keys.seals kv + if e.sealsUnder = some kv then 1 else 0
  salt : ∀ x, keys.salt = some x → keys'.salt = some x

theorem KeysStep.of_eq {e : Entry} {keys keys' : Keys} (h : keys' = keys) (he : e.sealsUnder = none) :
    KeysStep e keys keys' where
  seals kv := by simp [h, he]
  salt x hx := by rw [h, hx]

theorem checkPutRemote_eq_ok {op : PutRemote} {keys : Keys} {u : Unit} (h : checkPutRemote db op keys prior = .ok u) :
    prior < sealCap ∧ db.remotes.lookup op.record.name = none := by
  simp only [checkPutRemote, bind_eq_ok, refuse_eq_ok, exists_const] at h
  obtain ⟨-, hcap, hfree, -⟩ := h
  exact ⟨Nat.lt_of_not_le hcap, by simpa using hfree⟩

theorem applyPutRemote_steps {op : PutRemote} (h : applyPutRemote db op = .ok (db', refused)) :
    RemoteStep env db (.putRemote op) db'.remotes ∧ KeysStep (.putRemote op) db.remoteKeys db'.remoteKeys := by
  rw [applyPutRemote_eq] at h
  split at h
  next hwf =>
    have hseals : ∀ kv, (op.counted db).seals kv =
        db.remoteKeys.seals kv + if sealsUnder (.putRemote op) = some kv then 1 else 0 := by
      intro kv
      rw [PutRemote.counted, countSeal_seals]
      simp [sealsUnder, hwf, eq_comm]
    have hsalt : (op.counted db).salt = db.remoteKeys.salt := countSeal_salt ..
    split at h <;> cases h
    · exact ⟨.kept, hseals, fun x hx => hsalt.trans hx⟩
    next hcheck =>
      obtain ⟨hcap, hfree⟩ := checkPutRemote_eq_ok hcheck
      have hvalid : validRemoteName op.record.name = true := by
        simp only [PutRemote.wellFormed, Bool.and_eq_true] at hwf
        exact hwf.1.1
      exact ⟨.created rfl hvalid hfree hcap, hseals, fun x hx => by simp [hsalt, hx]⟩
  · cases h

theorem countedSeal_keysStep (db : Tables S) (hwf : op.wellFormed = true) :
    KeysStep (.updateRemote op) db.remoteKeys (countedSeal db op).1 := by
  cases hs : op.sealed with
  | none =>
    refine .of_eq ?_ ?_
    · simp [countedSeal, hs]
    · simp [sealsUnder, hs]
  | some s =>
    have hswf : s.wellFormed = true := by simpa [UpdateRemote.wellFormed, hs] using hwf
    have hcounted : (countedSeal db op).1 = (countSeal db.remoteKeys s.credential.kv op.sealedAtMs).1 := by
      simp [countedSeal, hs]
    rw [hcounted]
    refine ⟨fun kv => ?_, fun x hx => (countSeal_salt ..).trans hx⟩
    rw [countSeal_seals]
    simp only [sealsUnder, hs, hswf, bind_some, if_true, some.injEq, eq_comm (a := kv)]

theorem applyUpdateRemote_steps (hnamed : Named db.remotes) (h : applyUpdateRemote env db op = .ok (db', refused)) :
    RemoteStep env db (.updateRemote op) db'.remotes ∧ KeysStep (.updateRemote op) db.remoteKeys db'.remoteKeys := by
  rw [applyUpdateRemote_eq hnamed] at h
  split at h
  next hwf =>
    have hkeys := countedSeal_keysStep db hwf
    split at h <;> cases h
    · exact ⟨.kept, hkeys⟩
    next next hnext =>
      obtain ⟨r, hr, hupdated⟩ := bind_eq_ok.mp hnext
      have hrewrites := updatedRemote_rewrites hupdated
      have hstored := getRemote_eq_ok hr
      have hname : next.name = op.name := hrewrites.name.trans (hnamed _ _ hstored).1
      rw [hname]
      exact ⟨.updated rfl hstored hrewrites, hkeys⟩
  · cases h

end

/-- The transaction of an entry that goes through. -/
theorem Entry.transaction_remotes {env : Env} {db db' : Tables S} {e : Entry} {refused : Option Err}
    (hnamed : Named db.remotes) (h : e.transaction env db = some (.ok (db', refused))) :
    RemoteStep env db e db'.remotes ∧ KeysStep e db.remoteKeys db'.remoteKeys := by
  by_cases hwrites : e.writes .remotes = true
  · cases e with
    | putRemote op => exact applyPutRemote_steps (some.inj h)
    | updateRemote op => exact applyUpdateRemote_steps hnamed (some.inj h)
    | deleteRemote name force =>
      obtain ⟨_, -, h⟩ := bind_eq_ok.mp (of_map_eq_ok h)
      obtain ⟨_, -, h⟩ := bind_eq_ok.mp h
      cases h
      exact ⟨.deleted rfl, .of_eq rfl rfl⟩
    | _ => cases hwrites
  · have hframe := transaction_frame h
    have hremotes : db'.remotes = db.remotes := hframe .remotes (by simpa using hwrites)
    rw [hremotes]
    refine ⟨.kept, .of_eq (hframe .remoteKeys ?_) ?_⟩ <;> cases e <;> first | rfl | exact absurd rfl hwrites

/-- An entry whose transaction fails carries no well-formed seal. -/
theorem Entry.sealsUnder_of_error {env : Env} {db : Tables S} {e : Entry} {err : Err}
    (hnamed : Named db.remotes) (h : e.transaction env db = some (.error err)) : e.sealsUnder = none := by
  cases e with
  | putRemote op =>
    have h := some.inj h
    rw [applyPutRemote_eq] at h
    split at h
    · split at h <;> cases h
    next hwf => simp [sealsUnder, hwf]
  | updateRemote op =>
    have h := some.inj h
    rw [applyUpdateRemote_eq hnamed] at h
    split at h
    · split at h <;> cases h
    next hwf =>
      cases hs : op.sealed with
      | none => simp [UpdateRemote.wellFormed, hs] at hwf
      | some s =>
        have hswf : s.wellFormed = false := by simpa [UpdateRemote.wellFormed, hs] using hwf
        simp [sealsUnder, hs, hswf]
  | _ => rfl

/-- The entry is neither a replay nor past the point where the machine stopped, and it is stored. -/
def FSM.takes (s : FSM S) (l : LogEntry) : Bool :=
  !s.stopped && s.applied < l.index && l.stored

section

variable {env : Env} {s : FSM S}

theorem FSM.apply_remotes (env : Env) (hnamed : Named s.db.remotes) (l : LogEntry) :
    RemoteStep env s.db l.entry (s.apply env l).1.db.remotes := by
  rcases FSM.apply_db env s l with heq | ⟨refused, h⟩
  · rw [heq]
    exact .kept
  · exact (transaction_remotes hnamed h).1

/-- Exactly the well-formed seals that are taken are counted. -/
theorem FSM.apply_keys (hnamed : Named s.db.remotes) (l : LogEntry) : (∀ kv, (s.apply env l).1.db.remoteKeys.seals kv =
      s.db.remoteKeys.seals kv + if s.takes l ∧ l.entry.sealsUnder = some kv then 1 else 0) ∧
    ∀ x, s.db.remoteKeys.salt = some x → (s.apply env l).1.db.remoteKeys.salt = some x := by
  have hskip : ∀ db, db = s.db → (s.takes l = false ∨ l.entry.sealsUnder = none) → (∀ kv, db.remoteKeys.seals kv =
        s.db.remoteKeys.seals kv + if s.takes l ∧ l.entry.sealsUnder = some kv then 1 else 0) ∧
      ∀ x, s.db.remoteKeys.salt = some x → db.remoteKeys.salt = some x := by
    rintro _ rfl hnot
    refine ⟨fun kv => ?_, fun x hx => hx⟩
    rcases hnot with hnot | hnot <;> simp [hnot]
  unfold FSM.apply
  split
  next hstop => exact hskip _ rfl (.inl (by simp [FSM.takes, hstop]))
  split
  next hidx => exact hskip _ rfl (.inl (by simp [FSM.takes, not_lt.mpr hidx]))
  rename_i hstop hidx
  split
  next hnone =>
    have hunknown : l.entry.sealsUnder = none := by
      cases he : l.entry <;> simp [he, transaction, Tx.done] at hnone
      rfl
    exact hskip _ rfl (.inr hunknown)
  next err herr => exact hskip _ rfl (.inr (sealsUnder_of_error hnamed herr))
  next db refused hok =>
    split
    next hstored =>
      have hkeys := (transaction_remotes hnamed hok).2
      have htakes : s.takes l = true := by simp [FSM.takes, hstop, hstored, Nat.lt_of_not_le hidx]
      exact ⟨fun kv => by simpa [htakes, FSM.consume] using hkeys.seals kv, hkeys.salt⟩
    next hstored => exact hskip _ rfl (.inl (by simp [FSM.takes, hstored]))

theorem Named.step (hnamed : Named s.db.remotes) (l : LogEntry) : Named (s.apply env l).1.db.remotes := by
  have hstep := FSM.apply_remotes env hnamed l
  generalize (s.apply env l).1.db.remotes = remotes at hstep
  cases hstep with
  | kept => exact hnamed
  | @created op he hvalid hfree hcap =>
    intro name r hr
    rcases Bucket.of_lookup_insert hr with ⟨heq, rfl⟩ | ⟨-, hr⟩
    · exact ⟨heq.symm, heq ▸ hvalid⟩
    · exact hnamed name r hr
  | @updated op r next he hr hnext =>
    intro name r' hr'
    obtain ⟨hself, hvalid⟩ := hnamed _ _ hr
    rcases Bucket.of_lookup_insert hr' with ⟨heq, rfl⟩ | ⟨-, hr'⟩
    · exact ⟨(hnext.name.trans hself).trans heq.symm, heq ▸ hvalid⟩
    · exact hnamed name r' hr'
  | @deleted key force he =>
    intro name r hr
    exact hnamed name r (Bucket.of_lookup_erase hr).2

theorem run_named (env : Env) (entries : List LogEntry) : Named (run env entries).db.remotes := by
  induction entries using reverseRecOn with
  | nil =>
    intro name r hr
    simp [run, Bucket.lookup_empty] at hr
  | append_singleton es l ih =>
    rw [run_concat]
    exact ih.step l

/-- The entry was well sealed: a create against its own record, an update against the tuple it names. -/
def Entry.WellSealed (env : Env) (Sealed : Envelope → SealedTuple → Prop) : Entry → Prop
  | .putRemote op => ∃ t, tupleOf env op.record = some t ∧ Sealed op.record.credential t
  | .updateRemote op => ∀ c ∈ op.sealed, ∀ t ∈ c.sealedAgainst, Sealed c.credential t
  | _ => True

/-- The credential of a record was sealed against the record it sits on. -/
def Remote.Opens (env : Env) (Sealed : Envelope → SealedTuple → Prop) (r : Remote) : Prop :=
  ∃ t, tupleOf env r = some t ∧ Sealed r.credential t

variable {Sealed : Envelope → SealedTuple → Prop}

theorem Rewrites.opens {op : UpdateRemote} (h : Rewrites env op prior r next)
    (hr : r.Opens env Sealed) (hsealed : Entry.WellSealed env Sealed (.updateRemote op)) : next.Opens env Sealed := by
  cases hs : op.sealed with
  | none =>
    obtain ⟨hurl, husername, hca, hcred⟩ := h.plain hs
    obtain ⟨t, ht, hopen⟩ := hr
    refine ⟨t, ?_, hcred ▸ hopen⟩
    rw [← ht]
    simp only [tupleOf, h.name, h.id, hurl, husername, hca]
  | some c =>
    obtain ⟨hcred, -, hne, htuple, -⟩ := h.resealed c hs
    obtain ⟨t, ht⟩ := ne_none_iff_exists'.mp hne
    refine ⟨t, ht, ?_⟩
    rw [hcred]
    exact hsealed c hs t (htuple.symm.trans ht)

/-- After well-sealed entries every stored credential opens for its record. -/
theorem run_opens {entries : List LogEntry} (hsealed : ∀ l ∈ entries, l.entry.WellSealed env Sealed) :
    ∀ name r, (run env entries).db.remotes.lookup name = some r → r.Opens env Sealed := by
  induction entries using reverseRecOn with
  | nil =>
    intro name r hr
    simp [run, Bucket.lookup_empty] at hr
  | append_singleton es l ih =>
    have hopens := ih fun l' hl' => hsealed l' (mem_append_left _ hl')
    have hl := hsealed l (by simp)
    rw [run_concat]
    have hstep := FSM.apply_remotes env (run_named env es) l
    generalize ((run env es).apply env l).1.db.remotes = remotes at hstep
    cases hstep with
    | kept => exact hopens
    | @created op he hvalid hfree hcap =>
      intro name r hr
      rcases Bucket.of_lookup_insert hr with ⟨-, rfl⟩ | ⟨-, hr⟩
      · rw [he] at hl
        obtain ⟨t, ht, hopen⟩ := hl
        exact ⟨t, ht, hopen⟩
      · exact hopens name r hr
    | @updated op r next he hr hnext =>
      intro name r' hr'
      rcases Bucket.of_lookup_insert hr' with ⟨-, rfl⟩ | ⟨-, hr'⟩
      · exact hnext.opens (hopens _ _ hr) (he ▸ hl)
      · exact hopens name r' hr'
    | @deleted key force he =>
      intro name r hr
      exact hopens name r (Bucket.of_lookup_erase hr).2

/-- An entry that changes the address, the user or the certificates brings the credential it stores. -/
theorem rebound_by_update {l : LogEntry} {name : String} {r r' : Remote} (hnamed : Named s.db.remotes)
    (hr : s.db.remotes.lookup name = some r) (hr' : (s.apply env l).1.db.remotes.lookup name = some r')
    (hbound : r'.url ≠ r.url ∨ r'.username ≠ r.username ∨ r'.caPem ≠ r.caPem) :
    ∃ op c, l.entry = .updateRemote op ∧ op.sealed = some c ∧ r'.credential = c.credential ∧
      r'.credentialVersion = r.credentialVersion + 1 := by
  have hsame : r' = r → False := by
    rintro rfl
    simp at hbound
  have hstep := FSM.apply_remotes env hnamed l
  generalize (s.apply env l).1.db.remotes = remotes at hstep hr'
  cases hstep with
  | kept => exact (hsame (some.inj (hr'.symm.trans hr))).elim
  | @created op he hvalid hfree hcap =>
    rcases Bucket.of_lookup_insert hr' with ⟨heq, -⟩ | ⟨-, hr'⟩
    · rw [heq, hfree] at hr
      cases hr
    · exact (hsame (some.inj (hr'.symm.trans hr))).elim
  | @updated op r₀ next he hr₀ hnext =>
    rcases Bucket.of_lookup_insert hr' with ⟨heq, rfl⟩ | ⟨-, hr'⟩
    · obtain rfl : r₀ = r := some.inj (hr₀.symm.trans (heq ▸ hr))
      cases hs : op.sealed with
      | none =>
        obtain ⟨hurl, husername, hca, -⟩ := hnext.plain hs
        simp [hurl, husername, hca] at hbound
      | some c =>
        obtain ⟨hcred, hversion, -⟩ := hnext.resealed c hs
        exact ⟨op, c, he, hs, hcred, hversion⟩
    · exact (hsame (some.inj (hr'.symm.trans hr))).elim
  | @deleted key force he =>
    exact (hsame (some.inj ((Bucket.of_lookup_erase hr').2.symm.trans hr))).elim

/-- How many well-formed seals under a key version the entries bring, counting only those taken. -/
def sealsTaken (env : Env) (kv : String) : FSM S → List LogEntry → ℕ
  | _, [] => 0
  | s, l :: ls =>
    (if s.takes l ∧ l.entry.sealsUnder = some kv then 1 else 0) + sealsTaken env kv (s.apply env l).1 ls

theorem foldl_seals (env : Env) (kv : String) (entries : List LogEntry) (hnamed : Named s.db.remotes) :
    (entries.foldl (fun s l => (s.apply env l).1) s).db.remoteKeys.seals kv =
      s.db.remoteKeys.seals kv + sealsTaken env kv s entries := by
  induction entries generalizing s with
  | nil => rfl
  | cons l entries ih =>
    rw [foldl_cons, ih (hnamed.step l), (FSM.apply_keys hnamed l).1 kv, sealsTaken, add_assoc]

theorem foldl_salt {x : Bytes} (entries : List LogEntry) (hnamed : Named s.db.remotes)
    (hsalt : s.db.remoteKeys.salt = some x) :
    (entries.foldl (fun s l => (s.apply env l).1) s).db.remoteKeys.salt = some x := by
  induction entries generalizing s with
  | nil => exact hsalt
  | cons l entries ih => exact ih (hnamed.step l) ((FSM.apply_keys hnamed l).2 x hsalt)

/-- Under an exhausted key version nothing is stored, and the entry is refused. -/
theorem exhausted_refused {l : LogEntry} {kv : String} (hnamed : Named s.db.remotes)
    (hcap : sealCap ≤ s.db.remoteKeys.seals kv) (hkv : l.entry.sealsUnder = some kv) (htakes : s.takes l = true) :
    (s.apply env l).1.db.remotes = s.db.remotes ∧ ∃ e, (s.apply env l).2 = .refused e := by
  obtain ⟨⟨hstop, hidx⟩, hstored⟩ : (s.stopped = false ∧ s.applied < l.index) ∧ l.stored = true := by
    simpa [FSM.takes] using htakes
  -- both handlers answer with a refusal, whatever other check fails first
  have hrefuse : ∃ keys e, l.entry.transaction env s.db =
      some (.ok ({ s.db with remoteKeys := keys }, some e)) := by
    cases he : l.entry with rw [he] at hkv
    | putRemote op =>
      have hwf : op.wellFormed = true := by
        by_contra hwf
        simp [sealsUnder, hwf] at hkv
      have hk : op.record.credential.kv = kv := by simpa [sealsUnder, hwf] using hkv
      rw [transaction, applyPutRemote_eq, if_pos hwf, hk]
      cases hcheck : checkPutRemote s.db op (op.counted s.db) (s.db.remoteKeys.seals kv) with
      | error e => exact ⟨_, e, rfl⟩
      | ok u => exact absurd (checkPutRemote_eq_ok hcheck).1 (not_lt.mpr hcap)
    | updateRemote op =>
      obtain ⟨c, hc, hcwf⟩ := bind_eq_some_iff.mp hkv
      have hcw : c.wellFormed = true := by
        by_contra hwf
        simp [hwf] at hcwf
      have hk : c.credential.kv = kv := by simpa [hcw] using hcwf
      have hwf : op.wellFormed = true := by simp [UpdateRemote.wellFormed, hc, hcw]
      have hprior : (countedSeal s.db op).2 = s.db.remoteKeys.seals kv := by
        simp [countedSeal, hc, countSeal_prior, hk]
      rw [transaction, applyUpdateRemote_eq hnamed, if_pos hwf]
      cases hnext : getRemote s.db op.name >>= fun r => updatedRemote env r op (countedSeal s.db op).2 with
      | error e => exact ⟨_, e, rfl⟩
      | ok next =>
        obtain ⟨r, -, hupdated⟩ := bind_eq_ok.mp hnext
        have hlt := ((updatedRemote_rewrites hupdated).resealed c hc).2.2.2.2
        rw [hprior] at hlt
        exact absurd hlt (not_lt.mpr hcap)
    | _ => simp [sealsUnder] at hkv
  obtain ⟨keys, e, htx⟩ := hrefuse
  have happly : s.apply env l = (s.consume l.index { s.db with remoteKeys := keys }, .refused e) := by
    simp [FSM.apply, hstop, not_le.mpr hidx, htx, hstored]
  rw [happly]
  exact ⟨rfl, e, rfl⟩

end

/-- After any entries that were well sealed: every stored credential opens for the record it sits on; a
change of the address, the user or the certificates brings its credential; records of one run share a
credential only when they have the same tuple; the salt stays; the seals of each key version are
counted, and none is accepted beyond the cap. -/
theorem remote_credentials_stay_bound (env : Env) (Sealed : Envelope → SealedTuple → Prop)
    (entries : List LogEntry) (hsealed : ∀ l ∈ entries, l.entry.WellSealed env Sealed) :
    (∀ name r, (run env entries).db.remotes.lookup name = some r → r.Opens env Sealed) ∧
    (∀ l name r r', (run env entries).db.remotes.lookup name = some r →
      ((run env entries).apply env l).1.db.remotes.lookup name = some r' →
      (r'.url ≠ r.url ∨ r'.username ≠ r.username ∨ r'.caPem ≠ r.caPem) →
      ∃ op c, l.entry = .updateRemote op ∧ op.sealed = some c ∧ r'.credential = c.credential ∧
        r'.credentialVersion = r.credentialVersion + 1) ∧
    ((∀ c t t', Sealed c t → Sealed c t' → t = t') → ∀ earlier, earlier <+: entries →
      ∀ name name' r r', (run env earlier).db.remotes.lookup name = some r →
        (run env entries).db.remotes.lookup name' = some r' → r'.credential = r.credential →
        tupleOf env r' = tupleOf env r ∧ r'.name = r.name ∧ r'.id = r.id ∧ r'.url = r.url ∧ r'.username = r.username) ∧
    (∀ earlier x, earlier <+: entries → (run env earlier).db.remoteKeys.salt = some x →
      (run env entries).db.remoteKeys.salt = some x) ∧
    (∀ kv, (run env entries).db.remoteKeys.seals kv = sealsTaken env kv (S := env.store) {} entries) ∧
    (∀ kv l, sealCap ≤ (run env entries).db.remoteKeys.seals kv → l.entry.sealsUnder = some kv →
      (run env entries).takes l = true → ((run env entries).apply env l).1.db.remotes = (run env entries).db.remotes ∧
        ∃ e, ((run env entries).apply env l).2 = .refused e) := by
  refine ⟨run_opens hsealed, ?_, ?_, ?_, ?_, ?_⟩
  · intro l name r r' hr hr' hbound
    exact rebound_by_update (run_named env entries) hr hr' hbound
  · intro hone earlier hpre name name' r r' hr hr' hcred
    have hearlier : ∀ l ∈ earlier, l.entry.WellSealed env Sealed := fun l hl => hsealed l (hpre.subset hl)
    obtain ⟨t, ht, hopen⟩ := run_opens hearlier name r hr
    obtain ⟨t', ht', hopen'⟩ := run_opens hsealed name' r' hr'
    obtain rfl : t' = t := hone _ _ _ hopen' (hcred ▸ hopen)
    obtain ⟨anchor, -, rfl⟩ := map_eq_some_iff.mp ht
    obtain ⟨anchor', -, heq⟩ := map_eq_some_iff.mp ht'
    simp only [SealedTuple.mk.injEq] at heq
    exact ⟨ht'.trans ht.symm, heq.1, heq.2.1, heq.2.2.1, heq.2.2.2.1⟩
  · rintro earlier x ⟨rest, rfl⟩ hsalt
    rw [run_append]
    exact foldl_salt rest (run_named env earlier) hsalt
  · intro kv
    have hempty : Named ({} : FSM env.store).db.remotes := run_named env []
    have hcount := foldl_seals env kv entries hempty
    rw [run, hcount]
    simp [Keys.seals, Dict.lookup]
  · intro kv l hcap hkv htakes
    exact exhausted_refused (run_named env entries) hcap hkv htakes

/-- A remote is created, deleted, and created again from the same entry. -/
def recreated : List LogEntry :=
  [⟨1, .putWest, true⟩, ⟨2, .deleteRemote "west" false, true⟩, ⟨3, .putWest, true⟩]

/-- The one seal of `recreated`. -/
def westSeal (c : Envelope) (t : SealedTuple) : Prop :=
  c = ⟨1, "0123456789abcdef", [1]⟩ ∧ t = ⟨"west", "w1", "https", "u", ""⟩

instance (c : Envelope) (t : SealedTuple) : Decidable (westSeal c t) :=
  inferInstanceAs (Decidable (_ ∧ _))

theorem recreated_wellSealed : ∀ l ∈ recreated, l.entry.WellSealed plainEnv westSeal := by
  intro l hl
  simp only [recreated, mem_cons, not_mem_nil, or_false] at hl
  rcases hl with rfl | rfl | rfl
  · exact ⟨⟨"west", "w1", "https", "u", ""⟩, by decide +kernel, by decide +kernel⟩
  · trivial
  · exact ⟨⟨"west", "w1", "https", "u", ""⟩, by decide +kernel, by decide +kernel⟩

/-- The credential of the deleted remote stands again under the recreated name. -/
theorem deleted_credential_returns : (∀ l ∈ recreated, l.entry.WellSealed plainEnv westSeal) ∧
    ((run plainEnv (recreated.take 1)).db.remotes.lookup "west").map Remote.credential =
      some ⟨1, "0123456789abcdef", [1]⟩ ∧ (run plainEnv (recreated.take 2)).db.remotes.lookup "west" = none ∧
    ((run plainEnv recreated).db.remotes.lookup "west").map Remote.credential = some ⟨1, "0123456789abcdef", [1]⟩ :=
  ⟨recreated_wellSealed, by decide +kernel, by decide +kernel, by decide +kernel⟩

theorem recreated_bound : (run plainEnv recreated).db.remoteKeys.seals "0123456789abcdef" =
      sealsTaken plainEnv "0123456789abcdef" (S := .tree) {} recreated ∧
    (run plainEnv recreated).db.remoteKeys.salt = some [7] ∧
    ∀ name r, (run plainEnv recreated).db.remotes.lookup name = some r → r.Opens plainEnv westSeal := by
  have h := remote_credentials_stay_bound plainEnv westSeal recreated recreated_wellSealed
  exact ⟨h.2.2.2.2.1 _, h.2.2.2.1 (recreated.take 1) [7] (List.take_prefix 1 _) (by decide +kernel), h.1⟩

end Narad.Metastore
