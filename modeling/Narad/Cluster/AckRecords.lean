import Narad.Cluster.AckSlots
import Mathlib

/-!
# Where a record goes

A record's requests are read off two places: the request of the batch it joined, if its caller still waited
when the batch left, and the request of its own. A call has both only after the owner refused the batch
operation. The share a call takes from a batch is the one at the position its record had in the request.
-/

namespace Narad.Cluster.Ack

open Lib List

variable (w : Wire)

/-- The share of the record at a position of a request of `n` records, by what was answered. -/
def shareOf (n : ℕ) (answer : Option Response) (position : ℕ) : Out :=
  if n = 1 then singleOut answer else batchOut w n answer position

/-- What holds of one batch. -/
structure AckBatch.Fits (a : AckBatch) : Prop where
  gone : a.gone.length = a.items.length
  members : a.members.length = a.items.length
  live : ∀ k ∈ a.live, a.gone[k]? = some false
  nodup : a.live.Nodup
  queued : a.pc = .queued → a.live = []
  /-- A caller that waits when the batch has left is one of its live ones. -/
  left : a.pc ≠ .queued → ∀ k, a.gone[k]? = some false → k ∈ a.live
  early : a.pc = .queued ∨ a.pc = .leaving → a.request = none ∧ a.answer = none
  flying : a.pc = .waiting → a.request.isSome ∧ a.answer = none ∧ a.legacy = false
  outs : a.pc = .closing ∨ a.done = true → a.legacy = false → ∀ j k, a.live[j]? = some k →
    ∃ answer, a.request.isSome ∧ a.answer = some answer ∧ a.outs[k]? = some (shareOf w a.live.length answer j)
  legacy : a.legacy = true → a.request.isSome ∧ a.live.length ≠ 1 ∧
    ∃ res, a.answer = some (some res) ∧ isUnsupportedOp res = true

variable (s : State)

/-- The request of the batch a call's record left with. -/
def State.shared (c : Call) : Option ℕ :=
  c.place.bind fun p => (s.batches[p.1]?).bind fun a => if p.2 ∈ a.live then a.request else none

/-- Calls, batches and requests agree on which record is where. -/
structure State.Core (s : State) : Prop where
  place : ∀ (i : ℕ) (c : Call) (b k : ℕ), s.calls[i]? = some c → c.place = some (b, k) →
    ∃ a : AckBatch, s.batches[b]? = some a ∧ a.members[k]? = some i ∧ a.items[k]? = some c.item
  member : ∀ (b : ℕ) (a : AckBatch) (k i : ℕ), s.batches[b]? = some a → a.members[k]? = some i →
    ∃ c : Call, s.calls[i]? = some c ∧ c.place = some (b, k)
  batch : ∀ (b : ℕ) (a : AckBatch) (r : ℕ), s.batches[b]? = some a → a.request = some r →
    s.requests[r]? = some a.toRequest
  own : ∀ (i : ℕ) (c : Call) (r : ℕ), s.calls[i]? = some c → c.request = some r →
    s.requests[r]? = some (c.toRequest i)
  sends : ∀ (i : ℕ) (c : Call), s.calls[i]? = some c → s.sends i = (s.shared c).toList ++ c.request.toList
  carried : ∀ q ∈ s.requests, q.calls.Nodup ∧ ∀ (j i : ℕ), q.calls[j]? = some i →
    ∃ c : Call, s.calls[i]? = some c ∧ q.items[j]? = some c.item

/-- The batch a call's record left with was refused. -/
def State.Refused (c : Call) : Prop :=
  ∃ (b k : ℕ) (a : AckBatch), c.place = some (b, k) ∧ s.batches[b]? = some a ∧ a.pc ≠ .queued ∧ k ∈ a.live ∧
    a.legacy = true

/-- A call's answer, from its own request or from its batch. -/
def State.Answered (c : Call) (out : Out) : Prop :=
  (∃ answer, c.request.isSome ∧ c.answer = some answer ∧ out = singleOut answer) ∨
    ∃ (b k : ℕ) (a : AckBatch) (j : ℕ) (answer : Option Response), c.place = some (b, k) ∧
      s.batches[b]? = some a ∧ a.pc ≠ .queued ∧ a.request.isSome ∧ a.live[j]? = some k ∧
      a.answer = some answer ∧ out = shareOf w a.live.length answer j

/-- The caller waits at its place, or has left it. -/
def State.At (c : Call) (gone : Bool) : Prop :=
  ∃ (b k : ℕ) (a : AckBatch), c.place = some (b, k) ∧ s.batches[b]? = some a ∧ a.gone[k]? = some gone

/-- What a call knows at each place. -/
def State.Known (c : Call) : Prop :=
  match c.pc with
  | .arriving => c.place = none ∧ c.request = none
  | .sending slotted => c.request = none ∧ (c.place = none ∨ slotted = false ∧ s.Refused c)
  | .waiting slotted => c.request.isSome ∧ (c.place = none ∨ slotted = false ∧ s.Refused c)
  | .releasing out => c.place = none ∧ s.Answered w c out
  | .queued b k => c.request = none ∧ c.place = some (b, k) ∧ s.At c false
  | .late b k => c.request = none ∧ c.place = some (b, k) ∧ s.At c false
  | .returned .queueTimeout => c.request = none ∧ s.At c true
  | .returned .cancelled => c.request = none
  | .returned out => (c.place = none ∨ c.request = none ∨ s.Refused c) ∧ s.Answered w c out

structure State.Records (s : State) : Prop where
  core : s.Core
  fits : ∀ (b : ℕ) (a : AckBatch), s.batches[b]? = some a → a.Fits w
  known : ∀ (i : ℕ) (c : Call), s.calls[i]? = some c → s.Known w c

/-- What a batch keeps as it moves on. -/
structure AckBatch.Later (a a' : AckBatch) : Prop where
  gone : ∀ k : ℕ, a.gone[k]? = some true → a'.gone[k]? = some true
  left : a.pc ≠ .queued → a'.pc ≠ .queued ∧ a'.live = a.live
  request : ∀ r, a.request = some r → a'.request = some r
  answer : ∀ answer, a.answer = some answer → a'.answer = some answer
  legacy : a.legacy = true → a'.legacy = true

/-- Its records and its request stay as they are. -/
structure AckBatch.Kept (a a' : AckBatch) : Prop where
  items : a'.items = a.items
  members : a'.members = a.members
  request : a'.request = a.request
  live : a'.live = a.live ∨ a.request = none

structure Call.Kept (c c' : Call) : Prop where
  item : c'.item = c.item
  place : c'.place = c.place
  request : c'.request = c.request

variable {w} {s s' : State}

theorem State.sends_append (q : Request) (i : ℕ) : State.sends { s with requests := s.requests ++ [q] } i =
      s.sends i ++ if i ∈ q.calls then [s.requests.length] else [] := by
  unfold State.sends
  rw [length_append, length_singleton, range_succ, filter_append]
  congr 1
  · refine filter_congr fun r hr => ?_
    rw [getElem?_append_left (mem_range.mp hr)]
  · by_cases hi : i ∈ q.calls <;> simp [hi]

theorem AckBatch.Later.refl (a : AckBatch) : a.Later a :=
  ⟨fun _ h => h, fun h => ⟨h, rfl⟩, fun _ h => h, fun _ h => h, fun h => h⟩

variable {i : ℕ}

theorem State.getElem?_setCall {c : Call} (c' : Call) (hc : s.calls[i]? = some c) (j : ℕ) :
    (s.setCall i c').calls[j]? = if i = j then some c' else s.calls[j]? := by
  have hlt := (List.getElem?_eq_some_iff.mp hc).1
  rw [State.setCall, getElem?_set, if_pos hlt]

variable {a : AckBatch} {b : ℕ}

theorem State.getElem?_setBatch (a' : AckBatch) (ha : s.batches[b]? = some a) (j : ℕ) :
    (s.setBatch b a').batches[j]? = if b = j then some a' else s.batches[j]? := by
  have hlt := (List.getElem?_eq_some_iff.mp ha).1
  rw [State.setBatch, getElem?_set, if_pos hlt]

/-- Every position is filled, so they are filled in order. -/
theorem getElem?_filterMap_of_isSome {α β : Type*} {f : α → Option β} {l : List α}
    (h : ∀ x ∈ l, (f x).isSome) (j : ℕ) : (l.filterMap f)[j]? = (l[j]?).bind f := by
  induction l generalizing j with
  | nil => rfl
  | cons x l ih =>
    obtain ⟨y, hy⟩ := Option.isSome_iff_exists.mp (h x (.head _))
    rw [filterMap_cons_some hy]
    cases j with
    | zero => simp [hy]
    | succ j => simpa using ih (fun z hz => h z (.tail _ hz)) j

/-- The record at a position of a batch's request is that of the caller at the live position. -/
theorem AckBatch.Fits.calls (h : a.Fits w) (j : ℕ) :
    a.toRequest.calls[j]? = (a.live[j]?).bind fun k => a.members[k]? := by
  refine getElem?_filterMap_of_isSome (fun k hk => ?_) j
  have := (List.getElem?_eq_some_iff.mp (h.live k hk)).1
  rw [h.gone, ← h.members] at this
  simp [this]

theorem AckBatch.Fits.items (h : a.Fits w) (j : ℕ) :
    a.toRequest.items[j]? = (a.live[j]?).bind fun k => a.items[k]? := by
  refine getElem?_filterMap_of_isSome (fun k hk => ?_) j
  have := (List.getElem?_eq_some_iff.mp (h.live k hk)).1
  rw [h.gone] at this
  simp [this]

namespace State.Core

variable (h : s.Core)

include h

variable {c c' : Call}

/-- A call moves on with its record where it is. -/
theorem setCall (hc : s.calls[i]? = some c) (hkept : c.Kept c') : (s.setCall i c').Core := by
  obtain ⟨hplace, hmember, hbatch, hown, hsends, hcarried⟩ := h
  obtain ⟨hitem, hsame, hrequest⟩ := hkept
  have hcalls := State.getElem?_setCall c' hc
  constructor
  · grind [State.setCall]
  · grind [State.setCall]
  · exact hbatch
  · grind [State.setCall, Call.toRequest]
  · intro j d hd
    have hshared : (s.setCall i c').shared d = s.shared d := rfl
    have hlog : (s.setCall i c').sends j = s.sends j := rfl
    grind [State.shared]
  · grind [State.setCall]

/-- A batch moves on with its records and its request as they are. -/
theorem setBatch {a a' : AckBatch} (ha : s.batches[b]? = some a) (hkept : a.Kept a') : (s.setBatch b a').Core := by
  obtain ⟨hplace, hmember, hbatch, hown, hsends, hcarried⟩ := h
  obtain ⟨hitems, hmembers, hrequest, hlive⟩ := hkept
  have hbatches := State.getElem?_setBatch a' ha
  constructor
  · grind [State.setBatch]
  · grind [State.setBatch]
  · grind [State.setBatch, AckBatch.toRequest]
  · exact hown
  · intro j d hd
    have hlog : (s.setBatch b a').sends j = s.sends j := rfl
    have hshared : (s.setBatch b a').shared d = s.shared d := by
      unfold State.shared
      cases hp : d.place with
      | none => rfl
      | some p => grind
    rw [hlog, hshared]
    exact hsends j d hd
  · exact hcarried

/-- A call sends its record on its own. -/
theorem sendOwn (hc : s.calls[i]? = some c) (hitem : c'.item = c.item)
    (hsame : c'.place = c.place) (hnone : c.request = none) (hrequest : c'.request = some s.requests.length) :
    ({ s with requests := s.requests ++ [c.toRequest i] }.setCall i c').Core := by
  obtain ⟨hplace, hmember, hbatch, hown, hsends, hcarried⟩ := h
  have hcalls : ∀ j : ℕ, ({ s with requests := s.requests ++ [c.toRequest i] }.setCall i c').calls[j]? =
      if i = j then some c' else s.calls[j]? := State.getElem?_setCall _ hc
  constructor
  · grind [State.setCall]
  · grind [State.setCall]
  · grind [State.setCall]
  · grind [State.setCall, Call.toRequest]
  · intro j d hd
    have hlog : ({ s with requests := s.requests ++ [c.toRequest i] }.setCall i c').sends j =
        s.sends j ++ if j ∈ (c.toRequest i).calls then [s.requests.length] else [] := State.sends_append _ j
    have hshared : ({ s with requests := s.requests ++ [c.toRequest i] }.setCall i c').shared d = s.shared d := rfl
    grind [State.shared, Call.toRequest]
  · grind [State.setCall, Call.toRequest]

/-- A batch sends the records of the callers that wait. -/
theorem sendBatch {a a' : AckBatch} (ha : s.batches[b]? = some a) (hfits : a.Fits w)
    (hitems : a'.items = a.items) (hmembers : a'.members = a.members) (hlive : a'.live = a.live)
    (hnone : a.request = none) (hrequest : a'.request = some s.requests.length)
    (hfirst : ∀ (i : ℕ) (c : Call) (k : ℕ), s.calls[i]? = some c → c.place = some (b, k) → c.request = none) :
    ({ s with requests := s.requests ++ [a.toRequest] }.setBatch b a').Core := by
  have hinjective (k k' i : ℕ) (hk : a.members[k]? = some i) (hk' : a.members[k']? = some i) : k = k' := by
    have hplace := h.member b a k i ha hk
    have hplace' := h.member b a k' i ha hk'
    grind
  obtain ⟨hplace, hmember, hbatch, hown, hsends, hcarried⟩ := h
  have hbatches : ∀ j : ℕ, ({ s with requests := s.requests ++ [a.toRequest] }.setBatch b a').batches[j]? =
      if b = j then some a' else s.batches[j]? := State.getElem?_setBatch _ ha
  constructor
  · grind [State.setBatch]
  · grind [State.setBatch]
  · grind [State.setBatch, AckBatch.toRequest]
  · grind [State.setBatch]
  · intro j d hd
    have hlog : ({ s with requests := s.requests ++ [a.toRequest] }.setBatch b a').sends j =
        s.sends j ++ if j ∈ a.toRequest.calls then [s.requests.length] else [] := State.sends_append _ j
    have hmem : j ∈ a.toRequest.calls ↔ ∃ k ∈ a.live, a.members[k]? = some j := mem_filterMap
    rw [hlog, hsends j d hd]
    unfold State.shared
    cases hp : d.place with
    | none | some => grind [State.setBatch]
  · intro q hq
    rcases mem_append.mp hq with hq | hq
    · exact hcarried q hq
    rw [mem_singleton.mp hq]
    refine ⟨List.Nodup.filterMap hinjective hfits.nodup, fun j i hi => ?_⟩
    rw [hfits.calls, Option.bind_eq_some_iff] at hi
    obtain ⟨k, hk, hm⟩ := hi
    have hrecord := hfits.items j
    grind [State.setBatch]

/-- A record joins a batch that has not left, or opens one. -/
theorem join (hold : s.batches[b]? = some a ∨ s.batches[b]? = none ∧ a = {})
    (hfits : a.Fits w) (hqueued : a.pc = .queued) (hc : s.calls[i]? = some c)
    (hnone : c.place = none) (hfresh : c.request = none) (hitem : c'.item = c.item)
    (hjoined : c'.place = some (b, a.items.length)) (hrequest : c'.request = none) {batches : List AckBatch}
    (hbatches : ∀ j : ℕ, batches[j]? = if b = j then some (a.add i c.item) else s.batches[j]?) {queue : List ℕ} :
    ({ s with batches := batches, queue := queue }.setCall i c').Core := by
  obtain ⟨hplace, hmember, hbatch, hown, hsends, hcarried⟩ := h
  have hcalls : ∀ j : ℕ, ({ s with batches := batches, queue := queue }.setCall i c').calls[j]? =
      if i = j then some c' else s.calls[j]? := State.getElem?_setCall _ hc
  have hlength := hfits.members
  have hlive := hfits.queued hqueued
  have hunsent := (hfits.early (.inl hqueued)).1
  constructor
  · grind [State.setCall, AckBatch.add]
  · grind [State.setCall, AckBatch.add]
  · grind [State.setCall, AckBatch.add]
  · grind [State.setCall, Call.toRequest]
  · intro j d hd
    have hlog : ({ s with batches := batches, queue := queue }.setCall i c').sends j = s.sends j := rfl
    rw [hlog]
    unfold State.shared
    cases hp : d.place with
    | none => grind [State.shared]
    | some p => grind [State.shared, State.setCall, AckBatch.add]
  · grind [State.setCall]

/-- A new call. -/
theorem forward {c : Call} (hnone : c.place = none) (hrequest : c.request = none) :
    State.Core { s with calls := s.calls ++ [c] } := by
  have hfresh : s.sends s.calls.length = [] := by
    refine filter_eq_nil_iff.mpr fun r _ hmem => ?_
    cases hq : s.requests[r]? with
    | none => simp [hq] at hmem
    | some q =>
      rw [hq, Option.any_some, decide_eq_true_eq] at hmem
      obtain ⟨j, hj⟩ := mem_iff_getElem?.mp hmem
      obtain ⟨d, hd, -⟩ := (h.carried q (mem_of_getElem? hq)).2 j _ hj
      simp at hd
  obtain ⟨hplace, hmember, hbatch, hown, hsends, hcarried⟩ := h
  constructor
  · grind
  · grind
  · exact hbatch
  · grind
  · intro j d hd
    have hlog : State.sends { s with calls := s.calls ++ [c] } j = s.sends j := rfl
    have hshared : State.shared { s with calls := s.calls ++ [c] } d = s.shared d := rfl
    grind [State.shared]
  · grind

end State.Core

end Narad.Cluster.Ack
