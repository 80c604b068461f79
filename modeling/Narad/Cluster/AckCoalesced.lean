import Narad.Cluster.AckRecords

/-!
# Ack coalescing loses, duplicates and crosses nothing

In every run the slots, the places of the records and the answers of the calls fit together: a record is
carried by at most one request, and by one more only after the owner refused the batch operation; a call
that gave up in the queue was never sent; and a call that returns a reply returns the one at its own
record's position.
-/

namespace Narad.Cluster.Ack

open Lib List Option State AckBatch

variable {w : Wire} {s s' : State} {a : AckBatch}

namespace AckBatch.Fits

variable {a : AckBatch} (h : a.Fits w)

include h

theorem add (hqueued : a.pc = .queued) (i : ℕ) (item : AckBatchItem) : (a.add i item).Fits w := by
  obtain ⟨hgone, hmembers, hlive, hnodup, hempty, hleft, hearly, hflying, houts, hlegacy⟩ := h
  constructor <;> grind [add, done]

theorem leave (hqueued : a.pc = .queued) (k : ℕ) : AckBatch.Fits w { a with gone := a.gone.set k true } := by
  obtain ⟨hgone, hmembers, hlive, hnodup, hempty, hleft, hearly, hflying, houts, hlegacy⟩ := h
  constructor <;> grind [done]

theorem depart (hqueued : a.pc = .queued) : a.depart.Fits w := by
  have hwaiting : ∀ k, k ∈ a.waiting ↔ a.gone[k]? = some false := by
    have := h.gone
    grind [waiting]
  have hnodup : a.waiting.Nodup := nodup_range.filter _
  obtain ⟨hgone, hmembers, hlive, -, hempty, hleft, hearly, hflying, houts, hlegacy⟩ := h
  constructor <;> grind [depart, done]

/-- The goroutine moves on without an answer: everyone left, the request goes out, or the batch is closed. -/
theorem advance {pc : BatchPc} {request : Option ℕ} {outs : List Out} (hpc : a.pc ≠ .queued)
    (hpc' : pc ≠ .queued ∧ pc ≠ .leaving) (hrequest : a.request.isSome → request = a.request)
    (houts : pc = .waiting ∧ request.isSome ∧ a.pc = .leaving ∨
      pc ≠ .waiting ∧ (a.live = [] ∨ (a.pc = .closing ∨ a.done) ∧ outs = a.outs)) :
    AckBatch.Fits w { a with pc := pc, request := request, outs := outs } := by
  obtain ⟨hgone, hmembers, hlive, hnodup, hempty, hleft, hearly, hflying, hshares, hlegacy⟩ := h
  constructor <;> grind [done]

end AckBatch.Fits

/-- Each position that is set once holds what was set. -/
theorem getElem?_foldl_set {α : Type*} {f : ℕ → α} {l : List (ℕ × ℕ)} {outs : List α}
    (hnodup : (l.map Prod.fst).Nodup) {k j : ℕ} (hlt : k < outs.length) (hset : (k, j) ∈ l ∨
      k ∉ l.map Prod.fst ∧ outs[k]? = some (f j)) :
    (l.foldl (fun outs e => outs.set e.1 (f e.2)) outs)[k]? = some (f j) := by
  induction l generalizing outs with
  | nil => simpa using hset
  | cons e l ih =>
    rw [map_cons, nodup_cons] at hnodup
    refine ih hnodup.2 (by simpa using hlt) ?_
    grind

variable {answer : Option Response}

/-- A round trip that is over, with every live record's share or a refusal. -/
theorem AckBatch.Fits.settle (h : a.Fits w) (hpc : a.pc = .waiting) (hsent : a.request.isSome)
    {outs : List Out} {legacy : Bool}
    (houts : legacy = false → ∀ j k, a.live[j]? = some k → outs[k]? = some (shareOf w a.live.length answer j))
    (hlegacy : legacy = true → a.live.length ≠ 1 ∧ ∃ res, answer = some res ∧ isUnsupportedOp res = true) :
    AckBatch.Fits w { a with pc := .closing, answer := some answer, outs := outs, legacy := legacy } := by
  obtain ⟨hgone, hmembers, hlive, hnodup, hempty, hleft, hearly, -, -, -⟩ := h
  constructor <;> grind [done]

theorem AckBatch.Fits.answered (h : a.Fits w) (hpc : a.pc = .waiting) (answer : Option Response) :
    (a.answered w answer).Fits w := by
  obtain ⟨hsent, -, hfirst⟩ := h.flying hpc
  have hlt : ∀ k ∈ a.live, k < a.items.length := by
    intro k hk
    rw [← h.gone]
    exact (List.getElem?_eq_some_iff.mp (h.live k hk)).1
  unfold AckBatch.answered
  dsimp only
  split
  next k hk =>
    have hk' := hlt k (by simp [hk])
    refine h.settle hpc hsent (fun _ j k' hj => ?_) (by simp [hfirst])
    rw [hk] at hj ⊢
    cases j with
    | zero => simp_all [shareOf]
    | succ j => simp at hj
  next hmany =>
    have hlength : a.live.length ≠ 1 := fun hone => (length_eq_one_iff.mp hone).elim hmany
    split
    next hrefused =>
      cases answer with
      | none => simp at hrefused
      | some res => exact h.settle hpc hsent nofun fun _ => ⟨hlength, res, rfl, hrefused⟩
    next =>
      refine h.settle hpc hsent (fun _ j k hj => ?_) (by simp [hfirst])
      have hmem : (k, j) ∈ a.live.zipIdx := mk_mem_zipIdx_iff_getElem?.mpr hj
      rw [shareOf, if_neg hlength]
      exact getElem?_foldl_set (by simpa using h.nodup) (by simpa using hlt k (mem_of_getElem? hj)) (.inl hmem)

/-- Every batch is still there, and further on. -/
def State.Later (s s' : State) : Prop :=
  ∀ (b : ℕ) (a : AckBatch), s.batches[b]? = some a → ∃ a', s'.batches[b]? = some a' ∧ a.Later a'

variable {c : Call}

theorem State.Known.mono (h : s.Known w c) (hlater : s.Later s') (hwaits : s.At c false → s'.At c false) :
    s'.Known w c := by
  have hrefused : s.Refused c → s'.Refused c := by
    rintro ⟨b, k, a, hplace, ha, hpc, hk, hlegacy⟩
    obtain ⟨a', ha', hl⟩ := hlater b a ha
    exact ⟨b, k, a', hplace, ha', (hl.left hpc).1, by rw [(hl.left hpc).2]; exact hk, hl.legacy hlegacy⟩
  have hanswered : ∀ out, s.Answered w c out → s'.Answered w c out := by
    rintro out (hown | ⟨b, k, a, j, answer, hplace, ha, hpc, hsent, hj, hans, hout⟩)
    · exact .inl hown
    · obtain ⟨a', ha', hl⟩ := hlater b a ha
      obtain ⟨r, hr⟩ := isSome_iff_exists.mp hsent
      have hlive := (hl.left hpc).2
      exact .inr ⟨b, k, a', j, answer, hplace, ha', (hl.left hpc).1, by simp [hl.request r hr],
        hlive ▸ hj, hl.answer _ hans, hlive ▸ hout⟩
  have hgone : s.At c true → s'.At c true := by
    rintro ⟨b, k, a, hplace, ha, hk⟩
    obtain ⟨a', ha', hl⟩ := hlater b a ha
    exact ⟨b, k, a', hplace, ha', hl.gone k hk⟩
  unfold State.Known at h ⊢
  split <;> grind

/-- An answer is a reply or a failure. -/
theorem State.Answered.cases {out : Out} (h : s.Answered w c out) : (∃ res, out = .reply res) ∨ out = .failed := by
  rcases h with ⟨answer, -, -, rfl⟩ | ⟨b, k, a, j, answer, -, -, -, -, -, -, rfl⟩
  · unfold singleOut
    split <;> simp
  unfold shareOf singleOut batchOut
  repeat' split
  all_goals simp

theorem State.later_setBatch {b : ℕ} {a a' : AckBatch} (ha : s.batches[b]? = some a) (hlater : a.Later a') :
    s.Later (s.setBatch b a') := by
  have hbatches := getElem?_setBatch a' ha
  intro b' d hd
  have := AckBatch.Later.refl d
  grind

theorem State.setCall_cases {i j : ℕ} {c c' d : Call} (hc : s.calls[i]? = some c)
    (hd : (s.setCall i c').calls[j]? = some d) : i = j ∧ d = c' ∨ i ≠ j ∧ s.calls[j]? = some d := by
  rw [getElem?_setCall _ hc] at hd
  grind

namespace State.Records

variable (h : s.Records w)

include h

theorem slots (inflight : ℕ) (queue : List ℕ) : State.Records w { s with inflight := inflight, queue := queue } :=
  ⟨{ h.core with }, h.fits, h.known⟩

variable {i : ℕ}

theorem setCall {c c' : Call} (hc : s.calls[i]? = some c) (hkept : c.Kept c') (hknown : s.Known w c') :
    (s.setCall i c').Records w where
  core := h.core.setCall hc hkept
  fits := h.fits
  known := by
    intro j d hd
    rcases setCall_cases hc hd with ⟨-, rfl⟩ | ⟨-, hd⟩
    · exact hknown
    · exact h.known j d hd

variable {b : ℕ}

/-- A batch moves on, and no caller leaves it. -/
theorem setBatch {a a' : AckBatch} (ha : s.batches[b]? = some a) (hkept : a.Kept a') (hfits : a'.Fits w)
    (hlater : a.Later a') (hgone : a'.gone = a.gone) : (s.setBatch b a').Records w := by
  have hbatches := getElem?_setBatch a' ha
  refine ⟨h.core.setBatch ha hkept, ?_, fun i c hc => (h.known i c hc).mono (later_setBatch ha hlater) ?_⟩
  · have := h.fits
    grind
  · rintro ⟨b', k, d, hplace, hd, hk⟩
    unfold State.At
    grind

/-- A caller leaves a batch that has not left. -/
theorem leave {b k i : ℕ} {c c' : Call} (ha : s.batches[b]? = some a) (hqueued : a.pc = .queued)
    (hc : s.calls[i]? = some c) (hkept : c.Kept c') (hplace : c.place = some (b, k)) (hwaits : s.At c false)
    (hnone : c.request = none) (hpc : c'.pc = .returned .queueTimeout ∨ c'.pc = .returned .cancelled) :
    ((s.setBatch b { a with gone := a.gone.set k true }).setCall i c').Records w := by
  have hsame : a.Kept { a with gone := a.gone.set k true } := ⟨rfl, rfl, rfl, .inl rfl⟩
  have hbatches := getElem?_setBatch { a with gone := a.gone.set k true } ha
  have hlater : s.Later (s.setBatch b { a with gone := a.gone.set k true }) :=
    later_setBatch ha (by constructor <;> grind)
  have hcore := h.core
  refine ⟨(h.core.setBatch ha hsame).setCall hc hkept, ?_, fun j d hd => ?_⟩
  · have hfits := h.fits
    have hgone := (h.fits b a ha).leave hqueued k
    intro b' d hd
    change (s.setBatch b { a with gone := a.gone.set k true }).batches[b']? = some d at hd
    grind
  · rcases setCall_cases (s := s.setBatch b _) hc hd with ⟨-, rfl⟩ | ⟨hij, hd'⟩
    · obtain ⟨b', k', a', hplace', ha', hk'⟩ := hwaits
      have hat : (s.setBatch b { a with gone := a.gone.set k true }).At d true := by
        refine ⟨b, k, _, hkept.place.trans hplace, by rw [hbatches, if_pos rfl], ?_⟩
        grind
      have hrequest := hkept.request
      rcases hpc with hpc | hpc <;> simp only [State.Known, hpc]
      · exact ⟨hrequest.trans hnone, hat⟩
      · exact hrequest.trans hnone
    refine State.Known.mono (h.known j d hd') hlater ?_
    rintro ⟨b', k', a', hplace', ha', hk'⟩
    -- two calls have different places
    have hdifferent : ¬(b' = b ∧ k' = k) := by
      rintro ⟨rfl, rfl⟩
      have hmine := hcore.place i c _ _ hc hplace
      have htheirs := hcore.place j d _ _ hd' hplace'
      grind
    refine ⟨b', k', if b = b' then { a with gone := a.gone.set k true } else a', hplace', ?_, ?_⟩
    · show (s.setBatch b { a with gone := a.gone.set k true }).batches[b']? = _
      grind
    · grind

/-- A call sends its record on its own: the first time, or after the batch was refused. -/
theorem sendOwn (hc : s.calls[i]? = some c) {slotted : Bool} (hpc : c.pc = .sending slotted) :
    ({ s with requests := s.requests ++ [c.toRequest i] }.setCall i
      { c with pc := .waiting slotted, request := some s.requests.length }).Records w := by
  have hknown := h.known i c hc
  simp only [State.Known, hpc] at hknown
  refine ⟨h.core.sendOwn hc rfl rfl hknown.1 rfl, h.fits, fun j d hd => ?_⟩
  rcases setCall_cases (s := { s with requests := _ }) hc hd with ⟨-, rfl⟩ | ⟨-, hd⟩
  · exact ⟨rfl, hknown.2⟩
  · exact h.known j d hd

theorem sendBatch (ha : s.batches[b]? = some a) (hpc : a.pc = .leaving) :
    ({ s with requests := s.requests ++ [a.toRequest] }.setBatch b
      { a with pc := .waiting, request := some s.requests.length }).Records w := by
  have hfits := h.fits b a ha
  have hnone : a.request = none := (hfits.early (.inr hpc)).1
  have hfirst : ∀ (i : ℕ) (c : Call) (k : ℕ), s.calls[i]? = some c → c.place = some (b, k) → c.request = none := by
    intro i c k hc hplace
    have hknown := h.known i c hc
    have hlegacy := hfits.legacy
    unfold State.Known State.Refused State.Answered at hknown
    grind
  have hbatches : ∀ j : ℕ, ({ s with requests := s.requests ++ [a.toRequest] }.setBatch b
      { a with pc := .waiting, request := some s.requests.length }).batches[j]? =
      if b = j then some _ else s.batches[j]? := getElem?_setBatch _ ha
  refine ⟨h.core.sendBatch ha hfits rfl rfl rfl hnone rfl hfirst, ?_, fun i c hc => ?_⟩
  · have hsent : AckBatch.Fits w { a with pc := .waiting, request := some s.requests.length } :=
      hfits.advance (by simp [hpc]) (by simp) (by simp [hnone]) (.inl ⟨rfl, rfl, hpc⟩)
    have := h.fits
    grind
  · have hlater : a.Later { a with pc := .waiting, request := some s.requests.length } := by
      constructor <;> grind
    refine State.Known.mono (h.known i c hc) (later_setBatch (s := { s with requests := _ }) ha hlater) ?_
    rintro ⟨b', k, d, hplace, hd, hk⟩
    unfold State.At
    grind

/-- A call joins the batch at the tail of the queue. -/
theorem join (hc : s.calls[i]? = some c) (hpc : c.pc = .arriving)
    (hqueue : ∀ b ∈ s.queue, ∃ a, s.batches[b]? = some a ∧ a.pc = .queued) : ((s.join i c.item).1.setCall i
      { c with pc := .queued (s.join i c.item).2.1 (s.join i c.item).2.2,
               place := some (s.join i c.item).2 }).Records w := by
  have hknown := h.known i c hc
  simp only [State.Known, hpc] at hknown
  have hold : ∀ {b : ℕ} {a : AckBatch}, s.batches[b]? = some a ∨ s.batches[b]? = none ∧ a = {} → a.Fits w →
      a.pc = .queued → ∀ {batches : List AckBatch},
      (∀ j : ℕ, batches[j]? = if b = j then some (a.add i c.item) else s.batches[j]?) → ∀ queue : List ℕ,
      ({ s with batches := batches, queue := queue }.setCall i
        { c with pc := .queued b a.items.length, place := some (b, a.items.length) }).Records w := by
    intro b a hold hfits hqueued batches hbatches queue
    refine ⟨?_, ?_, fun j d hd => ?_⟩
    · refine h.core.join hold hfits hqueued hc hknown.1 hknown.2 ?_ ?_ ?_ hbatches
      · rfl
      · rfl
      · exact hknown.2
    · have hadd := hfits.add hqueued i c.item
      have := h.fits
      intro b' d hd
      change batches[b']? = some d at hd
      grind
    · have hgone := hfits.gone
      rcases setCall_cases (s := { s with batches := batches }) hc hd with ⟨-, rfl⟩ | ⟨-, hd'⟩
      · refine ⟨hknown.2, rfl, b, a.items.length, a.add i c.item, rfl, by simp [State.setCall, hbatches], ?_⟩
        simp [add, ← hgone]
      refine State.Known.mono (h.known j d hd') ?_ ?_
      · intro b' e he
        have := AckBatch.Later.refl e
        by_cases hb : b = b'
        · refine ⟨a.add i c.item, by simp [State.setCall, hbatches, hb], ?_⟩
          constructor <;> grind [add]
        · exact ⟨e, by simp [State.setCall, hbatches, hb, he], this⟩
      · rintro ⟨b', k, e, hplace, he, hk⟩
        refine ⟨b', k, if b = b' then a.add i c.item else e, hplace, by grind [State.setCall], ?_⟩
        grind [add]
  have hempty : AckBatch.Fits w {} := by constructor <;> grind [done]
  have hopen : ∀ j : ℕ, (s.batches ++ [add {} i c.item])[j]? =
      if s.batches.length = j then some (add {} i c.item) else s.batches[j]? := by
    intro j
    grind
  unfold State.join
  split
  next b a hlast =>
    obtain ⟨b', hb', hmap⟩ := bind_eq_some_iff.mp hlast
    obtain ⟨a', ha', hpair⟩ := map_eq_some_iff.mp hmap
    cases hpair
    obtain ⟨a', ha'', hqueued⟩ := hqueue b (mem_of_getLast? hb')
    obtain rfl : a = a' := by rw [ha'] at ha''; exact some.inj ha''
    split
    · exact hold (.inl ha') (h.fits b a ha') hqueued (fun j => getElem?_setBatch _ ha' j) s.queue
    · exact hold (.inr ⟨by simp, rfl⟩) hempty rfl hopen _
  next => exact hold (.inr ⟨by simp, rfl⟩) hempty rfl hopen _

theorem release (hqueue : ∀ b ∈ s.queue, ∃ a, s.batches[b]? = some a ∧ a.pc = .queued) :
    s.releaseAckSlot.Records w := by
  unfold releaseAckSlot
  split
  · exact h.slots _ s.queue
  next b rest hhead =>
    obtain ⟨a, ha, hpc⟩ := hqueue b (by simp [hhead])
    rw [ha]
    have hfits := h.fits b a ha
    have hkept : a.Kept a.depart := ⟨rfl, rfl, rfl, .inr (hfits.early (.inl hpc)).1⟩
    have hlater : a.Later a.depart := by constructor <;> grind [depart]
    exact (h.setBatch ha hkept (hfits.depart hpc) hlater rfl).slots s.inflight rest

/-- The batch is done: its share, or another try. -/
theorem collect (hc : s.calls[i]? = some c) {b k : ℕ}
    (hpc : c.pc = .queued b k ∨ c.pc = .late b k) (hstep : s.collect i c b k = some s') : s'.Records w := by
  obtain ⟨hnone, hplace, b', k', a, hplace', ha, hk⟩ : c.request = none ∧ c.place = some (b, k) ∧ s.At c false := by
    have hknown := h.known i c hc
    rcases hpc with hpc | hpc <;> simpa only [State.Known, hpc] using hknown
  obtain ⟨rfl, rfl⟩ : b = b' ∧ k = k' := by simpa [hplace] using hplace'
  unfold State.collect at hstep
  rw [ha] at hstep
  dsimp only at hstep
  split at hstep
  next hdone =>
    have hfits := h.fits b a ha
    have hsent : a.pc ≠ .queued := by grind [done]
    have hlive : k ∈ a.live := hfits.left hsent k hk
    split at hstep
    next hlegacy =>
      cases hstep
      exact h.setCall hc ⟨rfl, rfl, rfl⟩ ⟨hnone, .inr ⟨rfl, b, k, a, hplace, ha, hsent, hlive, hlegacy⟩⟩
    next hlegacy =>
      obtain ⟨out, hout, rfl⟩ := map_eq_some_iff.mp hstep
      obtain ⟨j, hj⟩ := mem_iff_getElem?.mp hlive
      obtain ⟨answer, hrequest, hanswer, hshare⟩ := hfits.outs (.inr hdone) (by simpa using hlegacy) j k hj
      have hsame : out = shareOf w a.live.length answer j := by
        rw [hout] at hshare
        exact some.inj hshare
      have hanswered : s.Answered w { c with pc := .returned out } out :=
        .inr ⟨b, k, a, j, answer, hplace, ha, hsent, hrequest, hj, hanswer, hsame⟩
      refine h.setCall hc ⟨rfl, rfl, rfl⟩ ?_
      obtain ⟨res, rfl⟩ | rfl := hanswered.cases <;> exact ⟨.inr (.inl hnone), hanswered⟩
  next => cases hstep

theorem stepCall (hslots : s.Slots 0) (hc : s.calls[i]? = some c) {wake : Wake}
    (hstep : s.stepCall i c wake answer = some s') : s'.Records w := by
  have hqueue : ∀ b ∈ s.queue, ∃ a, s.batches[b]? = some a ∧ a.pc = .queued := fun b hb => (hslots.queued b).mp hb
  have hknown := h.known i c hc
  unfold State.Known at hknown
  unfold State.stepCall at hstep
  cases hpc : c.pc <;> simp only [hpc] at hstep hknown
  case arriving =>
    split at hstep <;> cases hstep
    · exact (h.slots (s.inflight + 1) s.queue).setCall hc ⟨rfl, rfl, rfl⟩ ⟨hknown.2, .inl hknown.1⟩
    · exact h.join hc hpc hqueue
  case sending slotted =>
    cases hstep
    exact h.sendOwn hc hpc
  case waiting slotted =>
    cases hstep
    have hanswered : s.Answered w { c with answer := some answer } (singleOut answer) :=
      .inl ⟨answer, hknown.1, rfl, rfl⟩
    refine h.setCall hc ⟨rfl, rfl, rfl⟩ ?_
    cases slotted with
    | true => exact ⟨by simpa using hknown.2, hanswered⟩
    | false =>
      have hrefused : c.place = none ∨ c.request = none ∨ s.Refused c := by grind
      cases answer with
      | none | some => exact ⟨hrefused, hanswered⟩
  case releasing out =>
    cases hstep
    have hreturned : (s.setCall i { c with pc := .returned out }).Records w := by
      refine h.setCall hc ⟨rfl, rfl, rfl⟩ ?_
      obtain ⟨hnone, hanswered⟩ := hknown
      obtain ⟨res, rfl⟩ | rfl := hanswered.cases <;> exact ⟨.inl hnone, hanswered⟩
    exact hreturned.release hqueue
  case queued b k =>
    obtain ⟨hnone, hplace, hat⟩ := hknown
    obtain ⟨b', k', a, hplace', ha, hk⟩ := id hat
    obtain ⟨rfl, rfl⟩ : b = b' ∧ k = k' := by simpa [hplace] using hplace'
    have hleave : a.pc = .queued → s.leave b k = (s.setBatch b { a with gone := a.gone.set k true }, true) := by
      intro hqueued
      simp [State.leave, ha, AckBatch.sent, hqueued, State.setBatch]
    have hstay : a.pc ≠ .queued → s.leave b k = (s, false) := by
      intro hsent
      simp [State.leave, ha, AckBatch.sent, hsent]
    cases wake with
    | done => exact h.collect hc (.inl hpc) hstep
    | cancelled =>
      cases hstep
      by_cases hqueued : a.pc = .queued
      · rw [hleave hqueued]
        exact h.leave ha hqueued hc ⟨rfl, rfl, rfl⟩ hplace hat hnone (.inr rfl)
      · rw [hstay hqueued]
        exact h.setCall hc ⟨rfl, rfl, rfl⟩ hnone
    | timeout =>
      cases hstep
      by_cases hqueued : a.pc = .queued
      · rw [hleave hqueued]
        exact h.leave ha hqueued hc ⟨rfl, rfl, rfl⟩ hplace hat hnone (.inl rfl)
      · rw [hstay hqueued]
        exact h.setCall hc ⟨rfl, rfl, rfl⟩ ⟨hnone, hplace, hat⟩
  case late b k =>
    cases wake with
    | done => exact h.collect hc (.inr hpc) hstep
    | cancelled =>
      cases hstep
      exact h.setCall hc ⟨rfl, rfl, rfl⟩ hknown.1
    | timeout => cases hstep
  case returned => cases hstep

theorem stepBatch (hslots : s.Slots 0) (ha : s.batches[b]? = some a)
    (hstep : s.stepBatch w b a answer = some s') : s'.Records w := by
  have hfits := h.fits b a ha
  unfold State.stepBatch at hstep
  cases hpc : a.pc <;> simp only [hpc] at hstep
  case queued => cases hstep
  case finished => cases hstep
  case leaving =>
    split at hstep <;> cases hstep
    next hempty =>
      refine h.setBatch ha ⟨rfl, rfl, rfl, .inl rfl⟩ ?_ ?_ rfl
      · exact hfits.advance (by simp [hpc]) (by simp) (fun _ => rfl) (.inr ⟨by simp, .inl hempty⟩)
      · constructor <;> grind
    next => exact h.sendBatch ha hpc
  case waiting =>
    cases hstep
    have hflying := hfits.flying hpc
    have hkept : a.Kept (a.answered w answer) := by
      unfold answered
      constructor <;> grind
    have hlater : a.Later (a.answered w answer) := by
      unfold answered
      constructor <;> grind
    exact h.setBatch ha hkept (hfits.answered hpc answer) hlater (by grind [answered])
  case closing =>
    cases hstep
    refine h.setBatch ha ⟨rfl, rfl, rfl, .inl rfl⟩ ?_ ?_ rfl
    · exact hfits.advance (by simp [hpc]) (by simp) (fun _ => rfl) (.inr ⟨by simp, .inr ⟨.inl hpc, rfl⟩⟩)
    · constructor <;> grind
  case releasing =>
    cases hstep
    have hended : (s.setBatch b { a with pc := .finished }).Records w := by
      refine h.setBatch ha ⟨rfl, rfl, rfl, .inl rfl⟩ ?_ ?_ rfl
      · exact hfits.advance (by simp [hpc]) (by simp) (fun _ => rfl)
          (.inr ⟨by simp, .inr ⟨.inr (by simp [done, hpc]), rfl⟩⟩)
      · constructor <;> grind
    refine hended.release fun b' hb' => ?_
    obtain ⟨a', ha', hqueued⟩ := (hslots.queued b').mp hb'
    have hne : b ≠ b' := by
      rintro rfl
      grind
    exact ⟨a', by rw [getElem?_setBatch _ ha, if_neg hne]; exact ha', hqueued⟩

theorem step (hslots : s.Slots 0) {label : Label} (hstep : s.step w label = some s') : s'.Records w := by
  cases label with
  | forward item alone =>
    cases hstep
    refine ⟨h.core.forward rfl rfl, h.fits, fun i c hc => ?_⟩
    change (s.calls ++ [_])[i]? = some c at hc
    rw [getElem?_append] at hc
    split at hc
    · exact h.known i c hc
    obtain rfl := mem_singleton.mp (mem_of_getElem? hc)
    cases alone with
    | true => exact ⟨rfl, .inl rfl⟩
    | false => exact ⟨rfl, rfl⟩
  | call i wake answer =>
    obtain ⟨c, hc, hnext⟩ := bind_eq_some_iff.mp hstep
    exact h.stepCall hslots hc hnext
  | batch b answer =>
    obtain ⟨a, ha, hnext⟩ := bind_eq_some_iff.mp hstep
    exact h.stepBatch hslots ha hnext

end State.Records

/-- What the coalescer promises of a state. -/
structure State.Coalesced (w : Wire) (s : State) : Prop where
  slots : s.holders = s.inflight
  limit : s.inflight ≤ s.limit
  busy : s.queue ≠ [] → s.inflight = s.limit
  /-- A request carries the records of different calls, each call's own. -/
  whole : ∀ q ∈ s.requests, q.calls.Nodup ∧ ∀ (j i : ℕ), q.calls[j]? = some i →
    ∃ c : Call, s.calls[i]? = some c ∧ q.items[j]? = some c.item
  /-- A record is carried once, or once more on its own after the owner refused the batch operation. -/
  once : ∀ (i : ℕ) (c : Call), s.calls[i]? = some c → (s.sends i).length ≤ 1 ∨
    ∃ (r r' b : ℕ) (a : AckBatch) (res : Response), s.sends i = [r, r'] ∧ s.batches[b]? = some a ∧
      a.request = some r ∧ s.requests[r]? = some a.toRequest ∧ a.toRequest.batch = true ∧
      a.answer = some (some res) ∧ isUnsupportedOp res = true ∧ s.requests[r']? = some (c.toRequest i)
  unsent : ∀ (i : ℕ) (c : Call), s.calls[i]? = some c → c.pc = .returned .queueTimeout → s.sends i = []
  /-- The reply is that of the call's own request, or the share at its record's position of the batch's. -/
  reply : ∀ (i : ℕ) (c : Call) (res : Response), s.calls[i]? = some c → c.pc = .returned (.reply res) →
    (∃ r, c.request = some r ∧ s.requests[r]? = some (c.toRequest i) ∧ c.answer = some (some res)) ∨
      ∃ (b r j : ℕ) (a : AckBatch) (answer : Option Response), s.batches[b]? = some a ∧ a.request = some r ∧
        s.requests[r]? = some a.toRequest ∧ a.toRequest.calls[j]? = some i ∧ a.answer = some answer ∧
        shareOf w a.live.length answer j = .reply res

theorem State.Records.coalesced (h : s.Records w) (hslots : s.Slots 0) : s.Coalesced w where
  slots := hslots.holders
  limit := hslots.limit
  busy := hslots.busy
  whole := h.core.carried
  once := by
    intro i c hc
    have hsends := h.core.sends i c hc
    cases hown : c.request with
    | none =>
      left
      rw [hsends, hown]
      cases s.shared c <;> simp
    | some r' =>
      cases hshared : s.shared c with
      | none =>
        left
        simp [hsends, hown, hshared]
      | some r =>
        right
        have hplace : c.place ≠ none := by
          intro hnone
          simp [shared, hnone] at hshared
        obtain ⟨b, k, a, hp, ha, -, hk, hlegacy⟩ : s.Refused c := by
          have hknown := h.known i c hc
          unfold State.Known at hknown
          grind
        have hrequest : a.request = some r := by simpa [shared, hp, ha, hk] using hshared
        obtain ⟨-, hlength, res, hanswer, hres⟩ := (h.fits b a ha).legacy hlegacy
        exact ⟨r, r', b, a, res, by simp [hsends, hown, hshared], ha, hrequest, h.core.batch b a r ha hrequest,
          by simpa [toRequest] using hlength, hanswer, hres, h.core.own i c r' hc hown⟩
  unsent := by
    intro i c hc hpc
    have hknown := h.known i c hc
    simp only [State.Known, hpc] at hknown
    obtain ⟨hnone, b, k, a, hp, ha, hgone⟩ := hknown
    have hlive : k ∉ a.live := by
      intro hk
      have := (h.fits b a ha).live k hk
      simp [hgone] at this
    rw [h.core.sends i c hc, hnone]
    simp [shared, hp, ha, hlive]
  reply := by
    intro i c res hc hpc
    have hknown := h.known i c hc
    simp only [State.Known, hpc] at hknown
    rcases hknown.2 with ⟨answer, hsome, hanswer, hout⟩ | ⟨b, k, a, j, answer, hp, ha, -, hsome, hj, hanswer, hout⟩
    · obtain ⟨r, hr⟩ := isSome_iff_exists.mp hsome
      refine .inl ⟨r, hr, h.core.own i c r hc hr, ?_⟩
      rw [hanswer]
      cases answer with
      | none => cases hout
      | some res' => cases hout; rfl
    · obtain ⟨r, hr⟩ := isSome_iff_exists.mp hsome
      obtain ⟨a', ha', hmember, -⟩ := h.core.place i c b k hc hp
      obtain rfl : a = a' := by rw [ha] at ha'; exact some.inj ha'
      refine .inr ⟨b, r, j, a, answer, ha, hr, h.core.batch b a r ha hr, ?_, hanswer, hout.symm⟩
      rw [(h.fits b a ha).calls, hj]
      exact hmember

/-- Run lemma: the slots add up and the records are accounted for in every state that is reached. -/
theorem State.reached {limit : ℕ} {labels : List Label}
    (hrun : runWith (State.step w) { limit := limit } labels = some s) : s.Slots 0 ∧ s.Records w := by
  have hstart : State.Slots 0 { limit := limit } ∧ State.Records w { limit := limit } := by
    refine ⟨⟨rfl, Nat.zero_le _, by simp, by simp, nodup_nil⟩, ⟨?_, by simp, by simp⟩⟩
    constructor <;> simp
  exact run_induction (P := fun s => s.Slots 0 ∧ s.Records w)
    (fun _ _ _ hs _ hstep => ⟨hs.1.step hstep, hs.2.step hs.1 hstep⟩) hstart (cleanRun_true _ _) hrun

/-- In every run of any number of calls the coalescer keeps its promises. -/
theorem acks_coalesce {limit : ℕ} {labels : List Label}
    (hrun : runWith (State.step w) { limit := limit } labels = some s) : s.Coalesced w :=
  (State.reached hrun).2.coalesced (State.reached hrun).1

/-- Two acks wait behind a third, leave together and are answered apart; one more gives up in the queue. -/
def twoInABatch : List Label :=
  let item : AckBatchItem := ⟨"t", 0, 7, 1, .ack⟩
  let body := bigEndian 4 2 ++ bigEndian 2 204 ++ bigEndian 4 0 ++ bigEndian 2 409 ++ bigEndian 4 1 ++ [120]
  [.forward item false, .forward { item with offset := 8 } false, .forward { item with offset := 9 } false,
    .forward { item with offset := 10 } false, .call 0 .done none, .call 1 .done none, .call 2 .done none,
    .call 3 .done none, .call 2 .timeout none, .call 0 .done none, .call 0 .done (some { status := 204 }),
    .call 0 .done none, .batch 0 none, .batch 0 (some { status := 200, body }), .batch 0 none, .call 1 .done none,
    .call 3 .done none]

theorem twoInABatch_coalesced : ∃ s, runWith (State.step ⟨id⟩) { limit := 1 } twoInABatch = some s ∧
      (s.calls.map Call.pc = [.returned (.reply { status := 204 }), .returned (.reply { status := 204 }),
        .returned .queueTimeout, .returned (.reply (errorResponse ⟨id⟩ 409 [120]))] ∧
        s.requests.map Request.calls = [[0], [1, 3]]) ∧ s.Coalesced ⟨id⟩ := by
  have hrun := (some_get (x := runWith (step ⟨id⟩) { limit := 1 } twoInABatch) (by decide +kernel)).symm
  exact ⟨_, hrun, by decide +kernel, acks_coalesce hrun⟩

/-- A call or a batch can go on, without a timeout or a cancellation and whatever the owner answers. -/
def State.GoesOn (w : Wire) (s : State) (answer : Option Response) : Prop :=
  (∃ i, (s.step w (.call i .done answer)).isSome) ∨ ∃ b, (s.step w (.batch b answer)).isSome

section

variable {i b : ℕ} {c : Call} {a : AckBatch} (answer : Option Response)

theorem State.goesOn_of_batch (ha : s.batches[b]? = some a) (hslot : a.holdsSlot) : s.GoesOn w answer := by
  refine .inr ⟨b, ?_⟩
  cases hpc : a.pc <;> simp only [AckBatch.holdsSlot, hpc, Bool.false_eq_true] at hslot
  all_goals simp only [step, stepBatch, ha, hpc, bind_some]
  all_goals repeat' split
  all_goals rfl

/-- A call that is not in a batch waits for nobody. -/
theorem State.goesOn_of_call (hc : s.calls[i]? = some c) (halone : match c.pc with
      | .queued .. | .late .. | .returned _ => False
      | _ => True) : s.GoesOn w answer := by
  refine .inl ⟨i, ?_⟩
  cases hpc : c.pc <;> simp only [hpc] at halone
  all_goals simp only [step, stepCall, hc, hpc, bind_some]
  all_goals repeat' split
  all_goals rfl

theorem State.Slots.goesOn (h : s.Slots 0) (hpos : 0 < s.inflight) : s.GoesOn w answer := by
  rw [← h.holders, add_zero, State.holders, Nat.add_pos_iff_pos_or_pos, countP_pos_iff, countP_pos_iff] at hpos
  rcases hpos with ⟨c, hmem, hslot⟩ | ⟨a, hmem, hslot⟩
  · obtain ⟨i, hi⟩ := mem_iff_getElem?.mp hmem
    refine goesOn_of_call answer hi ?_
    cases hpc : c.pc <;> simp [Call.holdsSlot, hpc] at hslot ⊢
  · obtain ⟨b, hb⟩ := mem_iff_getElem?.mp hmem
    exact goesOn_of_batch answer hb hslot

/-- While a call has not returned, a call or a batch can go on. -/
theorem acks_go_on {limit : ℕ} {labels : List Label}
    (hrun : runWith (State.step w) { limit := limit } labels = some s) (hlimit : 0 < s.limit)
    (hc : s.calls[i]? = some c) (hpc : ∀ out, c.pc ≠ .returned out) : s.GoesOn w answer := by
  obtain ⟨hslots, h⟩ := State.reached hrun
  have hknown := h.known i c hc
  unfold State.Known at hknown
  cases hp : c.pc with
  | arriving | sending | waiting | releasing => exact State.goesOn_of_call answer hc (by simp [hp])
  | returned out => exact absurd hp (hpc out)
  | queued b k | late b k =>
    rw [hp] at hknown
    obtain ⟨-, hplace, b', k', a, hplace', ha, hgone⟩ := hknown
    obtain ⟨rfl, rfl⟩ : b = b' ∧ k = k' := by simpa using hplace.symm.trans hplace'
    cases hb : a.pc with
    | queued =>
      have hmem := (hslots.queued b).mpr ⟨a, ha, hb⟩
      exact hslots.goesOn answer (hslots.busy (ne_nil_of_mem hmem) ▸ hlimit)
    | finished =>
      -- the batch is done, and the call's share is there
      have hdone : a.done = true := by simp [AckBatch.done, hb]
      obtain ⟨j, hj⟩ := mem_iff_getElem?.mp ((h.fits b a ha).left (by simp [hb]) k hgone)
      refine .inl ⟨i, ?_⟩
      cases hlegacy : a.legacy with
      | true => simp [State.step, State.stepCall, State.collect, hc, hp, ha, hdone, hlegacy]
      | false =>
        obtain ⟨_, -, -, hout⟩ := (h.fits b a ha).outs (.inr hdone) hlegacy j k hj
        simp [State.step, State.stepCall, State.collect, hc, hp, ha, hdone, hlegacy, hout]
    | _ => exact State.goesOn_of_batch answer ha (by simp [AckBatch.holdsSlot, hb])

end

/-- The fourth ack waits for its share of the batch. -/
theorem twoInABatch_goes_on :
    ∃ s, runWith (State.step ⟨id⟩) { limit := 1 } twoInABatch.dropLast = some s ∧ ∀ answer, s.GoesOn ⟨id⟩ answer := by
  have hrun := (some_get (x := runWith (State.step ⟨id⟩) { limit := 1 } twoInABatch.dropLast) (by decide +kernel)).symm
  refine ⟨_, hrun, fun answer => ?_⟩
  exact acks_go_on (i := 3) (c := ⟨⟨"t", 0, 10, 1, .ack⟩, .queued 0 2, some (0, 2), none, none⟩) answer hrun
    (by decide +kernel) (by decide +kernel) (by simp)

end Narad.Cluster.Ack
