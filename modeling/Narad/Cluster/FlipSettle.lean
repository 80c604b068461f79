import Narad.Cluster.MoveWorker

/-!
# An install is moved back only when no flip can follow

While no other entry gives the partition to this node, takes it away or replaces the topic, this node
owns the partition exactly when one of the worker's proposals was applied. A barriered read that began
after the settle window therefore settles the matter: if it does not show this node as the owner, no
proposal was applied, and none is left that could be.
-/

namespace Narad.Cluster.Flip

open Narad.Lib Narad.Metastore List Option State

variable (mv : Move) {readStart : ℤ} {m : Option Member} {expectId : String} {p : PendingFlip} {again : Bool}

/-- No proposal is left that could be applied. -/
structure Proposals.Quiet (l : Proposals) : Prop where
  call : l.call = none
  late : ∀ at' ∈ l.late, mv.flipSettle ≤ l.now - at'

/-- Another entry leaves the topic's incarnation and this node's ownership as they are. -/
def State.undisturbed (s : State) : Label → Bool
  | .entry v => owns mv v = owns mv s.cur && v.topicId = s.cur.topicId
  | _ => true

/-- What is known at each place of the worker. -/
def Known (c : Option String) (l : Proposals) (w : Worker) : Pc → Prop
  | .topicRead _ readStart | .assignmentRead _ readStart => readStart ≤ l.now
  | .resolved _ readStart v => readStart ≤ l.now ∧ (v = .rejected ∨ v = .notYet true →
      ∀ p, w.pending = some p → State.settled mv p readStart = true → l.landed = 0)
  | .rearming settledNotYet => settledNotYet = true → l.Quiet mv ∧ l.landed = 0
  | .rejecting | .rollingBack => l.Quiet mv ∧ l.landed = 0
  | .proposing _ | .waiting _ => w.pending.isSome = true
  | .memberRead | .promoting | .copying | .recordRead _ => w.pending = none
  | .preparing _ id => w.pending = none ∧ some id = c
  | .marking _ expectId | .installing _ expectId _ =>
    w.pending = none ∧ (expectId = "" ∨ some expectId = c)
  | _ => True

/-- The worker knows of every flip of its own that was or may be applied. -/
structure Inv (c : Option String) (a : Applied) (l : Proposals) (w : Worker) : Prop where
  cur : a.cur.topicId = c
  history : ∀ v ∈ a.history, v.topicId = c
  owner : owns mv a.cur = true ↔ 0 < l.landed
  call : l.call ≠ none → ∃ again, w.pc = .waiting again
  past : ∀ at' ∈ l.late, at' ≤ l.now
  /-- A proposal that may still be applied is known to the pending flip. -/
  unsettled : ∀ at' ∈ l.late, l.now - at' < mv.flipSettle →
    w.flipped = true ∨ ∃ p u, w.pending = some p ∧ p.unknownAt = some u ∧ at' ≤ u
  expect : ∀ p, w.pending = some p → p.expectId = "" ∨ some p.expectId = c
  alone : w.pending.isSome = true → w.movedBack = false
  back : w.movedBack = true → l.Quiet mv ∧ l.landed = 0
  flipped : w.flipped = true → w.pc = .finishing ∨ w.pc = .stopped
  known : Known mv c l w w.pc

/-- The same of a whole state. -/
abbrev State.Inv (c : Option String) (s : State) : Prop :=
  Flip.Inv mv c s.toApplied s.toProposals s.w

/-- Only the node's files and its view of the state machine differ. -/
structure State.OnlyFiles (s s' : State) : Prop where
  applied : s'.toApplied = s.toApplied
  proposals : s'.toProposals = s.toProposals
  worker : s'.w = s.w

namespace Inv

variable {mv} {c : Option String} {a : Applied} {l : Proposals} {w : Worker}

section

variable (h : Inv mv c a l w)
include h

/-- A call is out only while the worker waits for it. -/
theorem call_none (hpc : ∀ again, w.pc ≠ .waiting again) : l.call = none := by
  by_contra hcall
  obtain ⟨again, hagain⟩ := h.call hcall
  exact hpc again hagain

/-- Before it finishes the worker has not seen its flip. -/
theorem not_flipped (hpc : w.pc ≠ .finishing) (hpc' : w.pc ≠ .stopped) : w.flipped = false := by
  by_contra hflipped
  rcases h.flipped (by simpa using hflipped) with hf | hf
  · exact hpc hf
  · exact hpc' hf

/-- Without a pending flip nothing is on its way. -/
theorem quiet_of_none (hcall : l.call = none) (hflipped : w.flipped = false)
    (hnone : w.pending = none) : l.Quiet mv := by
  refine ⟨hcall, fun at' hmem => ?_⟩
  by_contra hlt
  rcases h.unsettled at' hmem (by omega) with hf | ⟨p, u, hp, -⟩
  · simp [hflipped] at hf
  · simp [hnone] at hp

variable {p : PendingFlip}

/-- Once the window has passed nothing is on its way. -/
theorem quiet_of_settled (hcall : l.call = none) (hflipped : w.flipped = false) (hp : w.pending = some p)
    (hstart : readStart ≤ l.now) (hsettled : State.settled mv p readStart = true) : l.Quiet mv := by
  refine ⟨hcall, fun at' hmem => ?_⟩
  by_contra hlt
  rcases h.unsettled at' hmem (by omega) with hf | ⟨p', u, hp', hu, hle⟩
  · simp [hflipped] at hf
  rw [hp, some_inj] at hp'
  subst hp'
  simp only [settled, hu, all_some, decide_eq_true_eq] at hsettled
  omega

/-- The worker moves on without a call, with the same pending flip. -/
theorem goto (hcall : l.call = none) (hflipped : w.flipped = false) (pc : Pc)
    (hknown : Known mv c l w pc) {deadSince : Option ℤ} {unverified : ℕ} {gaveUp : Bool} : Inv mv c a l { w with
      pc := pc, deadSince := deadSince, unverified := unverified, gaveUp := gaveUp } :=
  { h with
    call := fun hne => absurd hcall hne
    flipped := fun hf => by simp [hflipped] at hf
    known := by
      show Known mv c l _ pc
      cases pc <;> exact hknown }

variable {pc : Pc}

/-- The worker moves on with its pending flip changed, but not in what proposals it knows. -/
theorem amend (hcall : l.call = none) (hflipped : w.flipped = false) {p p' : PendingFlip}
    (hp : w.pending = some p) (hexpect : p'.expectId = p.expectId) (hunknown : p'.unknownAt = p.unknownAt)
    (hknown : Known mv c l { w with pending := some p' } pc) : Inv mv c a l { w with pending := some p', pc := pc } :=
  { h with
    call := fun hne => absurd hcall hne
    unsettled := by
      intro at' hmem hlt
      rcases h.unsettled at' hmem hlt with hf | ⟨q, u, hq, hu, hle⟩
      · exact .inl hf
      rw [hp, some_inj] at hq
      subst hq
      exact .inr ⟨p', u, rfl, hunknown.trans hu, hle⟩
    expect := by
      intro q hq
      cases hq
      rw [hexpect]
      exact h.expect p hp
    alone := fun _ => h.alone (by simp [hp])
    flipped := fun hf => by simp [hflipped] at hf
    known := by
      show Known mv c l _ pc
      cases pc <;> exact hknown }

/-- The flip is over for the worker. -/
theorem done (hcall : l.call = none) : Inv mv c a l { w with pending := none, flipped := true, pc := .finishing } :=
  { h with
    call := fun hne => absurd hcall hne
    unsettled := fun _ _ _ => .inl rfl
    expect := nofun
    alone := nofun
    flipped := fun _ => .inl rfl
    known := trivial }

/-- The call is over, and its outcome is known or the proposal was applied. -/
theorem hangUp (hflipped : w.flipped = false) (hback : w.movedBack = false)
    (hpc : pc = .loop ∨ pc = .resolving) : Inv mv c a { l with call := none } { w with pc := pc } :=
  { h with
    call := fun hne => absurd rfl hne
    back := fun hb => by simp [hback] at hb
    flipped := fun hf => by simp [hflipped] at hf
    known := by
      rcases hpc with rfl | rfl <;> trivial }

/-- The call returned with an unknown outcome, which the pending flip notes. -/
theorem lose (hback : w.movedBack = false) (hflipped : w.flipped = false)
    (hp : w.pending = some p) {late : List ℤ} (hlate : ∀ at' ∈ late, at' = l.now ∨ at' ∈ l.late)
    (hpc : pc = .loop ∨ pc = .resolving) : Inv mv c a { l with call := none, late := late }
      { w with pending := some { p with unknownAt := some l.now }, pc := pc } :=
  { h with
    call := fun hne => absurd rfl hne
    past := by
      intro at' hmem
      rcases hlate at' hmem with rfl | hmem
      · exact le_refl _
      · exact h.past at' hmem
    unsettled := by
      intro at' hmem _
      refine .inr ⟨_, l.now, rfl, rfl, ?_⟩
      rcases hlate at' hmem with rfl | hmem
      · exact le_refl _
      · exact h.past at' hmem
    expect := by
      intro q hq
      cases hq
      exact h.expect p hp
    alone := fun _ => hback
    back := fun hb => by simp [hback] at hb
    flipped := fun hf => by simp [hflipped] at hf
    known := by
      rcases hpc with rfl | rfl <;> trivial }

/-- The worker is done with its files and stops. -/
theorem stop (hcall : l.call = none) : Inv mv c a l { w with pc := .stopped } :=
  { h with
    call := fun hne => absurd hcall hne
    flipped := fun _ => .inr rfl
    known := trivial }

/-- A rollback was tried: no proposal is left, and none was applied. -/
theorem rolledBack (hquiet : l.Quiet mv) (hlanded : l.landed = 0) (hflipped : w.flipped = false)
    {movedBack exit : Bool} :
    Inv mv c a l { w with movedBack := movedBack, pending := none, exit := exit, pc := .loop } :=
  { h with
    call := fun hne => absurd hquiet.call hne
    unsettled := by
      intro at' hmem hlt
      have := hquiet.late at' hmem
      omega
    expect := nofun
    alone := nofun
    back := fun _ => ⟨hquiet, hlanded⟩
    flipped := fun hf => by simp [hflipped] at hf
    known := trivial }

/-- A fresh install is pending, and no proposal is left from before. -/
theorem installed (hquiet : l.Quiet mv) (hflipped : w.flipped = false)
    (hexpect : p.expectId = "" ∨ some p.expectId = c) :
    Inv mv c a l { w with movedBack := false, pending := some p, pc := .proposing false } :=
  { h with
    call := fun hne => absurd hquiet.call hne
    unsettled := by
      intro at' hmem hlt
      have := hquiet.late at' hmem
      omega
    expect := by
      intro q hq
      cases hq
      exact hexpect
    alone := fun _ => rfl
    back := nofun
    flipped := fun hf => by simp [hflipped] at hf
    known := rfl }

/-- The proposal is sent. -/
theorem send (hpc : w.pc = .proposing again) :
    Inv mv c a { l with call := some .sent } { w with pc := .waiting again } := by
  have hpending := h.known
  rw [hpc] at hpending
  have hback := h.alone hpending
  exact
    { h with
      call := fun _ => ⟨again, rfl⟩
      back := fun hb => by simp [hback] at hb
      flipped := fun hf => by
        have := h.flipped hf
        simp [hpc] at this
      known := hpending }

end

end Inv

namespace Inv

variable {mv} {c : Option String} {a : Applied} {l : Proposals} {w : Worker}

/-- What is known stays known as time passes. -/
theorem known_mono {l l' : Proposals} {pc : Pc} (h : Known mv c l w pc) (hnow : l.now ≤ l'.now)
    (hquiet : l.Quiet mv → l'.Quiet mv) (hlanded : l'.landed = l.landed) : Known mv c l' w pc := by
  cases pc <;> try exact h
  case topicRead => exact le_trans h hnow
  case assignmentRead => exact le_trans h hnow
  case resolved =>
    exact ⟨le_trans h.1 hnow, fun hv p hp hs => hlanded.trans (h.2 hv p hp hs)⟩
  case rearming => exact fun hs => ⟨hquiet (h hs).1, hlanded.trans (h hs).2⟩
  case rejecting => exact ⟨hquiet h.1, hlanded.trans h.2⟩
  case rollingBack => exact ⟨hquiet h.1, hlanded.trans h.2⟩

section

variable (h : Inv mv c a l w)
include h

/-- Some proposals are refused, or time passes. -/
theorem wane {l' : Proposals} (hnow : l.now ≤ l'.now) (hcall : l'.call ≠ none → l.call ≠ none)
    (hlate : ∀ at' ∈ l'.late, at' ∈ l.late) (hlanded : l'.landed = l.landed) : Inv mv c a l' w := by
  have hquiet : l.Quiet mv → l'.Quiet mv := by
    rintro ⟨hc, hq⟩
    refine ⟨by_contra fun hne => hcall hne hc, fun at' hmem => ?_⟩
    have := hq at' (hlate at' hmem)
    omega
  exact
    { h with
      owner := hlanded ▸ h.owner
      call := fun hne => h.call (hcall hne)
      past := fun at' hmem => le_trans (h.past at' (hlate at' hmem)) hnow
      unsettled := fun at' hmem hlt => h.unsettled at' (hlate at' hmem) (by omega)
      back := fun hb => ⟨hquiet (h.back hb).1, hlanded.trans (h.back hb).2⟩
      known := known_mono h.known hnow hquiet hlanded }

/-- A proposal is accepted, so some were left. -/
theorem accept (hlive : ¬l.Quiet mv) {v : View} (hv : v.topicId = a.cur.topicId)
    (howns : owns mv v = true) {call : Option Call} (hcall : call ≠ none → l.call ≠ none) {late : List ℤ}
    (hlate : ∀ at' ∈ late, at' ∈ l.late) : Inv mv c { cur := v, history := a.history ++ [v] }
      { l with call := call, late := late, landed := l.landed + 1 } w :=
  { h with
    cur := hv.trans h.cur
    history := by
      intro v' hmem
      rcases mem_append.mp hmem with hmem | hmem
      · exact h.history v' hmem
      · rw [mem_singleton.mp hmem]
        exact hv.trans h.cur
    owner := by simp [howns]
    call := fun hne => h.call (hcall hne)
    past := fun at' hmem => h.past at' (hlate at' hmem)
    unsettled := fun at' hmem hlt => h.unsettled at' (hlate at' hmem) hlt
    back := fun hb => absurd (h.back hb).1 hlive
    known := by
      have hknown := h.known
      cases hpc : w.pc <;> rw [hpc] at hknown <;> try exact hknown
      case resolved m readStart verdict =>
        refine ⟨hknown.1, fun _ p hp hs => absurd ?_ hlive⟩
        exact h.quiet_of_settled (h.call_none (by simp [hpc])) (h.not_flipped (by simp [hpc]) (by simp [hpc])) hp
          hknown.1 hs
      case rearming => exact fun hs => absurd (hknown hs).1 hlive
      case rejecting => exact absurd hknown.1 hlive
      case rollingBack => exact absurd hknown.1 hlive }

/-- Another entry that leaves the topic and this node's ownership alone. -/
theorem entry {v : View} (hv : v.topicId = a.cur.topicId) (howns : owns mv v = owns mv a.cur) :
    Inv mv c { cur := v, history := a.history ++ [v] } l w :=
  { h with
    cur := hv.trans h.cur
    history := by
      intro v' hmem
      rcases mem_append.mp hmem with hmem | hmem
      · exact h.history v' hmem
      · rw [mem_singleton.mp hmem]
        exact hv.trans h.cur
    owner := by rw [howns]; exact h.owner }

/-- A cancel changes nothing that is known. -/
theorem cancel : Inv mv c a l { w with cancelled := true } :=
  { h with
    known := by
      have hknown := h.known
      show Known mv c l _ w.pc
      cases hpc : w.pc <;> rw [hpc] at hknown <;> exact hknown }

end

end Inv

/-- A proposal that is accepted makes this node the owner; a refused one changes nothing. -/
theorem flip_spec (s : State) : (s.flip mv = (s, false)) ∨
      ∃ v : View, s.flip mv = ({ s.commit v with landed := s.landed + 1 }, true) ∧
        v.topicId = s.cur.topicId ∧ owns mv v = true := by
  unfold State.flip
  split
  next a ha =>
    refine .inr ⟨_, rfl, rfl, ?_⟩
    obtain ⟨b, -, hmove⟩ := bind_eq_some_iff.mp ha
    unfold completeMove at hmove
    split at hmove
    next hdone =>
      cases hmove
      simp [owns, hdone.1]
    next =>
      split at hmove <;> cases hmove
      simp [owns]
  next => exact .inl rfl

namespace State.Inv

variable {mv} {c : Option String} {s s' : State}

section

variable (h : s.Inv mv c)
include h

/-- A proposal is applied while its call is out. -/
theorem land (hstep : s.step mv .land = some s') : s'.Inv mv c := by
  simp only [step] at hstep
  split at hstep
  next hcall =>
    cases hstep
    have hne : s.call ≠ none := by simp [hcall]
    rcases flip_spec mv s with hflip | ⟨v, hflip, hv, howns⟩ <;> rw [hflip]
    · exact h.wane (le_refl _) (fun _ => hne) (fun _ hmem => hmem) rfl
    · exact h.accept (fun hq => hne hq.call) hv howns (fun _ => hne) fun _ hmem => hmem
  next => cases hstep

/-- A proposal is applied after its call. -/
theorem landLate {index : ℕ} (hstep : s.step mv (.landLate index) = some s') : s'.Inv mv c := by
  simp only [step] at hstep
  split at hstep
  next => cases hstep
  next at' hat =>
    split at hstep
    next hlt =>
      cases hstep
      have hmem : at' ∈ s.late := mem_of_getElem? hat
      have hlive : ¬s.toProposals.Quiet mv := by
        intro hq
        have := hq.late at' hmem
        omega
      have hlate : ∀ b ∈ s.late.eraseIdx index, b ∈ s.late := fun b hb => mem_of_mem_eraseIdx hb
      rcases flip_spec mv { s with late := s.late.eraseIdx index } with hflip | ⟨v, hflip, hv, howns⟩ <;> rw [hflip]
      · exact h.wane (le_refl _) (fun hne => hne) hlate rfl
      · exact h.accept hlive hv howns (fun hne => hne) hlate
    next => cases hstep

/-- An undo that waits for nothing more: no proposal is left, and none was applied. -/
theorem giveUp (hcall : s.call = none) (hflipped : s.w.flipped = false) {p q : PendingFlip}
    (hp : s.w.pending = some p) (hexpect : q.expectId = p.expectId) (hunknown : q.unknownAt = p.unknownAt)
    (why : Unflippable) {undo : Bool} (hundo : undo = true → s.toProposals.Quiet mv ∧ s.landed = 0) :
    (s.giveUp q why undo).Inv mv c := by
  have hexpect' : ({ q with unflippable := some why } : PendingFlip).expectId = p.expectId := hexpect
  have hunknown' : ({ q with unflippable := some why } : PendingFlip).unknownAt = p.unknownAt := hunknown
  refine h.amend hcall hflipped hp hexpect' hunknown' ?_
  cases undo with
  | true => exact hundo rfl
  | false => trivial

/-- The worker proposes again, or undoes its install. -/
theorem proposeAgain (hcall : s.call = none) (hflipped : s.w.flipped = false)
    (hp : s.w.pending = some p) (m : Option Member) {undo : Bool}
    (hundo : undo = true → s.toProposals.Quiet mv ∧ s.landed = 0) : (s.proposeAgain mv p m undo).Inv mv c := by
  have hexpect : (s.convert mv p m).expectId = p.expectId := by
    unfold convert
    split <;> rfl
  have hunknown : (s.convert mv p m).unknownAt = p.unknownAt := by
    unfold convert
    split <;> rfl
  unfold State.proposeAgain
  split
  · exact h.giveUp hcall hflipped hp rfl rfl _ hundo
  dsimp only
  split
  · exact h.amend hcall hflipped hp hexpect hunknown rfl
  · exact h.amend hcall hflipped hp hexpect hunknown hundo
  · exact h.amend hcall hflipped hp hexpect hunknown trivial
  · exact h.giveUp hcall hflipped hp hexpect hunknown _ hundo

/-- What `resolvePending` does with a verdict. -/
theorem resolve {v : Verdict} (hpc : s.w.pc = .resolved m readStart v) (hp : s.w.pending = some p) :
    (s.decide mv p m readStart v).Inv mv c := by
  have hcall : s.call = none := h.call_none (by simp [hpc])
  have hflipped : s.w.flipped = false := h.not_flipped (by simp [hpc]) (by simp [hpc])
  have hknown := hpc ▸ h.known
  -- a verdict that allows an undo, from a read that began after the window
  have hundo : (v = .rejected ∨ v = .notYet true) → settled mv p readStart = true →
      s.toProposals.Quiet mv ∧ s.landed = 0 := fun hv hs =>
    ⟨h.quiet_of_settled hcall hflipped hp hknown.1 hs, hknown.2 hv p hp hs⟩
  cases v with
  | done => exact h.done hcall
  | rejected =>
    refine h.goto hcall hflipped _ ?_
    split
    · exact hundo (.inl rfl) ‹_›
    · trivial
  | unknown => exact h.proposeAgain hcall hflipped hp m nofun
  | notYet leaderRead =>
    refine h.proposeAgain hcall hflipped hp m fun hs => ?_
    rw [Bool.and_eq_true] at hs
    exact hundo (.inr (by rw [hs.1])) hs.2

/-- A barriered read that does not show this node as the owner shows that no proposal was applied. -/
theorem verdict_known (leaderRead : Bool) {v : Verdict} (row : Option Assignment)
    (hrow : leaderRead = true → row = s.cur.row) (hv : State.verdict mv row leaderRead = v)
    (hundo : v = .rejected ∨ v = .notYet true) : s.landed = 0 := by
  have hread : leaderRead = true ∧ (row.any fun a => a.ownerId = mv.selfId) = false := by
    subst hv
    cases row with
    | none => cases leaderRead <;> simp [verdict] at hundo ⊢
    | some a =>
      unfold verdict at hundo
      by_cases hself : a.ownerId = mv.selfId
      · simp [hself] at hundo
      refine ⟨?_, by simp [hself]⟩
      cases leaderRead
      · simp only [hself, if_false] at hundo
        split at hundo <;> simp at hundo
      · rfl
  have howns : owns mv s.cur = false := by
    rw [owns, ← hrow hread.1]
    exact hread.2
  by_contra hne
  have := h.owner.mpr (Nat.pos_of_ne_zero hne)
  rw [howns] at this
  cases this

/-- The local replica shows the same incarnation. -/
theorem replica_topicId {index : ℕ} {v : View} (hv : s.replica? index = some v) : v.topicId = c := by
  unfold replica? at hv
  split at hv
  · exact h.history v (mem_of_getElem? hv)
  · cases hv

end

end State.Inv

namespace State

variable {s s' : State}

/-- A rollback moves files only. -/
theorem rollbackInstall_onlyFiles (p : PendingFlip) (ok : Bool) : s.OnlyFiles (s.rollbackInstall p ok).1 := by
  unfold rollbackInstall
  split
  · exact ⟨rfl, rfl, rfl⟩
  · split <;> exact ⟨rfl, rfl, rfl⟩

/-- So does an install. -/
theorem install_onlyFiles {marker : MoveMarker} {ok : Bool} {d : Dir}
    (h : s.install expectId marker ok = some (s', d)) : s.OnlyFiles s' := by
  unfold install at h
  split at h
  · cases h
  split at h
  · cases h
    exact ⟨rfl, rfl, rfl⟩
  · cases h

/-- So does a quarantine of the staging copy. -/
theorem setAsideStaging_onlyFiles (ok : Bool) : s.OnlyFiles (s.setAsideStaging ok) := by
  unfold setAsideStaging
  split <;> exact ⟨rfl, rfl, rfl⟩

/-- And so does the end of the worker. -/
theorem finish_onlyFiles (a : Option (Option Assignment)) (member : Option Member) (ok : Bool) :
    s.OnlyFiles (s.finish mv a member ok) := by
  unfold finish
  split
  · exact ⟨rfl, rfl, rfl⟩
  split
  · split
    · exact setAsideStaging_onlyFiles ok
    · exact ⟨rfl, rfl, rfl⟩
  · exact ⟨rfl, rfl, rfl⟩
  · split
    · split
      · exact ⟨rfl, rfl, rfl⟩
      · exact setAsideStaging_onlyFiles ok
    · split
      · exact setAsideStaging_onlyFiles ok
      · exact ⟨rfl, rfl, rfl⟩

/-- Nothing here depends on the files. -/
theorem OnlyFiles.inv {mv : Move} {c : Option String} (hf : s.OnlyFiles s') (h : s.Inv mv c) : s'.Inv mv c := by
  unfold State.Inv
  rw [hf.applied, hf.proposals, hf.worker]
  exact h

end State

namespace State.Inv

variable {mv} {c : Option String} {s s' : State}

theorem goto (h : s.Inv mv c) (hcall : s.call = none) (hflipped : s.w.flipped = false) {pc : Pc}
    (hknown : Known mv c s.toProposals s.w pc) : (s.goto pc).Inv mv c :=
  Flip.Inv.goto h hcall hflipped pc hknown

/-- The worker notes how its source is. -/
theorem observeSource (h : s.Inv mv c) (hcall : s.call = none) (hflipped : s.w.flipped = false) (m : Member) :
    (s.observeSource m).Inv mv c := by
  unfold State.observeSource
  split <;> exact Flip.Inv.goto h hcall hflipped _ h.known

/-- A rollback was tried, which changes files only. -/
theorem rolledBack {s₁ : State} (h : s.Inv mv c) (hfiles : s.OnlyFiles s₁) (hquiet : s.toProposals.Quiet mv)
    (hlanded : s.landed = 0) (hflipped : s.w.flipped = false) (restored exit : Bool) : State.Inv mv c
      { s₁ with w := { s₁.w with movedBack := restored, pending := none, exit := exit, pc := .loop } } := by
  unfold State.Inv
  rw [hfiles.applied, hfiles.proposals, hfiles.worker]
  exact Flip.Inv.rolledBack h hquiet hlanded hflipped

/-- The call of a proposal returns. -/
theorem returned (h : s.Inv mv c) (hpc : s.w.pc = .waiting again)
    (hp : s.w.pending = some p) {call : Call} {reply : Reply} (hstep : s.returned call reply p again = some s') :
    s'.Inv mv c := by
  have hflipped : s.w.flipped = false := h.not_flipped (by simp [hpc]) (by simp [hpc])
  have hback : s.w.movedBack = false := h.alone (by simp [hp])
  have hnext : (if again then Pc.loop else Pc.resolving) = .loop ∨
      (if again then Pc.loop else Pc.resolving) = .resolving := by
    cases again
    · exact .inr rfl
    · exact .inl rfl
  unfold State.returned at hstep
  generalize (if again then Pc.loop else Pc.resolving) = next at hstep hnext
  split at hstep <;> cases hstep
  · exact (h.hangUp hflipped hback (.inl rfl)).done rfl
  · exact h.hangUp hflipped hback hnext
  · exact h.hangUp hflipped hback hnext
  · exact h.lose hback hflipped hp (fun _ hmem => by simpa using hmem) hnext
  · exact h.lose hback hflipped hp (fun _ hmem => .inr hmem) hnext

section Work

variable {a : Answer} (h : s.Inv mv c) (hcall : s.call = none) (hflipped : s.w.flipped = false)
  (hstep : s.work mv a = some s')

include h hcall hflipped hstep

/-- The top of the loop. -/
theorem loop (hpc : s.w.pc = .loop) : s'.Inv mv c := by
  simp only [work, hpc] at hstep
  split at hstep
  · cases hstep
    exact goto h hcall hflipped trivial
  split at hstep
  · cases hstep
  cases hstep
  refine goto h hcall hflipped ?_
  split
  · trivial
  next hnone => exact not_isSome_iff_eq_none.mp hnone

/-- The source is read. -/
theorem resolving (hpc : s.w.pc = .resolving) : s'.Inv mv c := by
  simp only [work, hpc] at hstep
  cases hstep
  cases a.member with
  | none => exact goto h hcall hflipped (le_refl _)
  | some m =>
    dsimp only [State.observeSource]
    split <;> exact Flip.Inv.goto h hcall hflipped (.topicRead (some m) s.now) (le_refl _)

/-- The topic is read. -/
theorem topicRead (hpc : s.w.pc = .topicRead m readStart) : s'.Inv mv c := by
  have hknown := hpc ▸ h.known
  simp only [State.work, hpc] at hstep
  split at hstep
  · cases hstep
  next p hp =>
    split at hstep
    · cases hstep
      exact goto h hcall hflipped hknown
    next hexpect =>
      split at hstep
      · cases hstep
        exact goto h hcall hflipped ⟨hknown, by simp⟩
      obtain ⟨v, hv, rfl⟩ := map_eq_some_iff.mp hstep
      -- the record is still of the incarnation the install is for
      have hid : v.topicId = some p.expectId := by
        rw [h.replica_topicId hv]
        exact ((h.expect p hp).resolve_left hexpect).symm
      simp only [hid, ne_eq, not_true_eq_false, and_false, if_false]
      exact goto (s := s.saw a.replica) h hcall hflipped hknown

/-- The assignment is read, and the flip judged by it. -/
theorem assignmentRead (hpc : s.w.pc = .assignmentRead m readStart) : s'.Inv mv c := by
  have hknown := hpc ▸ h.known
  simp only [work, hpc] at hstep
  split at hstep
  · cases hstep
    exact goto h hcall hflipped ⟨hknown, by simp⟩
  · cases hstep
    exact goto h hcall hflipped ⟨hknown, fun hv _ _ _ => h.verdict_known true s.cur.row (fun _ => rfl) rfl hv⟩
  · obtain ⟨v, -, rfl⟩ := map_eq_some_iff.mp hstep
    exact goto h hcall hflipped ⟨hknown, fun hv _ _ _ => h.verdict_known false v.row nofun rfl hv⟩

/-- The freeze is armed again. -/
theorem rearming {settledNotYet : Bool} (hpc : s.w.pc = .rearming settledNotYet) : s'.Inv mv c := by
  have hknown := hpc ▸ h.known
  simp only [work, hpc] at hstep
  obtain ⟨p, hp, rfl⟩ := map_eq_some_iff.mp hstep
  split
  · exact goto h hcall hflipped trivial
  · exact h.giveUp hcall hflipped hp rfl rfl _ hknown
  · split
    · exact goto h hcall hflipped (by simp [Known, hp])
    · exact h.giveUp hcall hflipped hp rfl rfl _ hknown

omit hcall in
/-- The install is moved back. -/
theorem undoing (hpc : s.w.pc = .rejecting ∨ s.w.pc = .rollingBack) : s'.Inv mv c := by
  obtain ⟨hquiet, hlanded⟩ : s.toProposals.Quiet mv ∧ s.landed = 0 := by
    have hknown := h.known
    rcases hpc with hpc | hpc <;> rw [hpc] at hknown <;> exact hknown
  rcases hpc with hpc | hpc <;> simp only [work, hpc] at hstep <;>
    obtain ⟨p, -, rfl⟩ := map_eq_some_iff.mp hstep <;>
    have hfiles := rollbackInstall_onlyFiles (s := s) p a.ok
  · exact h.rolledBack hfiles hquiet hlanded hflipped _ _
  split
  · exact h.rolledBack hfiles hquiet hlanded hflipped _ _
  · have hreset : s.OnlyFiles (s.rollbackInstall p a.ok).1.resetSession := { hfiles with }
    exact h.rolledBack hreset hquiet hlanded hflipped _ _

/-- The source is read before a copy. -/
theorem memberRead (hpc : s.w.pc = .memberRead) : s'.Inv mv c := by
  have hknown := hpc ▸ h.known
  simp only [work, hpc] at hstep
  split at hstep
  · cases hstep
    exact goto h hcall hflipped trivial
  next m hm =>
    have hobserved := h.observeSource hcall hflipped m
    obtain ⟨hpending, hflipped', hcall'⟩ : (s.observeSource m).w.pending = none ∧
        (s.observeSource m).w.flipped = false ∧ (s.observeSource m).call = none := by
      unfold State.observeSource
      split <;> exact ⟨hknown, hflipped, hcall⟩
    split at hstep
    · cases hstep
      exact goto h hcall hflipped trivial
    split at hstep
    · cases hstep
      exact hobserved.goto hcall' hflipped' hpending
    split at hstep
    · cases hstep
      exact hobserved.goto hcall' hflipped' trivial
    · cases hstep
      exact hobserved.goto hcall' hflipped' hpending

/-- The partition is copied. -/
theorem copying (hpc : s.w.pc = .copying) : s'.Inv mv c := by
  have hknown := hpc ▸ h.known
  have hfiles : s.OnlyFiles (if s.staging.isSome then s
      else { s with staging := some { id := s.nextDir }, nextDir := s.nextDir + 1 }) := by
    split <;> exact ⟨rfl, rfl, rfl⟩
  simp only [work, hpc] at hstep
  generalize (if s.staging.isSome then s
      else { s with staging := some { id := s.nextDir }, nextDir := s.nextDir + 1 }) = s₁ at hfiles hstep
  have hinv := hfiles.inv h
  have hcall' : s₁.call = none := hfiles.proposals.symm ▸ hcall
  have hflipped' : s₁.w.flipped = false := hfiles.worker.symm ▸ hflipped
  have hpending : s₁.w.pending = none := hfiles.worker.symm ▸ hknown
  split at hstep
  · cases hstep
    exact hinv.goto hcall' hflipped' trivial
  · split at hstep
    · cases hstep
      exact Flip.Inv.goto hinv hcall' hflipped' .loop trivial
    · cases hstep
      exact Flip.Inv.goto hinv hcall' hflipped' .loop trivial
  next res token _ =>
    cases hstep
    exact Flip.Inv.goto hinv hcall' hflipped' (.recordRead ⟨res, false, token⟩) hpending

/-- A copy is promoted without its source. -/
theorem promoting (hpc : s.w.pc = .promoting) : s'.Inv mv c := by
  have hknown := hpc ▸ h.known
  simp only [work, hpc] at hstep
  split at hstep <;> cases hstep
  · exact goto h hcall hflipped hknown
  · exact goto h hcall hflipped trivial

variable {copy : Ready}

/-- The topic's record is read. -/
theorem recordRead (hpc : s.w.pc = .recordRead copy) : s'.Inv mv c := by
  have hknown := hpc ▸ h.known
  simp only [work, hpc] at hstep
  split at hstep
  · cases hstep
    exact goto h hcall hflipped trivial
  obtain ⟨v, hv, rfl⟩ := map_eq_some_iff.mp hstep
  have hsaw : (s.saw a.replica).Inv mv c := h
  split
  · exact hsaw.goto hcall hflipped trivial
  next id hid =>
    split
    · exact hsaw.goto hcall hflipped trivial
    split
    · exact hsaw.goto hcall hflipped ⟨hknown, .inl rfl⟩
    · exact hsaw.goto hcall hflipped ⟨hknown, by rw [← hid, h.replica_topicId hv]⟩

/-- The copy is prepared for the incarnation. -/
theorem preparing {id : String} (hpc : s.w.pc = .preparing copy id) : s'.Inv mv c := by
  have hknown := hpc ▸ h.known
  simp only [work, hpc] at hstep
  obtain ⟨v, -, rfl⟩ := map_eq_some_iff.mp hstep
  split
  · exact goto (s := (s.saw a.replica).ensureTopicIncarnation id) h hcall hflipped ⟨hknown.1, .inr hknown.2⟩
  · exact goto (s := s.saw a.replica) h hcall hflipped trivial

/-- The move marker is written. -/
theorem marking (hpc : s.w.pc = .marking copy expectId) : s'.Inv mv c := by
  have hknown := hpc ▸ h.known
  simp only [work, hpc] at hstep
  split at hstep <;> cases hstep
  · exact goto h hcall hflipped hknown
  · exact goto h hcall hflipped trivial

/-- The copy is installed. -/
theorem installing {marker : MoveMarker} (hpc : s.w.pc = .installing copy expectId marker) : s'.Inv mv c := by
  have hknown := hpc ▸ h.known
  simp only [work, hpc] at hstep
  split at hstep
  · cases hstep
    exact goto h hcall hflipped trivial
  next s₁ d hinstall =>
    have hfiles := install_onlyFiles hinstall
    have hinv := hfiles.inv h
    have hcall' : s₁.call = none := hfiles.proposals.symm ▸ hcall
    have hflipped' : s₁.w.flipped = false := hfiles.worker.symm ▸ hflipped
    split at hstep <;> cases hstep
    · exact hinv.goto hcall' hflipped' trivial
    · have hquiet := hinv.quiet_of_none hcall' hflipped' (hfiles.worker.symm ▸ hknown.1)
      exact hinv.installed hquiet hflipped' hknown.2

omit hflipped in
/-- The worker ends. -/
theorem finishing (hpc : s.w.pc = .finishing) : s'.Inv mv c := by
  simp only [work, hpc] at hstep
  split at hstep
  · obtain ⟨v, -, rfl⟩ := map_eq_some_iff.mp hstep
    have hfiles := finish_onlyFiles mv (s := s.saw a.replica) (some v.row) a.member (a.reply = .ok)
    exact (hfiles.inv h).stop (hfiles.proposals.symm ▸ hcall)
  · cases hstep
    have hfiles := finish_onlyFiles mv (s := s) none a.member (a.reply = .ok)
    exact (hfiles.inv h).stop (hfiles.proposals.symm ▸ hcall)

end Work

/-- The call returns. -/
theorem waiting (h : s.Inv mv c) {a : Answer} (hstep : s.work mv a = some s')
    (hpc : s.w.pc = .waiting again) : s'.Inv mv c := by
  simp only [work, hpc] at hstep
  split at hstep
  next hp => exact h.returned hpc hp hstep
  next => cases hstep

/-- Every step of the worker. -/
theorem work (h : s.Inv mv c) {a : Answer} (hstep : s.work mv a = some s') : s'.Inv mv c := by
  by_cases hwaiting : ∃ again, s.w.pc = .waiting again
  · obtain ⟨again, hpc⟩ := hwaiting
    exact h.waiting hstep hpc
  have hcall : s.call = none := h.call_none fun again hpc => hwaiting ⟨again, hpc⟩
  by_cases hfinishing : s.w.pc = .finishing
  · exact h.finishing hcall hstep hfinishing
  by_cases hstopped : s.w.pc = .stopped
  · simp [State.work, hstopped] at hstep
  have hflipped : s.w.flipped = false := h.not_flipped hfinishing hstopped
  cases hpc : s.w.pc with
  | loop => exact h.loop hcall hflipped hstep hpc
  | resolving => exact h.resolving hcall hflipped hstep hpc
  | topicRead m readStart => exact h.topicRead hcall hflipped hstep hpc
  | assignmentRead m readStart => exact h.assignmentRead hcall hflipped hstep hpc
  | resolved m readStart v =>
    simp only [State.work, hpc] at hstep
    obtain ⟨p, hp, rfl⟩ := map_eq_some_iff.mp hstep
    exact h.resolve hpc hp
  | rearming settledNotYet => exact h.rearming hcall hflipped hstep hpc
  | rejecting => exact h.undoing hflipped hstep (.inl hpc)
  | rollingBack => exact h.undoing hflipped hstep (.inr hpc)
  | proposing again =>
    simp only [State.work, hpc] at hstep
    cases hstep
    exact h.send hpc
  | waiting again => exact absurd ⟨again, hpc⟩ hwaiting
  | memberRead => exact h.memberRead hcall hflipped hstep hpc
  | copying => exact h.copying hcall hflipped hstep hpc
  | promoting => exact h.promoting hcall hflipped hstep hpc
  | recordRead copy => exact h.recordRead hcall hflipped hstep hpc
  | preparing copy id => exact h.preparing hcall hflipped hstep hpc
  | marking copy expectId => exact h.marking hcall hflipped hstep hpc
  | installing copy expectId marker => exact h.installing hcall hflipped hstep hpc
  | finishing => exact absurd hpc hfinishing
  | stopped => exact absurd hpc hstopped

/-- Every step, as long as no other entry disturbs the move. -/
theorem step (h : s.Inv mv c) {label : Label} (hok : s.undisturbed mv label = true)
    (hstep : s.step mv label = some s') : s'.Inv mv c := by
  cases label with
  | work a => exact h.work hstep
  | entry v =>
    simp only [undisturbed, Bool.and_eq_true, decide_eq_true_eq] at hok
    cases hstep
    exact h.entry hok.2 hok.1
  | land => exact h.land hstep
  | landLate index => exact h.landLate hstep
  | tick d =>
    cases hstep
    exact h.wane (Int.le_add_of_nonneg_right (Int.natCast_nonneg d)) (fun hne => hne) (fun _ hmem => hmem) rfl
  | disk path topicMarker =>
    cases hstep
    exact h
  | cancel =>
    cases hstep
    exact Flip.Inv.cancel h

end State.Inv

end Narad.Cluster.Flip
