import Narad.Messaging.Freeze

/-!
# The freeze fences commits

A token that is accepted names a freeze that was never removed since it was armed, so no commit has
passed the gate since the first listing under it. What a second listing reports is then what the first
one reported, as long as the freeze is still armed when that listing is taken.

The invariant has three parts: who holds which lock and what the counter says, which tokens are in use,
and what the listings taken so far still promise.
-/

namespace Narad.Messaging.Freeze

open Function (update update_apply update_eq_self update_of_ne update_self)
open Lib Option Dict

variable {key : String} {c : Call} {pc : Pc}

namespace Pc

/-- The partition whose produce lock the thread holds. -/
def holds : Pc → Option String
  | gating key true | looking key true | expiring key true | appending key | refused key => some key
  | listing c _ | listed c .. => some c.key
  | _ => none

/-- The thread holds the mutex of the pause map. -/
def inside : Pc → Bool
  | expiring .. | clearing _ | minting _ | counted .. | resuming => true
  | _ => false

/-- What the thread has made the counter exceed the entries by. -/
def surplus : Pc → ℤ
  | expiring .. | clearing _ | counted .. | resuming => 1
  | _ => 0

/-- The key whose entry the thread found missing or removed, while it holds the mutex. -/
def cleared : Pc → Option String
  | expiring key _ => some key
  | clearing c | minting c | counted c _ => some c.key
  | _ => none

theorem cleared_of_not_inside (h : pc.inside = false) : pc.cleared = none := by
  cases pc <;> first | rfl | cases h

end Pc

/-- A thread that needs a produce lock has it. -/
def Locked (lock : String → Option ℕ) (threads : ℕ → Pc) : Prop :=
  ∀ i key, (threads i).holds = some key → lock key = some i

section

variable {lock : String → Option ℕ} {threads : ℕ → Pc} {i : ℕ} {pc : Pc}

section

variable (h : Locked lock threads)
include h

theorem Locked.keep (hpc : pc.holds = (threads i).holds) : Locked lock (update threads i pc) := by
  intro j key hj
  rw [update_apply] at hj
  split at hj
  next heq => exact h j key (heq ▸ hpc ▸ hj)
  · exact h j key hj

theorem Locked.take (hfree : lock key = none)
    (hpc : pc.holds = some key) : Locked (update lock key (some i)) (update threads i pc) := by
  intro j k hj
  rcases eq_or_ne j i with rfl | hne
  · rw [update_self, hpc] at hj
    cases hj
    exact update_self ..
  rw [update_of_ne hne] at hj
  have hk : k ≠ key := by
    rintro rfl
    rw [h j k hj] at hfree
    cases hfree
  rw [update_of_ne hk]
  exact h j k hj

theorem Locked.release (hi : (threads i).holds = some key)
    (hpc : pc.holds = none) : Locked (update lock key none) (update threads i pc) := by
  intro j k hj
  rcases eq_or_ne j i with rfl | hne
  · rw [update_self, hpc] at hj
    cases hj
  rw [update_of_ne hne] at hj
  have hk : k ≠ key := by
    rintro rfl
    exact hne (some.inj ((h j k hj).symm.trans (h i k hi)))
  rw [update_of_ne hk]
  exact h j k hj

/-- Two threads never hold the same produce lock. -/
theorem Locked.unique {j : ℕ} (hi : (threads i).holds = some key) (hj : (threads j).holds = some key) : j = i :=
  some.inj ((h j key hj).symm.trans (h i key hi))

end

end

/-- The mutex is held by the thread inside, and the counter covers the entries. -/
structure Counted (pauses : Dict Pause) (active : ℤ) (mu : Option ℕ) (threads : ℕ → Pc) : Prop where
  inside : ∀ i, (threads i).inside = true ↔ mu = some i
  count : active = pauses.size + mu.elim 0 fun i => (threads i).surplus
  cleared : ∀ i key, (threads i).cleared = some key → pauses.lookup key = none

section

variable {pauses pauses' : Dict Pause} {active : ℤ} {mu : Option ℕ} {threads : ℕ → Pc} {i : ℕ} {pc : Pc} {key : String}

/-- A thread outside the mutex moves, and entries are at most replaced. -/
theorem Counted.outside (h : Counted pauses active mu threads) (hi : (threads i).inside = false)
    (hpc : pc.inside = false) (hsize : pauses'.size = pauses.size)
    (hnone : ∀ key, pauses.lookup key = none → pauses'.lookup key = none) :
    Counted pauses' active mu (update threads i pc) := by
  have hmu : mu ≠ some i := fun hmu => by rw [← h.inside, hi] at hmu; cases hmu
  refine ⟨fun j => ?_, ?_, fun j k hj => ?_⟩
  · rcases eq_or_ne j i with rfl | hne
    · simpa [hpc] using hmu
    · rw [update_of_ne hne]
      exact h.inside j
  · rw [h.count, hsize]
    cases mu with
    | none => rfl
    | some j =>
      have hne : j ≠ i := fun heq => hmu (heq ▸ rfl)
      simp [update_of_ne hne]
  · rw [update_apply] at hj
    split at hj
    · rw [Pc.cleared_of_not_inside hpc] at hj
      cases hj
    · exact hnone k (h.cleared j k hj)

/-- A thread takes the mutex. -/
theorem Counted.enter (h : Counted pauses active none threads) (hpc : pc.inside = true)
    (hsize : (pauses.size : ℤ) = pauses'.size + pc.surplus)
    (hcleared : ∀ key, pc.cleared = some key → pauses'.lookup key = none) :
    Counted pauses' active (some i) (update threads i pc) := by
  have hout : ∀ j, (threads j).inside = false := by
    intro j
    have := (h.inside j).not
    simpa using this
  refine ⟨fun j => ?_, ?_, fun j k hj => ?_⟩
  · rcases eq_or_ne j i with rfl | hne
    · simp [hpc]
    · simpa [update_of_ne hne, hout j] using hne.symm
  · rw [h.count]
    simp [hsize]
  · rw [update_apply] at hj
    split at hj
    · exact hcleared k hj
    · rw [Pc.cleared_of_not_inside (hout j)] at hj
      cases hj

/-- The thread inside moves on, and leaves the mutex or keeps it. -/
theorem Counted.move (h : Counted pauses active mu threads) (hi : (threads i).inside = true) {active' : ℤ}
    {mu' : Option ℕ} (hmu' : mu' = if pc.inside then some i else none)
    (hcount : active' - pauses'.size - pc.surplus = active - pauses.size - (threads i).surplus)
    (hcleared : ∀ key, pc.cleared = some key → pauses'.lookup key = none) :
    Counted pauses' active' mu' (update threads i pc) := by
  obtain rfl : mu = some i := (h.inside i).mp hi
  have hout : ∀ j, j ≠ i → (threads j).inside = false := by
    intro j hne
    have := (h.inside j).not
    simpa [hne.symm] using this
  have hold := h.count
  simp only [elim_some] at hold
  refine ⟨fun j => ?_, ?_, fun j k hj => ?_⟩
  · rcases eq_or_ne j i with rfl | hne
    · rw [update_self, hmu']
      split <;> simp_all
    · rw [update_of_ne hne, hout j hne, hmu']
      split <;> simp [hne.symm]
  · rw [hmu']
    split
    · simp only [elim_some, update_self]
      omega
    next hnot =>
      have : pc.surplus = 0 := by cases pc <;> first | rfl | exact absurd rfl hnot
      simp only [elim_none]
      omega
  · rw [update_apply] at hj
    split at hj
    · exact hcleared k hj
    next hne =>
      rw [Pc.cleared_of_not_inside (hout j hne)] at hj
      cases hj

/-- Without a count there is no entry. -/
theorem Counted.none_of_zero (h : Counted pauses active mu threads) (hzero : active = 0) (key : String) :
    pauses.lookup key = none := by
  have hcount := h.count
  have hnonneg : 0 ≤ mu.elim 0 fun i => (threads i).surplus := by
    cases mu with
    | none => exact le_refl _
    | some i => simp only [Option.elim_some]
                cases threads i <;> simp [Pc.surplus]
  exact lookup_of_size_eq_zero (by omega) key

end

/-- The token of the freeze a thread made or was told. -/
def Pc.token : Pc → Option ℕ
  | .counted _ token | .armed _ token | .listing _ token | .listed _ token .. | .returned _ token .. => some token
  | _ => none

/-- Tokens in use are different, and those of removed freezes are not in use. -/
structure Tokens (pauses : Dict Pause) (minted : ℕ) (dead : List ℕ) (threads : ℕ → Pc) : Prop where
  stored : ∀ {key p}, pauses.lookup key = some p → p.token < minted ∧ p.token ∉ dead
  distinct : ∀ {key key' p p'}, pauses.lookup key = some p → pauses.lookup key' = some p' →
    p.token = p'.token → key = key'
  named : ∀ {i t}, (threads i).token = some t → t < minted
  fresh : ∀ {i c t}, threads i = .counted c t → (∀ key p, pauses.lookup key = some p → p.token ≠ t) ∧ t ∉ dead ∧
    ∀ j, j ≠ i → (threads j).token ≠ some t
  gone : ∀ {t}, t ∈ dead → t < minted

section

variable {pauses : Dict Pause} {minted : ℕ} {dead : List ℕ} {threads : ℕ → Pc} {i : ℕ} {pc : Pc}
  {key : String} {p : Pause} {c : Call} {t : ℕ}

section

variable (h : Tokens pauses minted dead threads)
include h

theorem Tokens.move (hpc : pc.token = none ∨ pc.token = (threads i).token) (hnot : ∀ c t, pc ≠ .counted c t) :
    Tokens pauses minted dead (update threads i pc) := by
  have htoken : ∀ {j t}, (update threads i pc j).token = some t → (threads j).token = some t := by
    intro j t hj
    rcases eq_or_ne j i with rfl | hne
    · rw [update_self] at hj
      rcases hpc with hpc | hpc <;> rw [hpc] at hj
      · cases hj
      · exact hj
    · rwa [update_of_ne hne] at hj
  refine ⟨h.stored, h.distinct, fun hj => h.named (htoken hj), fun {j c t} hj => ?_, h.gone⟩
  have hne : j ≠ i := by
    rintro rfl
    rw [update_self] at hj
    exact hnot c t hj
  rw [update_of_ne hne] at hj
  obtain ⟨hstored, hdead, hother⟩ := h.fresh hj
  exact ⟨hstored, hdead, fun k hk hkt => hother k hk (htoken hkt)⟩

/-- An entry goes, and its token joins the removed ones. -/
theorem Tokens.remove (hp : pauses.lookup key = some p) :
    Tokens (pauses.erase key) minted (p.token :: dead) threads := by
  refine ⟨fun {k q} hq => ?_, fun hq hq' => h.distinct (of_lookup_erase hq).2 (of_lookup_erase hq').2, h.named,
    fun {j c t} hj => ?_, fun {t} ht => ?_⟩
  · obtain ⟨hne, hq⟩ := of_lookup_erase hq
    have hdead : q.token ∉ dead := (h.stored hq).2
    have hother : q.token ≠ p.token := fun heq => hne (h.distinct hq hp heq)
    exact ⟨(h.stored hq).1, by simp [hother, hdead]⟩
  · obtain ⟨hstored, hdead, hother⟩ := h.fresh hj
    have hnew : t ≠ p.token := (hstored key p hp).symm
    exact ⟨fun k q hq => hstored k q (of_lookup_erase hq).2, by simp [hnew, hdead], hother⟩
  · rcases List.mem_cons.mp ht with rfl | ht
    · exact (h.stored hp).1
    · exact h.gone ht

omit h in
/-- Extending a freeze keeps its token. -/
theorem token_of_extended (hp : pauses.lookup key = some p) {expires : ℤ} {k : String} {q : Pause}
    (hq : Dict.lookup (pauses.insert key ⟨expires, p.token⟩) k = some q) :
    ∃ q', pauses.lookup k = some q' ∧ q'.token = q.token := by
  rcases of_lookup_insert hq with ⟨heq, rfl⟩ | ⟨-, hq⟩
  · exact ⟨p, heq ▸ hp, rfl⟩
  · exact ⟨q, hq, rfl⟩

/-- An active freeze is extended. -/
theorem Tokens.extend (hp : pauses.lookup key = some p) (expires : ℤ) :
    Tokens (pauses.insert key ⟨expires, p.token⟩) minted dead (update threads i (.armed c p.token)) := by
  refine ⟨fun hq => ?_, fun hq hq' heq => ?_, fun {j t} hj => ?_, fun {j d t} hj => ?_, h.gone⟩
  · obtain ⟨q', hq', heq⟩ := token_of_extended hp hq
    exact heq ▸ h.stored hq'
  · obtain ⟨r, hr, hrt⟩ := token_of_extended hp hq
    obtain ⟨r', hr', hrt'⟩ := token_of_extended hp hq'
    exact h.distinct hr hr' (hrt.trans (heq.trans hrt'.symm))
  · rw [update_apply] at hj
    split at hj
    · cases hj
      exact (h.stored hp).1
    · exact h.named hj
  · have hne : j ≠ i := by
      rintro rfl
      rw [update_self] at hj
      cases hj
    rw [update_of_ne hne] at hj
    obtain ⟨hstored, hdead, hother⟩ := h.fresh hj
    refine ⟨fun k q hq => ?_, hdead, fun k hk => ?_⟩
    · obtain ⟨q', hq', heq⟩ := token_of_extended hp hq
      exact heq ▸ hstored k q' hq'
    · rcases eq_or_ne k i with rfl | hki
      · simpa [Pc.token] using hstored key p hp
      · rw [update_of_ne hki]
        exact hother k hk

/-- A token is minted. -/
theorem Tokens.mint (hout : ∀ j d t, threads j ≠ .counted d t) :
    Tokens pauses (minted + 1) dead (update threads i (.counted c minted)) := by
  refine ⟨fun hp => ⟨Nat.lt_succ_of_lt (h.stored hp).1, (h.stored hp).2⟩, h.distinct, fun {j t} hj => ?_,
    fun {j d t} hj => ?_, fun ht => Nat.lt_succ_of_lt (h.gone ht)⟩
  · rw [update_apply] at hj
    split at hj
    · cases hj
      exact Nat.lt_succ_self _
    · exact Nat.lt_succ_of_lt (h.named hj)
  · rw [update_apply] at hj
    split at hj
    next heq =>
      cases hj
      refine ⟨fun k q hq => ne_of_lt (h.stored hq).1, fun hd => lt_irrefl _ (h.gone hd), fun k hk hkt => ?_⟩
      rw [update_of_ne (heq ▸ hk)] at hkt
      exact lt_irrefl _ (h.named hkt)
    · exact absurd hj (hout j d t)

/-- The new freeze becomes visible. -/
theorem Tokens.store (hi : threads i = .counted c t)
    (hout : ∀ j d u, j ≠ i → threads j ≠ .counted d u) (key : String) (expires : ℤ) :
    Tokens (pauses.insert key ⟨expires, t⟩) minted dead (update threads i (.armed c t)) := by
  obtain ⟨hstored, hdead, hother⟩ := h.fresh hi
  have hlt : t < minted := h.named (by rw [hi]; rfl)
  refine ⟨fun hq => ?_, fun {k k' q q'} hq hq' heq => ?_, fun {j u} hj => ?_, fun {j d u} hj => ?_, h.gone⟩
  · rcases of_lookup_insert hq with ⟨-, rfl⟩ | ⟨-, hq⟩
    · exact ⟨hlt, hdead⟩
    · exact h.stored hq
  · rcases of_lookup_insert hq with ⟨hk, rfl⟩ | ⟨-, hold⟩ <;>
      rcases of_lookup_insert hq' with ⟨hk', rfl⟩ | ⟨-, hold'⟩
    · exact hk.trans hk'.symm
    · exact absurd heq.symm (hstored _ _ hold')
    · exact absurd heq (hstored _ _ hold)
    · exact h.distinct hold hold' heq
  · rw [update_apply] at hj
    split at hj
    · cases hj
      exact hlt
    · exact h.named hj
  · rw [update_apply] at hj
    split at hj
    · cases hj
    next hne =>
      exact absurd hj (hout j d u hne)

end

end

/-- The thread's call has taken its listing. -/
def Took (pc : Pc) (c : Call) (token hwm at' : ℕ) : Prop :=
  pc = .listed c token hwm at' ∨ ∃ done, pc = .returned c token hwm at' done

theorem Took.token {token hwm at' : ℕ} (h : Took pc c token hwm at') : pc.token = some token := by
  rcases h with rfl | ⟨done, rfl⟩ <;> rfl

def Pc.call : Pc → Option Call
  | .arming c | .clearing c | .minting c | .counted c _ | .armed c _ | .listing c _ | .listed c .. => some c
  | _ => none

/-- While the freeze of a listing stands, nothing has moved since, and nothing is about to. -/
structure Promise (s : State) (c : Call) (hwm at' : ℕ) : Prop where
  hwm : s.hwm c.key = hwm
  before : ∀ a, (c.key, a) ∈ s.advances → a < at'
  quiet : ∀ j, s.threads j ≠ .appending c.key

structure Fence (s : State) : Prop where
  started : ∀ {i c}, (s.threads i).call = some c → c.started < s.time
  taken : ∀ {i c token hwm at'}, Took (s.threads i) c token hwm at' → c.started < at' ∧ at' < s.time
  answered : ∀ {i c token hwm at' done}, s.threads i = .returned c token hwm at' done → at' < done ∧ done < s.time
  advanced : ∀ {key a}, (key, a) ∈ s.advances → a < s.time
  promise : ∀ {i c token hwm at' p}, Took (s.threads i) c token hwm at' → s.pauses.lookup c.key = some p →
    p.token = token → Promise s c hwm at'
  pairs : ∀ {i j c d token hwm hwm' at' later}, Took (s.threads i) c token hwm at' →
    Took (s.threads j) d token hwm' later → d.require = some token → c.key = d.key → at' < later →
    hwm' = hwm ∧ ∀ a, (c.key, a) ∈ s.advances → ¬(at' < a ∧ a < later)

section

variable {s s' : State} {i : ℕ} {pc : Pc}

/-- No listing is taken, and what those taken promise still stands. -/
theorem Fence.frame (h : Fence s) (htime : s'.time = s.time + 1)
    (hcall : ∀ {j c}, (s'.threads j).call = some c → (s.threads j).call = some c ∨ c.started ≤ s.time)
    (htook : ∀ {j c token hwm at'}, Took (s'.threads j) c token hwm at' → Took (s.threads j) c token hwm at')
    (hdone : ∀ {j c token hwm at' done}, s'.threads j = .returned c token hwm at' done →
      s.threads j = .returned c token hwm at' done ∨ done = s.time)
    (hadvances : ∀ {key a}, (key, a) ∈ s'.advances → (key, a) ∈ s.advances ∨ a = s.time)
    (hpromise : ∀ {j c token hwm at' p}, Took (s'.threads j) c token hwm at' → s'.pauses.lookup c.key = some p →
      p.token = token → Promise s' c hwm at') : Fence s' where
  started hj := by
    rw [htime]
    rcases hcall hj with hj | hle
    · exact Nat.lt_succ_of_lt (h.started hj)
    · exact Nat.lt_succ_of_le hle
  taken hj := by
    rw [htime]
    exact ⟨(h.taken (htook hj)).1, Nat.lt_succ_of_lt (h.taken (htook hj)).2⟩
  answered {_ _ _ _ _ done} hj := by
    rw [htime]
    rcases hdone hj with hj | rfl
    · exact ⟨(h.answered hj).1, Nat.lt_succ_of_lt (h.answered hj).2⟩
    · exact ⟨(h.taken (htook (.inr ⟨s.time, hj⟩))).2, Nat.lt_succ_self _⟩
  advanced ha := by
    rw [htime]
    rcases hadvances ha with ha | rfl
    · exact Nat.lt_succ_of_lt (h.advanced ha)
    · exact Nat.lt_succ_self _
  promise := hpromise
  pairs hj hk hrequire hkey hlt := by
    obtain ⟨hsame, hnone⟩ := h.pairs (htook hj) (htook hk) hrequire hkey hlt
    refine ⟨hsame, fun a ha hbetween => ?_⟩
    rcases hadvances ha with ha | rfl
    · exact hnone a ha hbetween
    · exact absurd hbetween.2 (not_lt.mpr (le_of_lt (h.taken (htook hk)).2))

/-- A thread moves to a place without a listing, and the freezes of the listings taken are at most extended. -/
theorem Fence.move (h : Fence s) (hthreads : s'.threads = update s.threads i pc)
    (hhwm : s'.hwm = s.hwm) (hadvances : s'.advances = s.advances) (htime : s'.time = s.time + 1)
    (hpc : ∀ c token hwm at', ¬Took pc c token hwm at') (hcall : ∀ c, pc.call = some c → c.started ≤ s.time)
    (happending : ∀ key, pc = .appending key → s'.pauses.lookup key = none)
    (hlookup : ∀ key p', s'.pauses.lookup key = some p' → (∃ p, s.pauses.lookup key = some p ∧ p.token = p'.token) ∨
        ∀ j, j ≠ i → (s.threads j).token ≠ some p'.token) : Fence s' := by
  have hself : s'.threads i = pc := by rw [hthreads, update_self]
  have hother : ∀ {j}, j ≠ i → s'.threads j = s.threads j := fun hne => by rw [hthreads, update_of_ne hne]
  have hne : ∀ {j c token hwm at'}, Took (s'.threads j) c token hwm at' → j ≠ i := by
    rintro j c token hwm at' hj rfl
    exact hpc c token hwm at' (hself ▸ hj)
  refine h.frame htime (fun {j c} hj => ?_) (fun hj => hother (hne hj) ▸ hj)
    (fun {j c token hwm at' done} hj => .inl (hother (hne (.inr ⟨done, hj⟩)) ▸ hj))
    (fun ha => .inl (hadvances ▸ ha)) fun {j c token hwm at' p} hj hp heq => ?_
  · rcases eq_or_ne j i with rfl | hji
    · exact .inr (hcall c (hself ▸ hj))
    · exact .inl (hother hji ▸ hj)
  · have hji := hne hj
    rw [hother hji] at hj
    rcases hlookup c.key p hp with ⟨q, hq, hqt⟩ | hfresh
    · have hold := h.promise hj hq (hqt.trans heq)
      refine ⟨hhwm ▸ hold.hwm, hadvances ▸ hold.before, fun k => ?_⟩
      rcases eq_or_ne k i with rfl | hki
      · rw [hself]
        intro happ
        rw [happending c.key happ] at hp
        cases hp
      · rw [hother hki]
        exact hold.quiet k
    · exact absurd (heq ▸ hj.token) (hfresh j hji)

/-- A commit advances a high-watermark that no standing freeze covers. -/
theorem Fence.append (h : Fence s) (records : ℕ) (hi : s.threads i = .appending key)
    (hthreads : s'.threads = update s.threads i .idle) (hpauses : s'.pauses = s.pauses)
    (hhwm : s'.hwm = (s.append key records).hwm) (hadvances : s'.advances = (s.append key records).advances)
    (htime : s'.time = s.time + 1) : Fence s' := by
  have hsame : ∀ {j}, s'.threads j ≠ .idle → s'.threads j = s.threads j := by
    intro j hj
    rcases eq_or_ne j i with rfl | hne
    · rw [hthreads, update_self] at hj
      exact absurd rfl hj
    · rw [hthreads, update_of_ne hne]
  have htook : ∀ {j c token hwm at'}, Took (s'.threads j) c token hwm at' → Took (s.threads j) c token hwm at' := by
    intro j c token hwm at' hj
    rwa [hsame (by rcases hj with hj | ⟨done, hj⟩ <;> rw [hj] <;> rintro ⟨⟩)] at hj
  have hadv : ∀ {k a}, (k, a) ∈ s'.advances → (k, a) ∈ s.advances ∨ (k = key ∧ a = s.time) := by
    intro k a ha
    rw [hadvances, State.append] at ha
    split at ha
    · exact .inl ha
    rcases List.mem_cons.mp ha with heq | ha
    · cases heq
      exact .inr ⟨rfl, rfl⟩
    · exact .inl ha
  refine h.frame htime (fun {j c} hj => ?_) htook (fun hj => .inl (hsame (by rw [hj]; rintro ⟨⟩) ▸ hj))
    (fun ha => (hadv ha).imp_right And.right) fun {j c token hwm at' p} hj hp heq => ?_
  · exact .inl (hsame (fun hidle => by rw [hidle] at hj; cases hj) ▸ hj)
  · rw [hpauses] at hp
    have hold := h.promise (htook hj) hp heq
    have hother : c.key ≠ key := by
      intro hck
      exact hold.quiet i (by rw [hi, hck])
    refine ⟨?_, fun a ha => ?_, fun k hk => ?_⟩
    · rw [hhwm]
      exact (update_of_ne hother _ _).trans hold.hwm
    · rcases hadv ha with ha | ⟨hck, -⟩
      · exact hold.before a ha
      · exact absurd hck hother
    · exact hold.quiet k (hsame (by rw [hk]; rintro ⟨⟩) ▸ hk)

/-- A listing under the lock, by a call whose freeze still stands if it confirms one. -/
theorem Fence.list (h : Fence s) (hl : Locked s.produceLock s.threads) {token : ℕ} (hi : s.threads i = .listing c token)
    (harmed : c.require = none ∨ ∃ p, s.pauses.lookup c.key = some p ∧ p.token = token)
    (hthreads : s'.threads = update s.threads i (.listed c token (s.hwm c.key) s.time))
    (hpauses : s'.pauses = s.pauses) (hhwm : s'.hwm = s.hwm) (hadvances : s'.advances = s.advances)
    (htime : s'.time = s.time + 1) : Fence s' := by
  have hself : ∀ {d token' hwm at'}, Took (s'.threads i) d token' hwm at' →
      d = c ∧ token' = token ∧ hwm = s.hwm c.key ∧ at' = s.time := by
    intro d token' hwm at' hj
    rw [hthreads, update_self] at hj
    rcases hj with hj | ⟨done, hj⟩ <;> cases hj
    exact ⟨rfl, rfl, rfl, rfl⟩
  have hother : ∀ {j d token' hwm at'}, j ≠ i → Took (s'.threads j) d token' hwm at' →
      Took (s.threads j) d token' hwm at' := by
    intro j d token' hwm at' hne hj
    rwa [hthreads, update_of_ne hne] at hj
  have hstarted : c.started < s.time := h.started (by rw [hi]; rfl)
  have hquiet : ∀ j, s'.threads j ≠ .appending c.key := by
    intro j hj
    rw [hthreads, update_apply] at hj
    split at hj
    · cases hj
    next hne =>
      have hjl : (s.threads j).holds = some c.key := hj ▸ rfl
      exact hne (hl.unique (hi ▸ rfl) hjl)
  refine ⟨fun {j d} hj => ?_, fun {j d token' hwm at'} hj => ?_, fun {j d token' hwm at' done} hj => ?_,
    fun {key a} ha => ?_, fun {j d token' hwm at' p} hj hp heq => ?_,
    fun {j k d e token' hwm hwm' at' later} hj hk hrequire hkey hlt => ?_⟩
  · rw [htime]
    rw [hthreads, update_apply] at hj
    split at hj
    · cases hj
      exact Nat.lt_succ_of_lt hstarted
    · exact Nat.lt_succ_of_lt (h.started hj)
  · rw [htime]
    rcases eq_or_ne j i with rfl | hne
    · obtain ⟨rfl, -, -, rfl⟩ := hself hj
      exact ⟨hstarted, Nat.lt_succ_self _⟩
    · exact ⟨(h.taken (hother hne hj)).1, Nat.lt_succ_of_lt (h.taken (hother hne hj)).2⟩
  · have hne : j ≠ i := by
      rintro rfl
      rw [hthreads, update_self] at hj
      cases hj
    rw [hthreads, update_of_ne hne] at hj
    rw [htime]
    exact ⟨(h.answered hj).1, Nat.lt_succ_of_lt (h.answered hj).2⟩
  · rw [hadvances] at ha
    rw [htime]
    exact Nat.lt_succ_of_lt (h.advanced ha)
  · rcases eq_or_ne j i with rfl | hne
    · obtain ⟨rfl, -, rfl, rfl⟩ := hself hj
      exact ⟨hhwm ▸ rfl, fun a ha => h.advanced (hadvances ▸ ha), hquiet⟩
    rw [hpauses] at hp
    have hold := h.promise (hother hne hj) hp heq
    refine ⟨hhwm ▸ hold.hwm, hadvances ▸ hold.before, fun k hk => ?_⟩
    rw [hthreads, update_apply] at hk
    split at hk
    · cases hk
    · exact hold.quiet k hk
  · rw [hadvances]
    rcases eq_or_ne j i with rfl | hji
    · -- the new listing is the latest one
      obtain ⟨-, -, -, rfl⟩ := hself hj
      rcases eq_or_ne k j with rfl | hkj
      · obtain ⟨-, -, -, rfl⟩ := hself hk
        exact absurd hlt (lt_irrefl _)
      · exact absurd hlt (not_lt.mpr (le_of_lt (h.taken (hother hkj hk)).2))
    rcases eq_or_ne k i with rfl | hki
    · obtain ⟨rfl, rfl, rfl, rfl⟩ := hself hk
      obtain ⟨p, hp, hpt⟩ := harmed.resolve_left (by rw [hrequire]; simp)
      have hold := h.promise (hother hji hj) (hkey ▸ hp) hpt
      refine ⟨by rw [← hold.hwm, hkey], fun a ha hbetween => ?_⟩
      exact absurd (hold.before a ha) (not_lt.mpr (le_of_lt hbetween.1))
    · exact h.pairs (hother hji hj) (hother hki hk) hrequire hkey hlt

/-- A call returns with its listing. -/
theorem Fence.answer (h : Fence s) {token hwm at' : ℕ} (hi : s.threads i = .listed c token hwm at')
    (hthreads : s'.threads = update s.threads i (.returned c token hwm at' s.time))
    (hpauses : s'.pauses = s.pauses) (hhwm : s'.hwm = s.hwm) (hadvances : s'.advances = s.advances)
    (htime : s'.time = s.time + 1) : Fence s' := by
  have hcases : ∀ j, s'.threads j = s.threads j ∨ j = i ∧ s'.threads j = .returned c token hwm at' s.time := by
    intro j
    rcases eq_or_ne j i with rfl | hne
    · exact .inr ⟨rfl, by rw [hthreads, update_self]⟩
    · exact .inl (by rw [hthreads, update_of_ne hne])
  have htook : ∀ {j d token' hwm' at''}, Took (s'.threads j) d token' hwm' at'' →
      Took (s.threads j) d token' hwm' at'' := by
    intro j d token' hwm' at'' hj
    rcases hcases j with heq | ⟨rfl, heq⟩ <;> rw [heq] at hj
    · exact hj
    · rcases hj with hj | ⟨done, hj⟩ <;> cases hj
      exact .inl hi
  refine h.frame htime (fun {j d} hj => ?_) htook (fun {j d token' hwm' at'' done} hj => ?_)
    (fun ha => .inl (hadvances ▸ ha)) fun {j d token' hwm' at'' p} hj hp heq => ?_
  · rcases hcases j with heq | ⟨rfl, heq⟩ <;> rw [heq] at hj
    · exact .inl hj
    · cases hj
  · rcases hcases j with heq | ⟨rfl, heq⟩ <;> rw [heq] at hj
    · exact .inl hj
    · cases hj
      exact .inr rfl
  · rw [hpauses] at hp
    have hold := h.promise (htook hj) hp heq
    refine ⟨hhwm ▸ hold.hwm, hadvances ▸ hold.before, fun k hk => ?_⟩
    rcases hcases k with heq | ⟨rfl, heq⟩ <;> rw [heq] at hk
    · exact hold.quiet k hk
    · cases hk

end

structure Ok (s : State) : Prop where
  locked : Locked s.produceLock s.threads
  counted : Counted s.pauses s.active s.pauseMu s.threads
  tokens : Tokens s.pauses s.minted s.dead s.threads
  fence : Fence s

section

variable {s s' : State} {i : ℕ} {pc : Pc}

theorem not_took_of_token (h : pc.token = none) (c : Call) (token hwm at' : ℕ) : ¬Took pc c token hwm at' := by
  intro htook
  rw [htook.token] at h
  cases h

section

variable (h : Ok s)
include h

/-- A thread that goes on with its call has one that is begun. -/
theorem Ok.started {c : Call} (hi : (s.threads i).call = some c) (d : Call) (hd : some c = some d) :
    d.started ≤ s.time :=
  le_of_lt (h.fence.started (hi.trans hd))

/-- A thread outside the mutex moves to a place where it holds the same lock and has no listing. -/
theorem Ok.goto (hholds : pc.holds = (s.threads i).holds) (hi : (s.threads i).inside = false)
    (hpc : pc.inside = false) (htoken : pc.token = none) (hcall : ∀ c, pc.call = some c → c.started ≤ s.time)
    (happending : ∀ key, pc = .appending key → s.pauses.lookup key = none) :
    Ok { s.goto i pc with time := s.time + 1 } where
  locked := h.locked.keep hholds
  counted := h.counted.outside hi hpc rfl fun _ hk => hk
  tokens := h.tokens.move (.inl htoken) fun c t heq => by rw [heq] at htoken; cases htoken
  fence := h.fence.move rfl rfl rfl rfl (not_took_of_token htoken) hcall happending
    fun key p' hp' => .inl ⟨p', hp', rfl⟩

/-- A thread finds a freeze to remove and takes the mutex. -/
theorem Ok.remove (hmu : s.pauseMu = none) {p : Pause}
    (hp : s.pauses.lookup key = some p) (hholds : pc.holds = (s.threads i).holds) (hpc : pc.inside = true)
    (hsurplus : pc.surplus = 1) (hcleared : ∀ k, pc.cleared = some k → k = key) (htoken : pc.token = none)
    (hcall : ∀ c, pc.call = some c → c.started ≤ s.time) :
    Ok { (s.remove i key p).goto i pc with time := s.time + 1 } where
  locked := h.locked.keep hholds
  counted := by
    have hcounted := h.counted
    rw [hmu] at hcounted
    refine hcounted.enter hpc ?_ fun k hk => ?_
    · have := size_erase_of_some hp
      simp only [hsurplus, State.remove, State.goto]
      omega
    · rw [hcleared k hk]
      exact (congrFun (lookup_erase s.pauses key) key).trans (update_self ..)
  tokens := (h.tokens.remove hp).move (.inl htoken) fun c t heq => by rw [heq] at htoken; cases htoken
  fence := by
    refine h.fence.move rfl rfl rfl rfl (not_took_of_token htoken) hcall
      (fun k heq => by rw [heq] at hpc; cases hpc) fun k q hq => .inl ⟨q, ?_, rfl⟩
    exact (of_lookup_erase hq).2

/-- The thread inside lowers the counter for the entry it removed. -/
theorem Ok.lower (hi : (s.threads i).inside = true) (hsurplus : (s.threads i).surplus = 1)
    (hholds : pc.holds = (s.threads i).holds) (hpc : pc.surplus = 0) (hmu : Option ℕ)
    (hmu' : hmu = if pc.inside then some i else none)
    (hcleared : ∀ k, pc.cleared = some k → s.pauses.lookup k = none) (htoken : pc.token = none)
    (hcall : ∀ c, pc.call = some c → c.started ≤ s.time)
    (happending : ∀ key, pc = .appending key → s.pauses.lookup key = none) :
    Ok { ({ s with active := s.active - 1, pauseMu := hmu } : State).goto i pc with time := s.time + 1 } where
  locked := h.locked.keep hholds
  counted := by
    refine h.counted.move hi hmu' ?_ hcleared
    simp only [hpc, hsurplus, State.goto]
    omega
  tokens := h.tokens.move (.inl htoken) fun c t heq => by rw [heq] at htoken; cases htoken
  fence := h.fence.move rfl rfl rfl rfl (not_took_of_token htoken) hcall happending
    fun key p' hp' => .inl ⟨p', hp', rfl⟩

theorem Ok.load {locked : Bool} (hi : s.threads i = .gating key locked) :
    Ok { s.goto i (if s.active = 0 then State.passed key locked else .looking key locked) with
      time := s.time + 1 } := by
  split
  next hzero =>
    refine h.goto ?_ (hi ▸ rfl) ?_ ?_ ?_ fun k _ => h.counted.none_of_zero hzero k
    all_goals cases locked <;> simp [State.passed, hi, Pc.holds, Pc.inside, Pc.token, Pc.call]
  · refine h.goto ?_ (hi ▸ rfl) rfl rfl nofun nofun
    cases locked <;> simp [hi, Pc.holds]

theorem Ok.look {locked : Bool} (hi : s.threads i = .looking key locked)
    (hmu : s.pauseMu = none) (now : ℤ) : Ok { s.look i key locked now with time := s.time + 1 } := by
  unfold State.look
  split
  next hnone =>
    refine h.goto ?_ (hi ▸ rfl) ?_ ?_ ?_ fun k hk => ?_
    rotate_right
    · cases locked with
      | true =>
        cases hk
        exact hnone
      | false => cases hk
    all_goals cases locked <;> simp [State.passed, hi, Pc.holds, Pc.inside, Pc.token, Pc.call]
  next p hp =>
    split
    · refine h.remove hmu hp ?_ rfl rfl (fun k hk => ?_) rfl nofun
      · cases locked <;> simp [hi, Pc.holds]
      · cases hk
        rfl
    · refine h.goto ?_ (hi ▸ rfl) ?_ ?_ ?_ ?_
      all_goals cases locked <;> simp [State.paused, hi, Pc.holds, Pc.inside, Pc.token, Pc.call]

theorem Ok.arm (hi : s.threads i = .arming c) (hmu : s.pauseMu = none) : Ok { s.arm i c with time := s.time + 1 } := by
  have hstarted := h.started (congrArg Pc.call hi)
  have hcounted := h.counted
  rw [hmu] at hcounted
  have hlapsed : Ok { s.goto i (.lapsed c) with time := s.time + 1 } :=
    h.goto (hi ▸ rfl) (hi ▸ rfl) rfl rfl nofun nofun
  unfold State.arm
  split
  next hnone =>
    split
    · refine ⟨h.locked.keep (hi ▸ rfl), ?_, h.tokens.move (.inl rfl) nofun, ?_⟩
      · refine hcounted.enter rfl (by simp [Pc.surplus, State.goto]) fun k hk => ?_
        cases hk
        exact hnone
      · exact h.fence.move rfl rfl rfl rfl (not_took_of_token rfl) hstarted nofun
          fun key p' hp' => .inl ⟨p', hp', rfl⟩
    · exact hlapsed
  next p hp =>
    split
    · refine h.remove hmu hp (hi ▸ rfl) rfl rfl (fun k hk => ?_) rfl hstarted
      cases hk
      rfl
    split
    · refine ⟨h.locked.keep (hi ▸ rfl), ?_, h.tokens.extend hp _, ?_⟩
      · refine h.counted.outside (hi ▸ rfl) rfl (size_insert_of_some _ hp) fun k hk => ?_
        cases hk' : lookup (s.pauses.insert c.key ⟨c.expires, p.token⟩) k with
        | none => exact hk'
        | some q =>
          obtain ⟨q', hq', -⟩ := token_of_extended hp hk'
          rw [hk] at hq'
          cases hq'
      · refine h.fence.move rfl rfl rfl rfl ?_ hstarted nofun fun key p' hp' => .inl (token_of_extended hp hp')
        rintro d t w a (hd | ⟨done, hd⟩) <;> cases hd
    · exact hlapsed

theorem Ok.clear (hi : s.threads i = .clearing c) : Ok { s.clear i c with time := s.time + 1 } := by
  have hinside : (s.threads i).inside = true := hi ▸ rfl
  have hsurplus : (s.threads i).surplus = 1 := hi ▸ rfl
  unfold State.clear
  split
  · have hmu : s.pauseMu = some i := (h.counted.inside i).mp hinside
    have hstep : Ok { ({ s with active := s.active - 1, pauseMu := some i } : State).goto i (.minting c) with
        time := s.time + 1 } :=
      h.lower hinside hsurplus (hi ▸ rfl) rfl (some i) rfl
        (fun k hk => h.counted.cleared i k (hi ▸ hk)) rfl (h.started (congrArg Pc.call hi)) nofun
    rw [← hmu] at hstep
    exact hstep
  · exact h.lower hinside hsurplus (hi ▸ rfl) rfl none rfl nofun rfl nofun nofun

theorem Ok.mint (hi : s.threads i = .minting c) :
    Ok { ({ s with active := s.active + 1, minted := s.minted + 1 } : State).goto i (.counted c s.minted) with
      time := s.time + 1 } where
  locked := h.locked.keep (hi ▸ rfl)
  counted := by
    have hmu : s.pauseMu = some i := (h.counted.inside i).mp (hi ▸ rfl)
    refine h.counted.move (hi ▸ rfl) hmu ?_ fun k hk => h.counted.cleared i k (hi ▸ hk)
    simp only [hi, Pc.surplus, State.goto]
    omega
  tokens := by
    refine h.tokens.mint fun j d t hj => ?_
    have hmu : s.pauseMu = some i := (h.counted.inside i).mp (hi ▸ rfl)
    have hmu' : s.pauseMu = some j := (h.counted.inside j).mp (hj ▸ rfl)
    rw [hmu] at hmu'
    cases hmu'
    rw [hi] at hj
    cases hj
  fence := by
    refine h.fence.move rfl rfl rfl rfl ?_ (h.started (congrArg Pc.call hi)) nofun
      fun key p' hp' => .inl ⟨p', hp', rfl⟩
    rintro d t w a (hd | ⟨done, hd⟩) <;> cases hd

theorem Ok.store {t : ℕ} (hi : s.threads i = .counted c t) :
    Ok { ({ s with pauses := s.pauses.insert c.key ⟨c.expires, t⟩, pauseMu := none } : State).goto i
      (.armed c t) with time := s.time + 1 } := by
  have hnone : s.pauses.lookup c.key = none := h.counted.cleared i c.key (hi ▸ rfl)
  have hmu : s.pauseMu = some i := (h.counted.inside i).mp (hi ▸ rfl)
  refine ⟨h.locked.keep (hi ▸ rfl), ?_, h.tokens.store hi (fun j d u hne => ?_) _ _, ?_⟩
  · refine h.counted.move (hi ▸ rfl) rfl ?_ nofun
    have hsize := size_insert_of_none ⟨c.expires, t⟩ hnone
    simp only [hi, Pc.surplus, State.goto]
    omega
  · intro hj
    have hinside : s.pauseMu = some _ := (h.counted.inside _).mp (congrArg Pc.inside hj)
    exact hne (some.inj (hinside.symm.trans hmu))
  · refine h.fence.move rfl rfl rfl rfl ?_ (h.started (congrArg Pc.call hi)) nofun fun k q hq => ?_
    · rintro d t w a (hd | ⟨done, hd⟩) <;> cases hd
    · rcases of_lookup_insert hq with ⟨-, rfl⟩ | ⟨-, hq⟩
      · exact .inr (h.tokens.fresh hi).2.2
      · exact .inl ⟨q, hq, rfl⟩

/-- A thread takes or gives back a produce lock, and has no listing before or after. -/
theorem Ok.relock {holder : Option ℕ} (hlocked : Locked (update s.produceLock key holder) (update s.threads i pc))
    (hi : (s.threads i).inside = false) (hpc : pc.inside = false)
    (htoken : pc.token = none ∨ pc.token = (s.threads i).token) (htook : ∀ c t w a, ¬Took pc c t w a)
    (hcall : ∀ c, pc.call = some c → c.started ≤ s.time) (happending : ∀ key, pc ≠ .appending key) :
    Ok { (s.setLock key holder).goto i pc with time := s.time + 1 } where
  locked := hlocked
  counted := h.counted.outside hi hpc rfl fun _ hk => hk
  tokens := h.tokens.move htoken fun c t heq => by rw [heq] at hpc; cases hpc
  fence := h.fence.move rfl rfl rfl rfl htook hcall (fun k heq => absurd heq (happending k))
    fun key p' hp' => .inl ⟨p', hp', rfl⟩

theorem Ok.append (hi : s.threads i = .appending key) (records : ℕ) :
    Ok { ((s.append key records).setLock key none).goto i .idle with time := s.time + 1 } where
  locked := h.locked.release (hi ▸ rfl) rfl
  counted := h.counted.outside (hi ▸ rfl) rfl rfl fun _ hk => hk
  tokens := h.tokens.move (.inl rfl) nofun
  fence := h.fence.append records hi rfl rfl rfl rfl rfl

theorem Ok.list {t : ℕ} (hi : s.threads i = .listing c t) (harmed : s.stillArmed (.list i) = true) :
    Ok { s.goto i (.listed c t (s.hwm c.key) s.time) with time := s.time + 1 } where
  locked := h.locked.keep (hi ▸ rfl)
  counted := h.counted.outside (hi ▸ rfl) rfl rfl fun _ hk => hk
  tokens := h.tokens.move (.inr (hi ▸ rfl)) nofun
  fence := by
    refine h.fence.list h.locked hi ?_ rfl rfl rfl rfl rfl
    simpa [State.stillArmed, hi, any_eq_true] using harmed

theorem Ok.answer {t hwm at' : ℕ} (hi : s.threads i = .listed c t hwm at') :
    Ok { (s.setLock c.key none).goto i (.returned c t hwm at' s.time) with time := s.time + 1 } where
  locked := h.locked.release (hi ▸ rfl) rfl
  counted := h.counted.outside (hi ▸ rfl) rfl rfl fun _ hk => hk
  tokens := h.tokens.move (.inr (hi ▸ rfl)) nofun
  fence := h.fence.answer hi rfl rfl rfl rfl rfl

theorem Ok.act {l : Label} (harmed : s.stillArmed l = true) (hact : s.act l = some s') :
    Ok { s' with time := s.time + 1 } := by
  cases l with simp only [State.act] at hact
  | commit j key =>
    simp only [ite_none_right_eq_some, some.injEq] at hact
    obtain ⟨⟨hj, hfree⟩, rfl⟩ := hact
    exact h.relock (h.locked.take hfree rfl) (hj ▸ rfl) rfl (.inl rfl) (not_took_of_token rfl) nofun nofun
  | poll j key =>
    simp only [ite_none_right_eq_some, some.injEq] at hact
    obtain ⟨hj, rfl⟩ := hact
    exact h.goto (hj ▸ rfl) (hj ▸ rfl) rfl rfl nofun nofun
  | load j =>
    split at hact <;> cases hact
    next key locked hj => exact h.load hj
  | look j now =>
    split at hact <;> cases hact
    next key locked hj hmu => exact h.look hj hmu now
  | lower j =>
    split at hact
    next key locked hj =>
      cases hact
      have hgone : s.pauses.lookup key = none := h.counted.cleared j key (hj ▸ rfl)
      refine h.lower (hj ▸ rfl) (hj ▸ rfl) ?_ ?_ none ?_ ?_ ?_ ?_ fun k hk => ?_
      rotate_right
      · cases locked with
        | true =>
          cases hk
          exact hgone
        | false => cases hk
      all_goals
        cases locked <;>
          simp [State.passed, hj, Pc.holds, Pc.inside, Pc.token, Pc.call, Pc.surplus, Pc.cleared]
    next hj =>
      cases hact
      exact h.lower (hj ▸ rfl) (hj ▸ rfl) (hj ▸ rfl) rfl none rfl nofun rfl nofun nofun
    · cases hact
  | append j records =>
    split at hact <;> cases hact
    next key hj => exact h.append hj records
  | turnAway j =>
    split at hact <;> cases hact
    next key hj =>
      exact h.relock (h.locked.release (hj ▸ rfl) rfl) (hj ▸ rfl) rfl (.inl rfl) (not_took_of_token rfl) nofun nofun
  | handoff j key ttl require now =>
    simp only [ite_none_right_eq_some, some.injEq] at hact
    obtain ⟨hj, rfl⟩ := hact
    refine h.goto (hj ▸ rfl) (hj ▸ rfl) rfl rfl (fun c hc => ?_) nofun
    cases hc
    exact le_rfl
  | arm j =>
    split at hact <;> cases hact
    next c hj hmu => exact h.arm hj hmu
  | clear j =>
    split at hact <;> cases hact
    next c hj => exact h.clear hj
  | mint j =>
    split at hact <;> cases hact
    next c hj => exact h.mint hj
  | store j =>
    split at hact <;> cases hact
    next c t hj => exact h.store hj
  | lock j =>
    split at hact
    next c t hj =>
      split at hact <;> cases hact
      next hfree =>
        refine h.relock (h.locked.take hfree rfl) (hj ▸ rfl) rfl (.inr (hj ▸ rfl)) ?_
          (h.started (congrArg Pc.call hj)) nofun
        rintro d t w a (hd | ⟨done, hd⟩) <;> cases hd
    · cases hact
  | list j =>
    split at hact <;> cases hact
    next c t hj => exact h.list hj harmed
  | answer j =>
    split at hact <;> cases hact
    next c t hwm at' hj => exact h.answer hj
  | fail j =>
    split at hact
    next c t hj =>
      cases hact
      exact h.goto (hj ▸ rfl) (hj ▸ rfl) rfl rfl nofun nofun
    next c t hj =>
      cases hact
      exact h.relock (h.locked.release (hj ▸ rfl) rfl) (hj ▸ rfl) rfl (.inl rfl) (not_took_of_token rfl) nofun nofun
    · cases hact
  | resume j key =>
    simp only [ite_none_right_eq_some] at hact
    obtain ⟨⟨hj, hmu⟩, hact⟩ := hact
    split at hact <;> cases hact
    · have hstep : Ok { s.goto j .idle with time := s.time + 1 } := h.goto (hj ▸ rfl) (hj ▸ rfl) rfl rfl nofun nofun
      rwa [State.goto, ← hj, update_eq_self] at hstep
    next p hp => exact h.remove hmu hp (hj ▸ rfl) rfl rfl nofun rfl nofun

theorem Ok.step {l : Label} (harmed : s.stillArmed l = true) (hstep : s.step l = some s') : Ok s' := by
  rw [State.step, map_eq_some_iff] at hstep
  obtain ⟨s₁, hact, rfl⟩ := hstep
  exact h.act harmed hact

end

theorem Ok.start : Ok {} where
  locked := nofun
  counted := ⟨fun i => by simp [Pc.inside], by simp, nofun⟩
  tokens := ⟨nofun, nofun, nofun, nofun, nofun⟩
  fence := ⟨nofun, nofun, nofun, nofun, nofun, nofun⟩

end

def Label.thread : Label → ℕ
  | .commit i _ | .poll i _ | .load i | .look i _ | .lower i | .append i _ | .turnAway i | .handoff i .. | .arm i
  | .clear i | .mint i | .store i | .lock i | .list i | .answer i | .fail i | .resume i _ => i

section

variable {s s' : State} {l : Label} {i : ℕ}

theorem goto_of_ne (t : State) {j : ℕ} (pc : Pc) (hne : i ≠ j) : (t.goto j pc).threads i = t.threads i :=
  update_of_ne hne ..

/-- A step moves one thread. -/
theorem act_of_ne (hne : i ≠ l.thread) (hact : s.act l = some s') : s'.threads i = s.threads i := by
  cases l
  all_goals
    simp only [Label.thread] at hne
    simp only [State.act, ite_none_right_eq_some] at hact
  case resume j key =>
    obtain ⟨-, hact⟩ := hact
    split at hact <;> cases hact
    · rfl
    · exact goto_of_ne _ _ hne
  case look j now =>
    split at hact <;> cases hact
    unfold State.look
    split
    · exact goto_of_ne _ _ hne
    · split <;> exact goto_of_ne _ _ hne
  case arm j =>
    split at hact <;> cases hact
    unfold State.arm
    split
    · split <;> exact goto_of_ne _ _ hne
    split
    · exact goto_of_ne _ _ hne
    · split <;> exact goto_of_ne _ _ hne
  case clear j =>
    split at hact <;> cases hact
    unfold State.clear
    split <;> exact goto_of_ne _ _ hne
  case lock j =>
    split at hact
    · simp only [ite_none_right_eq_some, some.injEq] at hact
      obtain ⟨-, rfl⟩ := hact
      exact goto_of_ne _ _ hne
    · cases hact
  case commit | poll | handoff =>
    obtain ⟨-, hact⟩ := hact
    cases hact
    exact goto_of_ne _ _ hne
  all_goals
    split at hact <;> cases hact <;> exact goto_of_ne _ _ hne

/-- A call that requires a token arms only the active freeze with that token. -/
theorem armed_of_required {k token : ℕ} (hi : s.threads i = .arming c) (hrequire : c.require = some k)
    (hstep : s.step l = some s') (harmed : s'.threads i = .armed c token) :
    ∃ p, s.pauses.lookup c.key = some p ∧ p.token = k ∧ c.now < p.expires := by
  rw [State.step, map_eq_some_iff] at hstep
  obtain ⟨s₁, hact, rfl⟩ := hstep
  have harmed' : s₁.threads i = .armed c token := harmed
  have hthread : i = l.thread := by
    by_contra hne
    rw [act_of_ne hne hact, hi] at harmed'
    cases harmed'
  cases l
  case arm j =>
    obtain rfl : i = j := hthread
    simp only [State.act, hi] at hact
    split at hact
    next d hd hmu =>
      cases hd
      cases hact
      unfold State.arm at harmed'
      simp only [hrequire, State.goto] at harmed'
      cases hp : s.pauses.lookup c.key with
      | none => simp [hp] at harmed'
      | some p =>
        simp only [hp] at harmed'
        by_cases hexpired : p.expires ≤ c.now
        · simp [hexpired] at harmed'
        by_cases htoken : p.token = k
        · exact ⟨p, rfl, htoken, not_le.mp hexpired⟩
        · simp [hexpired, Ne.symm htoken] at harmed'
    · cases hact
  all_goals
    obtain rfl : i = _ := hthread
    simp [State.act, hi] at hact

end

/-- What callers of the handoff are told: a confirmation reports what the earlier call with its token
reported, nothing was committed between the two listings, and a freeze that expired or was resumed
is never confirmed again. -/
theorem handoff_fences_commits {es : List Label} {s : State}
    (hclean : cleanRun State.step State.stillArmed {} es = true) (hrun : runWith State.step {} es = some s) :
    (∀ i j c d k h₁ h₂ t₁ t₂ r₁ r₂, s.threads i = .returned c k h₁ t₁ r₁ → s.threads j = .returned d k h₂ t₂ r₂ →
      d.require = some k → c.key = d.key → r₁ < d.started →
      h₂ = h₁ ∧ ∀ a, (c.key, a) ∈ s.advances → ¬(t₁ < a ∧ a < t₂)) ∧
    ∀ i c k, s.threads i = .arming c → c.require = some k →
      (k ∈ s.dead ∨ ∃ p, s.pauses.lookup c.key = some p ∧ p.token = k ∧ p.expires ≤ c.now) →
      ∀ l s', s.step l = some s' → ∀ token, s'.threads i ≠ .armed c token := by
  have hok : Ok s := run_induction (fun _ _ _ h harmed hstep => h.step harmed hstep) Ok.start hclean hrun
  refine ⟨fun i j c d k h₁ h₂ t₁ t₂ r₁ r₂ hi hj hrequire hkey hlater => ?_, fun i c k hi hrequire hgone l s' hstep
    token harmed => ?_⟩
  · have hfirst : t₁ < r₁ := (hok.fence.answered hi).1
    have hsecond : d.started < t₂ := (hok.fence.taken (.inr ⟨r₂, hj⟩)).1
    exact hok.fence.pairs (.inr ⟨r₁, hi⟩) (.inr ⟨r₂, hj⟩) hrequire hkey (by omega)
  · obtain ⟨p, hp, rfl, hactive⟩ := armed_of_required hi hrequire hstep harmed
    rcases hgone with hdead | ⟨q, hq, -, hexpired⟩
    · exact (hok.tokens.stored hp).2 hdead
    rw [hp] at hq
    cases hq
    omega

/-- A move prepares and confirms while the source takes records for another partition. -/
def confirmedHandoff : List Label :=
  [.commit 0 "t/0", .load 0, .append 0 3, .handoff 1 "t/0" 30 none 0, .arm 1, .mint 1, .store 1, .lock 1, .list 1,
    .answer 1, .commit 2 "t/1", .load 2, .look 2 1, .append 2 5, .commit 3 "t/0", .load 3, .look 3 1, .turnAway 3,
    .handoff 4 "t/0" 30 (some 0) 2, .arm 4, .lock 4, .list 4, .answer 4]

theorem confirmedHandoff_agrees : ∃ s c d, runWith State.step {} confirmedHandoff = some s ∧
    s.threads 1 = .returned c 0 3 8 9 ∧ s.threads 4 = .returned d 0 3 21 22 ∧
    ∀ a, ("t/0", a) ∈ s.advances → ¬(8 < a ∧ a < 21) := by
  have hrun := (some_get (x := runWith State.step {} confirmedHandoff) (by decide +kernel)).symm
  refine ⟨_, ⟨"t/0", 30, none, 0, 3⟩, ⟨"t/0", 30, some 0, 2, 18⟩, hrun, by decide +kernel, by decide +kernel, ?_⟩
  exact ((handoff_fences_commits (by decide +kernel) hrun).1 1 4 ⟨"t/0", 30, none, 0, 3⟩ ⟨"t/0", 30, some 0, 2, 18⟩
    0 3 3 8 21 9 22 (by decide +kernel) (by decide +kernel) rfl rfl (by decide)).2

/-- The freeze goes after the confirmation armed it and before it lists: a commit gets between. -/
def resumedHandoff : List Label :=
  [.handoff 0 "t/0" 30 none 0, .arm 0, .mint 0, .store 0, .lock 0, .list 0, .answer 0,
    .handoff 1 "t/0" 30 (some 0) 1, .arm 1, .resume 2 "t/0", .lower 2, .commit 3 "t/0", .load 3, .append 3 1,
    .lock 1, .list 1, .answer 1]

theorem resumedHandoff_misses_commit : ∃ s c d, runWith State.step {} resumedHandoff = some s ∧
    s.threads 0 = .returned c 0 0 5 6 ∧ s.threads 1 = .returned d 0 1 15 16 ∧ d.require = some 0 ∧
    c.key = d.key ∧ 6 < d.started ∧ (c.key, 13) ∈ s.advances := by
  have hrun := (some_get (x := runWith State.step {} resumedHandoff) (by decide +kernel)).symm
  exact ⟨_, ⟨"t/0", 30, none, 0, 0⟩, ⟨"t/0", 30, some 0, 1, 7⟩, hrun, by decide +kernel, by decide +kernel, rfl, rfl,
    by decide, by decide +kernel⟩

end Narad.Messaging.Freeze
