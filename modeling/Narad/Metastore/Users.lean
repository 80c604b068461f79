import Narad.Metastore.Footprint

/-!
# The root account

Only a seed stores a root account, and only where no user stood. No later entry removes it, takes the
flag off it or changes its grants, and no entry makes a root account of another one. So what holds of
one entry holds of every run: `UserStep` lists what an entry can do to the record under a name.
-/

namespace Narad.Metastore

open Lib OrderedStore List Option

variable {S : OrderedStore}

variable {u : User}

/-- What an entry can do to the user record under a name. -/
inductive UserStep (e : Entry) (name : String) : Option User → Option User → Prop
  | kept (u : Option User) : UserStep e name u u
  | seeded {u : User} (he : e = .seedRootUser u) (hname : u.username = name) :
    UserStep e name none (some { u with root := true })
  | created {u : User} (he : e = .createUser u) (hname : u.username = name) :
    UserStep e name none (some { u with root := false })
  | changed {u v : User} (hroot : v.root = u.root) (hgrants : u.root = true → v.grants = u.grants) :
    UserStep e name (some u) (some v)
  | deleted {u : User} (hroot : u.root = false) : UserStep e name (some u) none

section

variable {env : Env} {db db' : Tables S} {e : Entry} {name key : String}

theorem UserStep.of_eq {u v : Option User} (h : v = u) : UserStep e name u v := by
  subst h
  exact .kept _

/-- A root record was there already, or the entry is its seed. -/
theorem UserStep.of_root {u : Option User} {v : User} (h : UserStep e name u (some v)) (hroot : v.root = true) :
    (∃ w, u = some w ∧ w.root = true ∧ v.grants = w.grants) ∨
      ∃ w, e = .seedRootUser w ∧ w.username = name ∧ u = none ∧ v = { w with root := true } := by
  cases h with
  | kept => exact .inl ⟨v, rfl, hroot, rfl⟩
  | seeded he hname => exact .inr ⟨_, he, hname, rfl, rfl⟩
  | created => cases hroot
  | changed hr hgrants => exact .inl ⟨_, rfl, hr ▸ hroot, hgrants (hr ▸ hroot)⟩

theorem putUser_lookup (h : putUser db key u = .ok db') :
    db'.users.lookup = Function.update db.users.lookup key (some u) := by
  obtain ⟨users, hput, heq⟩ := bind_eq_ok.mp h
  cases heq
  unfold putRecord at hput
  split at hput <;> cases hput
  next b hok =>
    obtain ⟨-, -, rfl⟩ := Bucket.put_eq_ok.mp hok
    exact Bucket.lookup_insert ..

theorem getRecord_eq_ok {α : Type} {b : S.Bucket α} {value : α} :
    getRecord b key = .ok value ↔ b.lookup key = some value := by
  unfold getRecord
  split <;> simp_all

/-- A write to one record leaves the others. -/
theorem UserStep.of_update (h : putUser db key u = .ok db') (hkey : UserStep e key (db.users.lookup key) (some u)) :
    (∀ n, n ≠ key → UserStep e n (db.users.lookup n) (db'.users.lookup n)) ∧
      UserStep e key (db.users.lookup key) (db'.users.lookup key) := by
  rw [putUser_lookup h]
  refine ⟨fun n hn => ?_, ?_⟩
  · rw [Function.update_of_ne hn]
    exact .kept _
  · rw [Function.update_self]
    exact hkey

theorem UserStep.write (h : putUser db key u = .ok db')
    (hkey : UserStep e key (db.users.lookup key) (some u)) (name : String) :
    UserStep e name (db.users.lookup name) (db'.users.lookup name) := by
  rcases eq_or_ne name key with rfl | hne
  · exact (UserStep.of_update h hkey).2
  · exact (UserStep.of_update h hkey).1 name hne

theorem putNewUser_step (h : putNewUser db u = .ok db') (hnew : UserStep e u.username none (some u)) (name : String) :
    UserStep e name (db.users.lookup name) (db'.users.lookup name) := by
  obtain ⟨_, habsent, h⟩ := bind_eq_ok.mp h
  refine UserStep.write h ?_ name
  have hnone : db.users.lookup u.username = none := by simpa using habsent
  rw [hnone]
  exact hnew

theorem mutateUser_step {fn : User → Except Err User} (h : mutateUser db key fn = .ok db')
    (hfn : ∀ u v, fn u = .ok v → v.root = u.root ∧ (u.root = true → v.grants = u.grants)) (name : String) :
    UserStep e name (db.users.lookup name) (db'.users.lookup name) := by
  obtain ⟨u, hget, h⟩ := bind_eq_ok.mp h
  obtain ⟨v, hv, h⟩ := bind_eq_ok.mp h
  refine UserStep.write h ?_ name
  rw [getRecord_eq_ok.mp hget]
  exact .changed (hfn u v hv).1 (hfn u v hv).2

theorem deleteUserRecord_step (h : deleteUserRecord db key = .ok db') (name : String) :
    UserStep e name (db.users.lookup name) (db'.users.lookup name) := by
  obtain ⟨current, hget, h⟩ := bind_eq_ok.mp h
  obtain ⟨_, hroot, h⟩ := bind_eq_ok.mp h
  cases h
  rw [Bucket.lookup_erase]
  rcases eq_or_ne name key with rfl | hne
  · rw [Function.update_self, getRecord_eq_ok.mp hget]
    exact .deleted (by simpa using hroot)
  · rw [Function.update_of_ne hne]
    exact .kept _

end

/-- What the transaction of an entry does to the record under a name. -/
theorem Entry.transaction_user {env : Env} {db db' : Tables S} {e : Entry} {refused : Option Err}
    (h : e.transaction env db = some (.ok (db', refused))) (name : String) :
    UserStep e name (db.users.lookup name) (db'.users.lookup name) := by
  by_cases husers : e.writes .users = true
  · cases e with
    | createUser u => exact putNewUser_step (of_map_eq_ok h) (.created rfl rfl) name
    | seedRootUser u => exact putNewUser_step (of_map_eq_ok h) (.seeded rfl rfl) name
    | updateUser u =>
      obtain ⟨current, hget, h⟩ := bind_eq_ok.mp (of_map_eq_ok h)
      refine UserStep.write h ?_ name
      rw [getRecord_eq_ok.mp hget]
      exact .changed rfl fun hroot => if_pos hroot
    | deleteUser username => exact deleteUserRecord_step (of_map_eq_ok h) name
    | setUserPassword username hash updatedAtMs =>
      refine mutateUser_step (of_map_eq_ok h) (fun u v hv => ?_) name
      cases hv
      exact ⟨rfl, fun _ => rfl⟩
    | setUserGrants username grants updatedAtMs =>
      refine mutateUser_step (of_map_eq_ok h) (fun u v hv => ?_) name
      obtain ⟨_, hroot, hv⟩ := bind_eq_ok.mp hv
      cases hv
      exact ⟨rfl, fun hr => absurd hr (by simpa using hroot)⟩
    | deleteUserReleaseTopics username =>
      obtain ⟨mid, hmid, hrelease⟩ := bind_eq_ok.mp (of_map_eq_ok h)
      have hkept : Frame (· == .topics) mid db' := releaseOwnedTopics_writes rfl username db' hrelease
      rw [show db'.users = mid.users from hkept .users rfl]
      exact deleteUserRecord_step hmid name
    | _ => cases husers
  · exact .of_eq (congrArg (·.lookup name) (Entry.transaction_frame h .users (by simpa using husers)))

/-- What an applied entry does to the record under a name. -/
theorem FSM.apply_user (env : Env) (s : FSM S) (l : LogEntry) (name : String) :
    UserStep l.entry name (s.db.users.lookup name) ((s.apply env l).1.db.users.lookup name) := by
  rcases FSM.apply_db env s l with heq | ⟨refused, h⟩
  · exact .of_eq (by rw [heq])
  · exact Entry.transaction_user h name

section

variable {env : Env} {s : FSM S} {name : String} {u : User}

/-- A root account outlives every entry, with its flag and its grants. -/
theorem root_kept (after : List LogEntry) (hu : s.db.users.lookup name = some u) (hroot : u.root = true) :
    ∃ v, (after.foldl (fun s l => (s.apply env l).1) s).db.users.lookup name = some v ∧
      v.root = true ∧ v.grants = u.grants := by
  induction after generalizing s u with
  | nil => exact ⟨u, hu, hroot, rfl⟩
  | cons l after ih =>
    have hstep := FSM.apply_user env s l name
    rw [hu] at hstep
    generalize hnext : (s.apply env l).1.db.users.lookup name = next at hstep
    cases hstep with
    | kept => exact ih hnext hroot
    | @changed _ v hr hgrants =>
      obtain ⟨w, hw, hwroot, hwgrants⟩ := ih hnext (hr.trans hroot)
      exact ⟨w, hw, hwroot, hwgrants.trans (hgrants hroot)⟩
    | deleted hr => rw [hroot] at hr; cases hr

/-- An account without the flag does not get it while it exists. -/
theorem plain_kept (after : List LogEntry) (hu : s.db.users.lookup name = some u) (hroot : u.root = false)
    (hexists : ∀ mid, mid <+: after →
      ((mid.foldl (fun s l => (s.apply env l).1) s).db.users.lookup name).isSome = true) :
    ∀ v, (after.foldl (fun s l => (s.apply env l).1) s).db.users.lookup name = some v → v.root = false := by
  induction after generalizing s u with
  | nil =>
    intro v hv
    rw [← some.inj (hu.symm.trans hv)]
    exact hroot
  | cons l after ih =>
    have hrest : ∀ mid, mid <+: after →
        ((mid.foldl (fun s l => (s.apply env l).1) (s.apply env l).1).db.users.lookup name).isSome = true :=
      fun mid hmid => hexists (l :: mid) (cons_prefix_cons.mpr ⟨rfl, hmid⟩)
    have hstep := FSM.apply_user env s l name
    rw [hu] at hstep
    generalize hnext : (s.apply env l).1.db.users.lookup name = next at hstep
    cases hstep with
    | kept => exact ih hnext hroot hrest
    | changed hr hgrants => exact ih hnext (hr.trans hroot) hrest
    | deleted hr =>
      have hsome := hrest [] (List.nil_prefix)
      rw [foldl_nil, hnext] at hsome
      cases hsome

/-- A seed that stored its record was answered with success. -/
theorem seed_answer {l : LogEntry} (hl : l.entry = .seedRootUser u) (hnone : s.db.users.lookup name = none)
    (hsome : (s.apply env l).1.db.users.lookup name ≠ none) : (s.apply env l).2 = .ok := by
  by_cases hstop : s.stopped = true
  · simp [FSM.apply, hstop, hnone] at hsome
  by_cases hidx : l.index ≤ s.applied
  · simp [FSM.apply, hstop, hidx, hnone] at hsome
  simp only [FSM.apply, hstop, hidx, hl, Entry.transaction, if_false] at hsome ⊢
  cases hseed : applySeedRootUser s.db u with
  | error e => simp [hseed, Tx.done, Functor.map, Except.map, FSM.consume, hnone] at hsome
  | ok db =>
    simp only [hseed, Tx.done, Functor.map, Except.map] at hsome ⊢
    cases hstored : l.stored with
    | true => rfl
    | false => simp [hstored, FSM.halt, hnone] at hsome

/-- A root account was seeded by an entry of the run, in the place of no user. -/
theorem root_was_seeded (entries : List LogEntry) (hu : (run env entries).db.users.lookup name = some u)
    (hroot : u.root = true) :
    ∃ before l after v, entries = before ++ l :: after ∧ l.entry = .seedRootUser v ∧ v.username = name ∧
      (run env before).db.users.lookup name = none ∧
      (run env (before ++ [l])).db.users.lookup name = some { v with root := true } ∧
      ((run env before).apply env l).2 = .ok ∧ u.grants = v.grants := by
  induction entries using reverseRecOn generalizing u with
  | nil => simp [run, Bucket.lookup_empty] at hu
  | append_singleton es l ih =>
    have hstep := FSM.apply_user env (run env es) l name
    rw [← run_concat, hu] at hstep
    rcases hstep.of_root hroot with ⟨w, hw, hwroot, hgrants⟩ | ⟨v, he, hname, hprev, rfl⟩
    · obtain ⟨before, l', after, v, rfl, hl, hname, hnone, hsome, hanswer, hv⟩ := ih hw hwroot
      exact ⟨before, l', after ++ [l], v, by simp, hl, hname, hnone, hsome, hanswer, hgrants.trans hv⟩
    refine ⟨es, l, [], v, rfl, he, hname, hprev, hu, ?_, rfl⟩
    refine seed_answer he hprev ?_
    rw [← run_concat, hu]
    simp

end

/-- A root account exists only by a seed in the place of no user, and then it stays, with its flag and
the grants it was seeded with; a created account never becomes one. -/
theorem root_accounts_are_protected (env : Env) (name : String) :
    (∀ entries u, (run env entries).db.users.lookup name = some u → u.root = true →
      ∃ before l after v, entries = before ++ l :: after ∧ l.entry = .seedRootUser v ∧ v.username = name ∧
        (run env before).db.users.lookup name = none ∧
        (run env (before ++ [l])).db.users.lookup name = some { v with root := true } ∧
        ((run env before).apply env l).2 = .ok ∧ u.grants = v.grants) ∧
    (∀ before l after v, l.entry = .seedRootUser v → v.username = name → (run env before).db.users.lookup name = none →
      (run env (before ++ [l])).db.users.lookup name = some { v with root := true } →
      ∃ u, (run env (before ++ l :: after)).db.users.lookup name = some u ∧ u.root = true ∧ u.grants = v.grants) ∧
    (∀ before l after v, l.entry = .createUser v → v.username = name → (run env before).db.users.lookup name = none →
      (∀ mid, mid <+: after → ((run env (before ++ l :: mid)).db.users.lookup name).isSome = true) →
      ∀ u, (run env (before ++ l :: after)).db.users.lookup name = some u → u.root = false) := by
  have hsplit : ∀ before l after, run env (before ++ l :: after) =
      after.foldl (fun s l => (s.apply env l).1) (run env (before ++ [l])) := by
    intro before l after
    rw [← run_append, append_assoc, singleton_append]
  refine ⟨fun entries u hu hroot => root_was_seeded entries hu hroot, ?_, ?_⟩
  · intro before l after v _ _ _ hseeded
    obtain ⟨u, hu, hroot, hgrants⟩ := root_kept after hseeded rfl
    rw [hsplit]
    exact ⟨u, hu, hroot, hgrants⟩
  · intro before l after v hl hname hnone hexists u hu
    have hstep := FSM.apply_user env (run env before) l name
    rw [← run_concat, hnone] at hstep
    generalize hnext : (run env (before ++ [l])).db.users.lookup name = next at hstep
    rw [hsplit] at hu
    cases hstep with
    | kept =>
      have hsome := hexists [] nil_prefix
      rw [hnext] at hsome
      cases hsome
    | seeded he hname' => rw [hl] at he; cases he
    | created he hname' =>
      refine plain_kept after hnext rfl (fun mid hmid => ?_) u hu
      rw [← hsplit]
      exact hexists mid hmid

/-- A seeded root account, an account that was created as root, and attempts on both. -/
def rootAttempts : List LogEntry :=
  [⟨1, .seedRootUser { username := "root", passwordHash := [1], grants := [⟨"admin", ["*"]⟩] }, true⟩,
    ⟨2, .createUser { username := "eve", passwordHash := [2], grants := [], root := true }, true⟩,
    ⟨3, .updateUser { username := "root", passwordHash := [3], grants := [] }, true⟩,
    ⟨4, .setUserGrants "root" [] 7, true⟩,
    ⟨5, .deleteUser "root", true⟩,
    ⟨6, .deleteUserReleaseTopics "root", true⟩,
    ⟨7, .updateUser { username := "eve", passwordHash := [2], grants := [], root := true }, true⟩]

theorem rootAttempts_fail : (∃ u, (run plainEnv rootAttempts).db.users.lookup "root" = some u ∧
      u.root = true ∧ u.grants = [⟨"admin", ["*"]⟩]) ∧
    ∀ u, (run plainEnv rootAttempts).db.users.lookup "eve" = some u → u.root = false := by
  refine ⟨?_, ?_⟩
  · exact (root_accounts_are_protected plainEnv "root").2.1 [] ⟨1, _, true⟩ rootAttempts.tail _ rfl rfl
      (by decide +kernel) (by decide +kernel)
  · refine (root_accounts_are_protected plainEnv "eve").2.2 (rootAttempts.take 1) ⟨2, _, true⟩
      (rootAttempts.drop 2) _ rfl rfl (by decide +kernel) ?_
    have hall : ∀ mid ∈ (rootAttempts.drop 2).inits,
        ((run plainEnv (rootAttempts.take 2 ++ mid)).db.users.lookup "eve").isSome = true := by decide +kernel
    exact fun mid hmid => hall mid ((mem_inits mid _).mpr hmid)

end Narad.Metastore
