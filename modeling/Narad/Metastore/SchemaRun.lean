import Narad.Metastore.Lessens

/-!
# Schema histories over runs

An entry that only loosens the topics keeps the histories as they are. What is left are creates, attaches
and puts, each of which keeps them by a lemma of its own.

From the step of an entry follows what holds after any entries: dense histories that agree along the
links, and nothing stored that an entry other than a delete of the topic takes away.
-/

namespace Narad.Metastore

open Function (update update_apply update_of_ne update_self)
open Lib OrderedStore List Option

variable {S : OrderedStore}

variable {p : ℤ}

/-- The tables hold dense histories. -/
abbrev Dense (env : Env) (db : Tables S) : Prop :=
  Histories env db.topic db.schemas.lookup

/-- Every assignment row is of a topic there is. -/
def Placed (topic : String → Option Topic) (assignments : String → Option Assignment) : Prop :=
  ∀ key a, assignments key = some a → key = assignmentKey a.topic a.partition ∧ ∃ t, topic a.topic = some t

section

variable {env : Env} {db db' : Tables S} {named : String → Prop} {n : String} {t : Topic}

/-- Two ranges that meet in a key of a schema are of one topic. -/
theorem Histories.eq_of_range (h : Dense env db) {m : String} {u : Topic} {v : ℤ}
    (hm : db.topic m = some u) (hn : db.topic n = some t) (hrange : (keyRange m).isPrefixOf (schemaKey n v) = true) :
    m = n :=
  (isPrefixOf_schemaKey (h.named hm) (h.named hn)).mp hrange

theorem Histories.lessens (h : Dense env db) (hforest : Forest db'.topic) (hl : Lessens named db db') :
    Dense env db' ∧ Keeps named db.schemas.lookup db'.schemas.lookup := by
  refine ⟨h.frame hforest (fun c u' hu' his hlocal => ?_) (fun n t' ht' => .inl ?_) (fun n t' ht' => ?_)
    (fun key x hx => ?_), fun key x hx => ?_⟩
  · obtain ⟨u, hu, hmild⟩ := hl.records c u' hu'
    obtain ⟨hwas, hsame, hstub⟩ := hmild his
    rw [hsame]
    exact h.linked hu hwas fun hr => hlocal (hstub.mpr hr)
  · obtain ⟨t, ht, hmild⟩ := hl.records n t' ht'
    exact ⟨t, ht, fun hr => (hmild hr.2).2.2.mp hr⟩
  · obtain ⟨t, ht, -⟩ := hl.records n t' ht'
    funext v
    refine hl.schemas.kept _ fun m hm => Bool.eq_false_iff.mpr fun hrange => ?_
    obtain ⟨u, hu⟩ := ne_none_iff_exists'.mp hm.1
    rw [h.eq_of_range hu ht hrange, ht'] at hm
    cases hm.2
  · obtain ⟨hx, hkept⟩ := hl.schemas.of_some hx
    refine ⟨hx, fun n t v ht hkey => ne_none_iff_exists'.mp fun hnone => ?_⟩
    have := hkept n ⟨by rw [ht]; nofun, hnone⟩
    rw [hkey, mem_range_of_isPrefixOf_self] at this
    cases this
  · obtain ⟨n, v, t, ht, rfl⟩ := h.owned hx
    by_cases hgone : db'.topic n = none
    · rcases hl.gone n t ht hgone with hnamed | hstub
      · exact .inr ⟨n, v, hnamed, h.named ht, rfl⟩
      have hnone := h.stub ht hstub v
      rw [history, hx] at hnone
      cases hnone
    · refine .inl ?_
      rw [hl.schemas.kept _ fun m hm => Bool.eq_false_iff.mpr fun hrange => ?_, hx]
      obtain ⟨u, hu⟩ := ne_none_iff_exists'.mp hm.1
      rw [h.eq_of_range hu ht hrange] at hm
      exact hgone hm.2

section

variable (h : Placed db.topic db.assignments.lookup)
include h

theorem Placed.lessens (hl : Lessens named db db') : Placed db'.topic db'.assignments.lookup := by
  intro key a ha
  obtain ⟨ha, hkept⟩ := hl.assignments.of_some ha
  obtain ⟨hkey, t, ht⟩ := h key a ha
  refine ⟨hkey, ne_none_iff_exists'.mp fun hnone => ?_⟩
  have := hkept a.topic ⟨by rw [ht]; nofun, hnone⟩
  rw [hkey] at this
  rw [show assignmentKey a.topic a.partition = schemaKey a.topic a.partition from rfl,
    mem_range_of_isPrefixOf_self] at this
  cases this

/-- No topic goes, and no row is written. -/
theorem Placed.grow (htopics : ∀ n t, db.topic n = some t → ∃ t', db'.topic n = some t')
    (hrows : ∀ key a, db'.assignments.lookup key = some a → db.assignments.lookup key = some a) :
    Placed db'.topic db'.assignments.lookup := by
  intro key a ha
  obtain ⟨hkey, t, ht⟩ := h key a (hrows key a ha)
  exact ⟨hkey, htopics _ t ht⟩

theorem Placed.put {a : Assignment} (ht : db.topic a.topic = some t)
    (hput : putAssignment db a = .ok db') : Placed db'.topic db'.assignments.lookup := by
  simp only [putAssignment, bind_eq_ok] at hput
  obtain ⟨rows, hrows, hput⟩ := hput
  cases hput
  unfold putRecord at hrows
  split at hrows
  · cases hrows
  rename_i b hb
  cases hrows
  obtain ⟨-, -, rfl⟩ := Bucket.put_eq_ok.mp hb
  intro key a' ha'
  rw [Bucket.lookup_insert, update_apply] at ha'
  split at ha'
  · cases ha'
    exact ⟨‹_›, t, ht⟩
  · exact h key a' ha'

end

end

section

variable {env : Env} {db db' : Tables S} {t : Topic} {name : String}

theorem Histories.create (h : Dense env db) (hforest : Forest db'.topic)
    (hfree : db.topic t.name = none) (hcolon : ColonFree t.name) (hplain : t.Plain)
    (htopic : db'.topic = update db.topic t.name (some t)) (hschemas : db'.schemas.lookup = db.schemas.lookup) :
    Dense env db' := by
  refine h.frame hforest (fun c u hu his hlocal => ?_) (fun n u hu => ?_) (fun n u hu => by rw [hschemas])
    (fun key x hx => ⟨hschemas ▸ hx, fun n u v hu _ => ?_⟩)
  · rcases update_eq_some (htopic ▸ hu) with ⟨-, ⟨⟩⟩ | ⟨-, hu⟩
    · exact absurd his hplain.not_isChild
    · exact h.linked hu his hlocal
  · rcases update_eq_some (htopic ▸ hu) with ⟨rfl, ⟨⟩⟩ | ⟨-, hu⟩
    · exact .inr ⟨hfree, hcolon⟩
    · exact .inl ⟨u, hu, fun hr => hr⟩
  · rw [htopic, update_apply]
    split
    · exact ⟨t, rfl⟩
    · exact ⟨u, hu⟩

/-- A record is linked as a child of another: a new stub, or a local topic whose history agrees. -/
theorem Histories.link (h : Dense env db) (hforest : Forest db'.topic) {parent child : Topic}
    (htopic : db'.topic = update (update db.topic parent.name (some (parent.linked child.name)))
      child.name (some child)) (hparent : db.topic parent.name = some parent)
    (hchild : db.topic child.name = none ∧ ColonFree child.name ∧ child.isRemoteChild ∨
      (∃ u, db.topic child.name = some u) ∧ ¬child.isRemoteChild ∧ ∀ v, Option.Rel (SameValue env)
        (history db.schemas.lookup child.parent v) (history db.schemas.lookup child.name v))
    (hschemas : db'.schemas.lookup = db.schemas.lookup) : Dense env db' := by
  have hnot : ¬(parent.linked child.name).isChild :=
    Topic.not_isChild_of_isParent (Topic.linked_isParent parent child.name)
  refine h.frame hforest (fun c u hu his hlocal => ?_) (fun n u hu => ?_) (fun n u hu => by rw [hschemas])
    (fun key x hx => ⟨hschemas ▸ hx, fun n u v hu _ => ?_⟩)
  · rcases update_pair_eq_some (htopic ▸ hu) with ⟨rfl, ⟨⟩⟩ | ⟨-, ⟨⟩⟩ | ⟨-, hu⟩
    · rcases hchild with ⟨-, -, hr⟩ | ⟨-, -, hagree⟩
      · exact absurd hr hlocal
      · exact hagree
    · exact absurd his hnot
    · exact h.linked hu his hlocal
  · rcases update_pair_eq_some (htopic ▸ hu) with ⟨rfl, ⟨⟩⟩ | ⟨rfl, ⟨⟩⟩ | ⟨-, hu⟩
    · rcases hchild with ⟨hfree, hcolon, -⟩ | ⟨⟨w, hw⟩, hlocal, -⟩
      · exact .inr ⟨hfree, hcolon⟩
      · exact .inl ⟨w, hw, fun hr => absurd hr hlocal⟩
    · exact .inl ⟨parent, hparent, fun hr => absurd hr.2 hnot⟩
    · exact .inl ⟨u, hu, fun hr => hr⟩
  · rw [htopic, update_apply]
    split
    · exact ⟨child, rfl⟩
    rw [update_apply]
    split
    · exact ⟨_, rfl⟩
    · exact ⟨u, hu⟩

end

section

variable {env : Env} {db db' : Tables S} {t u : Topic} {name p c : String}

theorem putSchema_lookup {v : ℤ} {x : Bytes} (h : putSchema db name v x = .ok db') :
    db'.schemas.lookup = update db.schemas.lookup (schemaKey name v) (some x) := by
  unfold putSchema at h
  split at h
  · cases h
  rename_i b hb
  cases h
  obtain ⟨-, -, rfl⟩ := Bucket.put_eq_ok.mp hb
  exact Bucket.lookup_insert ..

theorem putSchemas_lookup {names : List String} {v : ℤ} {x : Bytes} (h : putSchemas db names v x = .ok db') :
    db'.schemas.lookup = putAll db.schemas.lookup names v x := by
  unfold putSchemas at h
  induction names generalizing db with
  | nil =>
    cases h
    funext key
    simp [putAll]
  | cons n names ih =>
    rw [foldlM_cons, bind_eq_ok] at h
    obtain ⟨mid, hput, hrest⟩ := h
    rw [ih hrest, putSchema_lookup hput]
    funext key
    by_cases hn : key = schemaKey n v
    · by_cases hmem : ∃ m ∈ names, key = schemaKey m v <;> simp [putAll, hn]
    · simp [putAll, hn]

/-- The versions written one by one. -/
theorem foldlM_putSchema {es : List (ℤ × Bytes)} (h : es.foldlM (fun db e => putSchema db c e.1 e.2) db = .ok db') :
    (∀ key, (∀ e ∈ es, key ≠ schemaKey c e.1) → db'.schemas.lookup key = db.schemas.lookup key) ∧
      (es.Pairwise (fun e f => schemaKey c e.1 ≠ schemaKey c f.1) →
        ∀ e ∈ es, db'.schemas.lookup (schemaKey c e.1) = some e.2) := by
  induction es generalizing db with
  | nil =>
    cases h
    exact ⟨fun _ _ => rfl, fun _ => nofun⟩
  | cons e es ih =>
    rw [foldlM_cons, bind_eq_ok] at h
    obtain ⟨mid, hput, hrest⟩ := h
    have hmid := putSchema_lookup hput
    obtain ⟨hother, hall⟩ := ih hrest
    refine ⟨fun key hkey => ?_, fun hpair e' he' => ?_⟩
    · rw [hother key fun e' he' => hkey e' (.tail _ he'), hmid, update_of_ne (hkey e (.head _))]
    · obtain ⟨hfirst, hpair⟩ := pairwise_cons.mp hpair
      rcases mem_cons.mp he' with rfl | he'
      · rw [hother _ hfirst, hmid, update_self]
      · exact hall hpair e' he'

theorem history_none_of_isEmpty {out : History} {h : ℤ → Option Bytes} (hget : ∀ v : ℤ, out[v]? = h v)
    (hempty : out.isEmpty = true) (v : ℤ) : h v = none := by
  rw [← hget]
  exact Std.TreeMap.getElem?_eq_none (Std.TreeMap.not_mem_of_isEmpty hempty)

/-- Histories that compare equal have the same versions, and schemas that compare equal. -/
theorem historiesEqual_rel {same : Bytes → Bytes → Bool} {a b : History}
    (h : historiesEqual same a b = true) (v : ℤ) : Option.Rel (fun x y => same x y = true) a[v]? b[v]? := by
  rw [historiesEqual, Bool.and_eq_true, beq_iff_eq, List.all_eq_true] at h
  obtain ⟨hsize, hall⟩ := h
  have hfound : ∀ (w : ℤ) x, a[w]? = some x → ∃ y, b[w]? = some y ∧ same x y = true := by
    intro w x hx
    have hsame := hall (w, x) (Std.TreeMap.mem_toList_iff_getElem?_eq_some.mpr hx)
    split at hsame
    · cases hsame
    next y hy => exact ⟨y, hy, hsame⟩
  cases hx : a[v]? with
  | some x =>
    obtain ⟨y, hy, hsame⟩ := hfound v x hx
    rw [hy]
    exact .some hsame
  | none =>
    cases hy : b[v]? with
    | none => exact .none
    | some y =>
      -- one key more than all of the other's, of the same number
      have hmem : ∀ {h : History} {w : ℤ}, w ∈ h.keys ↔ ∃ z, h[w]? = some z := by
        intro h w
        rw [Std.TreeMap.mem_keys, Std.TreeMap.mem_iff_isSome_getElem?, isSome_iff_exists]
      have hsub : v :: a.keys ⊆ b.keys := by
        intro w hw
        rcases mem_cons.mp hw with rfl | hw
        · exact hmem.mpr ⟨y, hy⟩
        obtain ⟨x, hx⟩ := hmem.mp hw
        obtain ⟨z, hz, -⟩ := hfound w x hx
        exact hmem.mpr ⟨z, hz⟩
      have hnodup : (v :: a.keys).Nodup := by
        refine nodup_cons.mpr ⟨fun hv => ?_, (Std.TreeMap.distinct_keys (t := a)).imp fun hne heq => hne (by simp [heq])⟩
        obtain ⟨x, hx'⟩ := hmem.mp hv
        rw [hx] at hx'
        cases hx'
      have hle := (subperm_of_subset hnodup hsub).length_le
      rw [length_cons, Std.TreeMap.length_keys, Std.TreeMap.length_keys] at hle
      omega

theorem relSame_refl (env : Env) (a : Option Bytes) : Option.Rel (SameValue env) a a := by
  cases a with
  | none => exact .none
  | some x => exact .some (jsonValueEqual_self _ x)

/-- An attach leaves the child with the parent's history, or one that compares equal. -/
theorem Histories.reconcile (h : Dense env db) (hforest : Forest db.topic)
    (hp : db.topic p = some t) (hc : db.topic c = some u) (hne : p ≠ c) (hnotChild : ¬u.isChild)
    (hnotParent : ¬u.isParent) {rules : AttachRules} {adopted : Bool}
    (hok : reconcileSchemasForAttach env db p c rules = .ok (db', adopted)) :
    Histories env db.topic db'.schemas.lookup ∧ Keeps (fun _ => False) db.schemas.lookup db'.schemas.lookup ∧
      ∀ v, Option.Rel (SameValue env) (history db'.schemas.lookup p v) (history db'.schemas.lookup c v) := by
  simp only [reconcileSchemasForAttach, bind_eq_ok] at hok
  obtain ⟨parentSchemas, hparent, childSchemas, hchild, hok⟩ := hok
  obtain ⟨m, hm⟩ := h.readable hp
  obtain ⟨k, hk⟩ := h.readable hc
  have hpget := hm.loadSchemaHistory_eq hparent
  have hcget := hk.loadSchemaHistory_eq hchild
  have hsame : Keeps (fun _ => False) db.schemas.lookup db.schemas.lookup := fun _ _ hx => .inl hx
  split at hok
  next hempty =>
    have hnone := history_none_of_isEmpty hcget hempty
    split at hok
    next hpempty =>
      cases hok
      refine ⟨h, hsame, fun v => ?_⟩
      rw [hnone, history_none_of_isEmpty hpget hpempty]
      exact .none
    obtain ⟨mid, hadopt, hok⟩ := bind_eq_ok.mp hok
    cases hok
    rw [adoptSchemas, bind_eq_ok] at hadopt
    obtain ⟨_, -, hloop⟩ := hadopt
    obtain ⟨hother, hall⟩ := foldlM_putSchema hloop
    have hkeys : parentSchemas.toList.Pairwise fun e f => schemaKey c e.1 ≠ schemaKey c f.1 := by
      refine (Std.TreeMap.distinct_keys_toList (t := parentSchemas)).imp fun hne heq => hne ?_
      rw [((schemaKey_inj (h.named hc) (h.named hc)).mp heq).2]
      exact Std.ReflCmp.compare_self
    have hadopted : history db'.schemas.lookup c = history db.schemas.lookup p := by
      funext v
      cases hx : history db.schemas.lookup p v with
      | some x =>
        rw [← hpget] at hx
        exact hall hkeys (v, x) (Std.TreeMap.mem_toList_iff_getElem?_eq_some.mpr hx)
      | none =>
        refine (hother _ fun e he heq => ?_).trans (hnone v)
        obtain rfl := ((schemaKey_inj (h.named hc) (h.named hc)).mp heq).2
        rw [← hpget, Std.TreeMap.mem_toList_iff_getElem?_eq_some.mp he] at hx
        cases hx
    have hrest : ∀ key, (∀ v, key ≠ schemaKey c v) → db'.schemas.lookup key = db.schemas.lookup key :=
      fun key hkey => hother key fun e _ => hkey e.1
    have hparentSame : history db'.schemas.lookup p = history db.schemas.lookup p := by
      funext v
      exact hrest _ fun w heq => hne ((schemaKey_inj (h.named hp) (h.named hc)).mp heq).1
    refine ⟨h.adopt hforest hc hnotChild hnotParent hp hadopted hrest, fun key x hx => .inl ?_, fun v => ?_⟩
    · rw [hrest key fun v hkey => ?_, hx]
      have := hnone v
      rw [history, ← hkey, hx] at this
      cases this
    · rw [hadopted, hparentSame]
      exact relSame_refl env _
  · split at hok
    · cases hok
    obtain ⟨_, hequal, hok⟩ := bind_eq_ok.mp hok
    cases hok
    rw [refuse_eq_ok, Bool.not_eq_false] at hequal
    refine ⟨h, hsame, fun v => ?_⟩
    have hrel := historiesEqual_rel hequal v
    rw [hpget, hcget] at hrel
    generalize history db.schemas.lookup p v = a, history db.schemas.lookup c v = b at hrel ⊢
    cases hrel with
    | none => exact .none
    | some hxy =>
      refine .some ?_
      split at hxy
      · exact hxy
      · exact beq_iff_eq.mp hxy ▸ jsonValueEqual_self _ _

end

/-- The step of an entry: the histories stay right, and what is stored stays but for the topics named. -/
structure Step (env : Env) (named : String → Prop) (db db' : Tables S) : Prop where
  histories : Dense env db'
  keeps : Keeps named db.schemas.lookup db'.schemas.lookup
  placed : Placed db.topic db.assignments.lookup → Placed db'.topic db'.assignments.lookup

section

variable {env : Env} {db db' mid : Tables S} {named : String → Prop} {t : Topic} {name : String}
  {schemas schemas' : String → Option Bytes}

theorem Keeps.of_eq (h : schemas' = schemas) : Keeps named schemas schemas' :=
  fun _ _ hx => .inl (h ▸ hx)

theorem Keeps.trans {schemas schemas' schemas'' : String → Option Bytes} (h : Keeps named schemas schemas')
    (h' : Keeps named schemas' schemas'') : Keeps named schemas schemas'' := by
  intro key x hx
  rcases h key x hx with hx' | hgone
  · exact h' key x hx'
  · exact .inr hgone

theorem Keeps.mono (h : Keeps (fun _ => False) schemas schemas') : Keeps named schemas schemas' := by
  intro key x hx
  rcases h key x hx with hx' | ⟨_, _, hfalse, -⟩
  · exact .inl hx'
  · cases hfalse

theorem Step.trans (h : Step env named db mid) (h' : Step env named mid db') : Step env named db db' :=
  ⟨h'.histories, h.keeps.trans h'.keeps, fun hp => h'.placed (h.placed hp)⟩

theorem Step.of_lessens (h : Dense env db) (hforest : Forest db'.topic)
    (hl : Lessens named db db') : Step env named db db' := by
  obtain ⟨hhist, hkeeps⟩ := h.lessens hforest hl
  exact ⟨hhist, hkeeps, fun hp => hp.lessens hl⟩

/-- Neither the topics nor the schemas change. -/
theorem Step.of_same (h : Dense env db) (htopics : db'.topics = db.topics) (hschemas : db'.schemas = db.schemas)
    (hplaced : Placed db.topic db.assignments.lookup → Placed db'.topic db'.assignments.lookup) :
    Step env named db db' := by
  have htopic : db'.topic = db.topic := by rw [Tables.topic, htopics]; rfl
  refine ⟨?_, .of_eq (by rw [hschemas]), hplaced⟩
  rw [Dense, htopic, hschemas]
  exact h

/-- The topics stay or grow, and no assignment is written. -/
theorem Placed.of_keepsAll (hkeeps : KeepsAll db.topic db'.topic) (hsame : db'.assignments = db.assignments)
    (h : Placed db.topic db.assignments.lookup) : Placed db'.topic db'.assignments.lookup := by
  refine h.grow (fun n t ht => ?_) fun key a ha => by rw [hsame] at ha; exact ha
  obtain ⟨t', ht', -⟩ := hkeeps n t ht
  exact ⟨t', ht'⟩

theorem putTopic_schemas (h : putTopicRecord db t = .ok db') :
    db'.schemas = db.schemas ∧ db'.assignments = db.assignments := by
  obtain ⟨-, rfl⟩ := putTopicRecord_eq_ok h
  exact ⟨rfl, rfl⟩

section

variable (h : Dense env db)
include h

theorem applyCreateTopic_step (hf : Forest db.topic)
    (hplain : t.Plain) (hcolon : ColonFree t.name) (hok : applyCreateTopic db t = .ok db') : Step env named db db' := by
  have hchange := applyCreateTopic_change hplain hok
  simp only [applyCreateTopic, bind_eq_ok, refuse_eq_ok, exists_const] at hok
  obtain ⟨hfree, hput⟩ := hok
  obtain ⟨hschemas, hsame⟩ := putTopic_schemas hput
  exact ⟨h.create (hf.change hchange) (not_isSome_iff_eq_none.mp hfree) hcolon hplain
    (putTopic_topic hput).2 (by rw [hschemas]), .of_eq (by rw [hschemas]),
    Placed.of_keepsAll hchange.keepsAll hsame⟩

theorem attachChildTx_step {p : ChildLink} {rules : AttachRules}
    (hf : Forest db.topic) (hok : attachChildTx env db p rules = .ok db') : Step env named db db' := by
  have hchange := attachChildTx_change hf hok
  simp only [attachChildTx, bind_eq_ok, refuse_eq_ok, getTopic_ok, exists_const] at hok
  obtain ⟨hne, parent, hparent, child, hchild, hnot, hnotParent, -, hnotChild, -, -, -, _, -,
    ⟨db₁, adopted⟩, hreconcile, db₂, hput, hputChild⟩ := hok
  have hpn := (hf.node hparent).name
  have hcn := (hf.node hchild).name
  obtain ⟨hhist, hkeeps, hagree⟩ := h.reconcile hf hparent hchild hne hnotChild hnotParent hreconcile
  have honly := reconcileSchemasForAttach_onlySchemas hreconcile
  have hsame : db₁.assignments = db.assignments := by
    obtain ⟨schemas, rfl⟩ := honly
    rfl
  obtain ⟨hschemas₂, hsame₂⟩ := putTopic_schemas hput
  obtain ⟨hschemas', hsame'⟩ := putTopic_schemas hputChild
  have hschemas : db'.schemas.lookup = db₁.schemas.lookup := by rw [hschemas', hschemas₂]
  have hlocal : child.remote = none := by
    by_contra hremote
    exact hnotChild ((hf.node hchild).stub hremote)
  have htopic : db'.topic = update (update db₁.topic parent.name
      (some (parent.linked (child.attachedBy p).name))) (child.attachedBy p).name (some (child.attachedBy p)) := by
    rw [(putTopic_topic hputChild).2, (putTopic_topic hput).2, ← hcn]
    rfl
  rw [← honly.topic] at hhist
  refine ⟨hhist.link (hf.change hchange) htopic ?_ (.inr ⟨⟨child, ?_⟩, fun hr => hr.1 hlocal, ?_⟩) hschemas, ?_,
    Placed.of_keepsAll hchange.keepsAll (by rw [hsame', hsame₂, hsame])⟩
  · rw [honly.topic, hpn]
    exact hparent
  · rw [honly.topic]
    rw [← hcn] at hchild
    exact hchild
  · have hname : (child.attachedBy p).name = p.child := hcn
    rw [hname]
    exact hagree
  · rw [hschemas]
    exact hkeeps.mono

theorem applyAttachRemoteChild_step {op : AttachRemoteChild}
    (hf : Forest db.topic) (hcolon : ColonFree op.stub) (hok : applyAttachRemoteChild db op = .ok db') :
    Step env named db db' := by
  have hchange := applyAttachRemoteChild_change hf hok
  simp only [applyAttachRemoteChild, bind_eq_ok, refuse_eq_ok, getTopic_ok, exists_const] at hok
  obtain ⟨_, -, parent, hparent, _, -, -, -, hfree, -, -, _, -, _, -, -, db₁, hput, hputStub⟩ := hok
  have hpn := (hf.node hparent).name
  obtain ⟨hschemas₁, hsame₁⟩ := putTopic_schemas hput
  obtain ⟨hschemas', hsame'⟩ := putTopic_schemas hputStub
  have hschemas : db'.schemas = db.schemas := by rw [hschemas', hschemas₁]
  have htopic : db'.topic = update (update db.topic parent.name
      (some (parent.linked op.stubTopic.name))) op.stubTopic.name (some op.stubTopic) := by
    rw [(putTopic_topic hputStub).2, (putTopic_topic hput).2]
    rfl
  have hstub : op.stubTopic.isRemoteChild := ⟨by rintro ⟨⟩, rfl⟩
  refine ⟨h.link (hf.change hchange) htopic (hpn ▸ hparent)
    (.inl ⟨not_isSome_iff_eq_none.mp hfree, hcolon, hstub⟩) (by rw [hschemas]), .of_eq (by rw [hschemas]),
    Placed.of_keepsAll hchange.keepsAll (by rw [hsame', hsame₁])⟩

end

variable {v : ℤ}

theorem checkVersions_ok {names : List String} (h : checkVersions db names v = .ok ()) :
    ∀ n ∈ names, checkNextSchemaVersion db n v = .ok () := by
  unfold checkVersions at h
  induction names with
  | nil => exact nofun
  | cons m names ih =>
    obtain ⟨_, hm, hrest⟩ := bind_eq_ok.mp h
    intro n hn
    rcases mem_cons.mp hn with rfl | hn
    · exact hm
    · exact ih hrest n hn

theorem Step.of_onlySchemas (honly : OnlySchemas db db') (hhist : Histories env db.topic db'.schemas.lookup)
    (hkeeps : Keeps (fun _ => False) db.schemas.lookup db'.schemas.lookup) : Step env named db db' := by
  obtain ⟨schemas, rfl⟩ := honly
  exact ⟨hhist, hkeeps.mono, fun hp => hp⟩

section

variable (h : Dense env db)
include h

variable {x : Bytes}

section

variable (hf : Forest db.topic)
include hf

/-- The next version goes to the topic and to its local children. -/
theorem putSchemas_step (ht : db.topic name = some t) (hnot : ¬t.isChild)
    (hnext : ∀ n ∈ name :: localChildren db t.children, ∃ m : ℕ, DenseTo m (history db.schemas.lookup n) ∧ v = m + 1)
    (hmax : v ≤ maxSchemaVersions) (hput : putSchemas db (name :: localChildren db t.children) v x = .ok db') :
    Step env named db db' := by
  have hlocal : ∀ c, c ∈ localChildren db t.children ↔ ∃ u, db.topic c = some u ∧ u.isChild ∧ u.parent = name ∧
      ¬u.isRemoteChild := by
    intro c
    rw [localChildren, mem_filter, (hf.node ht).listed]
    constructor
    · rintro ⟨⟨u, hu, his, hof⟩, hstub⟩
      rw [hu] at hstub
      exact ⟨u, hu, his, hof, of_decide_eq_true hstub⟩
    · rintro ⟨u, hu, his, hof, hstub⟩
      refine ⟨⟨u, hu, his, hof⟩, ?_⟩
      rw [hu]
      exact decide_eq_true hstub
  have hnames : ∀ n ∈ name :: localChildren db t.children, ∃ t, db.topic n = some t ∧ ¬t.isRemoteChild := by
    intro n hn
    rcases mem_cons.mp hn with rfl | hn
    · exact ⟨t, ht, fun hr => hnot hr.2⟩
    · obtain ⟨u, hu, -, -, hstub⟩ := (hlocal n).mp hn
      exact ⟨u, hu, hstub⟩
  have hclosed : ∀ c u, db.topic c = some u → u.isChild → ¬u.isRemoteChild →
      (c ∈ name :: localChildren db t.children ↔ u.parent ∈ name :: localChildren db t.children) := by
    intro c u hu his hstub
    rw [mem_cons, mem_cons]
    constructor
    · rintro (rfl | hc)
      · rw [ht, some.injEq] at hu
        exact absurd (hu ▸ his) hnot
      · obtain ⟨w, hw, -, hof, -⟩ := (hlocal c).mp hc
        rw [hu, some.injEq] at hw
        exact .inl (hw ▸ hof)
    · rintro (hof | hp)
      · exact .inr ((hlocal c).mpr ⟨u, hu, his, hof, hstub⟩)
      · -- the parent of a child is not a child itself
        obtain ⟨w, hw, hwchild, -, -⟩ := (hlocal _).mp hp
        refine absurd ⟨u, hu, his, rfl⟩ (hf.not_childOf (p := u.parent) fun t' ht' => ?_)
        rw [hw, some.injEq] at ht'
        exact ht' ▸ Topic.not_isParent_of_isChild hwchild
  obtain ⟨hhist, hkeeps⟩ := h.put hnames hnext hmax hclosed hf x
  rw [← putSchemas_lookup hput] at hhist hkeeps
  exact .of_onlySchemas (foldlM_onlySchemas (fun _ _ _ => putSchema_onlySchemas) hput) hhist hkeeps

/-- A put whose version is checked on all of them. -/
theorem checkedPut_step (ht : db.topic name = some t) (hnot : ¬t.isChild)
    (hcheck : checkVersions db (name :: localChildren db t.children) v = .ok ())
    (hput : putSchemas db (name :: localChildren db t.children) v x = .ok db') : Step env named db db' := by
  have hnext : ∀ n ∈ name :: localChildren db t.children, ∀ u, db.topic n = some u →
      (∃ m : ℕ, DenseTo m (history db.schemas.lookup n) ∧ v = m + 1) ∧ v ≤ maxSchemaVersions := by
    intro n hn u hu
    have hok := checkVersions_ok hcheck n hn
    simp only [checkNextSchemaVersion, bind_eq_ok, refuse_eq_ok, exists_const, not_not, not_lt] at hok
    obtain ⟨latest, hlatest, -, hv, hmax⟩ := hok
    obtain ⟨m, hm⟩ := h.readable hu
    rw [hm.latestSchemaVersion_eq hlatest] at hv
    exact ⟨⟨m, hm.dense, hv⟩, hmax⟩
  refine putSchemas_step h hf ht hnot (fun n hn => ?_) (hnext name (.head _) t ht).2 hput
  rcases mem_cons.mp hn with rfl | hc
  · exact (hnext n hn t ht).1
  · obtain ⟨u, hu, -⟩ := ((hf.node ht).listed n).mp (mem_of_mem_filter hc)
    exact (hnext n hn u hu).1

/-- The first version of a topic that stands alone and has none. -/
theorem putFirstSchema_step
    (ht : db.topic name = some t) (hplain : t.Plain) (hnone : ∀ v, history db.schemas.lookup name v = none)
    (hok : putFirstSchema env db name x = .ok db') : Step env named db db' := by
  have honly := putFirstSchema_onlySchemas hok
  unfold putFirstSchema at hok
  split at hok
  · cases hok
    exact .of_onlySchemas honly h (.of_eq rfl)
  obtain ⟨_, -, hput⟩ := bind_eq_ok.mp hok
  have halone : name :: localChildren db t.children = [name] := by
    rw [hplain.children]
    rfl
  refine putSchemas_step h hf ht hplain.not_isChild (fun n hn => ?_) (by decide) (v := 1) (x := x) ?_
  · rw [halone] at hn
    rw [mem_singleton.mp hn]
    exact ⟨0, denseTo_zero hnone, rfl⟩
  · rw [halone, putSchemas, foldlM_cons, hput]
    rfl

theorem applyCreateTopicWith_step {schema : Bytes} {link : Option CreateLink} (hplain : t.Plain)
    (hcolon : ColonFree t.name)
    (hok : applyCreateTopicWith env db t schema link = .ok db') : Step env named db db' := by
  simp only [applyCreateTopicWith, bind_eq_ok, refuse_eq_ok, exists_const] at hok
  obtain ⟨-, hfree, -, db₁, hput, db₂, hfirst, hlink⟩ := hok
  have hfree := not_isSome_iff_eq_none.mp hfree
  obtain ⟨hname, htopic₁⟩ := putTopic_topic hput
  obtain ⟨hschemas₁, hsame₁⟩ := putTopic_schemas hput
  generalize hcleared : ({ db₁ with
    assignments := (deletePrefix db₁.assignments (keyRange t.name)).1
    schemas := (deletePrefix db₁.schemas (keyRange t.name)).1 } : Tables S) = dbc at hfirst
  have htopic : dbc.topic = update db.topic t.name (some t) := by
    rw [← hcleared]
    exact htopic₁
  -- a name with no topic has no schemas to clear
  have hschemas : dbc.schemas.lookup = db.schemas.lookup := by
    funext key
    have hkey : dbc.schemas.lookup key = (deletePrefix db.schemas (keyRange t.name)).1.lookup key := by
      rw [← hcleared, ← hschemas₁]
    rw [hkey, lookup_deletePrefix]
    split
    next hrange =>
      cases hx : db.schemas.lookup key with
      | none => rfl
      | some x =>
        obtain ⟨n, v, u, hu, rfl⟩ := h.owned hx
        rw [isPrefixOf_schemaKey hcolon (h.named hu)] at hrange
        rw [← hrange, hfree] at hu
        cases hu
    · rfl
  have hchange : Change db.topic dbc.topic := by
    rw [htopic]
    exact .create hfree hname hplain
  have hfc := hf.change hchange
  have hcreated : Step env named db dbc := by
    refine ⟨h.create hfc hfree hcolon hplain htopic hschemas, .of_eq hschemas, fun hp => ?_⟩
    refine hp.grow (fun n u hu => ?_) fun key a ha => ?_
    · obtain ⟨u', hu', -⟩ := hchange.keepsAll n u hu
      exact ⟨u', hu'⟩
    · rw [← hcleared] at ha
      rw [lookup_deletePrefix, hsame₁] at ha
      split at ha
      · cases ha
      · exact ha
  have hnone : ∀ v, history dbc.schemas.lookup t.name v = none := by
    rw [hschemas]
    exact h.none_of_free hfree hcolon
  have hthere : dbc.topic t.name = some t := by rw [htopic, update_self]
  have hput₁ := hcreated.trans (putFirstSchema_step hcreated.histories hfc hthere hplain hnone hfirst)
  have htopic₂ := (putFirstSchema_onlySchemas hfirst).topic
  cases link with
  | none =>
    cases hlink
    exact hput₁
  | some link =>
    simp only [linkNew, bind_eq_ok] at hlink
    obtain ⟨_, -, _, -, hattach⟩ := hlink
    exact hput₁.trans (attachChildTx_step hput₁.histories (htopic₂ ▸ hfc) hattach)

end

end

end

section

variable {env : Env} {db db' : Tables S} {named : String → Prop} {α : Type} {t : Topic}

theorem Step.of_frame {writes : Table → Bool} (h : Dense env db)
    (hframe : Frame writes db db') (haside : ∀ t, topicTables t = true → writes t = false) : Step env named db db' := by
  refine .of_same h (hframe .topics (haside _ rfl)) (hframe .schemas (haside _ rfl)) fun hp => ?_
  rw [hframe.topic (haside _ rfl), show db'.assignments = _ from hframe .assignments (haside _ rfl)]
  exact hp

variable {a : Assignment}

theorem putAssignment_step (h : Dense env db) (hput : putAssignment db a = .ok db')
    (hthere : Placed db.topic db.assignments.lookup → ∃ t, db.topic a.topic = some t) : Step env named db db' := by
  have hframe := putAssignment_writes a db' hput
  refine .of_same h (hframe .topics rfl) (hframe .schemas rfl) fun hp => ?_
  obtain ⟨t, ht⟩ := hthere hp
  exact hp.put ht hput

variable {topic : String}

section

variable (h : Dense env db)
include h

/-- A row that was read is written back with another owner or target. -/
theorem putAssignment_of_read {a a' : Assignment}
    (hread : readAssignment db topic p = .ok a) (hput : putAssignment db a' = .ok db') (hsame : a'.topic = a.topic) :
    Step env named db db' := by
  refine putAssignment_step h hput fun hp => ?_
  rw [hsame]
  unfold readAssignment at hread
  split at hread <;> cases hread
  exact (hp _ a ‹_›).2

theorem Step.refl : Step env named db db :=
  ⟨h, .of_eq rfl, fun hp => hp⟩

theorem applyPruneAssignment_step (hok : applyPruneAssignment db topic p = .ok db') : Step env named db db' := by
  have herased : db' = { db with assignments := db.assignments.erase (assignmentKey topic p) } := by
    obtain ⟨_, -, hok⟩ := bind_eq_ok.mp hok
    split at hok
    · cases hok
      rfl
    obtain ⟨_, -, hok⟩ := bind_eq_ok.mp hok
    cases hok
    rfl
  subst herased
  refine .of_same h rfl rfl fun hp key a ha => ?_
  exact hp key a (Bucket.of_lookup_erase ha).2

end

end

/-- The names an entry gives to new topics. -/
def Entry.newName : Entry → Option String
  | .createTopic t => some t.name
  | .createTopicWith t _ _ => some t.name
  | .attachRemoteChild op => some op.stub
  | _ => none

/-- A new topic's name holds no colon. -/
def Entry.NamesColonFree (e : Entry) : Prop :=
  ∀ n ∈ e.newName, ColonFree n

instance (e : Entry) : Decidable e.NamesColonFree :=
  inferInstanceAs (Decidable (∀ n ∈ e.newName, ColonFree n))

/-- The entry deletes the topic. -/
def Entry.Deletes (e : Entry) (n : String) : Prop :=
  e = .deleteTopic n ∨ ∃ expectId, e = .deleteTopicIf n expectId

/-- A blind assignment is of a topic there is. -/
def Entry.AssignsExisting (e : Entry) (db : Tables S) : Prop :=
  ∀ a, e = .assignPartition a → ∃ t, db.topic a.topic = some t

/-- What applying an entry keeps. -/
structure EntryStep (env : Env) (e : Entry) (db db' : Tables S) : Prop where
  histories : Dense env db'
  keeps : Keeps e.Deletes db.schemas.lookup db'.schemas.lookup
  placed : e.AssignsExisting db → Placed db.topic db.assignments.lookup → Placed db'.topic db'.assignments.lookup

section

variable {env : Env} {db db' : Tables S} {refused : Option Err} {e : Entry}

theorem Step.entry (h : Step env e.Deletes db db') : EntryStep env e db db' :=
  ⟨h.histories, h.keeps, fun _ => h.placed⟩

theorem Step.of_named {named named' : String → Prop} (h : Step env named db db') (himp : ∀ n, named n → named' n) :
    Step env named' db db' := by
  refine ⟨h.histories, fun key x hx => ?_, h.placed⟩
  rcases h.keeps key x hx with hx' | ⟨n, v, hn, hkey⟩
  · exact .inl hx'
  · exact .inr ⟨n, v, himp n hn, hkey⟩

theorem Entry.transaction_step (h : Dense env db) (hf : Forest db.topic)
    (hplain : e.PlainCreate) (hcolon : e.NamesColonFree) (hok : e.transaction env db = some (.ok (db', refused))) :
    EntryStep env e db db' := by
  have hforest : Forest db'.topic := by
    rcases Entry.transaction_topics hf hplain hok with hchanges | ⟨-, hremoval⟩
    · exact hf.changes hchanges
    · exact hf.removal hremoval
  have hframe := Entry.transaction_frame hok
  by_cases haside : ∀ t, topicTables t = true → e.writes t = false
  · exact (Step.of_frame h hframe haside).entry
  cases e with
  | createTopic t => exact (applyCreateTopic_step h hf (hplain t rfl) (hcolon _ rfl) (of_map_eq_ok hok)).entry
  | createTopicWith t schema link =>
    exact (applyCreateTopicWith_step h hf (hplain t rfl) (hcolon _ rfl) (of_map_eq_ok hok)).entry
  | updateTopic t => exact (Step.of_lessens h hforest (applyUpdateTopic_lessens (of_map_eq_ok hok))).entry
  | updateTopicIf t expectId =>
    exact (Step.of_lessens h hforest (applyUpdateTopicIf_lessens (of_map_eq_ok hok))).entry
  | deleteTopic name =>
    exact ((Step.of_lessens h hforest (deleteTopicTx_lessens hf (of_map_eq_ok hok))).of_named
      fun n hn => .inl (by rw [hn])).entry
  | deleteTopicIf name expectId =>
    obtain ⟨_, -, hok⟩ := bind_eq_ok.mp (of_map_eq_ok hok)
    obtain ⟨_, -, hok⟩ := bind_eq_ok.mp hok
    exact ((Step.of_lessens h hforest (deleteTopicTx_lessens hf hok)).of_named
      fun n hn => .inr ⟨expectId, by rw [hn]⟩).entry
  | putSchema name version schema =>
    have hok := of_map_eq_ok hok
    simp only [applyPutSchema, bind_eq_ok, refuse_eq_ok, getTopic_ok, exists_const] at hok
    obtain ⟨t, ht, hnot, ⟨⟩, hcheck, hput⟩ := hok
    exact (checkedPut_step h hf ht hnot hcheck hput).entry
  | putSchemaIf name version schema expectId =>
    have hok := of_map_eq_ok hok
    simp only [applyPutSchemaIf, bind_eq_ok, refuse_eq_ok, getTopic_ok, exists_const] at hok
    obtain ⟨t, ht, _, -, hnot, ⟨⟩, hcheck, _, -, hput⟩ := hok
    exact (checkedPut_step h hf ht hnot hcheck hput).entry
  | attachChild link => exact (attachChildTx_step h hf (of_map_eq_ok hok)).entry
  | attachChildIf link parentId childId =>
    obtain ⟨_, -, hok⟩ := bind_eq_ok.mp (of_map_eq_ok hok)
    exact (attachChildTx_step h hf hok).entry
  | detachChild parent child =>
    exact ((Step.of_lessens h hforest (applyDetachChild_lessens hf (of_map_eq_ok hok))).of_named
      fun _ => False.elim).entry
  | detachChildIf parent child parentId childId =>
    obtain ⟨_, -, hok⟩ := bind_eq_ok.mp (of_map_eq_ok hok)
    exact ((Step.of_lessens h hforest (applyDetachChild_lessens hf hok)).of_named fun _ => False.elim).entry
  | attachRemoteChild op => exact (applyAttachRemoteChild_step h hf (hcolon _ rfl) (of_map_eq_ok hok)).entry
  | setRemoteChildState op =>
    exact (Step.of_lessens h hforest (applySetRemoteChildState_lessens hf.ownNames (of_map_eq_ok hok))).entry
  | deleteUserReleaseTopics username =>
    obtain ⟨db₁, hdelete, hok⟩ := bind_eq_ok.mp (of_map_eq_ok hok)
    have hfirst : Frame (· == .users) db db₁ := deleteUserRecord_writes rfl username db₁ hdelete
    have hstep : Step env (Entry.deleteUserReleaseTopics username).Deletes db db₁ :=
      .of_frame h hfirst (by rintro ⟨⟩ ht <;> first | rfl | cases ht)
    have hnames : OwnNames db₁.topic := hfirst.topic rfl ▸ hf.ownNames
    exact (hstep.trans (.of_lessens hstep.histories hforest (releaseOwnedTopics_lessens hnames hok))).entry
  | assignPartition a =>
    have hsame : Step env (Entry.assignPartition a).Deletes db { db' with assignments := db.assignments } :=
      .of_same h (hframe .topics rfl) (hframe .schemas rfl) fun hp => hframe.topic rfl ▸ hp
    refine ⟨hsame.histories, hsame.keeps, fun hthere hp => ?_⟩
    obtain ⟨t, ht⟩ := hthere a rfl
    exact hp.put ht (of_map_eq_ok hok)
  | assignPartitionIfAbsent topic p owner expectId =>
    have hok := of_map_eq_ok hok
    simp only [applyAssignPartitionIfAbsent, bind_eq_ok, refuse_eq_ok, getTopic_ok, exists_const] at hok
    obtain ⟨t, ht, _, -, -, -, -, -, hput⟩ := hok
    exact (putAssignment_step h hput fun _ => ⟨t, ht⟩).entry
  | pruneAssignment topic p => exact (applyPruneAssignment_step h (of_map_eq_ok hok)).entry
  | completeMove topic p owner target =>
    obtain ⟨a, hread, hok⟩ := bind_eq_ok.mp (of_map_eq_ok hok)
    split at hok
    · cases hok
      exact (Step.refl h).entry
    · simp only [bind_eq_ok, refuse_eq_ok, exists_const] at hok
      exact (putAssignment_of_read h hread hok.2.2 rfl).entry
  | setAssignmentTarget | abortMove =>
    obtain ⟨a, hread, hput⟩ := bind_eq_ok.mp (of_map_eq_ok hok)
    split at hput
    · cases hput
      exact (Step.refl h).entry
    · exact (putAssignment_of_read h hread hput rfl).entry
  | _ => exact absurd (by rintro ⟨⟩ ht <;> first | rfl | cases ht) haside

theorem FSM.apply_step {s : FSM S} {l : LogEntry} (h : Dense env s.db)
    (hf : Forest s.db.topic) (hplain : l.entry.PlainCreate) (hcolon : l.entry.NamesColonFree) :
    EntryStep env l.entry s.db (s.apply env l).1.db := by
  rcases s.apply_db env l with hsame | ⟨refused, hok⟩
  · rw [hsame]
    exact (Step.refl h).entry
  · exact Entry.transaction_step h hf hplain hcolon hok

end

/-- Every blind assignment of the entries is of a topic there is when it is applied. -/
def Orderly (env : Env) (entries : List LogEntry) : Prop :=
  ∀ before l after, entries = before ++ l :: after → l.entry.AssignsExisting (run env before).db

section

variable {env : Env} {entries : List LogEntry}

section

variable (hplain : ∀ l ∈ entries, l.entry.PlainCreate) (hcolon : ∀ l ∈ entries, l.entry.NamesColonFree)
include hplain hcolon

theorem run_histories : Histories env (run env entries).db.topic (run env entries).db.schemas.lookup := by
  induction entries using reverseRecOn with
  | nil =>
    have hschemas : (run env []).db.schemas.lookup = fun _ => none := funext Bucket.lookup_empty
    rw [run_nil_topic, hschemas]
    exact ⟨nofun, nofun, nofun, nofun, nofun⟩
  | append_singleton entries l ih =>
    rw [run_concat]
    rw [forall_mem_append, forall_mem_singleton] at hplain hcolon
    exact (FSM.apply_step (ih hplain.1 hcolon.1) (run_forest hplain.1) hplain.2 hcolon.2).histories

theorem run_placed (horderly : Orderly env entries) :
    Placed (run env entries).db.topic (run env entries).db.assignments.lookup := by
  induction entries using reverseRecOn with
  | nil =>
    have hassignments : (run env []).db.assignments.lookup = fun _ => none := funext Bucket.lookup_empty
    rw [hassignments]
    exact nofun
  | append_singleton entries l ih =>
    rw [run_concat]
    rw [forall_mem_append, forall_mem_singleton] at hplain hcolon
    refine (FSM.apply_step (run_histories hplain.1 hcolon.1) (run_forest hplain.1) hplain.2 hcolon.2).placed
      (horderly entries l [] rfl) (ih hplain.1 hcolon.1 fun before l' after heq => ?_)
    exact horderly before l' (after ++ [l]) (by rw [heq, append_assoc, cons_append])

end

end

/-- After any entries every topic's schema versions are dense, a name without a topic has none, and an
attached child has its parent's; no further entry but a delete of the topic changes one that is stored. -/
theorem schema_histories_stay_dense (env : Env) (entries : List LogEntry)
    (hplain : ∀ l ∈ entries, l.entry.PlainCreate) (hcolon : ∀ l ∈ entries, l.entry.NamesColonFree) :
    (∀ n t, (run env entries).db.topic n = some t → ∃ m : ℕ, ∀ key,
      (keyRange n).isPrefixOf key = true ∧ ((run env entries).db.schemas.lookup key).isSome = true ↔
        ∃ v : ℤ, 1 ≤ v ∧ v ≤ m ∧ key = schemaKey n v) ∧
    (∀ l : LogEntry, l.entry.PlainCreate → l.entry.NamesColonFree → ∀ n v x,
      (run env entries).db.schemas.lookup (schemaKey n v) = some x → ColonFree n → ¬l.entry.Deletes n →
        ((run env entries).apply env l).1.db.schemas.lookup (schemaKey n v) = some x) ∧
    (∀ n, ColonFree n → (run env entries).db.topic n = none → ∀ key, (keyRange n).isPrefixOf key = true →
      (run env entries).db.schemas.lookup key = none ∧
        (Orderly env entries → (run env entries).db.assignments.lookup key = none)) ∧
    ∀ c u, (run env entries).db.topic c = some u → u.isChild → ¬u.isRemoteChild → ∀ v,
      Option.Rel (SameValue env) ((run env entries).db.schemas.lookup (schemaKey u.parent v))
        ((run env entries).db.schemas.lookup (schemaKey c v)) := by
  have h : Histories env (run env entries).db.topic (run env entries).db.schemas.lookup := run_histories hplain hcolon
  have hf : Forest (run env entries).db.topic := run_forest hplain
  refine ⟨fun n t ht => ?_, fun l hl hlc n v x hx hn hdel => ?_, fun n hn hfree key hrange => ⟨?_, fun horderly => ?_⟩,
    fun c u hu his hlocal v => h.linked hu his hlocal v⟩
  · obtain ⟨m, hm⟩ := h.readable ht
    refine ⟨m, fun key => ⟨fun ⟨hrange, hsome⟩ => ?_, ?_⟩⟩
    · obtain ⟨x, hx⟩ := isSome_iff_exists.mp hsome
      obtain ⟨v, rfl⟩ := hm.keys key x hx hrange
      obtain ⟨hle, hge⟩ := (hm.dense.iff v).mp hsome
      exact ⟨v, hle, hge, rfl⟩
    · rintro ⟨v, hle, hge, rfl⟩
      exact ⟨mem_range_of_isPrefixOf_self n v, (hm.dense.iff v).mpr ⟨hle, hge⟩⟩
  · rcases (FSM.apply_step h hf hl hlc).keeps _ x hx with hx' | ⟨n', v', hdel', hn', hkey⟩
    · exact hx'
    · rw [((schemaKey_inj hn hn').mp hkey).1] at hdel
      exact absurd hdel' hdel
  · cases hx : (run env entries).db.schemas.lookup key with
    | none => rfl
    | some x =>
      obtain ⟨n', v, t, ht, rfl⟩ := h.owned hx
      rw [isPrefixOf_schemaKey hn (h.named ht)] at hrange
      rw [← hrange, hfree] at ht
      cases ht
  · cases ha : (run env entries).db.assignments.lookup key with
    | none => rfl
    | some a =>
      obtain ⟨rfl, t, ht⟩ := run_placed hplain hcolon horderly key a ha
      rw [show assignmentKey a.topic a.partition = schemaKey a.topic a.partition from rfl,
        isPrefixOf_schemaKey hn (h.named ht)] at hrange
      rw [← hrange, hfree] at ht
      cases ht

/-- A parent with a schema, a child that adopts it, and a version put on both. -/
def adoptAndPut : List LogEntry :=
  [⟨1, .createTopic { name := "orders", id := "o1", partitions := 2 }, true⟩, ⟨2, .putSchema "orders" 1 [7], true⟩,
    ⟨3, .createTopicWith { name := "audit", id := "a1", partitions := 2 } []
      (some { parent := "orders", parentId := "o1" }),
      true⟩,
    ⟨4, .putSchemaIf "orders" 2 [8] "o1", true⟩,
    ⟨5, .assignPartitionIfAbsent "audit" 0 "n1" "a1", true⟩]

theorem adoptAndPut_agree :
    Option.Rel (SameValue plainEnv) ((run plainEnv adoptAndPut).db.schemas.lookup (schemaKey "orders" 2))
        ((run plainEnv adoptAndPut).db.schemas.lookup (schemaKey "audit" 2)) ∧
      (run plainEnv adoptAndPut).db.schemas.lookup (schemaKey "audit" 2) = some [8] := by
  have hget := (some_get (x := (run plainEnv adoptAndPut).db.topic "audit") (by decide +kernel)).symm
  have hagree := (schema_histories_stay_dense plainEnv adoptAndPut (by decide) (by decide)).2.2.2 "audit" _ hget
    (by decide +kernel) (by decide +kernel) 2
  have hparent : (((run plainEnv adoptAndPut).db.topic "audit").get (by decide +kernel)).parent = "orders" := by
    decide +kernel
  rw [hparent] at hagree
  exact ⟨hagree, by decide +kernel⟩

/-- An assignment, and then a create payload, that names a topic there is not. -/
theorem ghost_has_rows :
    ((run plainEnv [⟨1, .assignPartition { topic := "ghost", partition := 0, ownerId := "n1" }, true⟩]).db.topic
        "ghost" = none ∧
      ((run plainEnv [⟨1, .assignPartition { topic := "ghost", partition := 0, ownerId := "n1" }, true⟩]).db.assignments.lookup
        (assignmentKey "ghost" 0)).isSome = true) ∧
    (run plainEnv [⟨1, .createTopic { name := "orders", role := .parent, children := ["ghost"] }, true⟩,
        ⟨2, .putSchema "orders" 1 [7], true⟩]).db.topic "ghost" = none ∧
      (run plainEnv [⟨1, .createTopic { name := "orders", role := .parent, children := ["ghost"] }, true⟩,
        ⟨2, .putSchema "orders" 1 [7], true⟩]).db.schemas.lookup (schemaKey "ghost" 1) = some [7] := by
  decide +kernel

end Narad.Metastore
