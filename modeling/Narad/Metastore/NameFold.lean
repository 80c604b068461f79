import Narad.Metastore.Lessens

/-!
# Topic names that differ in letter case

A create compares the new name with every existing one under letter-case folding; an attach of a remote child
compares its stub for equality only. Names stay apart for as long as no attached stub differs from an existing
topic in letter case alone.
-/

namespace Narad.Metastore

open List Lib OrderedStore
open Function (update update_apply)

variable {S : OrderedStore}

/-- The bytes of the name with its ASCII letters in lower case. -/
def asciiFold (name : String) : List UInt8 :=
  name.toUTF8.data.toList.map fun b => if 65 ≤ b ∧ b ≤ 90 then b + 32 else b

/-- No two topics have names that are equal under ASCII case folding. -/
def NamesApart (topic : String → Option Topic) : Prop :=
  ∀ m n, (topic m).isSome → (topic n).isSome → asciiFold m = asciiFold n → m = n

/-- The name of the record an entry may create. -/
def Entry.brings : Entry → Option String
  | .createTopic t | .createTopicWith t _ _ => some t.name
  | .attachRemoteChild op => some op.stub
  | _ => none

/-- A plain create that creates a record. -/
def Entry.createsPlainly (db db' : Tables S) : Entry → Bool
  | .createTopic t => db'.topic t.name ≠ db.topic t.name
  | _ => false

/-- A stub is created whose name differs from an existing topic's in letter case only. -/
def Entry.stubClashes (db db' : Tables S) : Entry → Bool
  | .attachRemoteChild op => db'.topic op.stub ≠ db.topic op.stub ∧
      db.topics.keys.any fun n => n ≠ op.stub ∧ asciiFold n = asciiFold op.stub
  | _ => false

/-- Records stand under their own names, which were there before or are the one brought. -/
structure Brings (name : Option String) (topic topic' : String → Option Topic) : Prop where
  names : OwnNames topic'
  old : ∀ n, (topic' n).isSome → (topic n).isSome ∨ n ∈ name

section

variable {env : Env} {base topic : String → Option Topic} {db db' : Tables S} {t : Topic} {name : Option String}
  {n : String}

namespace Brings

theorem known (h : Brings name base topic) (hget : topic n = some t) : (base t.name).isSome ∨ t.name ∈ name := by
  rw [h.names n t hget]
  exact h.old n (by simp [hget])

theorem set (h : Brings name base topic) {x : Option Topic}
    (hx : ∀ t ∈ x, t.name = n ∧ ((base n).isSome ∨ n ∈ name)) : Brings name base (update topic n x) := by
  constructor
  · intro m u hu
    rcases update_eq_some hu with ⟨rfl, heq⟩ | ⟨-, hu⟩
    · exact (hx u heq).1
    · exact h.names m u hu
  · intro m hm
    obtain ⟨u, hu⟩ := Option.isSome_iff_exists.mp hm
    rcases update_eq_some hu with ⟨rfl, heq⟩ | ⟨-, hu⟩
    · exact (hx u heq).2
    · exact h.old m (by simp [hu])

theorem put (h : Brings name base db.topic) (hput : putTopicRecord db t = .ok db')
    (hold : (base t.name).isSome ∨ t.name ∈ name) : Brings name base db'.topic := by
  rw [(putTopic_topic hput).2]
  refine h.set ?_
  rintro u ⟨⟩
  exact ⟨rfl, hold⟩

theorem delete (h : Brings name base db.topic) (n : String) : Brings name base (deleteTopicRecords db n).topic := by
  rw [deleteTopicRecords_topic]
  exact h.set (fun _ ht => by cases ht)

theorem lessens (h : Brings name base db.topic) (hl : Lessens (fun _ => False) db db') :
    Brings name base db'.topic := by
  refine ⟨hl.names h.names, fun n hn => h.old n ?_⟩
  obtain ⟨u, hu⟩ := Option.isSome_iff_exists.mp hn
  obtain ⟨u', hu', -⟩ := hl.records n u hu
  rw [hu']
  rfl

variable (h : Brings name base db.topic)
include h

theorem attach {p : ChildLink} {rules : AttachRules} (hok : attachChildTx env db p rules = .ok db') :
    Brings name base db'.topic := by
  simp only [attachChildTx, bind_eq_ok, refuse_eq_ok, getTopic_ok, exists_const] at hok
  obtain ⟨-, parent, hparent, child, hchild, -, -, -, -, -, -, -, _, -, ⟨db₁, adopted⟩, hreconcile, db₂, hput,
    hputChild⟩ := hok
  have hdb₁ : Brings name base db₁.topic := (reconcileSchemasForAttach_onlySchemas hreconcile).topic ▸ h
  exact (hdb₁.put hput (h.known (t := parent) hparent)).put hputChild (h.known (t := child) hchild)

theorem detach {parentName childName : String} (hok : applyDetachChild db parentName childName = .ok db') :
    Brings name base db'.topic := by
  simp only [applyDetachChild, detachChildTx, bind_eq_ok, refuse_eq_ok, getTopic_ok, exists_const] at hok
  obtain ⟨parent, hparent, child, hchild, -, db₁, hput, hok⟩ := hok
  have hfirst := h.put hput ((unlinkChild_same parent childName).1 ▸ h.known hparent)
  split at hok
  · cases hok
    exact hfirst.delete childName
  · exact hfirst.put hok (h.known (t := child) hchild)

theorem deleteTopic (hok : deleteTopicTx db n = .ok db') : Brings name base db'.topic := by
  simp only [deleteTopicTx, dissolveFanoutLinks, bind_eq_ok, getTopic_ok] at hok
  obtain ⟨db₂, ⟨t, -, db₁, hchildren, hparent⟩, hok⟩ := hok
  cases hok
  have hfirst : Brings name base db₁.topic := by
    unfold dissolveChildren at hchildren
    split at hchildren
    · exact h.lessens (.foldlM (fun _ _ _ hn => dissolveChild_lessens hn) h.names hchildren)
    · cases hchildren
      exact h
  exact (hfirst.lessens (dissolveParent_lessens hfirst.names hparent)).delete n

theorem create {schema : Bytes} {link : Option CreateLink} (hname : t.name ∈ name)
    (hok : applyCreateTopicWith env db t schema link = .ok db') : Brings name base db'.topic := by
  simp only [applyCreateTopicWith, bind_eq_ok, refuse_eq_ok, exists_const] at hok
  obtain ⟨-, -, -, db₁, hput, db₂, hschema, hlink⟩ := hok
  have hput : Brings name base db₁.topic := h.put hput (.inr hname)
  have hcreate : Brings name base db₂.topic := (putFirstSchema_onlySchemas hschema).topic ▸ hput
  cases link with
  | none =>
    cases hlink
    exact hcreate
  | some link =>
    simp only [linkNew, bind_eq_ok, refuse_eq_ok, exists_const] at hlink
    obtain ⟨parent, -, -, hattach⟩ := hlink
    exact hcreate.attach hattach

theorem attachRemote {op : AttachRemoteChild} (hname : op.stub ∈ name)
    (hok : applyAttachRemoteChild db op = .ok db') : Brings name base db'.topic := by
  simp only [applyAttachRemoteChild, bind_eq_ok, refuse_eq_ok, getTopic_ok, exists_const] at hok
  obtain ⟨_, -, parent, hparent, _, -, -, -, -, -, -, _, -, _, -, -, db₁, hput, hputStub⟩ := hok
  exact (h.put hput (h.known (t := parent) hparent)).put hputStub (.inr hname)

end Brings

/-- A topic appears only under the name of the record its entry creates. -/
theorem Entry.transaction_brings {e : Entry} {refused : Option Err} (hnames : OwnNames db.topic)
    (h : e.transaction env db = some (.ok (db', refused))) : Brings e.brings db.topic db'.topic := by
  have hrefl : Brings e.brings db.topic db.topic := ⟨hnames, fun _ => .inl⟩
  by_cases hleaves : e.writes .topics = false
  · rwa [(Entry.transaction_frame h).topic hleaves]
  cases e with
  | createTopic t =>
    obtain ⟨_, -, hput⟩ := bind_eq_ok.mp (of_map_eq_ok h)
    exact hrefl.put hput (.inr rfl)
  | updateTopic t => exact hrefl.lessens (applyUpdateTopic_lessens (of_map_eq_ok h))
  | deleteTopic name => exact hrefl.deleteTopic (of_map_eq_ok h)
  | attachChild link => exact hrefl.attach (of_map_eq_ok h)
  | detachChild parent child => exact hrefl.detach (of_map_eq_ok h)
  | createTopicWith t schema link => exact hrefl.create rfl (of_map_eq_ok h)
  | updateTopicIf t expectId => exact hrefl.lessens (applyUpdateTopicIf_lessens (of_map_eq_ok h))
  | deleteTopicIf name expectId =>
    obtain ⟨_, -, h⟩ := bind_eq_ok.mp (of_map_eq_ok h)
    obtain ⟨_, -, h⟩ := bind_eq_ok.mp h
    exact hrefl.deleteTopic h
  | attachChildIf link parentId childId =>
    obtain ⟨_, -, h⟩ := bind_eq_ok.mp (of_map_eq_ok h)
    exact hrefl.attach h
  | detachChildIf parent child parentId childId =>
    obtain ⟨_, -, h⟩ := bind_eq_ok.mp (of_map_eq_ok h)
    exact hrefl.detach h
  | attachRemoteChild op => exact hrefl.attachRemote rfl (of_map_eq_ok h)
  | setRemoteChildState op => exact hrefl.lessens (applySetRemoteChildState_lessens hnames (of_map_eq_ok h))
  | deleteUserReleaseTopics username =>
    obtain ⟨db₁, hdelete, h⟩ := bind_eq_ok.mp (of_map_eq_ok h)
    have hfirst : Frame (· == .users) db db₁ := deleteUserRecord_writes rfl username db₁ hdelete
    rw [← hfirst.topic rfl] at hnames hrefl ⊢
    exact hrefl.lessens (releaseOwnedTopics_lessens hnames h)
  | _ => exact absurd rfl hleaves

theorem mem_topics_keys (h : (db.topic n).isSome) : n ∈ db.topics.keys := by
  exact Bucket.mem_keys.mpr h

variable (hfold : ∀ a b, asciiFold a = asciiFold b → env.equalFold a b = true)
include hfold

/-- A create that passes the letter-case check has a name apart from those of all topics. -/
theorem eq_name_of_create {schema : Bytes} {link : Option CreateLink}
    (hok : applyCreateTopicWith env db t schema link = .ok db') (hn : (db.topic n).isSome)
    (heq : asciiFold n = asciiFold t.name) : n = t.name := by
  simp only [applyCreateTopicWith, bind_eq_ok, refuse_eq_ok, exists_const] at hok
  obtain ⟨-, -, hnone, -⟩ := hok
  have hsize : n.utf8ByteSize = t.name.utf8ByteSize := by simpa [asciiFold] using congrArg length heq
  by_contra hne
  have hnot := find?_eq_none.mp (Option.not_isSome_iff_eq_none.mp hnone) n (mem_topics_keys hn)
  exact hnot (decide_eq_true ⟨hsize, hne, hfold n t.name heq⟩)

/-- An entry that creates no clashing stub keeps the names apart. -/
theorem FSM.apply_apart {s : FSM S} {l : LogEntry} (hnames : OwnNames s.db.topic) (hapart : NamesApart s.db.topic)
    (hcreated : l.entry.createsPlainly s.db (s.apply env l).1.db = false)
    (hstub : l.entry.stubClashes s.db (s.apply env l).1.db = false) :
    OwnNames (s.apply env l).1.db.topic ∧ NamesApart (s.apply env l).1.db.topic := by
  rcases s.apply_db env l with hsame | ⟨refused, h⟩
  · rw [hsame]
    exact ⟨hnames, hapart⟩
  generalize (s.apply env l).1.db = db' at *
  have hbrings := Entry.transaction_brings hnames h
  have hnew : ∀ x ∈ l.entry.brings, (db'.topic x).isSome → ∀ n, (s.db.topic n).isSome →
      asciiFold n = asciiFold x → n = x := by
    intro x hx hsome n hn heq
    by_cases hsame : db'.topic x = s.db.topic x
    · exact hapart n x hn (hsame ▸ hsome) heq
    cases he : l.entry <;> rw [he] at hx hcreated hstub h <;> cases hx
    · exact absurd hsame (of_decide_eq_false hcreated)
    · exact eq_name_of_create hfold (of_map_eq_ok h) hn heq
    · by_contra hne
      refine of_decide_eq_false hstub ⟨hsame, any_eq_true.mpr ⟨n, mem_topics_keys hn, ?_⟩⟩
      exact decide_eq_true ⟨hne, heq⟩
  refine ⟨hbrings.names, fun m n hm hn heq => ?_⟩
  rcases hbrings.old m hm with hm' | hm' <;> rcases hbrings.old n hn with hn' | hn'
  · exact hapart m n hm' hn' heq
  · exact hnew n hn' hn m hm' heq
  · exact (hnew m hm' hm n hn' heq.symm).symm
  · exact Option.mem_unique hm' hn'

end

/-- While every record is created with a letter-case check or is a stub whose name differs from every topic's in
more than letter case, no two topics have names that are equal under ASCII case folding. -/
theorem names_apart_while_stubs_are (env : Env)
    (hfold : ∀ a b, asciiFold a = asciiFold b → env.equalFold a b = true) (entries : List LogEntry)
    (hcreated : ∀ i (hi : i < entries.length), entries[i].entry.createsPlainly (run env (entries.take i)).db
      (run env (entries.take (i + 1))).db = false)
    (hstub : ∀ i (hi : i < entries.length), entries[i].entry.stubClashes (run env (entries.take i)).db
      (run env (entries.take (i + 1))).db = false) : NamesApart (run env entries).db.topic := by
  suffices h : ∀ k ≤ entries.length, OwnNames (run env (entries.take k)).db.topic ∧
      NamesApart (run env (entries.take k)).db.topic by
    rw [← take_length (l := entries)]
    exact (h _ le_rfl).2
  intro k hk
  induction k with
  | zero =>
    rw [take_zero, run_nil_topic]
    constructor
    · intro _ _ ht
      cases ht
    · intro _ _ hm
      cases hm
  | succ k ih =>
    obtain ⟨hnames, hapart⟩ := ih (by omega)
    have hrun : run env (entries.take (k + 1)) = ((run env (entries.take k)).apply env entries[k]).1 := by
      rw [take_succ_eq_append_getElem hk, run_concat]
    have hc := hcreated k hk
    have hs := hstub k hk
    rw [hrun] at hc hs ⊢
    exact FSM.apply_apart hfold hnames hapart hc hs

/-- Names are compared under ASCII case folding. -/
def foldEnv : Env :=
  { plainEnv with equalFold := fun a b => asciiFold a = asciiFold b }

/-- A topic, a remote, and a stub of the given name attached to the topic. -/
def attachStub (stub : String) : List LogEntry :=
  [⟨1, .createTopicWith { name := "orders", id := "o1", partitions := 4, retentionMs := 172800000 } [] none, true⟩,
    ⟨2, .putWest, true⟩,
    ⟨3, .attachRemoteChild
      { parent := "orders", parentId := "o1", stub := stub, stubId := "s1", epoch := "e2"
        remote := { name := "west", topic := "orders" }, createdAt := 9 }, true⟩]

theorem attached_stub_apart : ((run foldEnv (attachStub "orders-west")).db.topic "orders-west").isSome ∧
      NamesApart (run foldEnv (attachStub "orders-west")).db.topic :=
  ⟨by decide +kernel, names_apart_while_stubs_are foldEnv (fun _ _ => decide_eq_true) (attachStub "orders-west")
    (by decide +kernel) (by decide +kernel)⟩

/-- No check stops a stub whose name differs from its own parent's in letter case only. -/
theorem attached_stub_clashes_in_case : (∀ a b, asciiFold a = asciiFold b → foldEnv.equalFold a b = true) ∧
      (∀ l ∈ attachStub "Orders", ∀ t, l.entry ≠ .createTopic t) ∧
      ¬NamesApart (run foldEnv (attachStub "Orders")).db.topic := by
  refine ⟨fun _ _ => decide_eq_true, by simp [attachStub, Entry.putWest], fun h => ?_⟩
  exact absurd (h "orders" "Orders" (by decide +kernel) (by decide +kernel) (by decide)) (by decide)

end Narad.Metastore
