import Narad.Metastore.Histories

/-!
# Entries that loosen

Most entries that touch topics only loosen what is there: records change without a new link, and a topic
that goes takes its schemas and assignments with it.
-/

namespace Narad.Metastore

open Function (update_apply update_of_ne update_self)
open Lib OrderedStore

variable {S : OrderedStore}

/-- The rows in the range of a name that is gone are dropped, and no others. -/
structure Drops {α : Type} (gone : String → Prop) (table table' : String → Option α) : Prop where
  kept : ∀ key, (∀ n, gone n → (keyRange n).isPrefixOf key = false) → table' key = table key
  dropped : ∀ n key, gone n → (keyRange n).isPrefixOf key = true → table' key = none

/-- Where the new record is a child, the old one was a child of the same parent and as much a stub. -/
def Milder (t t' : Topic) : Prop :=
  t'.isChild → t.isChild ∧ t'.parent = t.parent ∧ (t'.isRemoteChild ↔ t.isRemoteChild)

/-- Records stand under their own names. -/
def OwnNames (topic : String → Option Topic) : Prop :=
  ∀ n t, topic n = some t → t.name = n

/-- Records become milder, and topics go with their rows: those named, and stubs. -/
structure Lessens (named : String → Prop) (db db' : Tables S) : Prop where
  names : OwnNames db.topic → OwnNames db'.topic
  records : ∀ n t', db'.topic n = some t' → ∃ t, db.topic n = some t ∧ Milder t t'
  gone : ∀ n t, db.topic n = some t → db'.topic n = none → named n ∨ t.isRemoteChild
  schemas : Drops (fun n => db.topic n ≠ none ∧ db'.topic n = none) db.schemas.lookup db'.schemas.lookup
  assignments : Drops (fun n => db.topic n ≠ none ∧ db'.topic n = none) db.assignments.lookup db'.assignments.lookup

section

variable {α : Type} {gone gone' : String → Prop} {table table' table'' : String → Option α}
  {named : String → Prop} {db db' mid : Tables S} {t t' : Topic} {name : String}

/-- A row that is left was there, outside every range that is gone. -/
theorem Drops.of_some {key : String} {x : α} (h : Drops gone table table') (hx : table' key = some x) :
    table key = some x ∧ ∀ n, gone n → (keyRange n).isPrefixOf key = false := by
  have hkept : ∀ n, gone n → (keyRange n).isPrefixOf key = false := by
    intro n hn
    refine Bool.eq_false_iff.mpr fun hrange => ?_
    rw [h.dropped n key hn hrange] at hx
    cases hx
  exact ⟨h.kept key hkept ▸ hx, hkept⟩

theorem Drops.congr (h : Drops gone table table') (hiff : ∀ n, gone n ↔ gone' n) : Drops gone' table table' :=
  ⟨fun key hkey => h.kept key fun n hn => hkey n ((hiff n).mp hn), fun n key hn => h.dropped n key ((hiff n).mpr hn)⟩

theorem Drops.refl (hnone : ∀ n, ¬gone n) (table : String → Option α) : Drops gone table table :=
  ⟨fun _ _ => rfl, fun n _ hn => absurd hn (hnone n)⟩

theorem Drops.trans (h : Drops gone table table') (h' : Drops gone' table' table'') :
    Drops (fun n => gone n ∨ gone' n) table table'' := by
  refine ⟨fun key hkey => ?_, fun n key hn hrange => ?_⟩
  · rw [h'.kept key fun n hn => hkey n (.inr hn), h.kept key fun n hn => hkey n (.inl hn)]
  · rcases hn with hn | hn
    · by_cases hany : ∃ m, gone' m ∧ (keyRange m).isPrefixOf key = true
      · obtain ⟨m, hm, hrange'⟩ := hany
        exact h'.dropped m key hm hrange'
      · rw [h'.kept key fun m hm => Bool.eq_false_iff.mpr fun hp => hany ⟨m, hm, hp⟩]
        exact h.dropped n key hn hrange
    · exact h'.dropped n key hn hrange

theorem Milder.refl (t : Topic) : Milder t t :=
  fun h => ⟨h, rfl, Iff.rfl⟩

theorem Milder.trans {t'' : Topic} (h : Milder t t') (h' : Milder t' t'') : Milder t t'' := by
  intro hchild
  obtain ⟨hchild', hparent', hstub'⟩ := h' hchild
  obtain ⟨hchild, hparent, hstub⟩ := h hchild'
  exact ⟨hchild, hparent'.trans hparent, hstub'.trans hstub⟩

theorem Milder.of_not_isChild (h : ¬t'.isChild) : Milder t t' :=
  fun hchild => absurd hchild h

theorem unlinkChild_milder (parent : Topic) (child : String) : Milder parent (unlinkChild parent child) := by
  unfold unlinkChild
  dsimp only
  split
  · exact .of_not_isChild (Topic.not_isChild_of_standalone rfl)
  · exact fun hchild => ⟨hchild, rfl, Iff.rfl⟩

theorem Lessens.refl (named : String → Prop) (db : Tables S) : Lessens named db db where
  names h := h
  records n t' ht' := ⟨t', ht', .refl t'⟩
  gone n t ht hnone := by
    rw [ht] at hnone
    cases hnone
  schemas := .refl (fun n h => h.1 h.2) _
  assignments := .refl (fun n h => h.1 h.2) _

theorem Lessens.none_of_none (h : Lessens named db db') {n : String} (hnone : db.topic n = none) :
    db'.topic n = none := by
  cases ht' : db'.topic n with
  | none => rfl
  | some t' =>
    obtain ⟨t, ht, -⟩ := h.records n t' ht'
    rw [hnone] at ht
    cases ht

theorem Lessens.trans (h : Lessens named db mid) (h' : Lessens named mid db') : Lessens named db db' := by
  have hiff : ∀ n, ((db.topic n ≠ none ∧ mid.topic n = none) ∨ (mid.topic n ≠ none ∧ db'.topic n = none)) ↔
      (db.topic n ≠ none ∧ db'.topic n = none) := by
    intro n
    constructor
    · rintro (⟨hsome, hnone⟩ | ⟨hsome, hnone⟩)
      · exact ⟨hsome, h'.none_of_none hnone⟩
      · exact ⟨fun hnone' => hsome (h.none_of_none hnone'), hnone⟩
    · rintro ⟨hsome, hnone⟩
      by_cases hmid : mid.topic n = none
      · exact .inl ⟨hsome, hmid⟩
      · exact .inr ⟨hmid, hnone⟩
  refine ⟨fun hn => h'.names (h.names hn), fun n t' ht' => ?_, fun n t ht hnone => ?_,
    (h.schemas.trans h'.schemas).congr hiff, (h.assignments.trans h'.assignments).congr hiff⟩
  · obtain ⟨t, ht, hmild'⟩ := h'.records n t' ht'
    obtain ⟨u, hu, hmild⟩ := h.records n t ht
    exact ⟨u, hu, hmild.trans hmild'⟩
  · cases hmid : mid.topic n with
    | none => exact h.gone n t ht hmid
    | some u =>
      rcases h'.gone n u hmid hnone with hnamed | hstub
      · exact .inl hnamed
      obtain ⟨t', ht', hmild⟩ := h.records n u hmid
      rw [ht, Option.some.injEq] at ht'
      exact .inr (ht' ▸ (hmild hstub.2).2.2.mp hstub)

/-- A milder record is written over one there is. -/
theorem Lessens.put (hput : putTopicRecord db t' = .ok db') (hget : db.topic t'.name = some t)
    (hmild : Milder t t') : Lessens named db db' := by
  have htopic := (putTopic_topic hput).2
  obtain ⟨-, rfl⟩ := putTopicRecord_eq_ok hput
  have hkept : ∀ n, ¬(db.topic n ≠ none ∧
      ({ db with topics := db.topics.insert t'.name t' } : Tables S).topic n = none) := by
    rintro n ⟨hsome, hnone⟩
    rw [htopic, update_apply] at hnone
    split at hnone
    · cases hnone
    · exact hsome hnone
  refine ⟨fun hn n u hu => ?_, fun n u hu => ?_, fun n u hu hnone => ?_, .refl hkept _, .refl hkept _⟩
  · rcases update_eq_some (htopic ▸ hu) with ⟨rfl, ⟨⟩⟩ | ⟨-, hu⟩
    · rfl
    · exact hn n u hu
  · rcases update_eq_some (htopic ▸ hu) with ⟨rfl, ⟨⟩⟩ | ⟨-, hu⟩
    · exact ⟨t, hget, hmild⟩
    · exact ⟨u, hu, .refl u⟩
  · exact absurd ⟨by rw [hu]; nofun, hnone⟩ (hkept n)

/-- A topic goes with its rows. -/
theorem Lessens.delete (hget : db.topic name = some t) (hnamed : named name ∨ t.isRemoteChild) :
    Lessens named db (deleteTopicRecords db name) := by
  have htopic := deleteTopicRecords_topic db name
  have hiff : ∀ n, n = name ↔ (db.topic n ≠ none ∧ (deleteTopicRecords db name).topic n = none) := by
    intro n
    rw [htopic, update_apply]
    constructor
    · rintro rfl
      exact ⟨by rw [hget]; nofun, if_pos rfl⟩
    · rintro ⟨hsome, hnone⟩
      by_contra hne
      rw [if_neg hne] at hnone
      exact hsome hnone
  have hdrops : ∀ {β : Type} (b : S.Bucket β), Drops (· = name) b.lookup (deletePrefix b (keyRange name)).1.lookup := by
    intro β b
    refine ⟨fun key hkey => ?_, fun n key hn hrange => ?_⟩
    · rw [lookup_deletePrefix, hkey name rfl]
      rfl
    · subst hn
      rw [lookup_deletePrefix, if_pos hrange]
  refine ⟨fun hn n u hu => ?_, fun n u hu => ?_, fun n u hu hnone => ?_,
    (hdrops db.schemas).congr hiff, (hdrops db.assignments).congr hiff⟩
  · rw [htopic] at hu
    rcases update_eq_some hu with ⟨-, heq⟩ | ⟨-, hu⟩
    · cases heq
    · exact hn n u hu
  · rw [htopic] at hu
    rcases update_eq_some hu with ⟨-, heq⟩ | ⟨-, hu⟩
    · cases heq
    · exact ⟨u, hu, .refl u⟩
  · have hn := (hiff n).mpr ⟨by rw [hu]; nofun, hnone⟩
    subst hn
    rw [hget, Option.some.injEq] at hu
    exact hu ▸ hnamed

theorem Lessens.foldlM {β : Type} {f : Tables S → β → Tx S} {as : List β}
    (hf : ∀ db a db', OwnNames db.topic → f db a = .ok db' → Lessens named db db') (hnames : OwnNames db.topic)
    (h : as.foldlM f db = .ok db') : Lessens named db db' := by
  induction as generalizing db with
  | nil =>
    cases h
    exact .refl named _
  | cons a as ih =>
    rw [List.foldlM_cons, bind_eq_ok] at h
    obtain ⟨mid, hstep, hrest⟩ := h
    have hfirst := hf db a mid hnames hstep
    exact hfirst.trans (ih (hfirst.names hnames) hrest)

theorem dissolveChild_lessens {childName : String} (hnames : OwnNames db.topic)
    (h : dissolveChild name db childName = .ok db') : Lessens named db db' := by
  unfold dissolveChild at h
  split at h
  · cases h
    exact .refl named db
  rename_i child hchild
  have hname := hnames _ _ hchild
  split at h
  next hstub =>
    cases h
    exact .delete hchild (.inr hstub.1)
  · exact .put h (by rw [← hname] at hchild; exact hchild) (.of_not_isChild (Topic.detached_not_isChild child))

theorem dissolveParent_lessens (hnames : OwnNames db.topic) (h : dissolveParent db name t = .ok db') :
    Lessens named db db' := by
  unfold dissolveParent at h
  split at h
  · split at h
    · cases h
      exact .refl named db
    next parent hparent =>
      refine .put h ?_ (unlinkChild_milder parent name)
      rw [(unlinkChild_same parent name).1, hnames _ _ hparent]
      exact hparent
  · cases h
    exact .refl named db

theorem Forest.ownNames (hf : Forest db.topic) : OwnNames db.topic :=
  fun _ _ ht => (hf.node ht).name

/-- A delete takes the topic named and the stubs of its remote children. -/
theorem deleteTopicTx_lessens (hf : Forest db.topic) (h : deleteTopicTx db name = .ok db') :
    Lessens (· = name) db db' := by
  simp only [deleteTopicTx, dissolveFanoutLinks, bind_eq_ok, getTopic_ok] at h
  obtain ⟨db₂, ⟨t, ht, db₁, hchildren, hparent⟩, h⟩ := h
  cases h
  have hfirst : Lessens (· = name) db db₁ ∧ db₁.topic name = some t := by
    unfold dissolveChildren at hchildren
    split at hchildren
    · refine ⟨.foldlM (fun _ _ _ hn => dissolveChild_lessens hn) hf.ownNames hchildren, ?_⟩
      have hlisted : ∀ c ∈ t.children, ∃ u, db.topic c = some u ∧ u.isChild ∧ u.parent = name :=
        fun c hc => ((hf.node ht).listed c).mp hc
      rw [dissolveChildren_topic (hf.node ht).once (fun c hc => ?_) hchildren]
      · dsimp only
        rw [if_neg, ht]
        intro hself
        obtain ⟨u, hu, his, hof⟩ := hlisted name hself
        exact hf.parent_ne hu his hof
      · obtain ⟨u, hu, -, hof⟩ := hlisted c hc
        exact ⟨u, hu, (hf.node hu).name, hof⟩
    · cases hchildren
      exact ⟨.refl _ db, ht⟩
  have hsecond := hfirst.1.trans (dissolveParent_lessens (hfirst.1.names hf.ownNames) hparent)
  obtain ⟨u, hu⟩ : ∃ u, db₂.topic name = some u := by
    unfold dissolveParent at hparent
    split at hparent
    · split at hparent
      · cases hparent
        exact ⟨t, hfirst.2⟩
      rw [(putTopic_topic hparent).2, update_apply]
      split
      · exact ⟨_, rfl⟩
      · exact ⟨t, hfirst.2⟩
    · cases hparent
      exact ⟨t, hfirst.2⟩
  exact hsecond.trans (.delete hu (.inl rfl))

theorem applyDetachChild_lessens {parentName childName : String} (hf : Forest db.topic)
    (h : applyDetachChild db parentName childName = .ok db') : Lessens (fun _ => False) db db' := by
  simp only [applyDetachChild, detachChildTx, bind_eq_ok, refuse_eq_ok, getTopic_ok, exists_const, not_or, not_not] at h
  obtain ⟨parent, hparent, child, hchild, ⟨his, hof⟩, db₁, hput, h⟩ := h
  have hpn := hf.ownNames _ _ hparent
  have hcn := hf.ownNames _ _ hchild
  have hname : (unlinkChild parent childName).name = parentName := by rw [(unlinkChild_same parent childName).1, hpn]
  have hfirst : Lessens (fun _ => False) db db₁ :=
    .put hput (hname ▸ hparent) (unlinkChild_milder parent childName)
  have hget : db₁.topic childName = some child := by
    rw [(putTopic_topic hput).2, hname, update_of_ne, hchild]
    rintro rfl
    exact hf.parent_ne hchild his hof
  refine hfirst.trans ?_
  split at h
  next hstub =>
    cases h
    exact .delete hget (.inr hstub)
  · rw [← hcn] at hget
    exact .put h hget (.of_not_isChild (Topic.detached_not_isChild child))

theorem applyUpdateTopic_lessens (h : applyUpdateTopic db t = .ok db') : Lessens named db db' := by
  simp only [applyUpdateTopic, bind_eq_ok, getTopic_ok] at h
  obtain ⟨current, hget, _, -, hput⟩ := h
  exact .put hput hget fun hchild => ⟨hchild, rfl, Iff.rfl⟩

theorem applyUpdateTopicIf_lessens {expectId : String} (h : applyUpdateTopicIf db t expectId = .ok db') :
    Lessens named db db' := by
  simp only [applyUpdateTopicIf, bind_eq_ok, refuse_eq_ok, getTopic_ok, exists_const] at h
  obtain ⟨current, hget, _, -, -, _, -, hput⟩ := h
  exact .put hput hget fun hchild => ⟨hchild, rfl, Iff.rfl⟩

theorem applySetRemoteChildState_lessens {env : Env} {op : RemoteChildState} (hnames : OwnNames db.topic)
    (h : applySetRemoteChildState env db op = .ok db') : Lessens named db db' := by
  simp only [applySetRemoteChildState, bind_eq_ok, getTopic_ok] at h
  obtain ⟨stub, hget, h⟩ := h
  split at h
  · cases h
  rename_i link hlink
  simp only [bind_eq_ok, refuse_eq_ok, exists_const] at h
  obtain ⟨-, -, link', -, hput⟩ := h
  refine .put hput (t := stub) ?_ fun hchild => ⟨hchild, rfl, ?_⟩
  · rw [hnames _ _ hget]
    exact hget
  · exact and_congr ⟨fun _ => by rw [hlink]; rintro ⟨⟩, fun _ => by rintro ⟨⟩⟩ Iff.rfl

theorem releaseOwnedTopics_lessens {username : String} (hnames : OwnNames db.topic)
    (h : releaseOwnedTopics db username = .ok db') : Lessens named db db' := by
  refine releaseOwnedTopics_induction (P := (Lessens named · db')) (.refl named db')
    (fun db db₁ current next hget hsame _ hput ih => ?_) hnames h
  have hmild : Milder current next :=
    fun hchild => ⟨hsame.isChild_iff.mp hchild, hsame.parent, hsame.isRemoteChild_iff⟩
  exact (Lessens.put hput hget hmild).trans ih

end

end Narad.Metastore
