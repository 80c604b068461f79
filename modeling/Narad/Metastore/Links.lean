import Narad.Metastore.Footprint
import Narad.Metastore.Forest

/-!
# What the entries do to the topics

Every handler that goes through makes a run of changes to the topics, or one removal. A create makes at
most two: the topic appears alone and is then linked. A user's delete makes one config change for each
topic they owned. All others make at most one.
-/

namespace Narad.Metastore

open Lib OrderedStore List Option
open Function (update update_of_ne update_self)

variable {S : OrderedStore}

section

variable {env : Env} {db db' : Tables S} {name : String} {t : Topic}

/-- A topic put sets one record. -/
theorem putTopic_topic (h : putTopicRecord db t = .ok db') :
    t.name ≠ "" ∧ db'.topic = update db.topic t.name (some t) := by
  obtain ⟨hne, rfl⟩ := putTopicRecord_eq_ok h
  exact ⟨hne, Bucket.lookup_insert ..⟩

/-- A delete clears one. -/
@[simp] theorem deleteTopicRecords_topic (db : Tables S) (name : String) :
    (deleteTopicRecords db name).topic = update db.topic name none :=
  Bucket.lookup_erase ..

/-- A change of schemas leaves the topics. -/
theorem OnlySchemas.topic (h : OnlySchemas db db') : db'.topic = db.topic := by
  obtain ⟨schemas, rfl⟩ := h
  rfl

/-- A delay that passes leaves the floor. -/
theorem checkDelayAgainstRetention_ok {delayMs retentionMs : ℤ}
    (h : checkDelayAgainstRetention delayMs retentionMs name = .ok ()) (hpos : 0 < delayMs) :
    retentionMs = 0 ∨ delayMs + minRetentionMs ≤ retentionMs := by
  unfold checkDelayAgainstRetention at h
  split at h
  next hfree => exact .inl (hfree.resolve_left (by omega))
  · rw [refuse_eq_ok] at h
    exact .inr (by omega)

/-- A retention that passes keeps a day, or all. -/
theorem checkRemoteSourceRetention_ok {retentionMs : ℤ} (h : checkRemoteSourceRetention retentionMs name = .ok ()) :
    retentionMs = 0 ∨ minRemoteSourceRetentionMs ≤ retentionMs := by
  rw [checkRemoteSourceRetention, refuse_eq_ok] at h
  exact not_not.mp h

/-- An attach is a link. -/
theorem attachChildTx_change {p : ChildLink} {rules : AttachRules} (hf : Forest db.topic)
    (h : attachChildTx env db p rules = .ok db') : Change db.topic db'.topic := by
  simp only [attachChildTx, bind_eq_ok, refuse_eq_ok, getTopic_ok, exists_const] at h
  obtain ⟨hne, parent, hparent, child, hchild, hnot, hnotParent, -, hnotChild, hlimit, -, -, _, hdelay,
    ⟨db₁, adopted⟩, hreconcile, db₂, hput, hputChild⟩ := h
  obtain ⟨parentName, childName, epoch, delayMs, offsets⟩ := p
  obtain rfl : parent.name = parentName := (hf.node hparent).name
  obtain rfl : child.name = childName := (hf.node hchild).name
  have hdb₁ := (reconcileSchemasForAttach_onlySchemas hreconcile).topic
  obtain ⟨-, hdb₂⟩ := putTopic_topic hput
  obtain ⟨hname, hdb'⟩ := putTopic_topic hputChild
  have hlocal : child.remote = none := by
    by_contra hremote
    exact hnotChild ((hf.node hchild).stub hremote)
  have hold : ∀ u, db.topic child.name = some u → ¬u.isParent ∧ ¬u.isChild ∧ u.id = child.id := by
    intro u hu
    cases hu.symm.trans hchild
    exact ⟨hnotParent, hnotChild, rfl⟩
  rw [hdb', hdb₂, hdb₁]
  exact @Change.link _ parent (child.attachedBy ⟨parent.name, child.name, epoch, delayMs, offsets⟩)
    ⟨hparent, hnot, Ne.symm hne, hname, rfl, rfl, (hf.node hchild).children_eq_nil hnotParent, hold,
      Nat.lt_of_not_le hlimit, ⟨checkDelayAgainstRetention_ok hdelay, fun hr => absurd hlocal hr.1⟩,
      fun hr => absurd hlocal hr.1⟩

variable {remoteName remoteTopic : String}

variable {u : Topic}

/-- No stub has a target that none was found for. -/
theorem target_ne_of_stubLinkingTarget
    (h : stubLinkingTarget db remoteName remoteTopic = none) (hu : db.topic name = some u)
    (hr : u.isRemoteChild) : u.target ≠ some (remoteName, remoteTopic) := by
  intro htarget
  have hmem : u ∈ db.topics.records := Bucket.mem_records.mpr ⟨name, hu⟩
  have hnot := find?_eq_none.mp h u hmem
  refine hnot (decide_eq_true ?_)
  unfold Topic.target at htarget
  unfold Topic.links
  cases hremote : u.remote with
  | none => simp [hremote] at htarget
  | some link => simpa [hremote, hr.2] using htarget

/-- So is the attach of a stub. -/
theorem applyAttachRemoteChild_change {op : AttachRemoteChild} (hf : Forest db.topic)
    (h : applyAttachRemoteChild db op = .ok db') : Change db.topic db'.topic := by
  simp only [applyAttachRemoteChild, checkAttachRemoteChildOp, bind_eq_ok, refuse_eq_ok, getTopic_ok, exists_const] at h
  obtain ⟨⟨-, hne, -⟩, parent, hparent, _, -, hnot, -, hfree, hlimit, hremotes, _, hfloor, _, hdelay,
    htarget, db₁, hput, hputStub⟩ := h
  obtain hpn : parent.name = op.parent := (hf.node hparent).name
  obtain ⟨-, hdb₁⟩ := putTopic_topic hput
  obtain ⟨hname, hdb'⟩ := putTopic_topic hputStub
  rw [← hpn] at hparent
  have hold : ∀ u, db.topic op.stub = some u → ¬u.isParent ∧ ¬u.isChild ∧ u.id = op.stubTopic.id := by
    intro u hu
    rw [hu] at hfree
    exact absurd rfl hfree
  have hnone : stubLinkingTarget db op.remote.name op.remote.topic = none := not_isSome_iff_eq_none.mp htarget
  rw [hdb', hdb₁]
  exact @Change.link _ parent op.stubTopic ⟨hparent, hnot, fun heq => hne (hpn.symm.trans heq.symm), hname, rfl,
    hpn.symm, rfl, hold, Nat.lt_of_not_le hlimit,
    ⟨checkDelayAgainstRetention_ok hdelay, fun _ => checkRemoteSourceRetention_ok hfloor⟩,
    fun _ => ⟨Nat.lt_of_not_le hremotes, fun n u hu hr => target_ne_of_stubLinkingTarget hnone hu hr⟩⟩

/-- A detach frees a child, or removes a stub. -/
theorem applyDetachChild_topics {parentName childName : String} (hf : Forest db.topic)
    (h : applyDetachChild db parentName childName = .ok db') :
    Change db.topic db'.topic ∨ Removal db.topic db'.topic := by
  simp only [applyDetachChild, detachChildTx, bind_eq_ok, refuse_eq_ok, getTopic_ok, exists_const, not_or, not_not] at h
  obtain ⟨parent, hparent, child, hchild, ⟨his, hof⟩, db₁, hput, h⟩ := h
  obtain rfl : parent.name = parentName := (hf.node hparent).name
  obtain rfl : child.name = childName := (hf.node hchild).name
  obtain ⟨-, hdb₁⟩ := putTopic_topic hput
  rw [(unlinkChild_same parent child.name).1] at hdb₁
  split at h
  · cases h
    right
    rw [deleteTopicRecords_topic, hdb₁]
    exact .unlink ⟨hparent, hchild, his, hof⟩
  next hlocal =>
    left
    obtain ⟨-, hdb'⟩ := putTopic_topic h
    have hremote : child.remote = none := by
      by_contra hr
      exact hlocal ⟨hr, his⟩
    rw [hdb', hdb₁]
    exact .detach ⟨hparent, hchild, his, hof⟩ hremote

/-- A child of a deleted parent becomes standalone, a stub goes. -/
theorem dissolveChild_topic {childName : String} {child : Topic} (hget : db.topic childName = some child)
    (hname : child.name = childName) (hof : child.isRemoteChild → child.parent = name)
    (h : dissolveChild name db childName = .ok db') : db'.topic = update db.topic childName (released child) := by
  rw [dissolveChild, hget] at h
  dsimp only at h
  rw [released]
  split at h
  next hstub =>
    cases h
    rw [if_pos hstub.1, deleteTopicRecords_topic]
  next hstub =>
    obtain ⟨-, hdb'⟩ := putTopic_topic h
    have hlocal : ¬child.isRemoteChild := fun hr => hstub ⟨hr, hof hr⟩
    rw [if_neg hlocal, hdb']
    subst hname
    rfl

/-- So do all the children, each under its own name. -/
theorem dissolveChildren_topic {children : List String} (hnodup : children.Nodup)
    (hchildren : ∀ c ∈ children, ∃ u, db.topic c = some u ∧ u.name = c ∧ u.parent = name)
    (h : children.foldlM (dissolveChild name) db = .ok db') :
    db'.topic = fun n => if n ∈ children then (db.topic n).bind released else db.topic n := by
  induction children generalizing db with
  | nil =>
    cases h
    simp
  | cons c children ih =>
    rw [foldlM_cons, bind_eq_ok] at h
    obtain ⟨db₁, hstep, hrest⟩ := h
    obtain ⟨hc, hnodup⟩ := nodup_cons.mp hnodup
    obtain ⟨child, hchild, hname, hof⟩ := hchildren c (.head _)
    have hdb₁ := dissolveChild_topic hchild hname (fun _ => hof) hstep
    have hother : ∀ d ∈ children, db₁.topic d = db.topic d := by
      intro d hd
      rw [hdb₁, update_of_ne]
      rintro rfl
      exact hc hd
    have hrest := ih hnodup (fun d hd => by
      rw [hother d hd]
      exact hchildren d (.tail _ hd)) hrest
    funext n
    rw [hrest]
    dsimp only
    by_cases hn : n ∈ children
    · rw [if_pos hn, if_pos (.tail _ hn), hother n hn]
    rw [if_neg hn]
    by_cases hnc : n = c
    · subst hnc
      rw [if_pos (.head _), hdb₁, update_self, hchild, bind_some]
    · rw [if_neg (by simp [hnc, hn]), hdb₁, update_of_ne hnc]

/-- A delete removes one topic, with its links. -/
theorem deleteTopicTx_removal (hf : Forest db.topic) (h : deleteTopicTx db name = .ok db') :
    Removal db.topic db'.topic := by
  simp only [deleteTopicTx, dissolveFanoutLinks, bind_eq_ok, getTopic_ok] at h
  obtain ⟨db₂, ⟨t, ht, db₁, hchildren, hparent⟩, h⟩ := h
  cases h
  obtain rfl : t.name = name := (hf.node ht).name
  rw [deleteTopicRecords_topic]
  unfold dissolveChildren at hchildren
  unfold dissolveParent at hparent
  by_cases hisParent : t.isParent
  · rw [if_pos hisParent] at hchildren
    rw [if_neg (fun hc => Topic.not_isParent_of_isChild hc.1 hisParent)] at hparent
    cases hparent
    rw [dissolveChildren_topic (hf.node ht).once (fun c hc => ?_) hchildren]
    · exact .dissolve ht hisParent
    · obtain ⟨u, hu, -, hof⟩ := ((hf.node ht).listed c).mp hc
      exact ⟨u, hu, (hf.node hu).name, hof⟩
  rw [if_neg hisParent] at hchildren
  cases hchildren
  by_cases his : t.isChild
  · obtain ⟨parent, hget, -⟩ := (hf.node ht).attached his
    have hpn := (hf.node hget).name
    rw [if_pos ⟨his, (hf.node hget).name_ne⟩, hget] at hparent
    obtain ⟨-, hdb₂⟩ := putTopic_topic hparent
    rw [hdb₂, (unlinkChild_same parent t.name).1]
    rw [← hpn] at hget
    exact .unlink ⟨hget, ht, his, hpn.symm⟩
  · rw [if_neg (fun hc => his hc.1)] at hparent
    cases hparent
    exact .erase ht hisParent his

/-- A change of config that leaves the retention alone. -/
theorem Forest.change_of_retention {topic : String → Option Topic} {current next : Topic} (hf : Forest topic)
    (hget : topic next.name = some current) (hsame : SameLink current next)
    (hretention : next.retentionMs = current.retentionMs) : Change topic (update topic next.name (some next)) := by
  refine .config hget hsame fun c u hu his hof => ?_
  obtain ⟨p, hp, hcovers⟩ := (hf.node hu).attached his
  rw [hof] at hp
  cases hp.symm.trans hget
  exact hcovers.congr hretention rfl id

/-- The check covers each child's delay, and sees a stub. -/
theorem checkChildren_ok {next : Topic} {hasRemote : Bool} (h : checkChildren db next = .ok hasRemote)
    {c : String} (hc : c ∈ next.children) (hu : db.topic c = some u) :
    (0 < u.fanoutDelayMs → next.retentionMs = 0 ∨ u.fanoutDelayMs + minRetentionMs ≤ next.retentionMs) ∧
      (u.isRemoteChild → hasRemote = true) := by
  unfold checkChildren at h
  obtain ⟨check, hmissing, hfound, h⟩ : ∃ check : Bool → String → Except Err Bool,
      (∀ flag d, db.topic d = none → check flag d = .ok flag) ∧
      (∀ flag d child, db.topic d = some child → check flag d = (do
        checkDelayAgainstRetention child.fanoutDelayMs next.retentionMs next.name
        pure (flag || child.isRemoteChild))) ∧
      next.children.foldlM check false = .ok hasRemote :=
    ⟨_, fun flag d hd => by rw [hd], fun flag d child hd => by rw [hd], h⟩
  -- the flag only rises, and it does at a remote child
  have hloop : ∀ (children : List String) (start : Bool), children.foldlM check start = .ok hasRemote →
      (start = true → hasRemote = true) ∧ (c ∈ children →
        (0 < u.fanoutDelayMs → next.retentionMs = 0 ∨ u.fanoutDelayMs + minRetentionMs ≤ next.retentionMs) ∧
          (u.isRemoteChild → hasRemote = true)) := by
    intro children
    induction children with
    | nil =>
      intro start h
      cases h
      exact ⟨id, fun hmem => absurd hmem (by simp)⟩
    | cons d children ih =>
      intro start h
      rw [foldlM_cons, bind_eq_ok] at h
      obtain ⟨mid, hstep, hrest⟩ := h
      obtain ⟨hrise, hbelow⟩ := ih mid hrest
      cases hd : db.topic d with
      | none =>
        rw [hmissing _ _ hd] at hstep
        cases hstep
        refine ⟨hrise, fun hmem => ?_⟩
        rcases mem_cons.mp hmem with rfl | hmem
        · rw [hd] at hu
          cases hu
        · exact hbelow hmem
      | some child =>
        rw [hfound _ _ _ hd] at hstep
        obtain ⟨_, hdelay, hflag⟩ := bind_eq_ok.mp hstep
        cases hflag
        refine ⟨fun hstart => hrise (by rw [hstart]; rfl), fun hmem => ?_⟩
        rcases mem_cons.mp hmem with rfl | hmem
        · cases hd.symm.trans hu
          exact ⟨checkDelayAgainstRetention_ok hdelay, fun hr => hrise (by simp [hr])⟩
        · exact hbelow hmem
  exact (hloop next.children false h).2 hc

/-- A retention that does not shrink stays above a floor. -/
theorem retention_of_not_shrinks {current next floor : ℤ} (h : retentionShrinks current next = false)
    (hcurrent : current = 0 ∨ floor ≤ current) : next = 0 ∨ floor ≤ next := by
  unfold retentionShrinks at h
  split at h
  · exact .inl ‹_›
  split at h
  · cases h
  · have := of_decide_eq_false h
    omega

section

variable (hf : Forest db.topic)
include hf

/-- An update that passes its check covers the children. -/
theorem checkConfigUpdate_covers {current next : Topic}
    (hget : db.topic next.name = some current) (hsame : SameLink current next)
    (h : checkConfigUpdate db current next = .ok ()) {c : String} (hu : db.topic c = some u)
    (his : u.isChild) (hof : u.parent = next.name) : next.Covers u := by
  have hchild : ChildOf db.topic c next.name := ⟨u, hu, his, hof⟩
  have hmem : c ∈ next.children := by
    rw [hsame.children]
    exact ((hf.node hget).listed c).mpr hchild
  have hparent : next.isParent :=
    hsame.isParent_iff.mpr ((hf.node hget).isParent_iff.mpr (hsame.children ▸ ne_nil_of_mem hmem))
  obtain ⟨p, hp, hcovers⟩ := (hf.node hu).attached his
  rw [hof] at hp
  cases hp.symm.trans hget
  rw [checkConfigUpdate, bind_eq_ok] at h
  obtain ⟨_, -, h⟩ := h
  rw [if_pos hparent, checkParentUpdate, bind_eq_ok] at h
  obtain ⟨hasRemote, hcheck, h⟩ := h
  obtain ⟨hdelay, hremote⟩ := checkChildren_ok hcheck hmem hu
  refine ⟨hdelay, fun hr => ?_⟩
  rw [hremote hr, Bool.true_and] at h
  split at h
  · exact checkRemoteSourceRetention_ok h
  next hkeeps => exact retention_of_not_shrinks (by simpa using hkeeps) (hcovers.remote hr)

/-- A config update whose checks went through. -/
theorem change_of_checkConfigUpdate {current next : Topic}
    (hget : db.topic next.name = some current) (hsame : SameLink current next)
    (hcheck : checkConfigUpdate db current next = .ok ()) (hput : putTopicRecord db next = .ok db') :
    Change db.topic db'.topic := by
  rw [(putTopic_topic hput).2]
  exact .config hget hsame fun c u => checkConfigUpdate_covers hf hget hsame hcheck

/-- An update changes settings only. -/
theorem applyUpdateTopic_change (h : applyUpdateTopic db t = .ok db') : Change db.topic db'.topic := by
  simp only [applyUpdateTopic, bind_eq_ok, getTopic_ok] at h
  obtain ⟨current, hget, _, hcheck, hput⟩ := h
  refine change_of_checkConfigUpdate hf ?_ ?_ hcheck hput
  · exact hget
  · exact ⟨(hf.node hget).name.symm, rfl, rfl, rfl, rfl, rfl, rfl⟩

/-- So does a conditional one. -/
theorem applyUpdateTopicIf_change {expectId : String}
    (h : applyUpdateTopicIf db t expectId = .ok db') : Change db.topic db'.topic := by
  simp only [applyUpdateTopicIf, bind_eq_ok, refuse_eq_ok, getTopic_ok, exists_const] at h
  obtain ⟨current, hget, _, -, -, _, hcheck, hput⟩ := h
  refine change_of_checkConfigUpdate hf ?_ ?_ hcheck hput
  · exact hget
  · exact ⟨(hf.node hget).name.symm, rfl, rfl, rfl, rfl, rfl, rfl⟩

end

variable {op : RemoteChildState}

/-- A stub keeps its target. -/
theorem setRemoteLink_same {link link' : RemoteLink}
    (h : setRemoteLink env op link = .ok link') : link'.name = link.name ∧ link'.topic = link.topic := by
  simp only [setRemoteLink, bind_eq_ok] at h
  obtain ⟨paused, hpause, laned, hlanes, hskip⟩ := h
  have h1 : paused.name = link.name ∧ paused.topic = link.topic := by
    unfold setPause at hpause
    split at hpause
    · cases hpause
      exact ⟨rfl, rfl⟩
    split at hpause
    · obtain ⟨_, -, hpause⟩ := bind_eq_ok.mp hpause
      cases hpause
      exact ⟨rfl, rfl⟩
    · cases hpause
      exact ⟨rfl, rfl⟩
  have h2 : laned.name = paused.name ∧ laned.topic = paused.topic := by
    unfold setLanes at hlanes
    split at hlanes
    · cases hlanes
      exact ⟨rfl, rfl⟩
    obtain ⟨_, -, hlanes⟩ := bind_eq_ok.mp hlanes
    cases hlanes
    exact ⟨rfl, rfl⟩
  have h3 : link'.name = laned.name ∧ link'.topic = laned.topic := by
    unfold setSkip at hskip
    split at hskip
    · cases hskip
      exact ⟨rfl, rfl⟩
    obtain ⟨_, -, hskip⟩ := bind_eq_ok.mp hskip
    cases hskip
    exact ⟨rfl, rfl⟩
  exact ⟨h3.1.trans (h2.1.trans h1.1), h3.2.trans (h2.2.trans h1.2)⟩

/-- A change of a stub's state keeps its link. -/
theorem applySetRemoteChildState_change (hf : Forest db.topic)
    (h : applySetRemoteChildState env db op = .ok db') : Change db.topic db'.topic := by
  simp only [applySetRemoteChildState, bind_eq_ok, getTopic_ok] at h
  obtain ⟨stub, hget, h⟩ := h
  split at h
  · cases h
  rename_i link hlink
  simp only [bind_eq_ok, refuse_eq_ok, exists_const] at h
  obtain ⟨-, -, link', hset, hput⟩ := h
  obtain ⟨-, hdb'⟩ := putTopic_topic hput
  obtain ⟨hname, htopic⟩ := setRemoteLink_same hset
  have htarget : ({ stub with remote := some link' } : Topic).target = stub.target := by
    rw [Topic.target, Topic.target, hlink, map_some, map_some, hname, htopic]
  have hstub : db.topic stub.name = some stub := by rw [(hf.node hget).name, hget]
  rw [hdb']
  exact @Forest.change_of_retention _ stub { stub with remote := some link' } hf hstub
    ⟨rfl, rfl, rfl, rfl, rfl, rfl, htarget⟩ rfl

/-- Two records with the link of a third share it. -/
theorem SameLink.euclidean {a b c : Topic} (hab : SameLink a b) (hac : SameLink a c) : SameLink b c where
  name := hac.name.trans hab.name.symm
  id := hac.id.trans hab.id.symm
  role := hac.role.trans hab.role.symm
  children := hac.children.trans hab.children.symm
  parent := hac.parent.trans hab.parent.symm
  fanoutDelayMs := hac.fanoutDelayMs.trans hab.fanoutDelayMs.symm
  target := hac.target.trans hab.target.symm

/-- A release puts, one by one, records with the link and the retention of those stored. -/
theorem releaseOwnedTopics_induction {username : String} {P : Tables S → Prop} (hlast : P db')
    (hput : ∀ (db db₁ : Tables S) (current next : Topic), db.topic next.name = some current → SameLink current next →
      next.retentionMs = current.retentionMs → putTopicRecord db next = .ok db₁ → P db₁ → P db)
    (hnames : ∀ n t, db.topic n = some t → t.name = n) (h : releaseOwnedTopics db username = .ok db') : P db := by
  unfold releaseOwnedTopics at h
  have howned : ∀ t ∈ topicsOwnedBy db username, ∃ current, db.topic t.name = some current ∧
      SameLink current { t with owner := "" } ∧ t.retentionMs = current.retentionMs := by
    intro t ht
    obtain ⟨n, hn⟩ := Bucket.mem_records.mp (mem_of_mem_filter ht)
    have hget : db.topic n = some t := hn
    exact ⟨t, by rw [hnames n t hget, hget], ⟨rfl, rfl, rfl, rfl, rfl, rfl, rfl⟩, rfl⟩
  clear hnames
  generalize topicsOwnedBy db username = owned at h howned
  induction owned generalizing db with
  | nil =>
    cases h
    exact hlast
  | cons t owned ih =>
    rw [foldlM_cons, bind_eq_ok] at h
    obtain ⟨db₁, hput₁, hrest⟩ := h
    have hdb₁ := (putTopic_topic hput₁).2
    obtain ⟨current, hget, hsame, hretention⟩ := howned t (.head _)
    refine hput _ _ _ { t with owner := "" } hget hsame hretention hput₁ (ih hrest fun s hs => ?_)
    obtain ⟨current', hget', hsame', hretention'⟩ := howned s (.tail _ hs)
    by_cases hname : s.name = t.name
    · rw [hname] at hget'
      cases hget'.symm.trans hget
      exact ⟨{ t with owner := "" }, by rw [hdb₁, hname, update_self], hsame.euclidean hsame',
        hretention'.trans hretention.symm⟩
    · exact ⟨current', by rw [hdb₁, update_of_ne hname, hget'], hsame', hretention'⟩

/-- A deleted owner leaves the topics, without an owner. -/
theorem releaseOwnedTopics_changes {username : String} (hf : Forest db.topic)
    (h : releaseOwnedTopics db username = .ok db') : Relation.ReflTransGen Change db.topic db'.topic := by
  refine releaseOwnedTopics_induction (P := fun db => Forest db.topic → Relation.ReflTransGen Change db.topic db'.topic)
    (fun _ => .refl) (fun db db₁ current next hget hsame hretention hput ih hf => ?_) (fun n t ht => (hf.node ht).name) h hf
  have hchange : Change db.topic db₁.topic := by
    rw [(putTopic_topic hput).2]
    exact hf.change_of_retention hget hsame hretention
  exact .head hchange (ih (hf.change hchange))

/-- A create adds a plain topic. -/
theorem applyCreateTopic_change (hplain : t.Plain) (h : applyCreateTopic db t = .ok db') :
    Change db.topic db'.topic := by
  simp only [applyCreateTopic, bind_eq_ok, refuse_eq_ok, exists_const] at h
  obtain ⟨hfree, hput⟩ := h
  obtain ⟨hname, hdb'⟩ := putTopic_topic hput
  rw [hdb']
  exact .create (not_isSome_iff_eq_none.mp hfree) hname hplain

/-- The first schema changes schemas only. -/
theorem putFirstSchema_onlySchemas {schema : Bytes} (h : putFirstSchema env db name schema = .ok db') :
    OnlySchemas db db' := by
  unfold putFirstSchema at h
  split at h
  · cases h
    exact .refl db
  · obtain ⟨_, -, h⟩ := bind_eq_ok.mp h
    exact putSchema_onlySchemas h

/-- A create with a link is a create and an attach. -/
theorem applyCreateTopicWith_changes {schema : Bytes} {link : Option CreateLink} (hf : Forest db.topic)
    (hplain : t.Plain) (h : applyCreateTopicWith env db t schema link = .ok db') :
    Relation.ReflTransGen Change db.topic db'.topic := by
  simp only [applyCreateTopicWith, bind_eq_ok, refuse_eq_ok, exists_const] at h
  obtain ⟨-, hfree, -, db₁, hput, db₂, hschema, hlink⟩ := h
  obtain ⟨hname, hdb₁⟩ := putTopic_topic hput
  have hdb₂ : db₂.topic = db₁.topic := (putFirstSchema_onlySchemas hschema).topic
  have hcreate : Change db.topic db₂.topic := by
    rw [hdb₂, hdb₁]
    exact .create (not_isSome_iff_eq_none.mp hfree) hname hplain
  cases link with
  | none =>
    cases hlink
    exact .single hcreate
  | some link =>
    simp only [linkNew, bind_eq_ok, refuse_eq_ok, getTopic_ok, exists_const] at hlink
    obtain ⟨parent, -, -, hattach⟩ := hlink
    exact (Relation.ReflTransGen.single hcreate).tail (attachChildTx_change (hf.change hcreate) hattach)

end

/-- The record a create entry carries. -/
def Entry.created : Entry → Option Topic
  | .createTopic t => some t
  | .createTopicWith t _ _ => some t
  | _ => none

/-- A create carries no fan-out fields. -/
def Entry.PlainCreate (e : Entry) : Prop :=
  ∀ t ∈ e.created, t.Plain

instance (e : Entry) : Decidable e.PlainCreate :=
  inferInstanceAs (Decidable (∀ t ∈ e.created, t.Plain))

/-- The entries that rewrite the record of an existing topic. -/
def Entry.isUpdate : Entry → Bool
  | .updateTopic _ => true
  | .updateTopicIf _ _ => true
  | .setRemoteChildState _ => true
  | _ => false

section

variable {env : Env} {db db' : Tables S} {refused : Option Err}

/-- Every entry changes the topics step by step, or removes some. -/
theorem Entry.transaction_topics {e : Entry} (hf : Forest db.topic) (hplain : e.PlainCreate)
    (h : e.transaction env db = some (.ok (db', refused))) :
    Relation.ReflTransGen Change db.topic db'.topic ∨ e.isUpdate = false ∧ Removal db.topic db'.topic := by
  by_cases hleaves : e.writes .topics = false
  · rw [(Entry.transaction_frame h).topic hleaves]
    exact .inl .refl
  cases e with
  | createTopic t => exact .inl (.single (applyCreateTopic_change (hplain t rfl) (of_map_eq_ok h)))
  | updateTopic t => exact .inl (.single (applyUpdateTopic_change hf (of_map_eq_ok h)))
  | deleteTopic name => exact .inr ⟨rfl, deleteTopicTx_removal hf (of_map_eq_ok h)⟩
  | attachChild link => exact .inl (.single (attachChildTx_change hf (of_map_eq_ok h)))
  | detachChild parent child =>
    exact (applyDetachChild_topics hf (of_map_eq_ok h)).imp .single fun hr => ⟨rfl, hr⟩
  | createTopicWith t schema link => exact .inl (applyCreateTopicWith_changes hf (hplain t rfl) (of_map_eq_ok h))
  | updateTopicIf t expectId => exact .inl (.single (applyUpdateTopicIf_change hf (of_map_eq_ok h)))
  | deleteTopicIf name expectId =>
    obtain ⟨_, -, h⟩ := bind_eq_ok.mp (of_map_eq_ok h)
    obtain ⟨_, -, h⟩ := bind_eq_ok.mp h
    exact .inr ⟨rfl, deleteTopicTx_removal hf h⟩
  | attachChildIf link parentId childId =>
    obtain ⟨_, -, h⟩ := bind_eq_ok.mp (of_map_eq_ok h)
    exact .inl (.single (attachChildTx_change hf h))
  | detachChildIf parent child parentId childId =>
    obtain ⟨_, -, h⟩ := bind_eq_ok.mp (of_map_eq_ok h)
    exact (applyDetachChild_topics hf h).imp .single fun hr => ⟨rfl, hr⟩
  | attachRemoteChild op => exact .inl (.single (applyAttachRemoteChild_change hf (of_map_eq_ok h)))
  | setRemoteChildState op => exact .inl (.single (applySetRemoteChildState_change hf (of_map_eq_ok h)))
  | deleteUserReleaseTopics username =>
    obtain ⟨db₁, hdelete, h⟩ := bind_eq_ok.mp (of_map_eq_ok h)
    have hfirst : Frame (· == .users) db db₁ := deleteUserRecord_writes rfl username db₁ hdelete
    rw [← hfirst.topic rfl] at hf ⊢
    exact .inl (releaseOwnedTopics_changes hf h)
  | _ => exact absurd rfl hleaves

end

section

variable {topic topic' : String → Option Topic} {env : Env} {n : String} {t : Topic}

/-- Every topic is still there, as the same incarnation. -/
def KeepsAll (topic topic' : String → Option Topic) : Prop :=
  ∀ n t, topic n = some t → ∃ t', topic' n = some t' ∧ t'.id = t.id

/-- A put that keeps the id keeps every topic. -/
theorem KeepsAll.update {x : Topic} (hold : ∀ u, topic x.name = some u → x.id = u.id) :
    KeepsAll topic (update topic x.name (some x)) := by
  intro n t ht
  by_cases hn : n = x.name
  · subst hn
    exact ⟨x, update_self .., hold t ht⟩
  · exact ⟨t, by rw [update_of_ne hn, ht], rfl⟩

/-- Keeping every topic composes. -/
theorem KeepsAll.trans {topic'' : String → Option Topic} (h : KeepsAll topic topic')
    (h' : KeepsAll topic' topic'') : KeepsAll topic topic'' := by
  intro n t ht
  obtain ⟨u, hu, hid⟩ := h n t ht
  obtain ⟨v, hv, hid'⟩ := h' n u hu
  exact ⟨v, hv, hid'.trans hid⟩

/-- A change keeps every topic, with its id. -/
theorem Change.keepsAll (h : Change topic topic') : KeepsAll topic topic' := by
  cases h with
  | create hfree hname hplain =>
    refine .update fun u hu => ?_
    rw [hfree] at hu
    cases hu
  | config hget hsame hcovers =>
    refine .update fun u hu => ?_
    cases hu.symm.trans hget
    exact hsame.id
  | @link parent child hlink =>
    have hfirst : KeepsAll topic (update topic parent.name (some (parent.linked child.name))) := by
      refine @KeepsAll.update topic (parent.linked child.name) fun u hu => ?_
      rw [some.inj (hlink.get.symm.trans hu)]
      rfl
    refine hfirst.trans (.update fun u hu => ?_)
    rw [update_of_ne hlink.ne] at hu
    exact (hlink.old u hu).2.2.symm
  | @detach parent child hlinked hlocal =>
    obtain ⟨hget, hchild, -, -⟩ := hlinked
    have hfirst : KeepsAll topic (update topic parent.name (some (unlinkChild parent child.name))) := by
      obtain ⟨hname, hid, -, -⟩ := unlinkChild_same parent child.name
      have hkeeps := @KeepsAll.update topic (unlinkChild parent child.name) fun u hu => by
        rw [hname] at hu
        rw [hid, some.inj (hget.symm.trans hu)]
      rwa [hname] at hkeeps
    refine hfirst.trans (@KeepsAll.update _ child.detached fun u hu => ?_)
    rcases update_eq_some hu with ⟨heq, hu⟩ | ⟨-, hu⟩
    · cases hu
      have heq : child.name = parent.name := heq
      rw [← heq] at hget
      rw [(unlinkChild_same parent child.name).2.1, some.inj (hget.symm.trans hchild)]
      rfl
    · rw [some.inj (hu.symm.trans hchild)]
      rfl

/-- So do several changes. -/
theorem changes_keepsAll (h : Relation.ReflTransGen Change topic topic') : KeepsAll topic topic' := by
  induction h with
  | refl => exact fun n t ht => ⟨t, ht, rfl⟩
  | tail _ hchange ih => exact ih.trans hchange.keepsAll

/-- What a removal leaves keeps its id. -/
theorem Removal.id_eq (h : Removal topic topic') {t' : Topic} (ht : topic n = some t)
    (ht' : topic' n = some t') : t'.id = t.id := by
  cases h with
  | erase hget hparent hchild =>
    rcases update_eq_some ht' with ⟨-, hnone⟩ | ⟨-, ht'⟩
    · cases hnone
    · rw [some.inj (ht.symm.trans ht')]
  | @unlink parent child hlinked =>
    rcases update_eq_some ht' with ⟨-, hnone⟩ | ⟨-, ht'⟩
    · cases hnone
    rcases update_eq_some ht' with ⟨rfl, hnew⟩ | ⟨-, ht'⟩
    · cases hnew
      rw [(unlinkChild_same parent child.name).2.1, some.inj (ht.symm.trans hlinked.get)]
    · rw [some.inj (ht.symm.trans ht')]
  | dissolve hget hparent =>
    rcases update_eq_some ht' with ⟨-, hnone⟩ | ⟨-, ht'⟩
    · cases hnone
    split at ht'
    · rw [ht, bind_some, released] at ht'
      split at ht' <;> cases ht'
      rfl
    · rw [some.inj (ht.symm.trans ht')]

/-- Changes keep the forest. -/
theorem Forest.changes (hf : Forest topic) (h : Relation.ReflTransGen Change topic topic') : Forest topic' := by
  induction h with
  | refl => exact hf
  | tail _ hchange ih => exact ih.change hchange

/-- Step lemma: what an applied entry does to the topics. -/
theorem FSM.apply_topics {s : FSM S} {l : LogEntry} (hf : Forest s.db.topic) (hplain : l.entry.PlainCreate) :
    Relation.ReflTransGen Change s.db.topic (s.apply env l).1.db.topic ∨
      l.entry.isUpdate = false ∧ Removal s.db.topic (s.apply env l).1.db.topic := by
  rcases s.apply_db env l with hsame | ⟨refused, h⟩
  · rw [hsame]
    exact .inl .refl
  · exact Entry.transaction_topics hf hplain h

/-- Run lemma: the links form a forest. -/
theorem run_forest {entries : List LogEntry} (hplain : ∀ l ∈ entries, l.entry.PlainCreate) :
    Forest (run env entries).db.topic := by
  induction entries using reverseRecOn with
  | nil =>
    rw [run_nil_topic]
    exact forest_empty
  | append_singleton entries l ih =>
    rw [run, foldl_append, ← run]
    rw [forall_mem_append, forall_mem_singleton] at hplain
    have hf := ih hplain.1
    rcases FSM.apply_topics hf hplain.2 with hchanges | ⟨-, hremoval⟩
    · exact hf.changes hchanges
    · exact hf.removal hremoval

end

/-- After any entries the links form a forest of depth one, and no further entry gives an existing topic
another incarnation; an update entry keeps every topic. -/
theorem fanout_links_form_forest (env : Env) (entries : List LogEntry)
    (hplain : ∀ l ∈ entries, l.entry.PlainCreate) : Forest (run env entries).db.topic ∧
      (∀ n t, (run env entries).db.topic n = some t → ¬(t.isParent ∧ t.isChild)) ∧
      ∀ l : LogEntry, l.entry.PlainCreate → (∀ n t t', (run env entries).db.topic n = some t →
          ((run env entries).apply env l).1.db.topic n = some t' → t'.id = t.id) ∧ (l.entry.isUpdate = true →
          KeepsAll (run env entries).db.topic ((run env entries).apply env l).1.db.topic) := by
  have hf : Forest (run env entries).db.topic := run_forest hplain
  refine ⟨hf, fun n t _ h => Topic.not_isParent_of_isChild h.2 h.1, fun l hl => ⟨?_, ?_⟩⟩
  · intro n t t' ht ht'
    rcases FSM.apply_topics hf hl with hchanges | ⟨-, hremoval⟩
    · obtain ⟨u, hu, hid⟩ := changes_keepsAll hchanges n t ht
      rwa [some.inj (ht'.symm.trans hu)]
    · exact hremoval.id_eq ht ht'
  · intro hupdate
    rcases FSM.apply_topics hf hl with hchanges | ⟨hnot, -⟩
    · exact changes_keepsAll hchanges
    · rw [hupdate] at hnot
      cases hnot

/-- A delay child, a remote child and a refused shrink of the retention. -/
def linkThree : List LogEntry :=
  [⟨1, .createTopic { name := "orders", id := "o1", partitions := 4, retentionMs := 172800000 }, true⟩,
    ⟨2, .createTopicWith { name := "audit", id := "a1", partitions := 4 } []
      (some { parent := "orders", parentId := "o1", epoch := "e1", delayMs := 3600000 }), true⟩,
    ⟨3, .putWest, true⟩,
    ⟨4, .attachRemoteChild
      { parent := "orders", parentId := "o1", stub := "orders-west", stubId := "s1", epoch := "e2"
        remote := { name := "west", topic := "orders" }, createdAt := 9 }, true⟩,
    ⟨5, .updateTopic { name := "orders", partitions := 4, retentionMs := 3600000 }, true⟩,
    ⟨6, .detachChild "orders" "audit", true⟩]

theorem linkThree_forest : Forest (run plainEnv linkThree).db.topic ∧ ((run plainEnv linkThree).db.topic "orders").map
        (fun t => (t.id, t.role, t.retentionMs, t.children)) = some ("o1", .parent, 172800000, ["orders-west"]) ∧
      ((run plainEnv linkThree).db.topic "audit").map (fun t => (t.role, t.parent)) = some (.standalone, "") :=
  ⟨(fanout_links_form_forest plainEnv linkThree (by decide)).1, by decide +kernel, by decide +kernel⟩

end Narad.Metastore
