import Narad.Metastore.Apply

/-!
# Fan-out links form a forest

Read as a function from names to records, the topics table changes in few ways: a topic is created, its
config changes, a child is linked or unlinked, a parent is dissolved, a lone topic goes. Every entry
makes a run of such changes, and each of them keeps the links a forest of depth one: what a parent
lists is exactly what points to it, within the caps, and its retention covers its children.
-/

namespace Narad.Metastore

open Lib List Option Topic

variable {t : Topic}

/-- What a stub links on its remote. -/
def Topic.target (t : Topic) : Option (String × String) :=
  t.remote.map fun link => (link.name, link.topic)

/-- The parent's retention covers the child. -/
structure Topic.Covers (parent child : Topic) : Prop where
  delay : 0 < child.fanoutDelayMs → parent.retentionMs = 0 ∨ child.fanoutDelayMs + minRetentionMs ≤ parent.retentionMs
  remote : child.isRemoteChild → parent.retentionMs = 0 ∨ minRemoteSourceRetentionMs ≤ parent.retentionMs

/-- The topic under the first name is a child of the topic under the second. -/
def ChildOf (topic : String → Option Topic) (c p : String) : Prop :=
  ∃ u, topic c = some u ∧ u.isChild ∧ u.parent = p

/-- The record under a name stands rightly in the forest. -/
structure Node (topic : String → Option Topic) (n : String) (t : Topic) : Prop where
  name : t.name = n
  name_ne : n ≠ ""
  /-- What is listed is exactly what points here. -/
  listed : ∀ c, c ∈ t.children ↔ ChildOf topic c n
  once : t.children.Nodup
  isParent_iff : t.isParent ↔ t.children ≠ []
  childLimit : t.children.length ≤ maxChildrenPerParent
  remoteLimit : t.children.countP (stubIn topic) ≤ maxRemoteChildrenPerParent
  /-- The parent of a child exists and covers it. -/
  attached : t.isChild → ∃ p, topic t.parent = some p ∧ p.Covers t
  /-- Only a child carries a remote link. -/
  stub : t.remote ≠ none → t.isChild

structure Forest (topic : String → Option Topic) : Prop where
  node : ∀ {n t}, topic n = some t → Node topic n t
  /-- No two stubs link the same topic of a remote. -/
  target : ∀ {a b u v}, topic a = some u → topic b = some v → u.isRemoteChild → v.isRemoteChild →
    u.target = v.target → a = b

theorem Topic.not_isParent_of_standalone (h : t.role = .standalone) : ¬t.isParent := by
  simp [isParent, effectiveRole, h]

theorem Topic.not_isChild_of_standalone (h : t.role = .standalone) : ¬t.isChild := by
  simp [isChild, effectiveRole, h]

theorem Topic.not_isParent_of_isChild (h : t.isChild) : ¬t.isParent := by
  intro hp
  exact absurd (h.symm.trans hp) (by decide)

section

variable {topic topic' : String → Option Topic} {n c p : String} {t : Topic}

theorem forest_empty : Forest fun _ => none where
  node h := by cases h
  target h := by cases h

theorem Node.children_eq_nil (h : Node topic n t) (hnot : ¬t.isParent) : t.children = [] := by
  by_contra hne
  exact hnot (h.isParent_iff.mpr hne)

theorem ChildOf.unique {q : String} (h : ChildOf topic c p) (h' : ChildOf topic c q) : p = q := by
  obtain ⟨u, hu, -, rfl⟩ := h
  obtain ⟨v, hv, -, rfl⟩ := h'
  rw [some.inj (hu.symm.trans hv)]

theorem Forest.parent_of_childOf (h : Forest topic) (hc : ChildOf topic c p) :
    ∃ t, topic p = some t ∧ c ∈ t.children := by
  obtain ⟨u, hu, his, rfl⟩ := hc
  obtain ⟨t, ht, -⟩ := (h.node hu).attached his
  exact ⟨t, ht, ((h.node ht).listed c).mpr ⟨u, hu, his, rfl⟩⟩

/-- Nothing points to a name whose topic is missing or no parent. -/
theorem Forest.not_childOf (h : Forest topic) (hp : ∀ t, topic p = some t → ¬t.isParent) : ¬ChildOf topic c p := by
  intro hc
  obtain ⟨t, ht, hmem⟩ := h.parent_of_childOf hc
  exact hp t ht ((h.node ht).isParent_iff.mpr (ne_nil_of_mem hmem))

theorem childOf_iff (ht : topic n = some t) : ChildOf topic n p ↔ t.isChild ∧ t.parent = p := by
  simp [ChildOf, ht]

theorem childOf_congr (h : topic' c = topic c) : ChildOf topic' c p ↔ ChildOf topic c p := by
  rw [ChildOf, ChildOf, h]

theorem stubIn_congr (h : topic' c = topic c) : stubIn topic' c = stubIn topic c := by
  rw [stubIn, stubIn, h]

/-- A topic that is no child has no parent. -/
theorem not_childOf_of_not_isChild (ht : topic n = some t) (hnot : ¬t.isChild) : ¬ChildOf topic n p :=
  fun hc => hnot ((childOf_iff ht).mp hc).1

/-- A record without children that nothing points to. -/
theorem Node.leaf (hname : t.name = n) (hne : n ≠ "") (hchildren : t.children = []) (hnot : ¬t.isParent)
    (hnone : ∀ c, ¬ChildOf topic c n) (hattached : t.isChild → ∃ p, topic t.parent = some p ∧ p.Covers t)
    (hstub : t.remote ≠ none → t.isChild) : Node topic n t where
  name := hname
  name_ne := hne
  listed c := by
    rw [hchildren]
    exact iff_of_false (by simp) (hnone c)
  once := by rw [hchildren]; exact nodup_nil
  isParent_iff := by rw [hchildren]; exact iff_of_false hnot (by simp)
  childLimit := by rw [hchildren]; exact Nat.zero_le _
  remoteLimit := by rw [hchildren]; exact Nat.zero_le _
  attached := hattached
  stub := hstub

/-- The targets stay apart when a stub was one before, with the same target. -/
theorem Forest.of_node (h : Forest topic) (hnode : ∀ {n t}, topic' n = some t → Node topic' n t)
    (hbefore : ∀ {n u}, topic' n = some u → u.isRemoteChild →
      ∃ v, topic n = some v ∧ v.isRemoteChild ∧ v.target = u.target) : Forest topic' where
  node := hnode
  target hu hv hru hrv heq := by
    obtain ⟨u, hu, hru, htu⟩ := hbefore hu hru
    obtain ⟨v, hv, hrv, htv⟩ := hbefore hv hrv
    exact h.target hu hv hru hrv (by rw [htu, htv, heq])

/-- A record keeps its place when what points to it, the stubs among that and the parent's cover stay. -/
theorem Node.congr (h : Node topic n t) (hchild : ∀ c, ChildOf topic' c n ↔ ChildOf topic c n)
    (hstub : ∀ c ∈ t.children, stubIn topic' c = stubIn topic c)
    (hattached : t.isChild → ∀ p, topic t.parent = some p → p.Covers t →
      ∃ p, topic' t.parent = some p ∧ p.Covers t) : Node topic' n t :=
  { h with
    listed c := (h.listed c).trans (hchild c).symm
    remoteLimit := by
      rw [countP_congr fun c hc => by rw [hstub c hc]]
      exact h.remoteLimit
    attached := by
      intro his
      obtain ⟨p, hp, hcovers⟩ := h.attached his
      exact hattached his p hp hcovers }

end

/-- A create payload without fan-out fields. -/
structure Topic.Plain (t : Topic) : Prop where
  role : t.role = .unset
  children : t.children = []
  parent : t.parent = ""
  fanoutDelayMs : t.fanoutDelayMs = 0
  remote : t.remote = none

instance (t : Topic) : Decidable t.Plain :=
  decidable_of_iff (t.role = .unset ∧ t.children = [] ∧ t.parent = "" ∧ t.fanoutDelayMs = 0 ∧ t.remote = none)
    ⟨fun h => ⟨h.1, h.2.1, h.2.2.1, h.2.2.2.1, h.2.2.2.2⟩,
      fun h => ⟨h.role, h.children, h.parent, h.fanoutDelayMs, h.remote⟩⟩

/-- The records agree on the incarnation and the links. -/
structure SameLink (a b : Topic) : Prop where
  name : b.name = a.name
  id : b.id = a.id
  role : b.role = a.role
  children : b.children = a.children
  parent : b.parent = a.parent
  fanoutDelayMs : b.fanoutDelayMs = a.fanoutDelayMs
  target : b.target = a.target

theorem Topic.Plain.not_isChild (h : t.Plain) : ¬t.isChild := by
  simp [isChild, effectiveRole, h.role]

theorem Topic.Plain.not_isParent (h : t.Plain) : ¬t.isParent := by
  simp [isParent, effectiveRole, h.role]

/-- What is left of a child when its parent goes. -/
def released (child : Topic) : Option Topic :=
  if child.isRemoteChild then none else some child.detached

open Function (update update_apply update_of_ne update_self)

/-- A topic that is no child can take the child, which is new or was standalone. -/
structure Linkable (topic : String → Option Topic) (parent child : Topic) : Prop where
  get : topic parent.name = some parent
  not_child : ¬parent.isChild
  ne : child.name ≠ parent.name
  name : child.name ≠ ""
  is : child.isChild
  parent_eq : child.parent = parent.name
  children : child.children = []
  old : ∀ u, topic child.name = some u → ¬u.isParent ∧ ¬u.isChild ∧ u.id = child.id
  limit : parent.children.length < maxChildrenPerParent
  covers : parent.Covers child
  remote : child.isRemoteChild → parent.children.countP (stubIn topic) < maxRemoteChildrenPerParent ∧
    ∀ n u, topic n = some u → u.isRemoteChild → u.target ≠ child.target

/-- The child is one of the parent's. -/
structure Linked (topic : String → Option Topic) (parent child : Topic) : Prop where
  get : topic parent.name = some parent
  get_child : topic child.name = some child
  is : child.isChild
  parent_eq : child.parent = parent.name

/-- A change of the topics that deletes none. -/
inductive Change (topic : String → Option Topic) : (String → Option Topic) → Prop where
  | create {t : Topic} (hfree : topic t.name = none) (hname : t.name ≠ "") (hplain : t.Plain) :
      Change topic (update topic t.name (some t))
  | config {current next : Topic} (hget : topic next.name = some current) (hsame : SameLink current next)
      (hcovers : ∀ c u, topic c = some u → u.isChild → u.parent = next.name → next.Covers u) :
      Change topic (update topic next.name (some next))
  | link {parent child : Topic} (hlink : Linkable topic parent child) :
      Change topic (update (update topic parent.name (some (parent.linked child.name))) child.name (some child))
  | detach {parent child : Topic} (hlinked : Linked topic parent child) (hlocal : child.remote = none) :
      Change topic (update (update topic parent.name (some (unlinkChild parent child.name)))
        child.name (some child.detached))

/-- A change of the topics that deletes some. -/
inductive Removal (topic : String → Option Topic) : (String → Option Topic) → Prop where
  | erase {t : Topic} (hget : topic t.name = some t) (hparent : ¬t.isParent) (hchild : ¬t.isChild) :
      Removal topic (update topic t.name none)
  | unlink {parent child : Topic} (hlinked : Linked topic parent child) :
      Removal topic (update (update topic parent.name (some (unlinkChild parent child.name))) child.name none)
  | dissolve {t : Topic} (hget : topic t.name = some t) (hparent : t.isParent) :
      Removal topic (update (fun n => if n ∈ t.children then (topic n).bind released else topic n) t.name none)

section

variable {topic topic' : String → Option Topic}

theorem update_pair_eq_some {m p n : String} {x y : Option Topic} {u : Topic}
    (h : update (update topic p x) m y n = some u) :
    n = m ∧ y = some u ∨ n = p ∧ x = some u ∨ (n ≠ m ∧ n ≠ p) ∧ topic n = some u := by
  rcases update_eq_some h with hm | ⟨hm, h⟩
  · exact .inl hm
  rcases update_eq_some h with hp | ⟨hp, h⟩
  · exact .inr (.inl hp)
  · exact .inr (.inr ⟨⟨hm, hp⟩, h⟩)

theorem Forest.create (h : Forest topic) (hfree : topic t.name = none) (hname : t.name ≠ "")
    (hplain : t.Plain) : Forest (update topic t.name (some t)) := by
  have hother : ∀ {n u}, topic n = some u → update topic t.name (some t) n = some u := by
    intro n u hu
    rw [update_of_ne, hu]
    rintro rfl
    rw [hfree] at hu
    cases hu
  have hchildOf : ∀ c p, ChildOf (update topic t.name (some t)) c p ↔ ChildOf topic c p := by
    intro c p
    by_cases hc : c = t.name
    · rw [hc, childOf_iff (update_self ..)]
      simp [hplain.not_isChild, ChildOf, hfree]
    · exact childOf_congr (update_of_ne hc ..)
  refine h.of_node ?_ ?_
  · intro n u hu
    rcases update_eq_some hu with ⟨rfl, hnew⟩ | ⟨-, hu⟩
    · cases hnew
      refine .leaf rfl hname hplain.children hplain.not_isParent (fun c => ?_) (absurd · hplain.not_isChild) (absurd hplain.remote ·)
      rw [hchildOf]
      refine h.not_childOf fun v hv => ?_
      rw [hfree] at hv
      cases hv
    · refine (h.node hu).congr (fun c => hchildOf c n) ?_ ?_
      · intro c hc
        obtain ⟨v, hv, -⟩ := ((h.node hu).listed c).mp hc
        rw [stubIn, stubIn, hv, hother hv]
      · intro _ p hp hcovers
        exact ⟨p, hother hp, hcovers⟩
  · intro n u hu his
    rcases update_eq_some hu with ⟨-, hnew⟩ | ⟨-, hu⟩
    · cases hnew
      exact absurd his.2 hplain.not_isChild
    · exact ⟨u, hu, his, rfl⟩

variable {a b : Topic}

theorem SameLink.isChild_iff (h : SameLink a b) : b.isChild ↔ a.isChild := by
  rw [isChild, isChild, effectiveRole, effectiveRole, h.role]

theorem SameLink.isParent_iff (h : SameLink a b) : b.isParent ↔ a.isParent := by
  rw [Topic.isParent, Topic.isParent, Topic.effectiveRole, Topic.effectiveRole, h.role]

theorem SameLink.remote_iff (h : SameLink a b) : b.remote ≠ none ↔ a.remote ≠ none := by
  have := h.target
  rw [Topic.target, Topic.target] at this
  cases ha : a.remote <;> cases hb : b.remote <;> simp_all

theorem SameLink.isRemoteChild_iff (h : SameLink a b) : b.isRemoteChild ↔ a.isRemoteChild :=
  and_congr h.remote_iff h.isChild_iff

theorem Topic.Covers.congr {parent parent' child child' : Topic} (h : parent.Covers child)
    (hretention : parent'.retentionMs = parent.retentionMs) (hdelay : child'.fanoutDelayMs = child.fanoutDelayMs)
    (hremote : child'.isRemoteChild → child.isRemoteChild) : parent'.Covers child' where
  delay := by rw [hretention, hdelay]; exact h.delay
  remote his := by rw [hretention]; exact h.remote (hremote his)

/-- No topic is its own parent. -/
theorem Forest.parent_ne (h : Forest topic) {n : String} (ht : topic n = some t) (his : t.isChild) : t.parent ≠ n := by
  intro heq
  obtain ⟨u, hu, hmem⟩ := h.parent_of_childOf ⟨t, ht, his, heq⟩
  cases hu.symm.trans ht
  exact not_isParent_of_isChild his ((h.node ht).isParent_iff.mpr (ne_nil_of_mem hmem))

theorem Forest.config {current next : Topic} (h : Forest topic) (hget : topic next.name = some current)
    (hsame : SameLink current next)
    (hcovers : ∀ c u, topic c = some u → u.isChild → u.parent = next.name → next.Covers u) :
    Forest (update topic next.name (some next)) := by
  have hnew : update topic next.name (some next) next.name = some next := update_self ..
  have hchildOf : ∀ c p, ChildOf (update topic next.name (some next)) c p ↔ ChildOf topic c p := by
    intro c p
    by_cases hc : c = next.name
    · rw [hc, childOf_iff hnew, childOf_iff hget, hsame.isChild_iff, hsame.parent]
    · exact childOf_congr (update_of_ne hc ..)
  have hstub : ∀ c, stubIn (update topic next.name (some next)) c = stubIn topic c := by
    intro c
    by_cases hc : c = next.name
    · subst hc
      rw [stubIn, stubIn, hnew, hget, any_some, any_some, decide_eq_decide]
      exact hsame.isRemoteChild_iff
    · exact stubIn_congr (update_of_ne hc ..)
  refine h.of_node ?_ ?_
  · intro n u hu
    rcases update_eq_some hu with ⟨rfl, hrec⟩ | ⟨hne, hu⟩
    · cases hrec
      have hold := h.node hget
      exact {
        name := rfl
        name_ne := hold.name_ne
        listed := fun c => by rw [hsame.children, hchildOf]; exact hold.listed c
        once := by rw [hsame.children]; exact hold.once
        isParent_iff := by rw [hsame.children, hsame.isParent_iff]; exact hold.isParent_iff
        childLimit := by rw [hsame.children]; exact hold.childLimit
        remoteLimit := by
          rw [hsame.children, countP_congr fun c _ => by rw [hstub c]]
          exact hold.remoteLimit
        attached := fun his => by
          have his := hsame.isChild_iff.mp his
          obtain ⟨p, hp, hcov⟩ := hold.attached his
          refine ⟨p, ?_, hcov.congr rfl hsame.fanoutDelayMs hsame.isRemoteChild_iff.mp⟩
          rw [hsame.parent, update_of_ne (h.parent_ne hget his), hp]
        stub := fun hremote => hsame.isChild_iff.mpr (hold.stub (hsame.remote_iff.mp hremote)) }
    · refine (h.node hu).congr (fun c => hchildOf c n) (fun c _ => hstub c) ?_
      intro his p hp hcov
      by_cases hparent : u.parent = next.name
      · exact ⟨next, by rw [hparent, hnew], hcovers n u hu his hparent⟩
      · exact ⟨p, by rw [update_of_ne hparent, hp], hcov⟩
  · intro n u hu his
    rcases update_eq_some hu with ⟨rfl, hrec⟩ | ⟨-, hu⟩
    · cases hrec
      exact ⟨current, hget, hsame.isRemoteChild_iff.mp his, hsame.target.symm⟩
    · exact ⟨u, hu, his, rfl⟩

theorem Topic.linked_isParent (parent : Topic) (child : String) : (parent.linked child).isParent := rfl

theorem Topic.not_isChild_of_isParent (h : t.isParent) : ¬t.isChild :=
  fun hc => not_isParent_of_isChild hc h

variable {parent child : Topic}

theorem Forest.link (h : Forest topic) (hlink : Linkable topic parent child) :
    Forest (update (update topic parent.name (some (parent.linked child.name))) child.name (some child)) := by
  obtain ⟨hget, hnot, hne, hname, hchild, hparent, hchildren, hold, hlimit, hcovers, hremote⟩ := hlink
  set topic' := update (update topic parent.name (some (parent.linked child.name))) child.name (some child)
    with htopic'
  have hnewChild : topic' child.name = some child := update_self ..
  have hnewParent : topic' parent.name = some (parent.linked child.name) := by
    rw [htopic', update_of_ne hne.symm, update_self]
  have hother : ∀ {n}, n ≠ child.name → n ≠ parent.name → topic' n = topic n := by
    intro n hc hp
    rw [htopic', update_of_ne hc, update_of_ne hp]
  have hnoneBelow : ∀ c, ¬ChildOf topic c child.name := fun c => h.not_childOf fun u hu => (hold u hu).1
  have hchildFree : ∀ p, ¬ChildOf topic child.name p := by
    rintro p ⟨u, hu, his, -⟩
    exact (hold u hu).2.1 his
  have hparentFree : ∀ p, ¬ChildOf topic parent.name p := fun p => not_childOf_of_not_isChild hget hnot
  have hnotLinked : ¬(parent.linked child.name).isChild := not_isChild_of_isParent (parent.linked_isParent _)
  have hchildOf : ∀ c p, ChildOf topic' c p ↔ ChildOf topic c p ∨ c = child.name ∧ p = parent.name := by
    intro c p
    by_cases hc : c = child.name
    · rw [hc, childOf_iff hnewChild]
      simp [hchildFree, hchild, hparent, eq_comm]
    by_cases hp : c = parent.name
    · rw [hp, childOf_iff hnewParent]
      simp [hparentFree, hne.symm, hnotLinked]
    · rw [childOf_congr (hother hc hp)]
      simp [hc]
  have hstub : ∀ {n u}, topic n = some u → ∀ c ∈ u.children, stubIn topic' c = stubIn topic c := by
    intro n u hu c hc
    have hc := ((h.node hu).listed c).mp hc
    have hnc : c ≠ child.name := fun heq => hchildFree n (heq ▸ hc)
    have hnp : c ≠ parent.name := fun heq => hparentFree n (heq ▸ hc)
    exact stubIn_congr (hother hnc hnp)
  refine ⟨?_, ?_⟩
  · intro n u hu
    rcases update_pair_eq_some hu with ⟨rfl, ⟨⟩⟩ | ⟨rfl, ⟨⟩⟩ | ⟨⟨hnc, hnp⟩, hu⟩
    · refine .leaf rfl hname hchildren (not_isParent_of_isChild hchild) (fun c => ?_)
        (fun _ => ⟨parent.linked _, by rw [hparent, hnewParent], hcovers.congr rfl rfl id⟩) fun _ => hchild
      rw [hchildOf]
      rintro (hc | ⟨-, heq⟩)
      · exact hnoneBelow c hc
      · exact hne heq
    · have hnode := h.node hget
      have hunlisted : child.name ∉ parent.children := fun hmem => hchildFree _ ((hnode.listed _).mp hmem)
      exact {
        name := rfl
        name_ne := hnode.name_ne
        listed := fun c => by
          rw [hchildOf, linked, mem_append, mem_singleton, hnode.listed]
          simp
        once := by
          rw [linked]
          exact nodup_append.mpr ⟨hnode.once, nodup_singleton _, by
            intro a ha b hb
            rw [mem_singleton] at hb
            rintro rfl
            exact hunlisted (hb ▸ ha)⟩
        isParent_iff := iff_of_true (parent.linked_isParent _) (by simp [linked])
        childLimit := by
          rw [linked, length_append, length_singleton]
          omega
        remoteLimit := by
          rw [linked, countP_append, countP_singleton, countP_congr fun c hc => by rw [hstub hget c hc]]
          have hlimit := hnode.remoteLimit
          split
          next hstubbed =>
            rw [stubIn, hnewChild, any_some, decide_eq_true_eq] at hstubbed
            have := (hremote hstubbed).1
            omega
          · omega
        attached := fun his => absurd his hnotLinked
        stub := fun hr => absurd (hnode.stub hr) hnot }
    · refine (h.node hu).congr (fun c => ?_) (hstub hu) ?_
      · rw [hchildOf]
        exact ⟨fun hc => hc.elim id fun heq => absurd heq.2 hnp, .inl⟩
      · intro his p hp hcov
        by_cases hpp : u.parent = parent.name
        · rw [hpp] at hp
          cases hp.symm.trans hget
          exact ⟨linked _ _, by rw [hpp, hnewParent], hcov.congr rfl rfl id⟩
        · have hpc : u.parent ≠ child.name := fun heq => hnoneBelow n ⟨u, hu, his, heq⟩
          exact ⟨p, by rw [hother hpc hpp, hp], hcov⟩
  · intro a b u v hu hv hru hrv heq
    rcases update_pair_eq_some hu with ⟨rfl, ⟨⟩⟩ | ⟨rfl, ⟨⟩⟩ | ⟨-, hu'⟩
    · rcases update_pair_eq_some hv with ⟨rfl, ⟨⟩⟩ | ⟨rfl, ⟨⟩⟩ | ⟨-, hv⟩
      · rfl
      · exact absurd hrv.2 hnotLinked
      · exact absurd heq.symm ((hremote hru).2 b v hv hrv)
    · exact absurd hru.2 hnotLinked
    · rcases update_pair_eq_some hv with ⟨rfl, ⟨⟩⟩ | ⟨rfl, ⟨⟩⟩ | ⟨-, hv'⟩
      · exact absurd heq ((hremote hrv).2 a u hu' hru)
      · exact absurd hrv.2 hnotLinked
      · exact h.target hu' hv' hru hrv heq

theorem unlinkChild_children (parent : Topic) (child : String) :
    (unlinkChild parent child).children = parent.children.filter (· ≠ child) := by
  unfold unlinkChild
  dsimp only
  split
  next hnil => exact hnil.symm
  · rfl

theorem unlinkChild_not_isChild {parent : Topic} (child : String) (h : parent.isParent) :
    ¬(unlinkChild parent child).isChild := by
  unfold unlinkChild
  dsimp only
  split
  · exact not_isChild_of_standalone rfl
  · exact not_isChild_of_isParent h

theorem unlinkChild_same (parent : Topic) (child : String) :
    (unlinkChild parent child).name = parent.name ∧ (unlinkChild parent child).id = parent.id ∧
      (unlinkChild parent child).retentionMs = parent.retentionMs ∧
      (unlinkChild parent child).remote = parent.remote := by
  unfold unlinkChild
  dsimp only
  split <;> exact ⟨rfl, rfl, rfl, rfl⟩

theorem Topic.detached_not_isChild (t : Topic) : ¬t.detached.isChild :=
  not_isChild_of_standalone rfl

/-- A child that was let go stands alone. -/
theorem node_detached {n : String} {child : Topic} (h : Node topic n child) (his : child.isChild)
    (hlocal : child.remote = none) (hnone : ∀ c, ¬ChildOf topic' c n) : Node topic' n child.detached := by
  have hchildren : child.detached.children = [] := h.children_eq_nil (not_isParent_of_isChild his)
  exact .leaf h.name h.name_ne hchildren (not_isParent_of_standalone rfl) hnone
    (absurd · child.detached_not_isChild) (absurd hlocal ·)

section

variable (h : Forest topic)
include h

theorem Forest.unlink (hlinked : Linked topic parent child) {rest : Option Topic}
    (hrest : rest = none ∨ rest = some child.detached ∧ child.remote = none) :
    Forest (update (update topic parent.name (some (unlinkChild parent child.name))) child.name rest) := by
  set topic' := update (update topic parent.name (some (unlinkChild parent child.name))) child.name rest with htopic'
  obtain ⟨hget, hchild, his, hparent⟩ := hlinked
  have hne : child.name ≠ parent.name := fun heq => h.parent_ne hchild his (hparent.trans heq.symm)
  have hmem : child.name ∈ parent.children := ((h.node hget).listed _).mpr ⟨child, hchild, his, hparent⟩
  have hisParent : parent.isParent := (h.node hget).isParent_iff.mpr (ne_nil_of_mem hmem)
  have hnewParent : topic' parent.name = some (unlinkChild parent child.name) := by
    rw [htopic', update_of_ne hne.symm, update_self]
  have hother : ∀ {n}, n ≠ child.name → n ≠ parent.name → topic' n = topic n := by
    intro n hc hp
    rw [htopic', update_of_ne hc, update_of_ne hp]
  have hcases : ∀ {n u}, topic' n = some u → n = child.name ∧ u = child.detached ∧ child.remote = none ∨
      n = parent.name ∧ u = unlinkChild parent child.name ∨
      (n ≠ child.name ∧ n ≠ parent.name) ∧ topic n = some u := by
    intro n u hu
    rcases update_pair_eq_some hu with ⟨hc, hnew⟩ | ⟨hp, hnew⟩ | hold
    · rcases hrest with rfl | ⟨rfl, hlocal⟩ <;> cases hnew
      exact .inl ⟨hc, rfl, hlocal⟩
    · cases hnew
      exact .inr (.inl ⟨hp, rfl⟩)
    · exact .inr (.inr hold)
  have hnoneBelow : ∀ c, ¬ChildOf topic c child.name := fun c => h.not_childOf fun u hu => by
    cases hu.symm.trans hchild
    exact not_isParent_of_isChild his
  have hparentFree : ∀ p, ¬ChildOf topic parent.name p :=
    fun p => not_childOf_of_not_isChild hget (not_isChild_of_isParent hisParent)
  have hchildOf : ∀ c p, ChildOf topic' c p ↔ ChildOf topic c p ∧ c ≠ child.name := by
    intro c p
    constructor
    · rintro ⟨u, hu, hc, hp⟩
      rcases hcases hu with ⟨-, rfl, -⟩ | ⟨-, rfl⟩ | ⟨⟨hnc, -⟩, hu⟩
      · exact absurd hc child.detached_not_isChild
      · exact absurd hc (unlinkChild_not_isChild child.name hisParent)
      · exact ⟨⟨u, hu, hc, hp⟩, hnc⟩
    · rintro ⟨hc, hnc⟩
      have hnp : c ≠ parent.name := fun heq => hparentFree p (heq ▸ hc)
      exact (childOf_congr (hother hnc hnp)).mpr hc
  have hstub : ∀ {n u}, topic n = some u → ∀ c ∈ u.children, c ≠ child.name →
      stubIn topic' c = stubIn topic c := by
    intro n u hu c hc hnc
    have hnp : c ≠ parent.name := fun heq => hparentFree n (heq ▸ ((h.node hu).listed c).mp hc)
    exact stubIn_congr (hother hnc hnp)
  refine h.of_node ?_ ?_
  · intro n u hu
    rcases hcases hu with ⟨rfl, rfl, hlocal⟩ | ⟨rfl, rfl⟩ | ⟨⟨hnc, hnp⟩, hu⟩
    · exact node_detached (h.node hchild) his hlocal fun c hc => hnoneBelow c ((hchildOf c _).mp hc).1
    · have hnode := h.node hget
      obtain ⟨hname, -, hretention, hremote⟩ := unlinkChild_same parent child.name
      exact {
        name := hname
        name_ne := hnode.name_ne
        listed := fun c => by
          rw [hchildOf, unlinkChild_children, mem_filter, hnode.listed, decide_eq_true_eq]
        once := by rw [unlinkChild_children]; exact hnode.once.filter _
        isParent_iff := by
          unfold unlinkChild
          dsimp only
          split
          · exact iff_of_false (Topic.not_isParent_of_standalone rfl) (by simp)
          next hne => exact iff_of_true hisParent hne
        childLimit := by
          rw [unlinkChild_children]
          exact (length_filter_le _ _).trans hnode.childLimit
        remoteLimit := by
          have hcount : (parent.children.filter (· ≠ child.name)).countP (stubIn topic') =
              (parent.children.filter (· ≠ child.name)).countP (stubIn topic) := by
            refine countP_congr fun c hc => ?_
            rw [mem_filter, decide_eq_true_eq] at hc
            rw [hstub hget c hc.1 hc.2]
          rw [unlinkChild_children, hcount]
          exact (filter_sublist.countP_le).trans hnode.remoteLimit
        attached := fun hc => absurd hc (unlinkChild_not_isChild child.name hisParent)
        stub := fun hr => absurd (hnode.stub (hremote ▸ hr)) (not_isChild_of_isParent hisParent) }
    · have hnotChild : ∀ c, ChildOf topic c n → c ≠ child.name := by
        rintro c hc rfl
        exact hnp (hc.unique ⟨child, hchild, his, hparent⟩)
      refine (h.node hu).congr (fun c => ?_) ?_ ?_
      · rw [hchildOf]
        exact ⟨fun hc => hc.1, fun hc => ⟨hc, hnotChild c hc⟩⟩
      · intro c hc
        exact hstub hu c hc (hnotChild c (((h.node hu).listed c).mp hc))
      · intro hc p hp hcov
        by_cases hpp : u.parent = parent.name
        · rw [hpp] at hp
          cases hp.symm.trans hget
          exact ⟨unlinkChild _ child.name, by rw [hpp, hnewParent],
            hcov.congr (unlinkChild_same _ child.name).2.2.1 rfl id⟩
        · have hpc : u.parent ≠ child.name := fun heq => hnoneBelow n ⟨u, hu, hc, heq⟩
          exact ⟨p, by rw [hother hpc hpp, hp], hcov⟩
  · intro n u hu hr
    rcases hcases hu with ⟨-, rfl, -⟩ | ⟨-, rfl⟩ | ⟨-, hu⟩
    · exact absurd hr.2 child.detached_not_isChild
    · exact absurd hr.2 (unlinkChild_not_isChild child.name hisParent)
    · exact ⟨u, hu, hr, rfl⟩

theorem Forest.erase (hget : topic t.name = some t) (hparent : ¬t.isParent)
    (hchild : ¬t.isChild) : Forest (update topic t.name none) := by
  have hcases : ∀ {n u}, update topic t.name none n = some u → n ≠ t.name ∧ topic n = some u := by
    intro n u hu
    rcases update_eq_some hu with ⟨-, hnone⟩ | hu
    · cases hnone
    · exact hu
  have hchildOf : ∀ c p, ChildOf (update topic t.name none) c p ↔ ChildOf topic c p := by
    intro c p
    by_cases hc : c = t.name
    · rw [hc, childOf_iff hget]
      simp [hchild, ChildOf]
    · exact childOf_congr (update_of_ne hc ..)
  refine h.of_node ?_ fun {n u} hu hr => ⟨u, (hcases hu).2, hr, rfl⟩
  · intro n u hu
    obtain ⟨-, hu⟩ := hcases hu
    refine (h.node hu).congr (fun c => hchildOf c n) ?_ ?_
    · intro c hc
      refine stubIn_congr (update_of_ne ?_ ..)
      rintro rfl
      exact not_childOf_of_not_isChild hget hchild (((h.node hu).listed _).mp hc)
    · intro his p hp hcov
      refine ⟨p, ?_, hcov⟩
      rw [update_of_ne, hp]
      intro heq
      refine h.not_childOf (c := n) (fun v hv => ?_) ⟨u, hu, his, heq⟩
      cases hv.symm.trans hget
      exact hparent

theorem Forest.dissolve (hget : topic t.name = some t) (hparent : t.isParent) :
    Forest (update (fun n => if n ∈ t.children then (topic n).bind released else topic n) t.name none) := by
  set topic' := update (fun n => if n ∈ t.children then (topic n).bind released else topic n) t.name none
    with htopic'
  have hlisted : ∀ c, c ∈ t.children ↔ ChildOf topic c t.name := (h.node hget).listed
  have hself : topic' t.name = none := update_self ..
  have hother : ∀ {n}, n ≠ t.name → n ∉ t.children → topic' n = topic n := by
    intro n hn hc
    rw [htopic', update_of_ne hn]
    exact if_neg hc
  have hcases : ∀ {n u}, topic' n = some u →
      (∃ child, topic n = some child ∧ child.isChild ∧ child.remote = none ∧ u = child.detached) ∨
      (n ≠ t.name ∧ n ∉ t.children) ∧ topic n = some u := by
    intro n u hu
    rcases update_eq_some hu with ⟨-, hnone⟩ | ⟨hne, hu⟩
    · cases hnone
    split at hu
    next hc =>
      obtain ⟨child, hchild, his, -⟩ := (hlisted n).mp hc
      rw [hchild, bind_some, released] at hu
      split at hu <;> cases hu
      next hlocal =>
        refine .inl ⟨child, hchild, his, ?_, rfl⟩
        by_contra hremote
        exact hlocal ⟨hremote, his⟩
    next hc => exact .inr ⟨⟨hne, hc⟩, hu⟩
  have hfree : ∀ p, ¬ChildOf topic t.name p :=
    fun p => not_childOf_of_not_isChild hget (not_isChild_of_isParent hparent)
  have hchildOf : ∀ c p, ChildOf topic' c p ↔ ChildOf topic c p ∧ p ≠ t.name := by
    intro c p
    constructor
    · rintro ⟨u, hu, his, hp⟩
      rcases hcases hu with ⟨child, -, -, -, rfl⟩ | ⟨⟨-, hc⟩, hu⟩
      · exact absurd his child.detached_not_isChild
      refine ⟨⟨u, hu, his, hp⟩, ?_⟩
      rintro rfl
      exact hc ((hlisted c).mpr ⟨u, hu, his, hp⟩)
    · rintro ⟨hc, hp⟩
      have hnot : c ∉ t.children := fun hmem => hp (hc.unique ((hlisted c).mp hmem))
      have hne : c ≠ t.name := fun heq => hfree p (heq ▸ hc)
      exact (childOf_congr (hother hne hnot)).mpr hc
  refine h.of_node ?_ ?_
  · intro n u hu
    rcases hcases hu with ⟨child, hchild, his, hlocal, rfl⟩ | ⟨⟨hne, hnot⟩, hu⟩
    · refine node_detached (h.node hchild) his hlocal fun c hc => ?_
      refine h.not_childOf (c := c) (fun v hv => ?_) ((hchildOf c n).mp hc).1
      cases hv.symm.trans hchild
      exact not_isParent_of_isChild his
    refine (h.node hu).congr (fun c => ?_) ?_ ?_
    · rw [hchildOf]
      exact ⟨fun hc => hc.1, fun hc => ⟨hc, hne⟩⟩
    · intro c hc
      have hc := ((h.node hu).listed c).mp hc
      rw [stubIn, stubIn, hother]
      · rintro rfl
        exact hfree n hc
      · intro hmem
        exact hne (hc.unique ((hlisted c).mp hmem))
    · intro his p hp hcov
      refine ⟨p, ?_, hcov⟩
      have hpt : u.parent ≠ t.name := fun heq => hnot ((hlisted n).mpr ⟨u, hu, his, heq⟩)
      rw [hother hpt, hp]
      intro hmem
      obtain ⟨v, hv, hvis, -⟩ := (hlisted _).mp hmem
      refine h.not_childOf (c := n) (fun w hw => ?_) ⟨u, hu, his, rfl⟩
      cases hw.symm.trans hv
      exact not_isParent_of_isChild hvis
  · intro n u hu hr
    rcases hcases hu with ⟨child, -, -, -, rfl⟩ | ⟨-, hu⟩
    · exact absurd hr.2 child.detached_not_isChild
    · exact ⟨u, hu, hr, rfl⟩

theorem Forest.change (hc : Change topic topic') : Forest topic' := by
  cases hc with
  | create hfree hname hplain => exact h.create hfree hname hplain
  | config hget hsame hcovers => exact h.config hget hsame hcovers
  | link hlink => exact h.link hlink
  | detach hlinked hlocal => exact h.unlink hlinked (.inr ⟨rfl, hlocal⟩)

theorem Forest.removal (hr : Removal topic topic') : Forest topic' := by
  cases hr with
  | erase hget hparent hchild => exact h.erase hget hparent hchild
  | unlink hlinked => exact h.unlink hlinked (.inl rfl)
  | dissolve hget hparent => exact h.dissolve hget hparent

end

end

end Narad.Metastore
