import FastKV.RTreeSplit

/-!
# The shape of the R-tree

In every tree that insertions and deletions build, no node has more than nine entries, and the
rectangle beside a child covers all rectangles below it, however far below. An insertion that
comes to its end adds its entry to those of the leaves. None of this depends on the arithmetic.
-/

namespace FastKV.RTree

open Lib

variable {α β : Type} {n : ℕ}

/-! ## Contents and shape -/

/-- The leaf entries below the entries of a node. -/
def entriesIn (entries : β → List (LeafEntry α n)) (es : List (REntry α n β)) :
    List (LeafEntry α n) := es.flatMap fun e => entries e.item

/-- The rectangles of the entries of a node and of all nodes below. -/
def rectsIn (rects : β → List (Rect α n)) (es : List (REntry α n β)) : List (Rect α n) :=
  es.flatMap fun e => e.rect :: rects e.item

/-- The entries of the leaves, from left to right. -/
def RNode.entries : (h : ℕ) → RNode α n h → List (LeafEntry α n)
  | 0, es => es
  | h + 1, es => entriesIn (RNode.entries h) es

/-- The rectangles of a node and of all nodes below. -/
def RNode.rects : (h : ℕ) → RNode α n h → List (Rect α n)
  | 0, es => rectsIn (fun _ => []) es
  | h + 1, es => rectsIn (RNode.rects h) es

/-- The rectangles of the leaf entries at and below a node. -/
def RNode.entryRects (h : ℕ) (node : RNode α n h) : List (Rect α n) :=
  (RNode.entries h node).map fun e => e.rect

/-- A leaf entry contributes its rectangle. -/
theorem RNode.rect_mem_rects (h : ℕ) : ∀ {node : RNode α n h} {e : LeafEntry α n},
    e ∈ RNode.entries h node → e.rect ∈ RNode.rects h node := by
  induction h with
  | zero =>
    intro node e he
    exact List.mem_flatMap.mpr ⟨e, he, List.mem_cons_self⟩
  | succ h ih =>
    intro node e he
    obtain ⟨c, hc, hmem⟩ := List.mem_flatMap.mp he
    exact List.mem_flatMap.mpr ⟨c, hc, List.mem_cons_of_mem _ (ih hmem)⟩

/-- The entries below a node, those of one child first. -/
theorem entriesIn_getElem (entries : β → List (LeafEntry α n)) {es : List (REntry α n β)} {i : ℕ}
    (hi : i < es.length) :
    (entries es[i].item ++ entriesIn entries (es.eraseIdx i)).Perm (entriesIn entries es) :=
  (List.getElem_cons_eraseIdx_perm hi).flatMap_right fun c : REntry α n β => entries c.item

/-- The entries below a node in which one child is replaced. -/
theorem entriesIn_set (entries : β → List (LeafEntry α n)) {es : List (REntry α n β)} {i : ℕ}
    (hi : i < es.length) (e : REntry α n β) :
    (entriesIn entries (es.set i e)).Perm
      (entries e.item ++ entriesIn entries (es.eraseIdx i)) :=
  (List.set_perm_cons_eraseIdx hi e).flatMap_right fun c : REntry α n β => entries c.item

/-- The entries below a root with two children. -/
theorem entries_root {h : ℕ} (a b : REntry α n (RNode α n h)) :
    entriesIn (RNode.entries h) [a, b] = RNode.entries h a.item ++ RNode.entries h b.item := by
  rw [entriesIn, List.flatMap_cons, List.flatMap_singleton]

/-- All entries that an insertion leaves in a node and in the node split off. -/
def Grown.all (g : Grown α n (List β)) : List β := g.node ++ g.right.getD []

/-- All leaf entries below an insertion, those of a node that was split off last. -/
theorem entriesIn_all (entries : β → List (LeafEntry α n)) (g : Grown α n (List (REntry α n β))) :
    entriesIn entries g.node ++ (g.right.map (entriesIn entries)).getD [] =
      g.all.flatMap fun e => entries e.item := by
  rw [Grown.all, List.flatMap_append]
  cases g.right with
  | none => rfl
  | some r => rfl

variable [LinearOrder α]

/-- A child entry whose rectangle covers everything below and whose child is in shape. -/
structure Tight (rects : β → List (Rect α n)) (wf : β → Prop) (e : REntry α n β) : Prop where
  /-- The rectangle covers all rectangles below. -/
  covers : ∀ r ∈ rects e.item, e.rect.Covers r
  /-- The child is in shape. -/
  child : wf e.item

/-- A node above the leaves has between one and nine entries, all of them tight. -/
structure Inner (rects : β → List (Rect α n)) (wf : β → Prop) (es : List (REntry α n β)) :
    Prop where
  /-- There is an entry. -/
  pos : 0 < es.length
  /-- There are not too many. -/
  le : es.length ≤ rtMax
  /-- The rectangles are right. -/
  tight : ∀ e ∈ es, Tight rects wf e

/-- A leaf has at most nine entries. -/
structure LeafFits (es : List (LeafEntry α n)) : Prop where
  /-- There are not too many. -/
  le : es.length ≤ rtMax

/-- A node and everything below it are in shape. -/
def RNode.WF : (h : ℕ) → RNode α n h → Prop
  | 0, es => LeafFits es
  | h + 1, es => Inner (RNode.rects h) (RNode.WF h) es

/-- A node and everything below it have the right sizes, and the rectangle beside a child covers
all that a given function finds below it. -/
def RNode.ShapedBy (rects : (h : ℕ) → RNode α n h → List (Rect α n)) :
    (h : ℕ) → RNode α n h → Prop
  | 0, es => LeafFits es
  | h + 1, es => Inner (rects h) (RNode.ShapedBy rects h) es

/-- A node is in shape if the rectangles cover all rectangles below. -/
theorem RNode.wf_eq (h : ℕ) : RNode.WF h = RNode.ShapedBy (α := α) (n := n) RNode.rects h := by
  induction h with
  | zero => rfl
  | succ h ih =>
    funext es
    change Inner (RNode.rects h) (RNode.WF h) es = Inner (RNode.rects h) _ es
    rw [ih]

/-- Fewer rectangles may be asked for. -/
theorem RNode.ShapedBy.mono {rects rects' : (h : ℕ) → RNode α n h → List (Rect α n)}
    (hrects : ∀ h node, rects' h node ⊆ rects h node) : ∀ {h : ℕ} {node : RNode α n h},
      RNode.ShapedBy rects h node → RNode.ShapedBy rects' h node := by
  intro h
  induction h with
  | zero => exact fun hnode => hnode
  | succ h ih =>
    intro node hnode
    refine ⟨hnode.pos, hnode.le, fun e he => ?_⟩
    obtain ⟨hcovers, hchild⟩ := hnode.tight e he
    exact ⟨fun r hr => hcovers r (hrects h e.item hr), ih hchild⟩

/-- Window queries come to every leaf entry: the rectangle beside a child covers the entries
below it. -/
abbrev RNode.Reach : (h : ℕ) → RNode α n h → Prop := RNode.ShapedBy RNode.entryRects

/-- Window queries come to every leaf entry of a node in shape. -/
theorem RNode.WF.reach {h : ℕ} {node : RNode α n h} (hnode : RNode.WF h node) :
    RNode.Reach h node := by
  rw [RNode.wf_eq] at hnode
  refine hnode.mono fun h node r hr => ?_
  obtain ⟨e, he, rfl⟩ := List.mem_map.mp hr
  exact RNode.rect_mem_rects h he

/-- The entries stored in a tree. -/
def Tree.entries (t : Tree α n) : List (LeafEntry α n) := RNode.entries t.height t.root

/-- The shape of a tree. -/
def Tree.WF (t : Tree α n) : Prop := RNode.WF t.height t.root

/-- The entry of a leaf that a tight rectangle stands for lies inside it. -/
theorem Tight.covers_entry {h : ℕ} {e : REntry α n (RNode α n h)} {wf : RNode α n h → Prop}
    (he : Tight (RNode.rects h) wf e) {x : LeafEntry α n} (hx : x ∈ RNode.entries h e.item) :
    e.rect.Covers x.rect := he.covers x.rect (RNode.rect_mem_rects h hx)

/-- One entry is replaced. -/
theorem Inner.set {rects : β → List (Rect α n)} {wf : β → Prop} {es : List (REntry α n β)}
    (hes : Inner rects wf es) (i : ℕ) {c : REntry α n β} (hc : Tight rects wf c) :
    Inner rects wf (es.set i c) := by
  have hlen : (es.set i c).length = es.length := List.length_set
  refine ⟨hlen ▸ hes.pos, hlen ▸ hes.le, fun e he => ?_⟩
  rcases List.mem_or_eq_of_mem_set he with he | rfl
  · exact hes.tight e he
  · exact hc

/-! ## Bounding rectangles -/

/-- An enlarged rectangle covers both. -/
theorem rectExpand_covers (dst src : Rect α n) :
    (rectExpand dst src).Covers dst ∧ (rectExpand dst src).Covers src := by
  constructor
  · intro i
    constructor
    · change (if src.min i < dst.min i then src.min i else dst.min i) ≤ dst.min i
      split
      · exact le_of_lt ‹_›
      · exact le_refl _
    · change dst.max i ≤ (if dst.max i < src.max i then src.max i else dst.max i)
      split
      · exact le_of_lt ‹_›
      · exact le_refl _
  · intro i
    constructor
    · change (if src.min i < dst.min i then src.min i else dst.min i) ≤ src.min i
      split
      · exact le_refl _
      · exact not_lt.mp ‹_›
    · change src.max i ≤ (if dst.max i < src.max i then src.max i else dst.max i)
      split
      · exact le_refl _
      · exact not_lt.mp ‹_›

variable [Doubles α]

/-- The rectangle of a node covers those of its entries. -/
theorem nodeRecomputeMbr_covers {es : List (REntry α n β)} {e : REntry α n β} (he : e ∈ es) :
    (nodeRecomputeMbr es).Covers e.rect := by
  have hfold : ∀ (es : List (REntry α n β)) (r : Rect α n),
      (es.foldl (fun r e => rectExpand r e.rect) r).Covers r ∧
        ∀ e ∈ es, (es.foldl (fun r e => rectExpand r e.rect) r).Covers e.rect := by
    intro es
    induction es with
    | nil => exact fun r => ⟨fun i => ⟨le_refl _, le_refl _⟩, fun _ h => absurd h List.not_mem_nil⟩
    | cons c es ih =>
      intro r
      obtain ⟨hr, hes⟩ := ih (rectExpand r c.rect)
      obtain ⟨hdst, hsrc⟩ := rectExpand_covers r c.rect
      rw [List.foldl_cons]
      refine ⟨hr.trans hdst, fun e he => ?_⟩
      rcases List.mem_cons.mp he with rfl | he
      · exact hr.trans hsrc
      · exact hes e he
  exact (hfold es _).2 e he

/-- What a function finds below a node is covered by the rectangle of the node. -/
def Bounded (rects : (h : ℕ) → RNode α n h → List (Rect α n)) : Prop :=
  ∀ (h : ℕ) (node : RNode α n h), RNode.ShapedBy rects h node →
    ∀ r ∈ rects h node, (RNode.mbr h node).Covers r

/-- The rectangle of a node covers all rectangles in it and below. -/
theorem bounded_rects : Bounded (α := α) (n := n) RNode.rects := by
  intro h
  cases h with
  | zero =>
    intro node _ r hr
    obtain ⟨e, he, hmem⟩ := List.mem_flatMap.mp hr
    rw [List.mem_singleton.mp hmem]
    exact nodeRecomputeMbr_covers he
  | succ h =>
    intro node hwf r hr
    obtain ⟨e, he, hmem⟩ := List.mem_flatMap.mp hr
    have hcover : (nodeRecomputeMbr _).Covers e.rect := nodeRecomputeMbr_covers he
    rcases List.mem_cons.mp hmem with rfl | hmem
    · exact hcover
    · exact hcover.trans ((hwf.tight e he).covers r hmem)

section Shaped

variable {rects : (h : ℕ) → RNode α n h → List (Rect α n)}

/-- An entry with the rectangle of its child is tight. -/
theorem Bounded.tight (hrects : Bounded rects) {h : ℕ} {node : RNode α n h}
    (hnode : RNode.ShapedBy rects h node) :
    Tight (rects h) (RNode.ShapedBy rects h) ⟨RNode.mbr h node, node⟩ :=
  ⟨hrects h node hnode, hnode⟩

/-- A root above two nodes. -/
theorem Bounded.root (hrects : Bounded rects) {h : ℕ} {left right : RNode α n h}
    (hleft : RNode.ShapedBy rects h left) (hright : RNode.ShapedBy rects h right) :
    Inner (rects h) (RNode.ShapedBy rects h)
      [⟨RNode.mbr h left, left⟩, ⟨RNode.mbr h right, right⟩] := by
  refine ⟨Nat.succ_pos _, (by decide : 2 ≤ rtMax), fun e he => ?_⟩
  rcases List.mem_cons.mp he with rfl | he
  · exact hrects.tight hleft
  · rw [List.mem_singleton.mp he]
    exact hrects.tight hright

end Shaped

/-! ## Insertion -/

/-- An insertion into a node above the leaves. -/
theorem insertRec_internal (e : LeafEntry α n) {h : ℕ} (es : List (REntry α n (RNode α n h))) :
    insertRec e (h + 1) es = insertInternal (insertRec e h) (RNode.mbr h) es e.rect := rfl

/-- An insertion into a node above the leaves goes on in the chosen child. -/
theorem insertRec_succ (e : LeafEntry α n) {h : ℕ} {es : List (REntry α n (RNode α n h))}
    (hci : chooseChild es e.rect < es.length) :
    insertRec e (h + 1) es = (insertRec e h es[chooseChild es e.rect].item).bind
      (absorb (RNode.mbr h) es (chooseChild es e.rect)) := by
  rw [insertRec_internal, insertInternal, List.getElem?_eq_getElem hci]

/-- A child that was changed and not split. -/
theorem absorb_of_none {mbr : β → Rect α n} {es : List (REntry α n β)} {ci : ℕ}
    {child : Grown α n β} (h : child.right = none) :
    absorb mbr es ci child = some ⟨es.set ci ⟨child.leftEntry, child.node⟩,
      nodeRecomputeMbr (es.set ci ⟨child.leftEntry, child.node⟩), none⟩ := by
  simp only [absorb, h]

/-- A child that was split. -/
theorem absorb_of_some {mbr : β → Rect α n} {es : List (REntry α n β)} {ci : ℕ}
    {child : Grown α n β} {right : β} (h : child.right = some right) :
    absorb mbr es ci child =
      addEntry (es.set ci ⟨child.leftEntry, child.node⟩) ⟨mbr right, right⟩ := by
  simp only [absorb, h]

/-- What an entry that is taken into a node does. -/
structure Grown.Adds (g : Grown α n (List (REntry α n β))) (es : List (REntry α n β))
    (e : REntry α n β) : Prop where
  /-- No entry is lost or duplicated. -/
  all : g.all.Perm (es ++ [e])
  /-- The rectangle is that of the node. -/
  leftEntry : g.leftEntry = nodeRecomputeMbr g.node
  /-- The node is not empty and fits. -/
  node : 0 < g.node.length ∧ g.node.length ≤ rtMax
  /-- A node that is split off is not empty and fits. -/
  right : ∀ r ∈ g.right, 0 < r.length ∧ r.length ≤ rtMax

/-- A node takes an entry in, or is split. -/
theorem addEntry_adds {es : List (REntry α n β)} (hle : es.length ≤ rtMax) {e : REntry α n β}
    {g : Grown α n (List (REntry α n β))} (hg : addEntry es e = some g) : g.Adds es e := by
  unfold addEntry at hg
  split at hg
  · rename_i hlt
    obtain rfl := Option.some.inj hg
    have hlen : (es ++ [e]).length = es.length + 1 := by simp
    refine ⟨?_, rfl, ?_, ?_⟩
    · rw [Grown.all, Option.getD_none, List.append_nil]
    · simp only [hlen]
      omega
    · exact fun _ hr => absurd hr (Option.not_mem_none _)
  · rename_i hfull
    have hmax : rtMax = 9 := rfl
    have hne : es ≠ [] := by
      rintro rfl
      simp [hmax] at hfull
    obtain ⟨⟨left, right⟩, hsplit, rfl⟩ := Option.map_eq_some_iff.mp hg
    obtain ⟨hperm, hleft, hright, -⟩ := linearSplit_spec hne hsplit
    have hlen := hperm.length_eq
    simp only [List.length_append, List.length_singleton] at hlen
    refine ⟨hperm, rfl, ?_, ?_⟩
    · simp only
      omega
    · intro r hr
      obtain rfl : right = r := Option.some.inj hr
      omega

/-- What an insertion does to the nodes on its path. -/
structure Inserts (h : ℕ) (g : Grown α n (RNode α n h)) (node : RNode α n h) (e : LeafEntry α n) :
    Prop where
  /-- The entry joins those that were there. -/
  entries : (RNode.entries h g.node ++ (g.right.map (RNode.entries h)).getD []).Perm
    (e :: RNode.entries h node)
  /-- The rectangle is that of the node. -/
  leftEntry : g.leftEntry = RNode.mbr h g.node
  /-- The node is in shape. -/
  node : RNode.WF h g.node
  /-- A node that is split off is in shape. -/
  right : ∀ r ∈ g.right, RNode.WF h r

/-- After a split child was taken in, the entries below are those of the nodes. -/
theorem absorb_entries (entries : β → List (LeafEntry α n)) {mbr : β → Rect α n}
    {es : List (REntry α n β)} (hle : es.length ≤ rtMax) {ci : ℕ} (hci : ci < es.length)
    {child : Grown α n β} {g : Grown α n (List (REntry α n β))}
    (hg : absorb mbr es ci child = some g) :
    (g.all.flatMap fun e => entries e.item).Perm
      ((entries child.node ++ (child.right.map entries).getD []) ++
        entriesIn entries (es.eraseIdx ci)) := by
  have hset := entriesIn_set entries hci ⟨child.leftEntry, child.node⟩
  cases hright : child.right with
  | none =>
    rw [absorb_of_none hright] at hg
    obtain rfl := Option.some.inj hg
    simp only [Grown.all, Option.getD_none, List.append_nil, Option.map_none]
    exact hset
  | some right =>
    rw [absorb_of_some hright] at hg
    have hle' : (es.set ci ⟨child.leftEntry, child.node⟩).length ≤ rtMax := by
      rw [List.length_set]
      exact hle
    have hadds := (addEntry_adds hle' hg).all.flatMap_right fun e => entries e.item
    rw [List.flatMap_append, List.flatMap_singleton] at hadds
    simp only [Option.map_some, Option.getD_some]
    refine hadds.trans ((hset.append_right _).trans ?_)
    rw [List.append_assoc, List.append_assoc]
    exact List.perm_append_comm.append_left _

section Shaped

variable {rects : (h : ℕ) → RNode α n h → List (Rect α n)}

/-- A node that takes in a changed child is in shape. -/
theorem Bounded.absorb (hrects : Bounded rects) {h : ℕ} {es : List (REntry α n (RNode α n h))}
    (hes : Inner (rects h) (RNode.ShapedBy rects h) es) {ci : ℕ}
    {child : Grown α n (RNode α n h)} (hleft : child.leftEntry = RNode.mbr h child.node)
    (hnode : RNode.ShapedBy rects h child.node)
    (hright : ∀ r ∈ child.right, RNode.ShapedBy rects h r)
    {g : Grown α n (List (REntry α n (RNode α n h)))}
    (hg : absorb (RNode.mbr h) es ci child = some g) :
    g.leftEntry = RNode.mbr (h + 1) g.node ∧ RNode.ShapedBy rects (h + 1) g.node ∧
      ∀ r ∈ g.right, RNode.ShapedBy rects (h + 1) r := by
  have hset : Inner (rects h) (RNode.ShapedBy rects h)
      (es.set ci ⟨child.leftEntry, child.node⟩) := by
    apply hes.set
    rw [hleft]
    exact hrects.tight hnode
  cases hsplit : child.right with
  | none =>
    rw [absorb_of_none hsplit] at hg
    obtain rfl := Option.some.inj hg
    exact ⟨rfl, hset, fun _ hr => absurd hr (Option.not_mem_none _)⟩
  | some right =>
    rw [absorb_of_some hsplit] at hg
    obtain ⟨hall, hmbr, ⟨hpos, hle⟩, hother⟩ := addEntry_adds hset.le hg
    have hmem : ∀ e ∈ g.all, Tight (rects h) (RNode.ShapedBy rects h) e := by
      intro e he
      rcases List.mem_append.mp (hall.mem_iff.mp he) with he | he
      · exact hset.tight e he
      · rw [List.mem_singleton.mp he]
        exact hrects.tight (hright right hsplit)
    refine ⟨hmbr, ⟨hpos, hle, fun e he => hmem e (List.mem_append_left _ he)⟩, ?_⟩
    intro r hr
    obtain ⟨hrpos, hrle⟩ := hother r hr
    refine ⟨hrpos, hrle, fun e he => hmem e (List.mem_append_right _ ?_)⟩
    rw [Option.mem_def.mp hr, Option.getD_some]
    exact he

/-- An insertion that comes to its end keeps the shape and adds its entry. -/
theorem Bounded.insertRec (hrects : Bounded rects) (e : LeafEntry α n) : ∀ (h : ℕ)
    {node : RNode α n h} {g : Grown α n (RNode α n h)}, RNode.ShapedBy rects h node →
      insertRec e h node = some g →
      (RNode.entries h g.node ++ (g.right.map (RNode.entries h)).getD []).Perm
        (e :: RNode.entries h node) ∧
      g.leftEntry = RNode.mbr h g.node ∧ RNode.ShapedBy rects h g.node ∧
      ∀ r ∈ g.right, RNode.ShapedBy rects h r := by
  intro h
  induction h with
  | zero =>
    intro (es : List (LeafEntry α n)) (g : Grown α n (List (LeafEntry α n))) hnode hg
    obtain ⟨hall, hmbr, ⟨-, hle⟩, hother⟩ := addEntry_adds (e := e) hnode.le hg
    refine ⟨?_, hmbr, ⟨hle⟩, fun r hr => ⟨(hother r hr).2⟩⟩
    have hmap : (g.right.map (RNode.entries 0)).getD [] = g.right.getD [] := by
      cases g.right with
      | none => rfl
      | some r => rfl
    rw [hmap]
    exact hall.trans (List.perm_append_singleton e es)
  | succ h ih =>
    intro (es : List (REntry α n (RNode α n h))) (g : Grown α n (List (REntry α n (RNode α n h))))
      hnode hg
    have hci : chooseChild es e.rect < es.length :=
      chooseChild_lt (List.length_pos_iff.mp hnode.pos) e.rect
    rw [insertRec_succ e hci] at hg
    obtain ⟨child, hchild, habsorb⟩ := Option.bind_eq_some_iff.mp hg
    obtain ⟨hperm, hmbr, hleft, hright⟩ := ih (hnode.tight _ (List.getElem_mem hci)).child hchild
    refine ⟨?_, hrects.absorb hnode hmbr hleft hright habsorb⟩
    have hbelow := absorb_entries (RNode.entries h) hnode.le hci habsorb
    rw [← entriesIn_all] at hbelow
    have hothers := entriesIn_getElem (RNode.entries h) hci
    exact hbelow.trans ((hperm.append_right _).trans (hothers.cons e))

end Shaped

/-- An insertion that comes to its end keeps the shape that is asked for. -/
theorem insertRec_inserts (e : LeafEntry α n) (h : ℕ) {node : RNode α n h}
    {g : Grown α n (RNode α n h)} (hnode : RNode.WF h node) (hg : insertRec e h node = some g) :
    Inserts h g node e := by
  rw [RNode.wf_eq] at hnode
  obtain ⟨hperm, hmbr, hleft, hright⟩ := bounded_rects.insertRec e h hnode hg
  rw [← RNode.wf_eq] at hleft hright
  exact ⟨hperm, hmbr, hleft, hright⟩

end FastKV.RTree
