import Mathlib.Algebra.Order.BigOperators.Group.List
import Mathlib.Algebra.Order.Ring.Int
import FastKV.RTreeRuns

/-!
# How full the R-tree is

A split leaves at least three entries in each half, and no node above the leaves ever loses an
entry. So the nodes above the leaves, except the root, have between three and nine entries
whatever is deleted, and the height stays logarithmic in the number of insertions. The
rectangle beside a child is always exactly the rectangle of the child. All this holds whatever
the arithmetic on coordinates returns, for as long as no split leaves its arrays.
-/

namespace FastKV.RTree

open Lib

variable {α β : Type} {n : ℕ}

/-! ## Leaves -/

/-- The number of leaves below the entries of a node. -/
def leavesIn (leaves : β → ℕ) (es : List (REntry α n β)) : ℕ := (es.map fun e => leaves e.item).sum

/-- The number of leaves. -/
def RNode.leaves : (h : ℕ) → RNode α n h → ℕ
  | 0, _ => 1
  | h + 1, es => leavesIn (RNode.leaves h) es

/-- The leaves below a node in which one child is replaced. -/
theorem leavesIn_set (leaves : β → ℕ) {es : List (REntry α n β)} {i : ℕ} (hi : i < es.length)
    (e : REntry α n β) :
    leavesIn leaves (es.set i e) + leaves es[i].item = leaves e.item + leavesIn leaves es := by
  have hset := ((List.set_perm_cons_eraseIdx hi e).map fun c => leaves c.item).sum_eq
  have hget := ((List.getElem_cons_eraseIdx_perm hi).map fun c => leaves c.item).sum_eq
  rw [List.map_cons, List.sum_cons] at hset hget
  unfold leavesIn
  omega

/-- The leaves below a root with two children. -/
theorem leaves_root {h : ℕ} (a b : REntry α n (RNode α n h)) :
    leavesIn (RNode.leaves h) [a, b] = RNode.leaves h a.item + RNode.leaves h b.item := by
  rw [leavesIn, List.map_cons, List.map_singleton, List.sum_cons, List.sum_singleton]

/-! ## Packed trees -/

/-- A node above the leaves with a smallest number of entries, each of which has exactly the
rectangle of its child. -/
structure PackedNode (low : ℕ) (mbr : β → Rect α n) (packed : β → Prop)
    (es : List (REntry α n β)) : Prop where
  /-- There are enough entries. -/
  ge : low ≤ es.length
  /-- There are not too many. -/
  le : es.length ≤ rtMax
  /-- The rectangles and the children. -/
  children : ∀ e ∈ es, e.rect = mbr e.item ∧ packed e.item

/-- The number of leaves of a tree. -/
def Tree.leaves (t : Tree α n) : ℕ := RNode.leaves t.height t.root

/-- Fewer entries may be asked for. -/
theorem PackedNode.mono {low low' : ℕ} {mbr : β → Rect α n} {packed : β → Prop}
    {es : List (REntry α n β)} (h : PackedNode low mbr packed es) (hle : low' ≤ low) :
    PackedNode low' mbr packed es := ⟨hle.trans h.ge, h.le, h.children⟩

/-- A child may be replaced. -/
theorem PackedNode.set {low : ℕ} {mbr : β → Rect α n} {packed : β → Prop}
    {es : List (REntry α n β)} (h : PackedNode low mbr packed es) (ci : ℕ) {e : REntry α n β}
    (he : e.rect = mbr e.item ∧ packed e.item) : PackedNode low mbr packed (es.set ci e) := by
  refine ⟨by rw [List.length_set]; exact h.ge, by rw [List.length_set]; exact h.le, ?_⟩
  intro c hc
  rcases List.mem_or_eq_of_mem_set hc with hc | rfl
  · exact h.children c hc
  · exact he

/-- There are at least as many leaves as the number of entries and the leaves below each of them
require. -/
theorem PackedNode.mul_le_leaves {low m : ℕ} {mbr : β → Rect α n} {packed : β → Prop}
    {leaves : β → ℕ} {es : List (REntry α n β)} (h : PackedNode low mbr packed es)
    (hm : ∀ b, packed b → m ≤ leaves b) : low * m ≤ leavesIn leaves es := by
  have hsum := List.card_nsmul_le_sum (es.map fun e => leaves e.item) m fun k hk => by
    obtain ⟨e, he, rfl⟩ := List.mem_map.mp hk
    exact hm e.item (h.children e he).2
  rw [List.length_map, Nat.nsmul_eq_mul] at hsum
  exact (Nat.mul_le_mul_right m h.ge).trans hsum

variable [LinearOrder α] [Doubles α]

/-- A node with a smallest number of entries, and below it nodes with at least three. Leaves can
be empty. -/
def RNode.Packed : (h : ℕ) → ℕ → RNode α n h → Prop
  | 0, _, es => LeafFits es
  | h + 1, low, es => PackedNode low (RNode.mbr h) (RNode.Packed h rtMin) es

/-- A packed tree: a root above the leaves has at least two entries. -/
def Tree.Packed (t : Tree α n) : Prop := RNode.Packed t.height 2 t.root

/-- So they may in a tree. -/
theorem RNode.Packed.mono {h low low' : ℕ} {node : RNode α n h} (hnode : RNode.Packed h low node)
    (hle : low' ≤ low) : RNode.Packed h low' node := by
  cases h with
  | zero => exact hnode
  | succ h => exact PackedNode.mono hnode hle

/-- Each level has at least three times as many nodes as the one above. -/
theorem RNode.Packed.pow_le_leaves : ∀ {h : ℕ} {node : RNode α n h},
    RNode.Packed h rtMin node → rtMin ^ h ≤ RNode.leaves h node := by
  intro h
  induction h with
  | zero => exact fun _ => Nat.le_refl 1
  | succ h ih =>
    intro (es : List (REntry α n (RNode α n h))) hnode
    rw [Nat.pow_succ, Nat.mul_comm]
    exact PackedNode.mul_le_leaves hnode fun _ hchild => ih hchild

/-- A packed tree of some height has many leaves. -/
theorem Tree.Packed.pow_le_leaves {t : Tree α n} (ht : t.Packed) (hpos : 0 < t.height) :
    2 * rtMin ^ (t.height - 1) ≤ t.leaves := by
  obtain ⟨h, root⟩ := t
  cases h with
  | zero => exact absurd hpos (Nat.lt_irrefl 0)
  | succ h => exact PackedNode.mul_le_leaves ht fun _ hchild => hchild.pow_le_leaves

/-- A root above two nodes. -/
theorem packed_root {h : ℕ} {left right : RNode α n h} (hleft : RNode.Packed h rtMin left)
    (hright : RNode.Packed h rtMin right) : PackedNode 2 (RNode.mbr h) (RNode.Packed h rtMin)
      [⟨RNode.mbr h left, left⟩, ⟨RNode.mbr h right, right⟩] := by
  refine ⟨Nat.le_refl 2, (by decide : 2 ≤ rtMax), fun e he => ?_⟩
  rcases List.mem_cons.mp he with rfl | he
  · exact ⟨rfl, hleft⟩
  · rw [List.mem_singleton.mp he]
    exact ⟨rfl, hright⟩

/-! ## Deletion -/

/-- A deletion keeps a node packed, and the number of leaves. -/
theorem deleteRec_packed {rect : Rect α n} {key : Bytes} : ∀ {h low : ℕ} {node node' : RNode α n h},
    RNode.Packed h low node → deleteRec rect key h node = some node' →
      RNode.Packed h low node' ∧ RNode.leaves h node' = RNode.leaves h node := by
  intro h
  induction h with
  | zero =>
    intro low (es : List (LeafEntry α n)) (es' : List (LeafEntry α n)) hnode hdel
    obtain ⟨e, -, hperm⟩ := deleteLeaf_some hdel
    have hlen := hperm.length_eq
    have hle := hnode.le
    rw [List.length_cons] at hlen
    exact ⟨⟨by omega⟩, rfl⟩
  | succ h ih =>
    intro low (es : List (REntry α n (RNode α n h))) (es' : List (REntry α n (RNode α n h)))
      hnode hdel
    obtain ⟨old, new, hold, ⟨pre, c, post, rfl, rfl, rfl⟩, -⟩ :=
      deleteIn_some (fun _ hc => deleteRec_none hc) hdel
    obtain ⟨hnew, hleaves⟩ := ih (hnode.children c (by simp)).2 hold
    constructor
    · refine ⟨?_, ?_, fun d hd => ?_⟩
      · simpa using hnode.ge
      · simpa using hnode.le
      · rcases List.mem_append.mp hd with hd | hd
        · exact hnode.children d (by simp [hd])
        · rcases List.mem_cons.mp hd with rfl | hd
          · exact ⟨rfl, hnew⟩
          · exact hnode.children d (by simp [hd])
    · show leavesIn _ _ = leavesIn _ _
      simp [leavesIn, hleaves]

/-! ## Insertion -/

/-- A node takes in an entry, or is split into nodes with enough entries. -/
theorem addEntry_fill {low : ℕ} {es : List (REntry α n β)} (hlow : low ≤ es.length)
    (hle : es.length ≤ rtMax) (hmin : low ≤ rtMin) {e : REntry α n β}
    {g : Grown α n (List (REntry α n β))} (hg : addEntry es e = some g) :
    low ≤ g.node.length ∧ ∀ r ∈ g.right, rtMin ≤ g.node.length ∧ rtMin ≤ r.length := by
  unfold addEntry at hg
  split at hg
  · obtain rfl := Option.some.inj hg
    refine ⟨?_, fun _ hr => absurd hr (Option.not_mem_none _)⟩
    rw [List.length_append]
    exact Nat.le_add_right_of_le hlow
  · rename_i hroom
    have hfull : es.length = rtMax := by omega
    have hne : es ≠ [] := by
      rintro rfl
      exact hroom (by decide : 0 < rtMax)
    obtain ⟨⟨left, right⟩, hsplit, rfl⟩ := Option.map_eq_some_iff.mp hg
    obtain ⟨-, -, -, hfill⟩ := linearSplit_spec hne hsplit
    obtain ⟨hleft, hright⟩ := hfill hfull
    refine ⟨hmin.trans hleft, fun r hr => ?_⟩
    obtain rfl : right = r := Option.some.inj hr
    exact ⟨hleft, hright⟩

/-- A node takes in an entry and stays packed. -/
theorem addEntry_packed {low : ℕ} {mbr : β → Rect α n} {packed : β → Prop}
    {es : List (REntry α n β)} (hes : PackedNode low mbr packed es) {e : REntry α n β}
    (he : e.rect = mbr e.item ∧ packed e.item) (hmin : low ≤ rtMin)
    {g : Grown α n (List (REntry α n β))} (hg : addEntry es e = some g) :
    PackedNode low mbr packed g.node ∧
      ∀ r ∈ g.right, PackedNode rtMin mbr packed g.node ∧ PackedNode rtMin mbr packed r := by
  obtain ⟨hall, -, ⟨-, hnodeLe⟩, hother⟩ := addEntry_adds hes.le hg
  obtain ⟨hnode, hright⟩ := addEntry_fill hes.ge hes.le hmin hg
  have hchildren : ∀ c ∈ g.all, c.rect = mbr c.item ∧ packed c.item := by
    intro c hc
    rcases List.mem_append.mp (hall.mem_iff.mp hc) with hc | hc
    · exact hes.children c hc
    · rw [List.mem_singleton.mp hc]
      exact he
  have hleft := fun c hc => hchildren c (List.mem_append_left _ hc)
  refine ⟨⟨hnode, hnodeLe, hleft⟩, fun r hr => ?_⟩
  obtain ⟨hnodeGe, hrightGe⟩ := hright r hr
  refine ⟨⟨hnodeGe, hnodeLe, hleft⟩, hrightGe, (hother r hr).2, fun c hc => ?_⟩
  refine hchildren c (List.mem_append_right _ ?_)
  rw [Option.mem_def.mp hr, Option.getD_some]
  exact hc

/-- The leaves after an entry was taken in. -/
theorem addEntry_leaves (leaves : β → ℕ) {es : List (REntry α n β)} (hle : es.length ≤ rtMax)
    {e : REntry α n β} {g : Grown α n (List (REntry α n β))} (hg : addEntry es e = some g) :
    leavesIn leaves g.node + (g.right.map (leavesIn leaves)).getD 0 =
      leavesIn leaves es + leaves e.item := by
  have hall := ((addEntry_adds hle hg).all.map fun c => leaves c.item).sum_eq
  rw [Grown.all, List.map_append, List.sum_append, List.map_append, List.sum_append] at hall
  unfold leavesIn
  cases hright : g.right with
  | none =>
    rw [hright] at hall
    simpa using hall
  | some r =>
    rw [hright] at hall
    simpa using hall

/-- What an insertion does to a packed node: the node stays packed, and a split makes two nodes
with enough entries and at most one more leaf. -/
structure Packs (h low : ℕ) (g : Grown α n (RNode α n h)) (before : RNode α n h) : Prop where
  /-- The rectangle is that of the node. -/
  leftEntry : g.leftEntry = RNode.mbr h g.node
  /-- The node. -/
  node : RNode.Packed h low g.node
  /-- The two nodes after a split. -/
  right : ∀ r ∈ g.right, RNode.Packed h rtMin g.node ∧ RNode.Packed h rtMin r
  /-- The leaves. -/
  leaves : RNode.leaves h g.node + (g.right.map (RNode.leaves h)).getD 0 ≤
    RNode.leaves h before + 1

/-- An insertion keeps a node packed. -/
theorem insertRec_packs (e : LeafEntry α n) : ∀ {h low : ℕ} {node : RNode α n h}
    {g : Grown α n (RNode α n h)}, RNode.Packed h low node → 0 < low → low ≤ rtMin →
      insertRec e h node = some g → Packs h low g node := by
  intro h
  induction h with
  | zero =>
    intro low (es : List (LeafEntry α n)) (g : Grown α n (List (LeafEntry α n))) hnode _ _ hg
    obtain ⟨-, hmbr, ⟨-, hle⟩, hother⟩ := addEntry_adds (e := e) hnode.le hg
    refine ⟨hmbr, ⟨hle⟩, fun r hr => ⟨⟨hle⟩, ⟨(hother r hr).2⟩⟩, ?_⟩
    cases g.right with
    | none => exact Nat.le_add_right _ _
    | some r => exact Nat.le_refl _
  | succ h ih =>
    intro low (es : List (REntry α n (RNode α n h)))
      (g : Grown α n (List (REntry α n (RNode α n h)))) hnode hpos hmin hg
    have hes : PackedNode low (RNode.mbr h) (RNode.Packed h rtMin) es := hnode
    have hne : es ≠ [] := List.length_pos_iff.mp (hpos.trans_le hes.ge)
    have hci : chooseChild es e.rect < es.length := chooseChild_lt hne e.rect
    rw [insertRec_succ e hci] at hg
    obtain ⟨child, hinsert, habsorb⟩ := Option.bind_eq_some_iff.mp hg
    have hchild := ih (hes.children _ (List.getElem_mem hci)).2 (by decide) (Nat.le_refl _) hinsert
    have hleaves : leavesIn (RNode.leaves h)
          (es.set (chooseChild es e.rect) ⟨child.leftEntry, child.node⟩) +
        RNode.leaves h es[chooseChild es e.rect].item =
        RNode.leaves h child.node + leavesIn (RNode.leaves h) es := leavesIn_set _ hci _
    have hset : PackedNode low (RNode.mbr h) (RNode.Packed h rtMin)
        (es.set (chooseChild es e.rect) ⟨child.leftEntry, child.node⟩) :=
      hes.set _ ⟨hchild.leftEntry, hchild.node⟩
    have hbelow := hchild.leaves
    cases hright : child.right with
    | none =>
      rw [hright, Option.map_none, Option.getD_none] at hbelow
      have hsum : leavesIn (RNode.leaves h)
          (es.set (chooseChild es e.rect) ⟨child.leftEntry, child.node⟩) ≤
          leavesIn (RNode.leaves h) es + 1 := by omega
      rw [absorb_of_none hright] at habsorb
      obtain rfl := Option.some.inj habsorb
      exact ⟨rfl, hset, fun _ hr => absurd hr (Option.not_mem_none _), hsum⟩
    | some right =>
      rw [hright, Option.map_some, Option.getD_some] at hbelow
      obtain ⟨-, hpacked⟩ := hchild.right right hright
      rw [absorb_of_some hright] at habsorb
      have hadd := addEntry_packed hset ⟨rfl, hpacked⟩ hmin habsorb
      have hsum := addEntry_leaves (RNode.leaves h) hset.le habsorb
      have hle : leavesIn (RNode.leaves h)
          (es.set (chooseChild es e.rect) ⟨child.leftEntry, child.node⟩) +
          RNode.leaves h right ≤ leavesIn (RNode.leaves h) es + 1 := by omega
      exact ⟨(addEntry_adds hset.le habsorb).leftEntry, hadd.1, hadd.2, hsum.le.trans hle⟩

/-! ## Main result -/

/-- An insertion of any entry keeps a tree packed. -/
theorem rtreeInsert_packed {t : Tree α n} (ht : t.Packed) {rect : Rect α n} {key : Slice}
    {r : Err × Tree α n} (hr : rtreeInsert t rect key = some r) :
    r.2.Packed ∧ r.2.leaves ≤ t.leaves + 1 := by
  cases key with
  | none =>
    obtain rfl := Option.some.inj hr
    exact ⟨ht, Nat.le_add_right _ _⟩
  | some key =>
    obtain ⟨g, hg, rfl⟩ := Option.map_eq_some_iff.mp hr
    obtain ⟨-, hnode, hright, hleaves⟩ := insertRec_packs ⟨rect, key⟩ ht (by decide) (by decide) hg
    cases hsplit : g.right with
    | none =>
      rw [hsplit, Option.map_none, Option.getD_none] at hleaves
      exact ⟨hnode, hleaves⟩
    | some right =>
      rw [hsplit, Option.map_some, Option.getD_some] at hleaves
      obtain ⟨hleft, hother⟩ := hright right hsplit
      exact ⟨packed_root hleft hother, (leaves_root _ _).le.trans hleaves⟩

/-- Whether a change is an insertion. -/
def TreeOp.isInsert : TreeOp α n → Bool
  | .insert _ _ => true
  | .delete _ _ => false

/-- A change keeps a tree packed, and only an insertion adds a leaf. -/
theorem treeStep_packed {t t' : Tree α n} (ht : t.Packed) {op : TreeOp α n}
    (h : treeStep (some t) op = some t') :
    t'.Packed ∧ t'.leaves ≤ t.leaves + (if op.isInsert then 1 else 0) := by
  cases op with
  | insert rect key =>
    obtain ⟨r, hr, rfl⟩ := Option.map_eq_some_iff.mp h
    exact rtreeInsert_packed ht hr
  | delete rect key =>
    obtain rfl := Option.some.inj h
    cases key with
    | none => exact ⟨ht, Nat.le_refl _⟩
    | some key =>
      cases hdel : deleteRec rect key t.height t.root with
      | none =>
        have heq : (rtreeDelete t rect (some key)).2 = t := by
          simp only [rtreeDelete, hdel]
        rw [heq]
        exact ⟨ht, Nat.le_refl _⟩
      | some root =>
        have heq : (rtreeDelete t rect (some key)).2 = ⟨t.height, root⟩ := by
          simp only [rtreeDelete, hdel]
        obtain ⟨hpacked, hleaves⟩ := deleteRec_packed ht hdel
        rw [heq]
        exact ⟨hpacked, hleaves.le⟩

/-- Every tree that changes build from a packed one is packed, with at most one more leaf for
each insertion. -/
theorem run_packed (ops : List (TreeOp α n)) : ∀ {t t' : Tree α n}, t.Packed →
    exec treeStep (some t) ops = some t' →
      t'.Packed ∧ t'.leaves ≤ t.leaves + ops.countP TreeOp.isInsert := by
  induction ops with
  | nil =>
    intro t t' ht h
    obtain rfl := Option.some.inj h
    exact ⟨ht, Nat.le_refl _⟩
  | cons op ops ih =>
    intro t t' ht h
    rw [exec_cons] at h
    cases hstep : treeStep (some t) op with
    | none =>
      rw [hstep, exec_stuck ops fun _ _ => rfl] at h
      cases h
    | some t₁ =>
      rw [hstep] at h
      obtain ⟨hpacked, hleaves⟩ := treeStep_packed ht hstep
      obtain ⟨hrun, hle⟩ := ih hpacked h
      refine ⟨hrun, hle.trans ?_⟩
      rw [List.countP_cons]
      omega

/-- For every sequence of insertions and deletions in which no split leaves its arrays, and for
every arithmetic on coordinates: in the tree that they build the rectangle beside a child is
exactly the one of the child, the nodes above the leaves have between three and nine entries,
the root at least two, and the height is logarithmic in the number of insertions, whatever is
deleted. -/
theorem rtree_stays_packed {t₀ t : Tree α n} (hcreate : rtreeCreate α n = .ok t₀)
    {ops : List (TreeOp α n)} (hrun : exec treeStep (some t₀) ops = some t) :
    t.Packed ∧ (0 < t.height →
      2 * rtMin ^ (t.height - 1) ≤ ops.countP TreeOp.isInsert + 1) := by
  have hempty : t₀.Packed ∧ t₀.leaves = 1 := by
    unfold rtreeCreate at hcreate
    split at hcreate
    · cases hcreate
    · cases hcreate
      exact ⟨⟨Nat.zero_le _⟩, rfl⟩
  obtain ⟨hpacked, hleaves⟩ := run_packed ops hempty.1 hrun
  refine ⟨hpacked, fun hpos => (hpacked.pow_le_leaves hpos).trans (hleaves.trans ?_)⟩
  rw [hempty.2, Nat.add_comm]

/-- Ten points on a diagonal, and one of them deleted. -/
def tenPoints : List (TreeOp ℤ 2) :=
  ((List.range 10).map fun i => .insert ⟨fun _ => i, fun _ => i⟩ (some [i.toUInt8])) ++
    [.delete ⟨fun _ => 4, fun _ => 4⟩ (some [4])]

/-- A tree without entries. -/
def emptyTree : Tree ℤ 2 := ⟨0, ([] : List (LeafEntry ℤ 2))⟩

/-- The tree of these points has split its leaf. -/
theorem rtree_stays_packed_tenPoints : ∃ t, exec treeStep (some emptyTree) tenPoints = some t ∧
    0 < t.height ∧ t.Packed ∧
      2 * rtMin ^ (t.height - 1) ≤ tenPoints.countP TreeOp.isInsert + 1 := by
  have hcreate : rtreeCreate ℤ 2 = .ok emptyTree := rfl
  obtain ⟨t, hrun, -⟩ := run_exact hcreate tenPoints
  have hheight : (exec treeStep (some emptyTree) tenPoints).map Tree.height = some 1 := by
    decide +kernel
  rw [hrun] at hheight
  have hpos : 0 < t.height := by
    rw [Option.some.inj hheight]
    decide
  obtain ⟨hpacked, hle⟩ := rtree_stays_packed hcreate hrun
  exact ⟨t, hrun, hpos, hpacked, hle hpos⟩

end FastKV.RTree
