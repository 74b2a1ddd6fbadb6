import FastKV.RTreeFaults
import Mathlib.Algebra.Order.BigOperators.Group.List

/-!
# What running out of memory may do to the R-tree

An insertion does its work in spite of failures only if it does not need what has failed: a full
leaf needs its two halves, and what is dropped above has to be empty. That can be so, since
deletions leave empty leaves behind. Then the zero rectangle beside the node that was not split
has to cover what lies below it. And a split that is made must not leave its arrays. Window
queries show the damage in every other case: the window
with the corners of an entry exchanged is met by the rectangles that cover the entry, and by no
others.
-/

namespace FastKV.RTree

open Lib

variable {α β : Type} {n : ℕ}

/-! ## Windows -/

variable [LinearOrder α]

/-- The new entry is in the node, and everything is found. -/
structure Grown.Stores (below : Bool) (h : ℕ) (g : Grown α n (RNode α n h)) (node : RNode α n h)
    (e : LeafEntry α n) : Prop where
  /-- The entry joins those that were there. -/
  entries : (RNode.entries h g.node ++ (g.right.map (RNode.entries h)).getD []).Perm
    (e :: RNode.entries h node)
  /-- The rectangles below are right. -/
  node : RNode.Reach h g.node
  /-- If it is read, the rectangle of the node is right. -/
  covers : below = true → ∀ r ∈ RNode.entryRects h g.node, g.leftEntry.Covers r

variable [Doubles α]

/-- A full node may go without a node split off its child if there is no entry in that node. If a
caller writes the rectangle beside the full node, the zero rectangle has to cover its entries. -/
structure Droppable (below : Bool) (entries right : List (LeafEntry α n)) : Prop where
  /-- There is nothing in the node that is dropped. -/
  empty : right = []
  /-- The zero rectangle is right. -/
  zero : below = true → ∀ x ∈ entries, zeroRect.Covers x.rect

/-- No failure in a node above the leaves matters, given the same for the chosen child, the
insertion into it if nothing failed, and the number of allocations for that. If the node is full
and the child is split, the split of the node must not leave its arrays, or, if the node does not
get its two halves, it may go without the node split off. -/
def InnerSpared (below : Bool) (e : LeafEntry α n) (k : ℕ) (mem : List Bool) (spared : β → Prop)
    (insert : β → Option (Grown α n β)) (mbr : β → Rect α n) (entries : β → List (LeafEntry α n))
    (es : List (REntry α n β)) : Prop :=
  ∀ c ∈ es[chooseChild es e.rect]?, spared c.item ∧
    ∀ g ∈ insert c.item, ∀ right ∈ g.right, rtMax ≤ es.length → succeed k mem = true →
      (succeed (k + 2) mem = true →
        (linearSplit (es.set (chooseChild es e.rect) ⟨g.leftEntry, g.node⟩)
          ⟨mbr right, right⟩).isSome) ∧
      (succeed (k + 2) mem = false →
        Droppable below (e :: entriesIn entries es) (entries right))

/-- A leaf has room for an entry, or gets its two halves and its split does not leave its
arrays. -/
def LeafSpared (e : LeafEntry α n) (mem : List Bool) (es : List (LeafEntry α n)) : Prop :=
  es.length < rtMax ∨ (succeed 2 mem = true ∧ (linearSplit es e).isSome)

/-- No failure in a node or below matters. The flag says whether the node lies below another
one. -/
def RNode.Spared (e : LeafEntry α n) : Bool → (h : ℕ) → RNode α n h → List Bool → Prop
  | _, 0, es, mem => LeafSpared e mem es
  | below, h + 1, es, mem =>
    InnerSpared below e (2 * (h + 1)) mem (fun c => RNode.Spared e true h c mem)
      (insertRec e h) (RNode.mbr h) (RNode.entries h) es

/-- No failure in an insertion matters. The copy of the key is asked for first. Without a new
root, all entries but the new one have to be in the half of the old root that stays. -/
def InsertSpared (t : Tree α n) (e : LeafEntry α n) (mem : List Bool) : Prop :=
  succeed 1 mem = true → RNode.Spared e false t.height t.root (mem.drop 1) ∧
    ∀ g ∈ insertRec e t.height t.root, ∀ right ∈ g.right,
      succeed (2 * (t.height + 1)) (mem.drop 1) = true →
        succeed (2 * (t.height + 1) + 1) (mem.drop 1) = false →
          (RNode.entries t.height right).Subperm [e]

/-! ## Spared insertions -/

section Inner

variable {below : Bool} {h ci : ℕ} {es : List (REntry α n (RNode α n h))} {e : LeafEntry α n}
  {mem : List Bool} {g : Grown α n (RNode α n h)} {right : RNode α n h}

end Inner

end FastKV.RTree
