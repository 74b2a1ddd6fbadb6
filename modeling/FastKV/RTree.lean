import FastKV.Lib.Boxes
import FastKV.Lib.MinHeap
import FastKV.Types
import Mathlib.Algebra.Order.Group.Unbundled.Abs

/-!
# The R-tree

`index/rtree/rtree.c`: a spatial index over rectangles. Coordinates are doubles other than NaN,
of which only the order is used, and the arithmetic on them is a parameter, so that it may
round, overflow and give NaN; exact arithmetic in an ordered ring is one such arithmetic. When
NaN keeps `linear_split` from picking an entry it reads and writes outside of its arrays, and
the functions that split nodes then have no result. The type of a node says how far above the
leaves it is, which takes the place of its `is_leaf` flag: the two halves of a split node are of
its kind, and a new root lies one level above the two nodes that it joins. Allocations succeed
here.
-/

namespace FastKV.RTree

open Lib

/-- `RTREE_MAX_DIMS`. -/
def maxDims : ℕ := 20

/-- `RT_M`, the largest number of entries of a node. -/
def rtMax : ℕ := 9

/-- `RT_m`, the smallest number of entries of a half. -/
def rtMin : ℕ := 3

/-- The numbers of the program. The coordinates are the doubles other than NaN. Nothing is said
about the results of arithmetic and of comparisons. -/
class Doubles (α : Type) where
  /-- All doubles. -/
  Num : Type
  /-- A coordinate as a double. -/
  coord : α → Num
  /-- `0.0`. -/
  zero : α
  /-- `DBL_MAX`. -/
  dblMax : α
  /-- `-DBL_MAX`. -/
  negDblMax : α
  /-- `1.0`. -/
  one : Num
  /-- Subtraction. -/
  sub : Num → Num → Num
  /-- Multiplication. -/
  mul : Num → Num → Num
  /-- `fabs`. -/
  fabs : Num → Num
  /-- The comparison `<`. -/
  lt : Num → Num → Bool
  /-- The comparison `<=`. -/
  le : Num → Num → Bool
  /-- The comparison `==`. -/
  eq : Num → Num → Bool

open Doubles

/-- The value of `DBL_MAX`, which is a whole number. -/
def largest : ℕ := (2 ^ 53 - 1) * 2 ^ 971

/-- Exact arithmetic. -/
instance exactDoubles {α : Type} [CommRing α] [LinearOrder α] : Doubles α where
  Num := α
  coord := id
  zero := 0
  dblMax := largest
  negDblMax := -largest
  one := 1
  sub a b := a - b
  mul a b := a * b
  fabs a := |a|
  lt a b := decide (a < b)
  le a b := decide (a ≤ b)
  eq a b := decide (a = b)

/-- `fastkv_rect_t` in the dimensions of the tree. -/
abbrev Rect (α : Type) (n : ℕ) := Box (Fin n) α

/-- `rentry_t`: a rectangle with a key in a leaf, or with a child above the leaves. -/
structure REntry (α : Type) (n : ℕ) (β : Type) where
  /-- The fields `min` and `max`. -/
  rect : Rect α n
  /-- The union of key and child. -/
  item : β

/-- A leaf entry. -/
abbrev LeafEntry (α : Type) (n : ℕ) := REntry α n Bytes

/-- `rnode_t` at a height above the leaves. -/
def RNode (α : Type) (n : ℕ) : ℕ → Type
  | 0 => List (LeafEntry α n)
  | h + 1 => List (REntry α n (RNode α n h))

/-- `struct fastkv_rtree`. -/
structure Tree (α : Type) (n : ℕ) where
  /-- The height of the root. -/
  height : ℕ
  /-- The root. -/
  root : RNode α n height

variable {α β σ : Type} [LinearOrder α] [Doubles α] {n : ℕ}

/-! ## Rectangles -/

/-- The loop of `rect_area`: an extent that is not positive makes the area zero. -/
def areaLoop (r : Rect α n) : List (Fin n) → Num α → Num α
  | [], a => a
  | i :: is, a =>
    let d := sub (coord (r.max i)) (coord (r.min i))
    if le d (coord (zero : α)) then coord (zero : α) else areaLoop r is (mul a d)

/-- `rect_area`. -/
def rectArea (r : Rect α n) : Num α := areaLoop r (List.finRange n) one

/-- `rect_expand`: enlarge `dst` to cover `src`. -/
def rectExpand (dst src : Rect α n) : Rect α n where
  min i := if src.min i < dst.min i then src.min i else dst.min i
  max i := if dst.max i < src.max i then src.max i else dst.max i

/-- `rect_enlarged_area`. -/
def rectEnlargedArea (r e : Rect α n) : Num α :=
  rectArea
    { min := fun i => if r.min i < e.min i then r.min i else e.min i
      max := fun i => if e.max i < r.max i then r.max i else e.max i }

/-- `rect_within`. -/
def rectWithin (r b : Rect α n) : Bool :=
  (List.finRange n).all fun i => !(decide (r.min i < b.min i) || decide (b.max i < r.max i))

/-- `rect_intersects`. -/
def rectIntersects (r b : Rect α n) : Bool :=
  (List.finRange n).all fun i => !(decide (r.max i < b.min i) || decide (b.max i < r.min i))

/-- `node_recompute_mbr`. -/
def nodeRecomputeMbr (es : List (REntry α n β)) : Rect α n :=
  es.foldl (fun r e => rectExpand r e.rect) ⟨fun _ => dblMax, fun _ => negDblMax⟩

/-! ## Choosing and splitting -/

/-- The loop of `choose_child`, from entry `i` on, with the best entry so far. -/
def chooseLoop (e : Rect α n) : List (REntry α n β) → ℕ → ℕ → Num α → Num α → ℕ
  | [], _, best, _, _ => best
  | c :: cs, i, best, bestEnlarge, bestArea =>
    let orig := rectArea c.rect
    let enlarge := sub (rectEnlargedArea c.rect e) orig
    if lt enlarge bestEnlarge || (eq enlarge bestEnlarge && lt orig bestArea) then
      chooseLoop e cs (i + 1) i enlarge orig
    else chooseLoop e cs (i + 1) best bestEnlarge bestArea

/-- `choose_child`. -/
def chooseChild (es : List (REntry α n β)) (e : Rect α n) : ℕ :=
  chooseLoop e es 0 0 (coord (dblMax : α)) (coord (dblMax : α))

/-- The pairs of indices that the seed loops of `linear_split` go through. -/
def seedPairs (total : ℕ) : List (ℕ × ℕ) :=
  (List.range (total - 1)).flatMap fun i =>
    (List.range' (i + 1) (total - 1 - i)).map fun j => (i, j)

/-- What a node that holds only the two rectangles would waste. -/
def waste (a b : Rect α n) : Num α := sub (sub (rectEnlargedArea a b) (rectArea a)) (rectArea b)

/-- The seed loops of `linear_split`: the most wasteful pair so far, with its waste. -/
def seedLoop (all : List (REntry α n β)) : List (ℕ × ℕ) → Num α → ℕ × ℕ → ℕ × ℕ
  | [], _, seeds => seeds
  | (i, j) :: pairs, worst, seeds =>
    match all[i]?, all[j]? with
    | some a, some b =>
      if lt worst (waste a.rect b.rect) then seedLoop all pairs (waste a.rect b.rect) (i, j)
      else seedLoop all pairs worst seeds
    | _, _ => seedLoop all pairs worst seeds

/-- The two seeds of `linear_split`. -/
def seeds (all : List (REntry α n β)) : ℕ × ℕ :=
  seedLoop all (seedPairs all.length) (coord (negDblMax : α)) (0, all.length - 1)

/-- The two halves that `linear_split` fills, with their rectangles. -/
structure Halves (α : Type) (n : ℕ) (β : Type) where
  /-- Entries of the left half. -/
  left : List (REntry α n β)
  /-- Entries of the right half. -/
  right : List (REntry α n β)
  /-- `lmn` and `lmx`. -/
  leftRect : Rect α n
  /-- `rmn` and `rmx`. -/
  rightRect : Rect α n

/-- How much the two halves grow by an entry: `dl` and `dr`. -/
def Halves.growth (g : Halves α n β) (e : REntry α n β) : Num α × Num α :=
  (sub (rectEnlargedArea g.leftRect e.rect) (rectArea g.leftRect),
    sub (rectEnlargedArea g.rightRect e.rect) (rectArea g.rightRect))

/-- The loop of `linear_split` that picks the next of the entries not yet used: the one for
which the choice of the half matters most. No entry is picked if every difference is NaN. -/
def pickLoop (g : Halves α n β) : List (REntry α n β) → ℕ → Option ℕ → Num α → Option ℕ
  | [], _, pick, _ => pick
  | e :: es, i, pick, bestDiff =>
    let diff := fabs (sub (g.growth e).1 (g.growth e).2)
    if lt bestDiff diff then pickLoop g es (i + 1) (some i) diff
    else pickLoop g es (i + 1) pick bestDiff

/-- Put the picked entry into the half that grows less. -/
def Halves.add (g : Halves α n β) (e : REntry α n β) : Halves α n β :=
  let (dl, dr) := g.growth e
  if lt dl dr || (eq dl dr && decide (g.left.length ≤ g.right.length)) then
    { g with left := g.left ++ [e], leftRect := rectExpand g.leftRect e.rect }
  else { g with right := g.right ++ [e], rightRect := rectExpand g.rightRect e.rect }

/-- The distribution loop of `linear_split`, with the number of entries that remain and these
entries in the order of their indices. When none is picked, `pick` is -1 and `all[-1]` is read:
there is no result. -/
def distribute : ℕ → List (REntry α n β) → Halves α n β → Option (Halves α n β)
  | 0, _, g => some g
  | remaining + 1, rest, g =>
    if g.left.length + (remaining + 1) = rtMin then some { g with left := g.left ++ rest }
    else if g.right.length + (remaining + 1) = rtMin then some { g with right := g.right ++ rest }
    else
      match pickLoop g rest 0 none (coord (negDblMax : α)) with
      | none => none
      | some pick =>
        match rest[pick]? with
        | none => none
        | some e => distribute remaining (rest.eraseIdx pick) (g.add e)

/-- `linear_split` of a full node and a new entry; `none` if it leaves its arrays. -/
def linearSplit (full : List (REntry α n β)) (newE : REntry α n β) :
    Option (List (REntry α n β) × List (REntry α n β)) :=
  let all := full ++ [newE]
  let (seed1, seed2) := seeds all
  match all[seed1]?, all[seed2]? with
  | some a, some b =>
    (distribute (all.length - 2) ((all.eraseIdx seed2).eraseIdx seed1)
      ⟨[a], [b], a.rect, b.rect⟩).map fun g => (g.left, g.right)
  | _, _ => none

/-! ## Insertion -/

/-- `node_recompute_mbr` at any height. -/
def RNode.mbr : (h : ℕ) → RNode α n h → Rect α n
  | 0, es => nodeRecomputeMbr es
  | _ + 1, es => nodeRecomputeMbr es

/-- `rsplit_t`, with the node that was changed in place. -/
structure Grown (α : Type) (n : ℕ) (β : Type) where
  /-- The node. -/
  node : β
  /-- `left_entry`, the rectangle of the node. -/
  leftEntry : Rect α n
  /-- `right`, the node split off. -/
  right : Option β

/-- `rtree_insert_leaf`, which is also the end of `rtree_insert_internal`: take an entry into a
node that may be full. -/
def addEntry (es : List (REntry α n β)) (e : REntry α n β) :
    Option (Grown α n (List (REntry α n β))) :=
  if es.length < rtMax then some ⟨es ++ [e], nodeRecomputeMbr (es ++ [e]), none⟩
  else (linearSplit es e).map fun halves => ⟨halves.1, nodeRecomputeMbr halves.1, some halves.2⟩

/-- `rtree_insert_internal` after the child `ci` was changed: its rectangle is replaced, and a
node split off it is taken in. -/
def absorb (mbr : β → Rect α n) (es : List (REntry α n β)) (ci : ℕ) (child : Grown α n β) :
    Option (Grown α n (List (REntry α n β))) :=
  let es := es.set ci ⟨child.leftEntry, child.node⟩
  match child.right with
  | none => some ⟨es, nodeRecomputeMbr es, none⟩
  | some right => addEntry es ⟨mbr right, right⟩

/-- `rtree_insert_internal`, given the insertion into a child. A node above the leaves has at
least one entry. -/
def insertInternal (insert : β → Option (Grown α n β)) (mbr : β → Rect α n)
    (es : List (REntry α n β)) (rect : Rect α n) : Option (Grown α n (List (REntry α n β))) :=
  let ci := chooseChild es rect
  match es[ci]? with
  | none => none
  | some c => (insert c.item).bind (absorb mbr es ci)

/-- `rtree_insert_rec`. -/
def insertRec (e : LeafEntry α n) : (h : ℕ) → RNode α n h → Option (Grown α n (RNode α n h))
  | 0, es => addEntry es e
  | h + 1, es => insertInternal (insertRec e h) (RNode.mbr h) es e.rect

/-! ## Deletion -/

/-- `node->e[i] = node->e[--node->n]`: the last entry takes the place of entry `i`. -/
def removeEntry (es : List β) (i : ℕ) : List β := swapRemove es i

/-- The loop of `rtree_delete_rec` over the entries of a node above the leaves; `none` is
`false`. -/
def deleteIn (del : β → Option β) (mbr : β → Rect α n) (rect : Rect α n) :
    List (REntry α n β) → Option (List (REntry α n β))
  | [] => none
  | e :: es =>
    if rectIntersects e.rect rect then
      match del e.item with
      | some child => some (⟨mbr child, child⟩ :: es)
      | none => (deleteIn del mbr rect es).map (e :: ·)
    else (deleteIn del mbr rect es).map (e :: ·)

/-- The loop of `rtree_delete_rec` over the entries of a leaf, which compares the keys. -/
def deleteLeaf (key : Bytes) (es : List (LeafEntry α n)) : Option (List (LeafEntry α n)) :=
  (es.findIdx? fun e => decide (e.item = key)).map (removeEntry es)

/-- `rtree_delete_rec`: the node after the deletion, `none` if it returns `false`. -/
def deleteRec (rect : Rect α n) (key : Bytes) : (h : ℕ) → RNode α n h → Option (RNode α n h)
  | 0, es => deleteLeaf key es
  | h + 1, es => deleteIn (deleteRec rect key h) (RNode.mbr h) rect es

/-! ## Window queries -/

/-- The loop of a query over the entries of a node: it ends with the first error. -/
def forEntries (visit : β → σ → Err × σ) : List β → σ → Err × σ
  | [], s => (.ok, s)
  | e :: es, s =>
    match visit e s with
    | (.ok, s) => forEntries visit es s
    | r => r

/-- What a query does with an entry of a leaf. -/
def visitEntry (accept : Rect α n → Bool) (b : Rect α n) (cb : Rect α n → Bytes → σ → Err × σ)
    (e : LeafEntry α n) (s : σ) : Err × σ :=
  if !rectIntersects e.rect b then (.ok, s)
  else if !accept e.rect then (.ok, s)
  else cb e.rect e.item s

/-- What a query does with an entry above the leaves, given the query of a child. -/
def visitChild (b : Rect α n) (query : β → σ → Err × σ) (e : REntry α n β) (s : σ) : Err × σ :=
  if !rectIntersects e.rect b then (.ok, s) else query e.item s

/-- `rtree_within_rec` and `rtree_intersects_rec`, which differ in the test that they make on
the entries of leaves. -/
def queryRec (accept : Rect α n → Bool) (b : Rect α n) (cb : Rect α n → Bytes → σ → Err × σ) :
    (h : ℕ) → RNode α n h → σ → Err × σ
  | 0, es => forEntries (visitEntry accept b cb) es
  | h + 1, es => forEntries (visitChild b (queryRec accept b cb h)) es

/-- `rtree_within_rec`. -/
def withinRec (b : Rect α n) (cb : Rect α n → Bytes → σ → Err × σ) :
    (h : ℕ) → RNode α n h → σ → Err × σ := queryRec (fun r => rectWithin r b) b cb

/-- `rtree_intersects_rec`. -/
def intersectsRec (b : Rect α n) (cb : Rect α n → Bytes → σ → Err × σ) :
    (h : ℕ) → RNode α n h → σ → Err × σ := queryRec (fun _ => true) b cb

/-! ## The interface -/

/-- `fastkv_rtree_create`. -/
def rtreeCreate (α : Type) (n : ℕ) : Except Err (Tree α n) :=
  if n = 0 ∨ maxDims < n then .error .inval else .ok ⟨0, ([] : List (LeafEntry α n))⟩

/-- The new root above the two halves of the old one. -/
def newRoot (h : ℕ) (left right : RNode α n h) : Tree α n :=
  ⟨h + 1, ([⟨RNode.mbr h left, left⟩, ⟨RNode.mbr h right, right⟩] :
    List (REntry α n (RNode α n h)))⟩

/-- `fastkv_rtree_insert`. -/
def rtreeInsert (t : Tree α n) (rect : Rect α n) (key : Slice) : Option (Err × Tree α n) :=
  match key with
  | none => some (.inval, t)
  | some key =>
    (insertRec ⟨rect, key⟩ t.height t.root).map fun s =>
      match s.right with
      | none => (.ok, ⟨t.height, s.node⟩)
      | some right => (.ok, newRoot t.height s.node right)

/-- `fastkv_rtree_delete`. -/
def rtreeDelete (t : Tree α n) (rect : Rect α n) (key : Slice) : Err × Tree α n :=
  match key with
  | none => (.inval, t)
  | some key =>
    match deleteRec rect key t.height t.root with
    | none => (.notfound, t)
    | some root => (.ok, ⟨t.height, root⟩)

/-- `fastkv_rtree_within`. -/
def rtreeWithin (t : Tree α n) (bounds : Rect α n) (cb : Rect α n → Bytes → σ → Err × σ)
    (s : σ) : Err × σ := withinRec bounds cb t.height t.root s

/-- `fastkv_rtree_intersects`. -/
def rtreeIntersects (t : Tree α n) (bounds : Rect α n) (cb : Rect α n → Bytes → σ → Err × σ)
    (s : σ) : Err × σ := intersectsRec bounds cb t.height t.root s

/-! ## Nearest entries -/

section Nearby

variable [CommRing α]

/-- `mindist_sq`, in exact arithmetic. -/
def mindistSq (pt : Fin n → α) (r : Rect α n) : α :=
  (List.finRange n).foldl (fun d i =>
    let diff := pt i - Box.clamp (r.min i) (r.max i) (pt i)
    d + diff * diff) 0

/-- `heap_item_t`: a leaf entry or a node, with its distance. -/
structure HeapItem (α : Type) (n : ℕ) where
  /-- The distance. -/
  dist : α
  /-- `leaf_e` or `node`. -/
  item : LeafEntry α n ⊕ Sigma (RNode α n)

/-- `heap_push`. -/
def heapPush (heap : MinHeap (HeapItem α n)) (item : HeapItem α n) : MinHeap (HeapItem α n) :=
  heap.push HeapItem.dist item

/-- `heap_pop`, and the test for an empty heap in front of it. -/
def heapPop (heap : MinHeap (HeapItem α n)) : Option (HeapItem α n × MinHeap (HeapItem α n)) :=
  heap.pop HeapItem.dist

/-- The items that `fastkv_rtree_nearby` pushes for the entries of a node. -/
def childItems (pt : Fin n → α) : (h : ℕ) → RNode α n h → List (HeapItem α n)
  | 0, es => es.map fun e : LeafEntry α n => ⟨mindistSq pt e.rect, .inl e⟩
  | h + 1, es => es.map fun e : REntry α n (RNode α n h) =>
      ⟨mindistSq pt e.rect, .inr ⟨h, e.item⟩⟩

/-- The loop of `fastkv_rtree_nearby`, with the number of entries found so far. -/
def nearbyLoop (pt : Fin n → α) (limit : ℕ) (cb : Rect α n → Bytes → σ → Err × σ) :
    ℕ → MinHeap (HeapItem α n) → ℕ → σ → Err × σ
  | 0, _, _, s => (.ok, s)
  | fuel + 1, heap, found, s =>
    if found < limit then
      match heapPop heap with
      | none => (.ok, s)
      | some (⟨_, .inl e⟩, rest) =>
        match cb e.rect e.item s with
        | (.ok, s) => nearbyLoop pt limit cb fuel rest (found + 1) s
        | r => r
      | some (⟨_, .inr ⟨h, node⟩⟩, rest) =>
        nearbyLoop pt limit cb fuel ((childItems pt h node).foldl heapPush rest) found s
    else (.ok, s)

/-- The number of entries and nodes in and below a node. Each of them is popped at most once,
so it is enough fuel for the loop. -/
def RNode.count : (h : ℕ) → RNode α n h → ℕ
  | 0, es => 1 + (es.map fun _ : LeafEntry α n => 1).sum
  | h + 1, es => 1 + (es.map fun e : REntry α n (RNode α n h) => RNode.count h e.item).sum

/-- `fastkv_rtree_nearby`. -/
def rtreeNearby (t : Tree α n) (point : Fin n → α) (limit : ℕ)
    (cb : Rect α n → Bytes → σ → Err × σ) (s : σ) : Err × σ :=
  nearbyLoop point limit cb (RNode.count t.height t.root)
    (heapPush .empty ⟨0, .inr ⟨t.height, t.root⟩⟩) 0 s

end Nearby

end FastKV.RTree
