import FastKV.Types
import FastKV.Lib.OrderedMap

/-!
# The B+tree

`index/btree/btree.c`: the ordered index behind cursors, secondary indexes and key
expiry. Nodes are a tree of lists; the doubly linked list of leaves is kept beside it,
addressed by the number each leaf received when it was allocated, because a scan follows
those links and not the tree. Copied slices are byte strings: an empty copy is the null
slice and reads back as no bytes. Allocations succeed here.
-/

namespace FastKV.BTree

open Lib

/-- `BTREE_ORDER`. -/
def order : ℕ := 32

/-- `LEAF_MAX`. -/
def leafMax : ℕ := order

/-- `INTR_MAX`. -/
def intrMax : ℕ := order - 1

/-- `memcmp` over the first `n` bytes. -/
def memcmp : ℕ → Bytes → Bytes → Ordering
  | n + 1, a :: as, b :: bs => if a < b then .lt else if b < a then .gt else memcmp n as bs
  | _, _, _ => .eq

/-- `cmp`: the common part first, then the lengths. -/
def cmp (a b : Bytes) : Ordering :=
  match memcmp (min a.length b.length) a b with
  | .eq => compare a.length b.length
  | r => r

/-- `lnode_t` and `inode_t`. A leaf carries its address; an internal node has one more
child than keys. -/
inductive Node
  | leaf (addr : ℕ) (entries : List (Bytes × Bytes))
  | intr (keys : List Bytes) (children : List Node)

/-- The `prev` and `next` pointers of one leaf. -/
structure Link where
  /-- Address of the leaf to the left. -/
  prev : Option ℕ
  /-- Address of the leaf to the right. -/
  next : Option ℕ
  deriving DecidableEq

/-- `leaf_lower`: the first index whose key is at least `key`. -/
def leafLower (entries : List (Bytes × Bytes)) (key : Bytes) : ℕ :=
  lowerBound (fun mid => cmp (entries.getD mid ([], [])).1 key = .lt) entries.length 0
    entries.length

/-- `intr_child_idx`: the first index whose separator is greater than `key`. -/
def intrChildIdx (keys : List Bytes) (key : Bytes) : ℕ :=
  lowerBound (fun mid => cmp (keys.getD mid []) key ≠ .gt) keys.length 0 keys.length

/-- The leaf holds `key` at index `i`. -/
def leafHit (entries : List (Bytes × Bytes)) (i : ℕ) (key : Bytes) : Prop :=
  i < entries.length ∧ cmp (entries.getD i ([], [])).1 key = .eq

instance (entries : List (Bytes × Bytes)) (i : ℕ) (key : Bytes) :
    Decidable (leafHit entries i key) := by unfold leafHit; infer_instance

/-- `split_t`: separator and new right node, if the node was split. -/
abbrev Split := Option (Bytes × Node)

/-- Link a new leaf, appended to the table of links, to the right of leaf `addr`. -/
def linkRight (links : List Link) (addr : ℕ) : List Link :=
  let right := links.length
  let next := (links.getD addr ⟨none, none⟩).next
  let links := links ++ [⟨some addr, next⟩]
  let links := match next with
    | some n => links.modify n fun l => { l with prev := some right }
    | none => links
  links.modify addr fun l => { l with next := some right }

/-- `leaf_insert`. -/
def leafInsert (links : List Link) (addr : ℕ) (entries : List (Bytes × Bytes))
    (key val : Bytes) : Node × Split × List Link :=
  let i := leafLower entries key
  if leafHit entries i key then
    (.leaf addr (entries.modify i fun e => (e.1, val)), none, links)
  else
    let t := entries.take i ++ (key, val) :: entries.drop i
    if entries.length < leafMax then (.leaf addr t, none, links)
    else
      let leftN := t.length / 2
      (.leaf addr (t.take leftN),
        some ((t.getD leftN ([], [])).1, .leaf links.length (t.drop leftN)),
        linkRight links addr)

/-- The second half of `intr_insert`: child `ci` has become `child` and was split. -/
def intrAbsorb (keys : List Bytes) (children : List Node) (ci : ℕ) (sep : Bytes)
    (right : Node) : Node × Split :=
  let tk := keys.take ci ++ sep :: keys.drop ci
  let tc := children.take (ci + 1) ++ right :: children.drop (ci + 1)
  if keys.length < intrMax then (.intr tk tc, none)
  else
    let mid := keys.length / 2
    (.intr (tk.take mid) (tc.take (mid + 1)),
      some (tk.getD mid [],
        .intr ((tk.drop (mid + 1)).take (intrMax - mid))
          ((tc.drop (mid + 1)).take (intrMax - mid + 1))))

mutual

/-- `node_insert` with `intr_insert`. -/
def nodeInsert (key val : Bytes) : Node → List Link → Node × Split × List Link
  | .leaf addr entries, links => leafInsert links addr entries key val
  | .intr keys children, links =>
    let ci := intrChildIdx keys key
    match childInsert key val children ci links with
    | (children, none, links) => (.intr keys children, none, links)
    | (children, some (sep, right), links) =>
      let (node, split) := intrAbsorb keys children ci sep right
      (node, split, links)

/-- Insert below the child with the given index, in place. -/
def childInsert (key val : Bytes) : List Node → ℕ → List Link → List Node × Split × List Link
  | [], _, links => ([], none, links)
  | c :: cs, 0, links =>
    let (c, split, links) := nodeInsert key val c links
    (c :: cs, split, links)
  | c :: cs, i + 1, links =>
    let (cs, split, links) := childInsert key val cs i links
    (c :: cs, split, links)

end

mutual

/-- Walk down to a leaf, taking in each internal node the child chosen from its keys. -/
def descend (choose : List Bytes → ℕ) : Node → ℕ × List (Bytes × Bytes)
  | .leaf addr entries => (addr, entries)
  | .intr keys children => descendAt choose children (choose keys)

/-- Continue the walk in the child with the given index. -/
def descendAt (choose : List Bytes → ℕ) : List Node → ℕ → ℕ × List (Bytes × Bytes)
  | [], _ => (0, [])
  | c :: _, 0 => descend choose c
  | _ :: cs, i + 1 => descendAt choose cs i

end

/-- `find_leaf`: address and entries of the leaf responsible for `key`. -/
def findLeaf (key : Bytes) (root : Node) : ℕ × List (Bytes × Bytes) :=
  descend (fun keys => intrChildIdx keys key) root

/-- The rightmost leaf, where an unbounded backward scan starts. -/
def lastLeaf (root : Node) : ℕ × List (Bytes × Bytes) := descend List.length root

mutual

/-- The entries of the leaf with the given address. -/
def leafAt (addr : ℕ) : Node → Option (List (Bytes × Bytes))
  | .leaf a entries => if a = addr then some entries else none
  | .intr _ children => leafAtList addr children

/-- Look for a leaf below each child in turn. -/
def leafAtList (addr : ℕ) : List Node → Option (List (Bytes × Bytes))
  | [] => none
  | c :: cs => (leafAt addr c).or (leafAtList addr cs)

end

mutual

/-- The removal part of `fastkv_btree_delete`: drop entry `i` of the leaf for `key`. -/
def removeAt (key : Bytes) (i : ℕ) : Node → Node
  | .leaf addr entries => .leaf addr (entries.take i ++ entries.drop (i + 1))
  | .intr keys children => .intr keys (removeAtChild key i children (intrChildIdx keys key))

/-- Continue the removal in the child with the given index. -/
def removeAtChild (key : Bytes) (i : ℕ) : List Node → ℕ → List Node
  | [], _ => []
  | c :: cs, 0 => removeAt key i c :: cs
  | c :: cs, j + 1 => c :: removeAtChild key i cs j

end

end BTree

open BTree

/-- `fastkv_btree_t`. -/
structure BTree where
  /-- The root node. -/
  root : Node
  /-- Address of the first leaf. -/
  leftmost : ℕ
  /-- The links of the leaves, by address. -/
  links : List Link

/-- `fastkv_btree_create`: one empty leaf. -/
def btreeCreate : BTree := ⟨.leaf 0 [], 0, [⟨none, none⟩]⟩

/-- `fastkv_btree_insert`. -/
def btreeInsert (t : BTree) (key val : Bytes) : BTree :=
  match nodeInsert key val t.root t.links with
  | (root, none, links) => { t with root, links }
  | (root, some (sep, right), links) => { t with root := .intr [sep] [root, right], links }

/-- `fastkv_btree_delete`. -/
def btreeDelete (t : BTree) (key : Bytes) : Err × BTree :=
  let entries := (findLeaf key t.root).2
  let i := leafLower entries key
  if leafHit entries i key then (.ok, { t with root := removeAt key i t.root })
  else (.notfound, t)

/-- `fastkv_btree_get`. -/
def btreeGet (t : BTree) (key : Bytes) : Except Err Bytes :=
  let entries := (findLeaf key t.root).2
  let i := leafLower entries key
  if leafHit entries i key then .ok (entries.getD i ([], [])).2 else .error .notfound

/-- The entries of one leaf in scan order, until one lies beyond the far bound or the
callback stops. `none` means the scan goes on with the next leaf. -/
def scanLeaf {σ : Type} (beyond : Bytes → Bool) (cb : σ → Bytes → Bytes → Err × σ) :
    List (Bytes × Bytes) → σ → Option Err × σ
  | [], s => (none, s)
  | e :: es, s =>
    if beyond e.1 then (some .ok, s)
    else
      match cb s e.1 e.2 with
      | (.ok, s) => scanLeaf beyond cb es s
      | (rc, s) => (some rc, s)

/-- The leaf loop of a scan: `follow` picks the link and `arrange` the order inside a
leaf. A leaf is visited at most once, so the number of leaves ever allocated is enough
fuel. -/
def scanLeaves {σ : Type} (t : BTree) (follow : Link → Option ℕ)
    (arrange : List (Bytes × Bytes) → List (Bytes × Bytes)) (beyond : Bytes → Bool)
    (cb : σ → Bytes → Bytes → Err × σ) : ℕ → Option ℕ → σ → Err × σ
  | fuel + 1, some l, s =>
    match scanLeaf beyond cb (arrange ((leafAt l t.root).getD [])) s with
    | (some rc, s) => (rc, s)
    | (none, s) =>
      scanLeaves t follow arrange beyond cb fuel (follow (t.links.getD l ⟨none, none⟩)) s
  | _, _, s => (.ok, s)

/-- A scan from a leaf whose first part `first` has been selected. -/
def scanFrom {σ : Type} (t : BTree) (follow : Link → Option ℕ)
    (arrange : List (Bytes × Bytes) → List (Bytes × Bytes)) (beyond : Bytes → Bool)
    (cb : σ → Bytes → Bytes → Err × σ) (l : ℕ) (first : List (Bytes × Bytes)) (s : σ) :
    Err × σ :=
  match scanLeaf beyond cb first s with
  | (some rc, s) => (rc, s)
  | (none, s) =>
    scanLeaves t follow arrange beyond cb t.links.length
      (follow (t.links.getD l ⟨none, none⟩)) s

/-- `fastkv_cursor_dir_t`. -/
inductive CursorDir
  | forward
  | backward
  deriving DecidableEq

/-- `fastkv_btree_scan`. -/
def btreeScan {σ : Type} (t : BTree) (min max : Slice) (dir : CursorDir)
    (cb : σ → Bytes → Bytes → Err × σ) (s : σ) : Err × σ :=
  let (rc, s) := match dir with
    | .forward =>
      let (l, first) := match min with
        | some m =>
          let (l, entries) := findLeaf m t.root
          (l, entries.drop (leafLower entries m))
        | none => (t.leftmost, (leafAt t.leftmost t.root).getD [])
      scanFrom t Link.next id (fun k => max.any fun m => decide (BTree.cmp k m = Ordering.gt))
        cb l first s
    | .backward =>
      let (l, first) := match max with
        | some m =>
          let (l, entries) := findLeaf m t.root
          let i := leafLower entries m
          -- the bound itself is included when it is present
          (l, (entries.take (if leafHit entries i m then i + 1 else i)).reverse)
        | none =>
          let (l, entries) := lastLeaf t.root
          (l, entries.reverse)
      scanFrom t Link.prev List.reverse
        (fun k => min.any fun m => decide (BTree.cmp k m = Ordering.lt)) cb l first s
  (if rc = Err.cursorEof then .ok else rc, s)

end FastKV
