import Mathlib.Data.List.Nodup
import FastKV.Arena
import FastKV.OrderedIndex

/-!
# Insertions that run out of memory

`fastkv_btree_insert` copies the key, the value and a separator and allocates a leaf, internal
nodes and a root, and it goes on after most failures: a copy that fails is the null slice, a leaf
or an internal node that is missing ends the split. What has been changed further down stays
changed. A right half that finds no place in the tree is lost to lookups, but it hangs in the
list of leaves already, so that scans still come through it.
-/

namespace FastKV

namespace BTree

open Lib

/-- `sdup`: nothing is allocated for an empty slice, and a copy that fails is the null slice. -/
def sdup (s : Bytes) (mem : List Bool) : Bytes × List Bool :=
  if s = [] then ([], mem)
  else
    let (ok, mem) := fkvMalloc mem
    (if ok then s else [], mem)

/-- What an insertion returns and leaves behind. -/
structure Inserted (α : Type) where
  /-- The node, or the children of a node, as they are now. -/
  node : α
  /-- The split that the caller has to take in. -/
  split : Split
  /-- The links of the leaves. -/
  links : List Link
  /-- Right halves that were dropped on the way. -/
  lost : List Node
  /-- The outcomes that are left. -/
  mem : List Bool

/-- The same below a list of children. -/
def Inserted.map {α β : Type} (f : α → β) (r : Inserted α) : Inserted β :=
  ⟨f r.node, r.split, r.links, r.lost, r.mem⟩

/-- `leaf_insert`. -/
def leafInsertMem (links : List Link) (addr : ℕ) (entries : List (Bytes × Bytes))
    (key val : Bytes) (mem : List Bool) : Inserted Node :=
  let i := leafLower entries key
  if leafHit entries i key then
    let (v, mem) := sdup val mem
    ⟨.leaf addr (entries.modify i fun e => (e.1, v)), none, links, [], mem⟩
  else
    let (k, mem) := sdup key mem
    let (v, mem) := sdup val mem
    let t := entries.take i ++ (k, v) :: entries.drop i
    if entries.length < leafMax then ⟨.leaf addr t, none, links, [], mem⟩
    else
      match fkvMalloc mem with
      -- without a new leaf the copies are forgotten, and nobody is told
      | (false, mem) => ⟨.leaf addr entries, none, links, [], mem⟩
      | (true, mem) =>
        let leftN := t.length / 2
        let (sep, mem) := sdup (t.getD leftN ([], [])).1 mem
        ⟨.leaf addr (t.take leftN), some (sep, .leaf links.length (t.drop leftN)),
          linkRight links addr, [], mem⟩

/-- `intr_insert` after the call for child `ci`. -/
def intrInsertMem (keys : List Bytes) (ci : ℕ) (below : Inserted (List Node)) : Inserted Node :=
  match below.split with
  | none => below.map (.intr keys)
  | some (sep, right) =>
    let (node, split) := intrAbsorb keys below.node ci sep right
    if keys.length < intrMax then ⟨node, split, below.links, below.lost, below.mem⟩
    else
      match fkvMalloc below.mem with
      -- the node itself has not been touched, but its child has been cut
      | (false, mem) => ⟨.intr keys below.node, none, below.links, right :: below.lost, mem⟩
      | (true, mem) => ⟨node, split, below.links, below.lost, mem⟩

mutual

/-- `node_insert`. -/
def nodeInsertMem (key val : Bytes) (mem : List Bool) : Node → List Link → Inserted Node
  | .leaf addr entries, links => leafInsertMem links addr entries key val mem
  | .intr keys children, links =>
    intrInsertMem keys (intrChildIdx keys key)
      (childInsertMem key val mem children (intrChildIdx keys key) links)

/-- Insert below the child with the given index, in place. -/
def childInsertMem (key val : Bytes) (mem : List Bool) :
    List Node → ℕ → List Link → Inserted (List Node)
  | [], _, links => ⟨[], none, links, [], mem⟩
  | c :: cs, 0, links => (nodeInsertMem key val mem c links).map (· :: cs)
  | c :: cs, i + 1, links => (childInsertMem key val mem cs i links).map (c :: ·)

end

end BTree

open Lib BTree

/-- A tree with the right halves that it has lost. -/
structure LeakyTree extends BTree where
  /-- Nodes that the root does not lead to any more. -/
  lost : List Node

/-- `fastkv_btree_insert`. -/
def btreeInsertMem (t : LeakyTree) (key val : Bytes) (mem : List Bool) : Err × LeakyTree :=
  let r := nodeInsertMem key val mem t.root t.links
  match r.split with
  | none => (.ok, ⟨{ t.toBTree with root := r.node, links := r.links }, r.lost ++ t.lost⟩)
  | some (sep, right) =>
    match fkvMalloc r.mem with
    | (false, _) =>
      (.nomem, ⟨{ t.toBTree with root := r.node, links := r.links }, right :: r.lost ++ t.lost⟩)
    | (true, _) =>
      (.ok, ⟨{ t.toBTree with root := .intr [sep] [r.node, right], links := r.links },
        r.lost ++ t.lost⟩)

/-- The tree as a scan meets it: it follows the links into leaves that the root does not lead to.
Under a root without separators every walk starts in the first child, which is the real root,
and the leaves of all children are there. -/
def LeakyTree.heap (t : LeakyTree) : BTree :=
  { t.toBTree with root := .intr [] (t.root :: t.lost) }

/-- What a scan hands to its callback. -/
def LeakyTree.scanned (t : LeakyTree) (min max : Slice) (dir : CursorDir) : List (Bytes × Bytes) :=
  (btreeScan t.heap min max dir collectAll []).2

/-- A call that changes a tree; an insertion comes with the outcomes of its allocations. -/
inductive MemOp
  | insert (key val : Bytes) (mem : List Bool)
  | delete (key : Bytes)

/-- Run one call. A deletion allocates nothing. -/
def MemOp.run (t : LeakyTree) : MemOp → Err × LeakyTree
  | .insert key val mem => btreeInsertMem t key val mem
  | .delete key => ((btreeDelete t.toBTree key).1, ⟨(btreeDelete t.toBTree key).2, t.lost⟩)

/-- The tree after a sequence of calls. -/
def runLeaky (ops : List MemOp) : LeakyTree :=
  ops.foldl (fun t op => (op.run t).2) ⟨btreeCreate, []⟩

/-! ## Without failures -/

namespace BTree

/-- A copy that succeeds. -/
theorem sdup_nil (s : Bytes) : sdup s [] = (s, []) := by
  unfold sdup
  split
  · rename_i h
    rw [h]
  · rfl

/-- With memory enough a leaf is changed as before. -/
theorem leafInsertMem_nil (links : List Link) (addr : ℕ) (entries : List (Bytes × Bytes))
    (key val : Bytes) : leafInsertMem links addr entries key val [] =
      ⟨(leafInsert links addr entries key val).1, (leafInsert links addr entries key val).2.1,
        (leafInsert links addr entries key val).2.2, [], []⟩ := by
  simp only [leafInsertMem, leafInsert, sdup_nil, fkvMalloc, List.headD_nil, List.tail_nil]
  split
  · rfl
  · split <;> rfl

mutual

/-- With memory enough a node is changed as before. -/
theorem nodeInsertMem_nil (key val : Bytes) : ∀ (n : Node) (links : List Link),
    nodeInsertMem key val [] n links = ⟨(nodeInsert key val n links).1,
      (nodeInsert key val n links).2.1, (nodeInsert key val n links).2.2, [], []⟩
  | .leaf addr entries, links => leafInsertMem_nil links addr entries key val
  | .intr keys children, links => by
    have hbelow := childInsertMem_nil key val children (intrChildIdx keys key) links
    rw [nodeInsertMem, nodeInsert, hbelow]
    generalize childInsert key val children (intrChildIdx keys key) links = below
    obtain ⟨cs, split, links'⟩ := below
    cases split with
    | none => rfl
    | some p =>
      obtain ⟨sep, right⟩ := p
      simp only [intrInsertMem, fkvMalloc, List.headD_nil, List.tail_nil]
      split <;> rfl

/-- So is a child of a node. -/
theorem childInsertMem_nil (key val : Bytes) : ∀ (cs : List Node) (i : ℕ) (links : List Link),
    childInsertMem key val [] cs i links = ⟨(childInsert key val cs i links).1,
      (childInsert key val cs i links).2.1, (childInsert key val cs i links).2.2, [], []⟩
  | [], _, links => rfl
  | c :: cs, 0, links => by
    rw [childInsertMem, nodeInsertMem_nil key val c links]
    rfl
  | c :: cs, i + 1, links => by
    rw [childInsertMem, childInsertMem_nil key val cs i links]
    rfl

end

end BTree

/-- With memory enough the insertion is `btreeInsert`. -/
theorem btreeInsertMem_nil (t : LeakyTree) (key val : Bytes) :
    btreeInsertMem t key val [] = (.ok, ⟨btreeInsert t.toBTree key val, t.lost⟩) := by
  unfold btreeInsertMem btreeInsert
  rw [nodeInsertMem_nil]
  generalize nodeInsert key val t.root t.links = r
  obtain ⟨root, split, links⟩ := r
  cases split with
  | none => rfl
  | some p => rfl

/-! ## The leaves -/

namespace BTree

/-- The leaves of what an insertion returns. -/
def Inserted.kept (r : Inserted Node) : List (ℕ × List (Bytes × Bytes)) :=
  splitLeaves (r.node, r.split)

/-- Inserting below a child only replaces that child. -/
theorem childInsertMem_append (key val : Bytes) (mem : List Bool) (left right : List Node)
    (c : Node) (links : List Link) :
    childInsertMem key val mem (left ++ c :: right) left.length links =
      (nodeInsertMem key val mem c links).map fun c => left ++ c :: right := by
  induction left with
  | nil => rfl
  | cons b left ih =>
    rw [List.cons_append, List.length_cons, childInsertMem, ih]
    rfl

/-- What an insertion returns and what it drops are these leaves; the former in order. -/
structure Inserted.Keeps (r : Inserted Node) (links : List Link)
    (ls : List (ℕ × List (Bytes × Bytes))) : Prop where
  /-- The links. -/
  links_eq : r.links = links
  /-- The leaves that are returned. -/
  sub : r.kept.Sublist ls
  /-- All leaves. -/
  perm : (r.kept ++ leavesList r.lost).Perm ls

/-- Others may stand around them. -/
theorem perm_between {α : Type*} {a lost all : List α} (h : (a ++ lost).Perm all)
    (left right : List α) : (left ++ (a ++ right) ++ lost).Perm (left ++ (all ++ right)) := by
  rw [List.append_assoc, List.append_assoc]
  apply List.Perm.append_left left
  have hswap : (a ++ (right ++ lost)).Perm (a ++ (lost ++ right)) :=
    List.perm_append_comm.append_left a
  rw [← List.append_assoc a lost right] at hswap
  exact hswap.trans (h.append_right right)

/-- An internal node keeps the leaves that its child keeps, and its other ones. -/
theorem Inserted.Keeps.intr {r : Inserted Node} {links : List Link}
    {ls : List (ℕ × List (Bytes × Bytes))} (h : r.Keeps links ls) {keys : List Bytes}
    {left right : List Node} (hlen : keys.length ≤ intrMax)
    (hcs : (left ++ r.node :: right).length = keys.length + 1) :
    (intrInsertMem keys left.length (r.map fun c => left ++ c :: right)).Keeps links
      (leavesList left ++ (ls ++ leavesList right)) := by
  obtain ⟨node, split, links', lost, mem⟩ := r
  obtain ⟨rfl, hsub, hperm⟩ := h
  -- whatever is returned, in one node or two, has the leaves of the children
  have hwhole : ∀ r : Inserted Node, r.links = links' → r.lost = lost →
      r.kept = leavesList left ++ (splitLeaves (node, split) ++ leavesList right) →
      r.Keeps links' (leavesList left ++ (ls ++ leavesList right)) := by
    rintro r rfl rfl hleaves
    constructor
    · rfl
    · rw [hleaves]
      exact (hsub.append_right _).append_left _
    · rw [hleaves]
      exact perm_between hperm _ _
  cases split with
  | none =>
    apply hwhole
    · rfl
    · rfl
    · change leavesList (left ++ node :: right) = _
      rw [leavesList_append, leavesList]
      rfl
  | some p =>
    obtain ⟨sep, new⟩ := p
    have habsorb : splitLeaves (intrAbsorb keys (left ++ node :: right) left.length sep new) =
        leavesList (left ++ node :: new :: right) := splitLeaves_intrAbsorb hlen hcs
    rw [leavesList_append, leavesList, leavesList, ← List.append_assoc (leaves node)] at habsorb
    simp only [intrInsertMem, Inserted.map]
    split
    · exact hwhole _ rfl rfl habsorb
    · split
      · have hleaves : leavesList (left ++ node :: right) =
            leavesList left ++ (leaves node ++ leavesList right) := by
          rw [leavesList_append, leavesList]
        have hnode : (leaves node).Sublist ls := (List.sublist_append_left _ _).trans hsub
        constructor
        · rfl
        · change (leavesList (left ++ node :: right)).Sublist _
          rw [hleaves]
          exact (hnode.append_right _).append_left _
        · change (leavesList (left ++ node :: right) ++ (leaves new ++ leavesList lost)).Perm _
          rw [hleaves]
          apply perm_between
          rw [← List.append_assoc]
          exact hperm
      · exact hwhole _ rfl rfl habsorb

/-- What happens to the leaf for a key. -/
def leafOutcome (key val : Bytes) (mem : List Bool) (n : Node) (links : List Link) :
    Inserted Node :=
  leafInsertMem links (findLeaf key n).1 (findLeaf key n).2 key val mem

/-- A leaf drops nothing. -/
theorem leafInsertMem_lost (links : List Link) (addr : ℕ) (entries : List (Bytes × Bytes))
    (key val : Bytes) (mem : List Bool) :
    (leafInsertMem links addr entries key val mem).lost = [] := by
  unfold leafInsertMem
  simp only
  split
  · rfl
  · split
    · rfl
    · split <;> rfl

/-- Whatever fails, an insertion replaces one leaf in the list of leaves. What it returns are
some of them, in order, and what it drops are the others. -/
theorem nodeInsertMem_keeps {key : Bytes} (val : Bytes) (mem : List Bool) (d : ℕ) :
    ∀ lo hi n links, Ordered d lo hi n → InRange lo hi key → ∃ left right,
      leaves n = left ++ findLeaf key n :: right ∧
      (nodeInsertMem key val mem n links).Keeps (leafOutcome key val mem n links).links
        (left ++ ((leafOutcome key val mem n links).kept ++ right)) := by
  induction d with
  | zero =>
    intro lo hi n links h _
    cases n with
    | intr keys children => cases h
    | leaf addr entries =>
      have hlost := leafInsertMem_lost links addr entries key val mem
      refine ⟨[], [], rfl, rfl, ?_, ?_⟩
      · rw [List.append_nil]
        exact List.Sublist.refl _
      · rw [nodeInsertMem, hlost, List.append_nil]
        exact (List.append_nil _).symm ▸ List.Perm.refl _
  | succ d ih =>
    intro lo hi n links h hkey
    cases n with
    | leaf addr entries => cases h
    | intr keys children =>
      obtain ⟨hlen, hchain⟩ := h
      obtain ⟨f, rfl, hci, hfind, -⟩ := hchain.search hkey
      have hgrown : leafOutcome key val mem (.intr keys (f.left ++ f.child :: f.right)) links =
          leafOutcome key val mem f.child links := by
        unfold leafOutcome
        rw [hfind]
      obtain ⟨left, right, hleaves, hkeeps⟩ := ih _ _ _ links f.holds f.inRange
      refine ⟨leavesList f.left ++ left, right ++ leavesList f.right, ?_, ?_⟩
      · rw [hfind, leaves, leavesList_append, leavesList, hleaves]
        simp
      · have hcs : (f.left ++ (nodeInsertMem key val mem f.child links).node ::
            f.right).length = keys.length + 1 := by
          rw [← hchain.length_eq]
          simp
        have hintr := hkeeps.intr hlen hcs
        rw [hgrown, nodeInsertMem, hci, childInsertMem_append]
        simpa using hintr

/-- A leaf is replaced by itself with other entries, or by itself and a new one to its right. -/
theorem leafOutcome_cases (key val : Bytes) (mem : List Bool) (n : Node) (links : List Link) :
    ((leafOutcome key val mem n links).links = links ∧
      ∃ es, (leafOutcome key val mem n links).kept = [((findLeaf key n).1, es)]) ∨
    ((leafOutcome key val mem n links).links = linkRight links (findLeaf key n).1 ∧
      ∃ es es', (leafOutcome key val mem n links).kept =
        [((findLeaf key n).1, es), (links.length, es')]) := by
  unfold leafOutcome leafInsertMem
  simp only
  split
  · exact Or.inl ⟨rfl, _, rfl⟩
  · split
    · exact Or.inl ⟨rfl, _, rfl⟩
    · split
      · exact Or.inl ⟨rfl, _, rfl⟩
      · exact Or.inr ⟨rfl, _, _, rfl⟩

/-- The elements of a sublist without repetitions are where they are. -/
theorem filter_eq_of_sublist {α : Type*} {l ls : List α} {p : α → Bool} (h : l.Sublist ls) :
    ls.Nodup → (∀ a ∈ ls, p a = true ↔ a ∈ l) → ls.filter p = l := by
  induction h with
  | slnil => exact fun _ _ => rfl
  | @cons l ls a h ih =>
    intro hnodup hp
    obtain ⟨ha, hnodup⟩ := List.nodup_cons.mp hnodup
    have hnot : ¬ p a = true := fun hpa => ha (h.subset ((hp a List.mem_cons_self).mp hpa))
    rw [List.filter_cons_of_neg hnot]
    exact ih hnodup fun b hb => hp b (List.mem_cons_of_mem _ hb)
  | @cons_cons l ls a h ih =>
    intro hnodup hp
    obtain ⟨ha, hnodup⟩ := List.nodup_cons.mp hnodup
    rw [List.filter_cons_of_pos ((hp a List.mem_cons_self).mpr List.mem_cons_self)]
    congr 1
    refine ih hnodup fun b hb => ?_
    have hne : b ≠ a := fun heq => ha (heq ▸ hb)
    rw [hp b (List.mem_cons_of_mem _ hb), List.mem_cons, or_iff_right hne]

/-- So an element of it splits the whole list as it splits the sublist. -/
theorem split_of_sublist {α : Type*} {left right ls : List α} {a : α} {p : α → Bool}
    (h : (left ++ a :: right).Sublist ls) (hnodup : ls.Nodup)
    (hp : ∀ b ∈ ls, p b = true ↔ b ∈ left ++ a :: right) :
    ∃ front back, ls = front ++ a :: back ∧ front.filter p = left ∧ back.filter p = right := by
  have hfilter := filter_eq_of_sublist h hnodup hp
  obtain ⟨front, rest, hls, hfront, hrest⟩ := List.filter_eq_append_iff.mp hfilter
  obtain ⟨skip, back, hrest', hskip, -, hback⟩ := List.filter_eq_cons_iff.mp hrest
  refine ⟨front ++ skip, back, by rw [hls, hrest', List.append_assoc], ?_, hback⟩
  rw [List.filter_append, hfront, List.filter_eq_nil_iff.mpr hskip, List.append_nil]

end BTree

/-- The links of a tree lead through the leaves of the tree, in order, and through those that it
has lost. -/
structure LeakyTree.Strung (t : LeakyTree) (ls : List (ℕ × List (Bytes × Bytes))) : Prop where
  /-- Leaves have different addresses. -/
  nodup : (ls.map Prod.fst).Nodup
  /-- They are linked in order. -/
  chained : Chained t.links (ls.map Prod.fst)
  /-- The first one is known. -/
  leftmost : (ls.map Prod.fst).head? = some t.leftmost
  /-- The leaves of the tree stand in their order. -/
  sub : (leaves t.root).Sublist ls
  /-- There are no others but the lost ones. -/
  perm : (leaves t.root ++ leavesList t.lost).Perm ls

/-- A scan meets these leaves. -/
theorem LeakyTree.Strung.heap {t : LeakyTree} {ls : List (ℕ × List (Bytes × Bytes))}
    (h : t.Strung ls) : t.heap.Strung ls := by
  have hperm : (leaves t.heap.root).Perm ls := h.perm
  constructor
  · exact h.nodup
  · exact h.chained
  · exact h.leftmost
  · intro x hx
    apply leafAt_of_mem _ (hperm.mem_iff.mpr hx)
    exact (hperm.map Prod.fst).nodup_iff.mpr h.nodup

/-- A new tree. -/
theorem strung_btreeCreate : LeakyTree.Strung ⟨btreeCreate, []⟩ [(0, [])] where
  nodup := btreeCreate_linked.nodup
  chained := btreeCreate_linked.chained
  leftmost := rfl
  sub := List.Sublist.refl _
  perm := List.Perm.refl _

/-- What the insertion makes of the root. -/
theorem btreeInsertMem_keeps {t : LeakyTree} {key val : Bytes} {mem : List Bool}
    {links : List Link} {ls : List (ℕ × List (Bytes × Bytes))}
    (h : (nodeInsertMem key val mem t.root t.links).Keeps links ls) :
    (btreeInsertMem t key val mem).2.links = links ∧
      (btreeInsertMem t key val mem).2.leftmost = t.leftmost ∧
      (leaves (btreeInsertMem t key val mem).2.root).Sublist ls ∧
      (leaves (btreeInsertMem t key val mem).2.root ++
        leavesList (btreeInsertMem t key val mem).2.lost).Perm (ls ++ leavesList t.lost) := by
  unfold btreeInsertMem
  generalize nodeInsertMem key val mem t.root t.links = r at h
  obtain ⟨node, split, links', lost, mem'⟩ := r
  obtain ⟨rfl, hsub, hperm⟩ := h
  have hall := hperm.append_right (leavesList t.lost)
  rw [List.append_assoc, ← leavesList_append] at hall
  cases split with
  | none => exact ⟨rfl, rfl, hsub, hall⟩
  | some p =>
    obtain ⟨sep, new⟩ := p
    have hwhole : leaves (.intr [sep] [node, new]) = leaves node ++ leaves new := by
      simp [leaves, leavesList]
    have hnode : (leaves node).Sublist ls := (List.sublist_append_left _ _).trans hsub
    change (leaves node ++ leaves new ++ leavesList (lost ++ t.lost)).Perm _ at hall
    simp only
    split
    · refine ⟨rfl, rfl, hnode, ?_⟩
      rw [List.append_assoc] at hall
      exact hall
    · refine ⟨rfl, rfl, ?_, ?_⟩
      · rw [hwhole]
        exact hsub
      · rw [hwhole]
        exact hall

/-- Leaves move together. -/
theorem perm_replace {α : Type*} {front back left right lost new : List α} {x : α}
    (h : (left ++ x :: right ++ lost).Perm (front ++ x :: back)) :
    (left ++ (new ++ right) ++ lost).Perm (front ++ (new ++ back)) := by
  rw [List.append_assoc, List.cons_append] at h
  have hrest := (List.perm_middle.symm.trans h).trans List.perm_middle
  have hothers : (left ++ (right ++ lost)).Perm (front ++ back) := hrest.cons_inv
  have hleft : (left ++ (new ++ right) ++ lost).Perm (new ++ (left ++ (right ++ lost))) := by
    rw [List.append_assoc, List.append_assoc, ← List.append_assoc, ← List.append_assoc new]
    exact List.perm_append_comm.append_right _
  have hright : (new ++ (front ++ back)).Perm (front ++ (new ++ back)) := by
    rw [← List.append_assoc, ← List.append_assoc]
    exact List.perm_append_comm.append_right _
  exact (hleft.trans (hothers.append_left new)).trans hright

/-- Whatever fails in an insertion, one leaf in the list of leaves has been replaced afterwards,
the one that is responsible for the key. -/
theorem LeakyTree.Strung.insert {t : LeakyTree} {ls : List (ℕ × List (Bytes × Bytes))}
    (h : t.Strung ls) (hwf : t.WellFormed) (key val : Bytes) (mem : List Bool) :
    ∃ front back, ls = front ++ findLeaf key t.root :: back ∧
      (btreeInsertMem t key val mem).2.Strung
        (front ++ ((leafOutcome key val mem t.root t.links).kept ++ back)) := by
  obtain ⟨d, hd⟩ := hwf
  obtain ⟨left, right, hleaves, hkeeps⟩ :=
    nodeInsertMem_keeps val mem d none none t.root t.links hd (InRange.full key)
  obtain ⟨hlinks, hleftmost, hsub', hperm'⟩ := btreeInsertMem_keeps hkeeps
  have hnodupLs : ls.Nodup := List.Nodup.of_map Prod.fst h.nodup
  have hsub := h.sub
  have hperm := h.perm
  rw [hleaves] at hsub hperm
  obtain ⟨front, back, hls, hfront, hback⟩ :=
    split_of_sublist hsub hnodupLs fun _ _ => decide_eq_true_iff
  refine ⟨front, back, hls, ?_⟩
  have hnodup := h.nodup
  have hchained := h.chained
  have hhead := h.leftmost
  rw [hls] at hperm hnodup hchained hhead
  rw [List.map_append, List.map_cons] at hnodup hchained hhead
  have hkept : left.Sublist front ∧ right.Sublist back :=
    ⟨hfront ▸ List.filter_sublist, hback ▸ List.filter_sublist⟩
  -- the new leaf has an address of its own
  have hlt : ∀ a ∈ front.map Prod.fst ++ (findLeaf key t.root).1 :: back.map Prod.fst,
      a < t.links.length := by
    intro a ha
    obtain ⟨l, r, hsplit⟩ := List.append_of_mem ha
    exact (List.getElem?_eq_some_iff.mp (hchained l a r hsplit)).1
  generalize btreeInsertMem t key val mem = result at hlinks hleftmost hsub' hperm' ⊢
  have hcases := leafOutcome_cases key val mem t.root t.links
  have hsubAll := hsub'.trans ((hkept.1.append ((List.Sublist.refl
    (leafOutcome key val mem t.root t.links).kept).append hkept.2)))
  have hpermAll := hperm'.trans (perm_replace hperm)
  generalize leafOutcome key val mem t.root t.links = g at hcases hlinks hsubAll hpermAll ⊢
  rcases hcases with ⟨hsame, es, hg⟩ | ⟨hnew, es, es', hg⟩
  · have haddrs : (front ++ (g.kept ++ back)).map Prod.fst =
        front.map Prod.fst ++ (findLeaf key t.root).1 :: back.map Prod.fst := by
      rw [hg]
      simp
    constructor
    · rw [haddrs]
      exact hnodup
    · rw [haddrs, hlinks, hsame]
      exact hchained
    · rw [haddrs, hleftmost]
      exact hhead
    · exact hsubAll
    · exact hpermAll
  · have haddrs : (front ++ (g.kept ++ back)).map Prod.fst = front.map Prod.fst ++
        (findLeaf key t.root).1 :: t.links.length :: back.map Prod.fst := by
      rw [hg]
      simp
    constructor
    · rw [haddrs]
      have hperm : (front.map Prod.fst ++
          (findLeaf key t.root).1 :: t.links.length :: back.map Prod.fst).Perm
          (t.links.length ::
            (front.map Prod.fst ++ (findLeaf key t.root).1 :: back.map Prod.fst)) := by
        rw [List.append_cons _ (findLeaf key t.root).1 (t.links.length :: _),
          List.append_cons _ (findLeaf key t.root).1 (back.map Prod.fst)]
        exact List.perm_middle
      refine hperm.nodup_iff.mpr (List.nodup_cons.mpr ⟨fun hmem => ?_, hnodup⟩)
      exact absurd (hlt _ hmem) (lt_irrefl _)
    · rw [haddrs, hlinks, hnew]
      exact hchained.linkRight hnodup
    · rw [haddrs, hleftmost]
      cases hf : front.map Prod.fst with
      | nil =>
        rw [hf] at hhead
        exact hhead
      | cons a as =>
        rw [hf] at hhead
        exact hhead
    · exact hsubAll
    · exact hpermAll

/-- A deletion changes the entries of one leaf. -/
theorem BTree.removeAt_leaves {key : Bytes} (i d : ℕ) : ∀ lo hi n, Ordered d lo hi n →
    InRange lo hi key → ∃ left right, leaves n = left ++ findLeaf key n :: right ∧
      leaves (removeAt key i n) = left ++ ((findLeaf key n).1,
        (findLeaf key n).2.take i ++ (findLeaf key n).2.drop (i + 1)) :: right := by
  induction d with
  | zero =>
    intro lo hi n h _
    cases n with
    | intr keys children => cases h
    | leaf addr entries => exact ⟨[], [], rfl, rfl⟩
  | succ d ih =>
    intro lo hi n h hkey
    cases n with
    | leaf addr entries => cases h
    | intr keys children =>
      obtain ⟨hlen, hchain⟩ := h
      obtain ⟨f, rfl, hci, hfind, -⟩ := hchain.search hkey
      obtain ⟨left, right, hleaves, hremoved⟩ := ih _ _ _ f.holds f.inRange
      refine ⟨leavesList f.left ++ left, right ++ leavesList f.right, ?_, ?_⟩
      · rw [hfind, leaves, leavesList_append, leavesList, hleaves]
        simp
      · rw [hfind, removeAt, hci, removeAtChild_append, leaves, leavesList_append, leavesList,
          hremoved]
        simp

/-- A deletion keeps all leaves and their links. -/
theorem LeakyTree.Strung.delete {t : LeakyTree} {ls : List (ℕ × List (Bytes × Bytes))}
    (h : t.Strung ls) (hwf : t.WellFormed) (key : Bytes) :
    ∃ ls', LeakyTree.Strung ⟨(btreeDelete t.toBTree key).2, t.lost⟩ ls' := by
  obtain ⟨d, hd⟩ := hwf
  unfold btreeDelete
  simp only
  split
  · obtain ⟨left, right, hleaves, hremoved⟩ := removeAt_leaves
      (leafLower (findLeaf key t.root).2 key) d none none t.root hd (InRange.full key)
    have hnodupLs : ls.Nodup := List.Nodup.of_map Prod.fst h.nodup
    have hsub := h.sub
    have hperm := h.perm
    rw [hleaves] at hsub hperm
    obtain ⟨front, back, hls, hfront, hback⟩ :=
      split_of_sublist hsub hnodupLs fun _ _ => decide_eq_true_iff
    rw [hls] at hperm
    generalize hes : (findLeaf key t.root).2.take (leafLower (findLeaf key t.root).2 key) ++
      (findLeaf key t.root).2.drop (leafLower (findLeaf key t.root).2 key + 1) = es at hremoved
    have haddrs : (front ++ ([((findLeaf key t.root).1, es)] ++ back)).map Prod.fst =
        ls.map Prod.fst := by
      rw [hls]
      simp
    have hkept : left.Sublist front ∧ right.Sublist back :=
      ⟨hfront ▸ List.filter_sublist, hback ▸ List.filter_sublist⟩
    refine ⟨front ++ ([((findLeaf key t.root).1, es)] ++ back), ?_, ?_, ?_, ?_, ?_⟩
    · rw [haddrs]
      exact h.nodup
    · rw [haddrs]
      exact h.chained
    · rw [haddrs]
      exact h.leftmost
    · rw [hremoved]
      exact hkept.1.append (hkept.2.cons_cons _)
    · have hmoved : (left ++ ([((findLeaf key t.root).1, es)] ++ right) ++
          leavesList t.lost).Perm (front ++ ([((findLeaf key t.root).1, es)] ++ back)) :=
        perm_replace hperm
      rw [hremoved]
      exact hmoved
  · exact ⟨ls, h.nodup, h.chained, h.leftmost, h.sub, h.perm⟩

/-! ## Scans -/

/-- A scan without bounds hands out the entries of all linked leaves, ordered or not. -/
theorem BTree.Strung.collect {t : BTree} {ls : List (ℕ × List (Bytes × Bytes))}
    (h : t.Strung ls) :
    (btreeScan t none none .forward collectAll []).2 = ls.flatMap Prod.snd := by
  obtain ⟨x, path, hls, hx⟩ := h.exists_cons
  have hsplit : ls = [] ++ x :: path := hls
  have hscan := scanFrom_eq t Link.next id
    (fun k => (none : Slice).any fun m => decide (BTree.cmp k m = Ordering.gt)) collectAll x.2
    (h.length_path hsplit).2 (by rw [h.neighbours hsplit]) (h.forward hsplit) []
  have hstart : BTree.leafAt t.leftmost t.root = some x.2 := by
    rw [← hx]
    exact h.leafAt x (by rw [hls]; exact List.mem_cons_self)
  unfold btreeScan
  simp only [hstart, Option.getD_some]
  rw [hx] at hscan
  have hall : ∀ es : List (Bytes × Bytes), es.takeWhile (fun e => !(none : Slice).any fun m =>
      decide (BTree.cmp e.1 m = Ordering.gt)) = es := by
    intro es
    induction es with
    | nil => rfl
    | cons e es ih => exact congrArg (e :: ·) ih
  rw [hscan, hall, feed_collectAll, hls]
  rfl

/-- What a scan of a tree with lost leaves meets. -/
theorem LeakyTree.Strung.scanned {t : LeakyTree} {ls : List (ℕ × List (Bytes × Bytes))}
    (h : t.Strung ls) : t.scanned none none .forward = ls.flatMap Prod.snd := h.heap.collect

/-- The tree is an ordered map, and the leaves that it has lost are empty. -/
structure LeakyTree.Holds (t : LeakyTree) (m : Bytes → Option Bytes) : Prop where
  /-- Keys are in order. -/
  wellFormed : t.WellFormed
  /-- The links lead through all leaves. -/
  strung : ∃ ls, t.Strung ls
  /-- Nothing is lost. -/
  nothing_lost : contentsList t.lost = []
  /-- The entries are those of the map. -/
  find : ∀ key, Lib.find t.toMap key = m key

/-- Leaves without entries may be left out. -/
theorem flatMap_filter_eq {ls : List (ℕ × List (Bytes × Bytes))}
    {p : ℕ × List (Bytes × Bytes) → Bool} (h : ∀ x ∈ ls, p x = false → x.2 = []) :
    (ls.filter p).flatMap Prod.snd = ls.flatMap Prod.snd := by
  induction ls with
  | nil => rfl
  | cons x ls ih =>
    have hrest := ih fun y hy => h y (List.mem_cons_of_mem _ hy)
    cases hp : p x with
    | true => rw [List.filter_cons_of_pos hp, List.flatMap_cons, List.flatMap_cons, hrest]
    | false =>
      rw [List.filter_cons_of_neg (by simp [hp]), List.flatMap_cons, hrest,
        h x List.mem_cons_self hp, List.nil_append]

/-- Its scans see the leaves in order, with the entries of the map. -/
theorem LeakyTree.Holds.laid {t : LeakyTree} {m : Bytes → Option Bytes} (h : t.Holds m)
    {ls : List (ℕ × List (Bytes × Bytes))} (hls : t.Strung ls) :
    t.heap.Laid ls ∧ ls.flatMap Prod.snd = t.toMap := by
  have hnodup : ls.Nodup := List.Nodup.of_map Prod.fst hls.nodup
  have hempty : ∀ x ∈ ls, decide (x ∈ leaves t.root) = false → x.2 = [] := by
    intro x hx hout
    rcases List.mem_append.mp (hls.perm.mem_iff.mpr hx) with hin | hlost
    · rw [decide_eq_true hin] at hout
      cases hout
    · have hnone := h.nothing_lost
      rw [contentsList_eq_leaves, List.flatMap_eq_nil_iff] at hnone
      exact hnone x hlost
  have hmap : ls.flatMap Prod.snd = t.toMap := by
    rw [← flatMap_filter_eq hempty,
      filter_eq_of_sublist hls.sub hnodup fun _ _ => decide_eq_true_iff, BTree.toMap,
      contents_eq_leaves]
  -- a leaf of the tree splits the list as it splits the leaves of the tree
  have hsplit : ∀ left x right, leaves t.root = left ++ x :: right → ∃ front back,
      ls = front ++ x :: back ∧ front.flatMap Prod.snd = left.flatMap Prod.snd ∧
        back.flatMap Prod.snd = right.flatMap Prod.snd := by
    intro left x right hleaves
    have hsub := hls.sub
    rw [hleaves] at hsub
    obtain ⟨front, back, heq, hfront, hback⟩ := split_of_sublist hsub hnodup
      fun b _ => (decide_eq_true_iff (p := b ∈ leaves t.root)).trans (by rw [hleaves])
    refine ⟨front, back, heq, ?_, ?_⟩
    · rw [← hfront]
      exact (flatMap_filter_eq fun y hy => hempty y (by rw [heq]; simp [hy])).symm
    · rw [← hback]
      exact (flatMap_filter_eq fun y hy => hempty y (by rw [heq]; simp [hy])).symm
  obtain ⟨d, hd⟩ := h.wellFormed
  refine ⟨⟨hls.heap, ?_, fun key => ?_, ?_⟩, hmap⟩
  · rw [hmap]
    exact h.wellFormed.sorted
  · obtain ⟨left, right, hleaves, -, hleft, hright⟩ :=
      findLeaf_leaves d none none t.root hd (InRange.full key)
    obtain ⟨front, back, heq, hfront, hback⟩ := hsplit _ _ _ hleaves
    refine ⟨front, back, heq, ?_, ?_⟩
    · rw [hfront]
      exact hleft
    · rw [hback]
      exact hright
  · obtain ⟨left, hleaves⟩ := lastLeaf_leaves d none none t.root hd
    obtain ⟨front, back, heq, -, hback⟩ := hsplit left (lastLeaf t.root) [] hleaves
    exact ⟨front, back, heq, hback⟩

/-- A lookup reads the map. -/
theorem LeakyTree.Holds.get {t : LeakyTree} {m : Bytes → Option Bytes} (h : t.Holds m)
    (key : Bytes) : btreeGet t.toBTree key = lookupResult (m key) := by
  rw [btreeGet_eq h.wellFormed, h.find]
  cases m key <;> rfl

/-- A scan hands out the entries of the tree between its bounds. -/
theorem LeakyTree.Holds.scan {t : LeakyTree} {m : Bytes → Option Bytes} (h : t.Holds m)
    (min max : Slice) (dir : CursorDir) : t.scanned min max dir = match dir with
      | .forward => between min max t.toMap
      | .backward => (between min max t.toMap).reverse := by
  obtain ⟨ls, hls⟩ := h.strung
  obtain ⟨hlaid, hmap⟩ := h.laid hls
  unfold LeakyTree.scanned
  cases dir with
  | forward =>
    rw [hlaid.scan_forward, feed_collectAll, hmap]
    rfl
  | backward =>
    rw [hlaid.scan_backward, feed_collectAll, hmap]
    rfl

end FastKV
