import FastKV.Arena
import FastKV.RTreeQuery

/-!
# R-tree insertions that run out of memory

A split asks for two nodes, the root for one more if it is split, and the insertion first of all
for a copy of the key. A split for which memory is short gives up without an error: the node
keeps the entries it had, the new one is dropped with whatever is below it, and the rectangle
that the caller writes beside the node is the zero rectangle. As without failures, there is no
result if a split leaves its arrays.
-/

namespace FastKV.RTree

open Lib

variable {α β : Type} [LinearOrder α] [Doubles α] {n : ℕ}

/-! ## Insertion with outcomes of the allocations -/

/-- `left_entry` before it is filled in. -/
def zeroRect : Rect α n := ⟨fun _ => Doubles.zero, fun _ => Doubles.zero⟩

/-- `rtree_insert_leaf` and the end of `rtree_insert_internal`, for the outcomes of the next
allocations. -/
def addEntryMem (es : List (REntry α n β)) (e : REntry α n β) (mem : List Bool) :
    Option (Grown α n (List (REntry α n β)) × List Bool) :=
  if es.length < rtMax then some (⟨es ++ [e], nodeRecomputeMbr (es ++ [e]), none⟩, mem)
  else
    let (leftTmp, mem) := fkvMalloc mem
    let (right, mem) := fkvMalloc mem
    if !leftTmp || !right then some (⟨es, zeroRect, none⟩, mem)
    else (linearSplit es e).map fun halves =>
      (⟨halves.1, nodeRecomputeMbr halves.1, some halves.2⟩, mem)

/-- `rtree_insert_internal` after the insertion into the child `ci`. -/
def absorbMem (mbr : β → Rect α n) (es : List (REntry α n β)) (ci : ℕ)
    (child : Grown α n β × List Bool) : Option (Grown α n (List (REntry α n β)) × List Bool) :=
  let es := es.set ci ⟨child.1.leftEntry, child.1.node⟩
  match child.1.right with
  | none => some (⟨es, nodeRecomputeMbr es, none⟩, child.2)
  | some right => addEntryMem es ⟨mbr right, right⟩ child.2

/-- `rtree_insert_internal`, given the insertion into a child. -/
def insertInternalMem (insert : β → List Bool → Option (Grown α n β × List Bool))
    (mbr : β → Rect α n) (es : List (REntry α n β)) (rect : Rect α n) (mem : List Bool) :
    Option (Grown α n (List (REntry α n β)) × List Bool) :=
  let ci := chooseChild es rect
  match es[ci]? with
  | none => none
  | some c => (insert c.item mem).bind (absorbMem mbr es ci)

/-- `rtree_insert_rec`. -/
def insertRecMem (e : LeafEntry α n) : (h : ℕ) → RNode α n h → List Bool →
    Option (Grown α n (RNode α n h) × List Bool)
  | 0, es, mem => addEntryMem es e mem
  | h + 1, es, mem => insertInternalMem (insertRecMem e h) (RNode.mbr h) es e.rect mem

/-- `fastkv_rtree_insert`. If there is no new root, the node split off the old one is freed. -/
def rtreeInsertMem (t : Tree α n) (rect : Rect α n) (key : Slice) (mem : List Bool) :
    Option (Err × Tree α n) :=
  match key with
  | none => some (.inval, t)
  | some key =>
    let (kdata, mem) := fkvMalloc mem
    if !kdata then some (.nomem, t)
    else
      (insertRecMem ⟨rect, key⟩ t.height t.root mem).map fun s =>
        match s.1.right with
        | none => (.ok, ⟨t.height, s.1.node⟩)
        | some right =>
          if !(fkvMalloc s.2).1 then (.nomem, ⟨t.height, s.1.node⟩)
          else (.ok, newRoot t.height s.1.node right)

/-- The nodes that an insertion leaves. -/
def insertedMem (e : LeafEntry α n) (h : ℕ) (node : RNode α n h) (mem : List Bool) :
    Option (Grown α n (RNode α n h)) := (insertRecMem e h node mem).map Prod.fst

/-! ## What the allocations decide -/

/-- The next allocations succeed. -/
def succeed (k : ℕ) (mem : List Bool) : Bool := (mem.take k).all id

/-- Allocations in a row. -/
theorem succeed_add (k m : ℕ) (mem : List Bool) :
    succeed (k + m) mem = (succeed k mem && succeed m (mem.drop k)) := by
  rw [succeed, List.take_add, List.all_append]
  rfl

/-- One allocation. -/
theorem fkvMalloc_eq (mem : List Bool) : fkvMalloc mem = (succeed 1 mem, mem.drop 1) := by
  cases mem with
  | nil => rfl
  | cons b mem => simp [fkvMalloc, succeed]

/-- An entry is taken in as if nothing could fail, or the node stays as it is. -/
theorem addEntryMem_eq (es : List (REntry α n β)) (e : REntry α n β) (mem : List Bool) :
    addEntryMem es e mem =
      if es.length < rtMax then (addEntry es e).map fun g => (g, mem)
      else if succeed 2 mem then (addEntry es e).map fun g => (g, mem.drop 2)
      else some (⟨es, zeroRect, none⟩, mem.drop 2) := by
  unfold addEntryMem addEntry
  split
  · rfl
  · have htwo : succeed 2 mem = (succeed 1 mem && succeed 1 (mem.drop 1)) := succeed_add 1 1 mem
    simp only [fkvMalloc_eq, List.drop_drop, Option.map_map]
    rw [htwo]
    cases succeed 1 mem with
    | false => rfl
    | true =>
      cases succeed 1 (mem.drop 1) with
      | false => rfl
      | true => rfl

/-- A node is split off only if the node was full and both allocations have succeeded. -/
theorem addEntryMem_right {es : List (REntry α n β)} {e : REntry α n β} {mem rest : List Bool}
    {g : Grown α n (List (REntry α n β))} {right : List (REntry α n β)}
    (h : addEntryMem es e mem = some (g, rest)) (hright : g.right = some right) :
    succeed 2 mem = true ∧ rest = mem.drop 2 ∧ addEntry es e = some g := by
  rw [addEntryMem_eq] at h
  split at h
  · rename_i hlt
    rw [addEntry, if_pos hlt] at h
    cases h
    cases hright
  · split at h
    · rename_i hok
      obtain ⟨g', hg', heq⟩ := Option.map_eq_some_iff.mp h
      cases heq
      exact ⟨hok, rfl, hg'⟩
    · cases h
      cases hright

/-- A node takes the entry in as if nothing could fail, or it is full and stays as it is. -/
theorem addEntryMem_cases (es : List (REntry α n β)) (e : REntry α n β) (mem : List Bool) :
    ((es.length < rtMax ∨ succeed 2 mem = true) ∧
        (addEntryMem es e mem).map Prod.fst = addEntry es e) ∨
      rtMax ≤ es.length ∧ succeed 2 mem = false ∧
        (addEntryMem es e mem).map Prod.fst = some ⟨es, zeroRect, none⟩ := by
  have hfst : ∀ rest : List Bool,
      ((addEntry es e).map fun g => (g, rest)).map Prod.fst = addEntry es e := fun rest => by
    rw [Option.map_map]
    exact Option.map_id'
  rw [addEntryMem_eq]
  split
  · rename_i hroom
    exact Or.inl ⟨Or.inl hroom, hfst mem⟩
  · rename_i hfull
    cases succeed 2 mem with
    | true => exact Or.inl ⟨Or.inr rfl, hfst _⟩
    | false => exact Or.inr ⟨Nat.le_of_not_lt hfull, rfl, rfl⟩

/-- If both allocations succeed, nothing fails. -/
theorem addEntryMem_ok {es : List (REntry α n β)} {e : REntry α n β} {mem : List Bool}
    (h : succeed 2 mem = true) : (addEntryMem es e mem).map Prod.fst = addEntry es e := by
  rcases addEntryMem_cases es e mem with ⟨-, heq⟩ | ⟨-, hfail, -⟩
  · exact heq
  · rw [h] at hfail
    cases hfail

/-- An insertion into a node above the leaves. -/
theorem insertRecMem_internal (e : LeafEntry α n) {h : ℕ} (es : List (REntry α n (RNode α n h)))
    (mem : List Bool) : insertRecMem e (h + 1) es mem =
      insertInternalMem (insertRecMem e h) (RNode.mbr h) es e.rect mem := rfl

/-- A node is split off only if every level has split and every allocation has succeeded. Then
the insertion has gone as if nothing could fail. -/
theorem insertRecMem_right (e : LeafEntry α n) : ∀ (h : ℕ) {node : RNode α n h}
    {mem rest : List Bool} {g : Grown α n (RNode α n h)} {right : RNode α n h},
    insertRecMem e h node mem = some (g, rest) → g.right = some right →
      succeed (2 * (h + 1)) mem = true ∧ rest = mem.drop (2 * (h + 1)) ∧
        insertRec e h node = some g := by
  intro h
  induction h with
  | zero => exact fun hg hright => addEntryMem_right hg hright
  | succ h ih =>
    intro (es : List (REntry α n (RNode α n h))) mem rest
      (g : Grown α n (List (REntry α n (RNode α n h)))) right hg hright
    have hsum : 2 * (h + 1 + 1) = 2 * (h + 1) + 2 := by omega
    rw [insertRecMem_internal, insertInternalMem] at hg
    rw [insertRec_internal, insertInternal]
    cases hget : es[chooseChild es e.rect]? with
    | none =>
      simp only [hget] at hg
      cases hg
    | some c =>
      simp only [hget] at hg ⊢
      obtain ⟨⟨child, left⟩, hchild, habsorb⟩ := Option.bind_eq_some_iff.mp hg
      unfold absorbMem at habsorb
      cases hsplit : child.right with
      | none =>
        simp only [hsplit] at habsorb
        cases habsorb
        cases hright
      | some split =>
        obtain ⟨hok, rfl, hplain⟩ := ih hchild hsplit
        simp only [hsplit] at habsorb
        obtain ⟨hok', rfl, hadd⟩ := addEntryMem_right habsorb hright
        rw [hsum, succeed_add, hok, List.drop_drop, hplain, Option.bind_some]
        exact ⟨hok', rfl, (absorb_of_some hsplit).trans hadd⟩

/-- If all allocations for splits succeed, the insertion goes as if nothing could fail. -/
theorem insertRecMem_ok (e : LeafEntry α n) : ∀ (h : ℕ) {node : RNode α n h} {mem : List Bool},
    succeed (2 * (h + 1)) mem = true → insertedMem e h node mem = insertRec e h node := by
  intro h
  induction h with
  | zero => exact fun {node mem} hok => addEntryMem_ok hok
  | succ h ih =>
    intro (es : List (REntry α n (RNode α n h))) mem hok
    have hsum : 2 * (h + 1 + 1) = 2 * (h + 1) + 2 := by omega
    rw [hsum, succeed_add, Bool.and_eq_true] at hok
    unfold insertedMem
    rw [insertRecMem_internal, insertRec_internal, insertInternalMem, insertInternal]
    cases hget : es[chooseChild es e.rect]? with
    | none => rfl
    | some c =>
      have heq : insertedMem e h c.item mem = insertRec e h c.item := ih hok.1
      simp only
      rw [← heq, insertedMem]
      cases hchild : insertRecMem e h c.item mem with
      | none => rfl
      | some r =>
        obtain ⟨child, rest⟩ := r
        rw [Option.bind_some, Option.map_some, Option.bind_some, absorbMem]
        cases hsplit : child.right with
        | none =>
          rw [absorb_of_none hsplit]
          rfl
        | some right =>
          obtain ⟨-, rfl, -⟩ := insertRecMem_right e h hchild hsplit
          rw [absorb_of_some hsplit]
          exact addEntryMem_ok hok.2

/-- If every allocation succeeds, the insertion is the one in which nothing can fail. -/
theorem rtreeInsertMem_ok {t : Tree α n} {mem : List Bool}
    (hok : succeed (1 + (2 * (t.height + 1) + 1)) mem = true) (rect : Rect α n) (key : Slice) :
    rtreeInsertMem t rect key mem = rtreeInsert t rect key := by
  cases key with
  | none => rfl
  | some key =>
    rw [succeed_add, succeed_add, Bool.and_eq_true, Bool.and_eq_true] at hok
    obtain ⟨hkey, hsplits, hroot⟩ := hok
    have heq : insertedMem ⟨rect, key⟩ t.height t.root (mem.drop 1) =
        insertRec ⟨rect, key⟩ t.height t.root := insertRecMem_ok _ _ hsplits
    unfold rtreeInsertMem rtreeInsert
    simp only [fkvMalloc_eq, hkey, Bool.not_true, Bool.false_eq_true, if_false]
    rw [← heq, insertedMem, Option.map_map]
    refine Option.map_congr fun r hr => ?_
    obtain ⟨g, rest⟩ := r
    cases hright : g.right with
    | none => simp only [Function.comp_apply, hright]
    | some right =>
      obtain ⟨-, rfl, -⟩ := insertRecMem_right _ _ hr hright
      simp only [Function.comp_apply, hright, hroot, Bool.not_true, Bool.false_eq_true, if_false]

/-- The sizes of a node and of everything below are right. -/
abbrev RNode.Fits : (h : ℕ) → RNode α n h → Prop := RNode.ShapedBy fun _ _ => []

/-- The number of leaf entries in the nodes that an insertion leaves. -/
def Grown.size {h : ℕ} (g : Grown α n (RNode α n h)) : ℕ :=
  (RNode.entries h g.node).length + ((g.right.map (RNode.entries h)).getD []).length

end FastKV.RTree
