import FastKV.BTreeOrder

/-!
# The list of leaves

Scans follow the links between leaves and never come back to the tree. The leaves of a tree
from left to right are the list that the links are meant to represent: every leaf is linked
to its neighbours in that list. An insertion adds at most one leaf, right behind the leaf
that was split, and `linkRight` makes the same change to the links; a deletion keeps all
leaves, also those that it empties.
-/

namespace FastKV.BTree

open Lib

/-! ## The leaves of a node -/

mutual

/-- Address and entries of the leaves below a node, from left to right. -/
def leaves : Node → List (ℕ × List (Bytes × Bytes))
  | .leaf addr entries => [(addr, entries)]
  | .intr _ children => leavesList children

/-- The leaves below a list of nodes. -/
def leavesList : List Node → List (ℕ × List (Bytes × Bytes))
  | [] => []
  | c :: cs => leaves c ++ leavesList cs

end

/-- Leaves of consecutive children. -/
theorem leavesList_append (left right : List Node) :
    leavesList (left ++ right) = leavesList left ++ leavesList right := by
  induction left with
  | nil => rfl
  | cons c cs ih => simp [leavesList, ih]

mutual

/-- The contents are the entries of the leaves. -/
theorem contents_eq_leaves : ∀ n : Node, contents n = (leaves n).flatMap Prod.snd
  | .leaf addr entries => by simp [contents, leaves]
  | .intr keys children => by
    rw [contents, leaves]
    exact contentsList_eq_leaves children

/-- The contents of a list of nodes are the entries of their leaves. -/
theorem contentsList_eq_leaves :
    ∀ cs : List Node, contentsList cs = (leavesList cs).flatMap Prod.snd
  | [] => rfl
  | c :: cs => by
    rw [contentsList, leavesList, List.flatMap_append, contents_eq_leaves c,
      contentsList_eq_leaves cs]

end

mutual

/-- Looking for an address finds the first leaf with it. -/
theorem leafAt_eq (addr : ℕ) : ∀ n : Node,
    leafAt addr n = ((leaves n).find? fun x => decide (x.1 = addr)).map Prod.snd
  | .leaf a entries => by
    by_cases h : a = addr <;> simp [leafAt, leaves, h]
  | .intr keys children => by
    rw [leafAt, leaves]
    exact leafAtList_eq addr children

/-- Looking for an address in a list of nodes finds the first leaf with it. -/
theorem leafAtList_eq (addr : ℕ) : ∀ cs : List Node,
    leafAtList addr cs = ((leavesList cs).find? fun x => decide (x.1 = addr)).map Prod.snd
  | [] => rfl
  | c :: cs => by
    rw [leafAtList, leavesList, List.find?_append, leafAt_eq addr c, leafAtList_eq addr cs]
    cases (leaves c).find? fun x => decide (x.1 = addr) <;> rfl

end

/-- The addresses of the leaves below a node. -/
def addrs (n : Node) : List ℕ := (leaves n).map Prod.fst

/-- The addresses of the leaves below a list of nodes. -/
def addrsList (cs : List Node) : List ℕ := (leavesList cs).map Prod.fst

@[simp] theorem addrs_leaf (addr : ℕ) (entries : List (Bytes × Bytes)) :
    addrs (.leaf addr entries) = [addr] := rfl

@[simp] theorem addrs_intr (keys : List Bytes) (children : List Node) :
    addrs (.intr keys children) = addrsList children := rfl

@[simp] theorem addrsList_nil : addrsList [] = [] := rfl

@[simp] theorem addrsList_cons (c : Node) (cs : List Node) :
    addrsList (c :: cs) = addrs c ++ addrsList cs := List.map_append

@[simp] theorem addrsList_append (left right : List Node) :
    addrsList (left ++ right) = addrsList left ++ addrsList right := by
  rw [addrsList, leavesList_append, List.map_append]
  rfl

/-- With different addresses a leaf is found under its own. -/
theorem leafAt_of_mem {n : Node} (hnodup : (addrs n).Nodup) {x : ℕ × List (Bytes × Bytes)}
    (hx : x ∈ leaves n) : leafAt x.1 n = some x.2 := by
  rw [leafAt_eq]
  obtain ⟨left, right, hsplit⟩ := List.append_of_mem hx
  have hleft : ∀ y ∈ left, y.1 ≠ x.1 := by
    intro y hy heq
    rw [addrs, hsplit, List.map_append, List.map_cons, List.nodup_append] at hnodup
    exact hnodup.2.2 y.1 (List.mem_map_of_mem hy) x.1 (by simp) heq
  have hnone : left.find? (fun y => decide (y.1 = x.1)) = none := by
    rw [List.find?_eq_none]
    intro y hy
    simpa using hleft y hy
  rw [hsplit, List.find?_append, hnone, Option.none_or, List.find?_cons_of_pos (by simp)]
  rfl

/-! ## Links -/

/-- Every leaf of the list is linked to its neighbours. -/
def Chained (links : List Link) (as : List ℕ) : Prop :=
  ∀ left a right, as = left ++ a :: right → links[a]? = some ⟨left.getLast?, right.head?⟩

/-- The links after a new leaf was put to the right of another, at addresses of old leaves. -/
theorem getElem?_linkRight {links : List Link} {addr i : ℕ} {prev next : Option ℕ}
    (haddr : links[addr]? = some ⟨prev, next⟩) (hi : i < links.length)
    (hnext : ∀ n ∈ next, n ≠ addr) :
    (linkRight links addr)[i]? =
      if i = addr then some ⟨prev, some links.length⟩
      else if next = some i then (links[i]?).map fun l => { l with prev := some links.length }
      else links[i]? := by
  have hlt : addr < links.length := (List.getElem?_eq_some_iff.mp haddr).1
  have hget : (links.getD addr ⟨none, none⟩).next = next := by
    rw [List.getD_eq_getElem?_getD, haddr]
    rfl
  simp only [linkRight, hget]
  by_cases hia : i = addr
  · subst hia
    rw [if_pos rfl]
    cases next with
    | none =>
      simp only [List.getElem?_modify, if_true, List.getElem?_append_left hi, haddr]
      rfl
    | some n =>
      have hne : ¬ n = i := hnext n rfl
      simp only [List.getElem?_modify, if_true, if_neg hne, List.getElem?_append_left hi, haddr]
      rfl
  · have hia' : ¬ addr = i := fun h => hia h.symm
    rw [if_neg hia]
    cases next with
    | none =>
      simp only [List.getElem?_modify, if_neg hia', List.getElem?_append_left hi, reduceCtorEq,
        if_false]
      cases links[i]? <;> rfl
    | some n =>
      simp only [List.getElem?_modify, if_neg hia', List.getElem?_append_left hi, Option.some.injEq]
      by_cases hn : n = i
      · simp only [if_pos hn]
        cases links[i]? <;> rfl
      · simp only [if_neg hn]
        cases links[i]? <;> rfl

/-- The links of the new leaf itself. -/
theorem getElem?_linkRight_new {links : List Link} {addr : ℕ} {prev next : Option ℕ}
    (haddr : links[addr]? = some ⟨prev, next⟩) (hnext : ∀ n ∈ next, n < links.length) :
    (linkRight links addr)[links.length]? = some ⟨some addr, next⟩ := by
  have hlt : addr < links.length := (List.getElem?_eq_some_iff.mp haddr).1
  have hget : (links.getD addr ⟨none, none⟩).next = next := by
    rw [List.getD_eq_getElem?_getD, haddr]
    rfl
  have hne : ¬ addr = links.length := by omega
  simp only [linkRight, hget]
  cases next with
  | none =>
    simp only [List.getElem?_modify, if_neg hne]
    simp
  | some n =>
    have hne' : ¬ n = links.length := by
      have := hnext n rfl
      omega
    simp only [List.getElem?_modify, if_neg hne, if_neg hne']
    simp

/-- Where an element can stand in a list with two marked consecutive elements. -/
theorem split_of_eq {α : Type*} {left right l r : List α} {a n b : α}
    (h : left ++ a :: n :: right = l ++ b :: r) :
    (∃ mid, left = l ++ b :: mid ∧ r = mid ++ a :: n :: right) ∨
      (l = left ∧ b = a ∧ r = n :: right) ∨ (l = left ++ [a] ∧ b = n ∧ r = right) ∨
      ∃ mid, right = mid ++ b :: r ∧ l = left ++ a :: n :: mid := by
  rcases List.append_eq_append_iff.mp h with ⟨mid, rfl, hr⟩ | ⟨mid, rfl, hr⟩
  · match mid, hr with
    | [], hr =>
      rw [List.nil_append, List.cons.injEq] at hr
      exact Or.inr (Or.inl ⟨by simp, hr.1.symm, hr.2.symm⟩)
    | [c], hr =>
      rw [List.singleton_append, List.cons.injEq, List.cons.injEq] at hr
      obtain ⟨rfl, rfl, rfl⟩ := hr
      exact Or.inr (Or.inr (Or.inl ⟨rfl, rfl, rfl⟩))
    | c :: d :: mid, hr =>
      rw [List.cons_append, List.cons_append, List.cons.injEq, List.cons.injEq] at hr
      obtain ⟨rfl, rfl, rfl⟩ := hr
      exact Or.inr (Or.inr (Or.inr ⟨mid, rfl, rfl⟩))
  · match mid, hr with
    | [], hr =>
      rw [List.nil_append, List.cons.injEq] at hr
      exact Or.inr (Or.inl ⟨by simp, hr.1, hr.2⟩)
    | c :: mid, hr =>
      rw [List.cons_append, List.cons.injEq] at hr
      exact Or.inl ⟨mid, by rw [hr.1], hr.2⟩

/-- Linking a new leaf behind another adds it to the list there. -/
theorem Chained.linkRight {links : List Link} {left right : List ℕ} {a : ℕ}
    (h : Chained links (left ++ a :: right)) (hnodup : (left ++ a :: right).Nodup) :
    Chained (linkRight links a) (left ++ a :: links.length :: right) := by
  have haddr := h left a right rfl
  have hlt : ∀ b ∈ left ++ a :: right, b < links.length := by
    intro b hb
    obtain ⟨l, r, hsplit⟩ := List.append_of_mem hb
    exact (List.getElem?_eq_some_iff.mp (h l b r hsplit)).1
  have hnext : ∀ n ∈ right.head?, n ∈ right := fun n hn => List.mem_of_mem_head? hn
  obtain ⟨-, hright, hdisj⟩ := List.nodup_append.mp hnodup
  obtain ⟨ha, hnodupr⟩ := List.nodup_cons.mp hright
  have hne : ∀ n ∈ right.head?, n ≠ a := fun n hn heq => ha (heq ▸ hnext n hn)
  -- an old leaf other than the split one and its right neighbour keeps its links
  have hkeep : ∀ b ∈ left ++ a :: right, b ≠ a → right.head? ≠ some b →
      (BTree.linkRight links a)[b]? = links[b]? := by
    intro b hb hba hbn
    rw [getElem?_linkRight haddr (hlt b hb) hne, if_neg hba, if_neg hbn]
  intro l b r hsplit
  rcases split_of_eq hsplit with
    ⟨mid, rfl, rfl⟩ | ⟨rfl, rfl, rfl⟩ | ⟨rfl, rfl, rfl⟩ | ⟨mid, rfl, rfl⟩
  · have hba : b ≠ a := hdisj b (by simp) a (by simp)
    have hbn : right.head? ≠ some b := fun hb => hdisj b (by simp) b (by simp [hnext b hb]) rfl
    rw [hkeep b (by simp) hba hbn, h l b (mid ++ a :: right) (by simp)]
    cases mid <;> rfl
  · rw [getElem?_linkRight haddr (hlt b (by simp)) hne, if_pos rfl]
    rfl
  · rw [getElem?_linkRight_new haddr fun n hn => hlt n (by simp [hnext n hn])]
    simp
  · have hba : b ≠ a := fun heq => ha (heq ▸ by simp)
    have hold := h (left ++ a :: mid) b r (by simp)
    cases mid with
    | nil =>
      rw [getElem?_linkRight haddr (hlt b (by simp)) hne, if_neg hba, List.nil_append,
        List.head?_cons, if_pos rfl, hold]
      simp
    | cons m mid =>
      have hbn : ((m :: mid) ++ b :: r).head? ≠ some b := by
        rw [List.cons_append, List.nodup_cons] at hnodupr
        rw [List.cons_append, List.head?_cons, ne_eq, Option.some.injEq]
        exact fun heq => hnodupr.1 (by simp [heq])
      rw [hkeep b (by simp) hba hbn, hold]
      simp

/-! ## Insertion -/

/-- What an insertion does to the list of leaves and to the links: nothing, or a new leaf
behind an old one. -/
def Grows (links : List Link) (before after : List ℕ) (links' : List Link) : Prop :=
  (after = before ∧ links' = links) ∨ ∃ left a right, before = left ++ a :: right ∧
    after = left ++ a :: links.length :: right ∧ links' = linkRight links a

/-- The same change between other leaves. -/
theorem Grows.between {links links' : List Link} {before after : List ℕ}
    (h : Grows links before after links') (left right : List ℕ) :
    Grows links (left ++ (before ++ right)) (left ++ (after ++ right)) links' := by
  rcases h with ⟨rfl, rfl⟩ | ⟨l, a, r, rfl, rfl, rfl⟩
  · exact Or.inl ⟨rfl, rfl⟩
  · exact Or.inr ⟨left ++ l, a, r ++ right, by simp, by simp, rfl⟩

/-- The leaves of what an insertion returns. -/
def splitAddrs : Node × Split → List ℕ
  | (n, none) => addrs n
  | (n, some (_, r)) => addrs n ++ addrs r

/-- The same with their entries. -/
def splitLeaves : Node × Split → List (ℕ × List (Bytes × Bytes))
  | (n, none) => leaves n
  | (n, some (_, r)) => leaves n ++ leaves r

/-- The addresses are those of the leaves. -/
theorem splitAddrs_eq (r : Node × Split) : splitAddrs r = (splitLeaves r).map Prod.fst := by
  obtain ⟨n, split⟩ := r
  cases split with
  | none => rfl
  | some p => exact List.map_append.symm

/-- A full internal node keeps the leaves of its children when it is cut. -/
theorem splitLeaves_intrAbsorb {keys : List Bytes} {left right : List Node} {sep : Bytes}
    {l r : Node}
    (hlen : keys.length ≤ intrMax) (hcs : (left ++ l :: right).length = keys.length + 1) :
    splitLeaves (intrAbsorb keys (left ++ l :: right) left.length sep r) =
      leavesList (left ++ l :: r :: right) := by
  unfold intrAbsorb
  simp only [take_in]
  split
  · rfl
  · have hc : ((left ++ l :: r :: right).drop (keys.length / 2 + 1)).length ≤
        intrMax - keys.length / 2 + 1 := by
      simp only [List.length_append, List.length_cons] at hcs
      simp only [List.length_drop, List.length_append, List.length_cons]
      omega
    rw [List.take_of_length_le hc]
    show leavesList _ ++ leavesList _ = _
    rw [← leavesList_append, List.take_append_drop]

/-- So it keeps their addresses. -/
theorem splitAddrs_intrAbsorb {keys : List Bytes} {left right : List Node} {sep : Bytes}
    {l r : Node}
    (hlen : keys.length ≤ intrMax) (hcs : (left ++ l :: right).length = keys.length + 1) :
    splitAddrs (intrAbsorb keys (left ++ l :: right) left.length sep r) =
      addrsList (left ++ l :: r :: right) := by
  rw [splitAddrs_eq, splitLeaves_intrAbsorb hlen hcs]
  rfl

/-- `node_insert` adds at most one leaf. -/
theorem nodeInsert_grows {key : Bytes} (val : Bytes) (d : ℕ) : ∀ lo hi n links,
    Ordered d lo hi n → InRange lo hi key →
    Grows links (addrs n) (splitAddrs ((nodeInsert key val n links).1,
      (nodeInsert key val n links).2.1)) (nodeInsert key val n links).2.2 := by
  induction d with
  | zero =>
    intro lo hi n links h _
    cases n with
    | intr keys children => cases h
    | leaf addr entries =>
      simp only [nodeInsert, leafInsert]
      split
      · exact Or.inl ⟨rfl, rfl⟩
      · split
        · exact Or.inl ⟨rfl, rfl⟩
        · exact Or.inr ⟨[], addr, [], rfl, rfl, rfl⟩
  | succ d ih =>
    intro lo hi n links h hkey
    cases n with
    | leaf addr entries => cases h
    | intr keys children =>
      obtain ⟨hlen, hchain⟩ := h
      obtain ⟨f, rfl, hci, -, -⟩ := hchain.search hkey
      have hgrows := (ih _ _ _ links f.holds f.inRange).between (addrsList f.left)
        (addrsList f.right)
      have hbefore : addrs (.intr keys (f.left ++ f.child :: f.right)) =
          addrsList f.left ++ (addrs f.child ++ addrsList f.right) := by simp
      rw [hbefore]
      simp only [nodeInsert, hci, childInsert_append]
      cases hsplit : (nodeInsert key val f.child links).2.1 with
      | none =>
        rw [hsplit] at hgrows
        simpa [splitAddrs] using hgrows
      | some p =>
        obtain ⟨s, r⟩ := p
        rw [hsplit] at hgrows
        have hcs : (f.left ++ (nodeInsert key val f.child links).1 :: f.right).length =
            keys.length + 1 := by
          rw [← hchain.length_eq]
          simp
        simp only [splitAddrs_intrAbsorb hlen hcs]
        simpa [splitAddrs] using hgrows

/-! ## Deletion -/

mutual

/-- Removing an entry keeps all leaves. -/
theorem addrs_removeAt (key : Bytes) (i : ℕ) : ∀ n : Node, addrs (removeAt key i n) = addrs n
  | .leaf addr entries => rfl
  | .intr keys children => by
    rw [removeAt, addrs_intr, addrs_intr]
    exact addrsList_removeAtChild key i children (intrChildIdx keys key)

/-- Removing an entry below a child keeps all leaves. -/
theorem addrsList_removeAtChild (key : Bytes) (i : ℕ) : ∀ (cs : List Node) (j : ℕ),
    addrsList (removeAtChild key i cs j) = addrsList cs
  | [], _ => rfl
  | c :: cs, 0 => by rw [removeAtChild, addrsList_cons, addrsList_cons, addrs_removeAt key i c]
  | c :: cs, j + 1 => by
    rw [removeAtChild, addrsList_cons, addrsList_cons, addrsList_removeAtChild key i cs j]

end

end BTree

/-! ## The whole tree -/

open BTree

/-- The links represent the leaves of the tree. -/
structure BTree.Linked (t : BTree) : Prop where
  /-- Leaves have different addresses. -/
  nodup : (addrs t.root).Nodup
  /-- They are linked in order. -/
  chained : Chained t.links (addrs t.root)
  /-- The first one is known. -/
  leftmost : (addrs t.root).head? = some t.leftmost

/-- A new tree has one leaf. -/
theorem btreeCreate_linked : btreeCreate.Linked := by
  refine ⟨List.pairwise_singleton _ _, fun left a right h => ?_, rfl⟩
  have hone : [0] = left ++ a :: right := h
  obtain ⟨rfl, rfl, rfl⟩ : left = [] ∧ a = 0 ∧ right = [] := by
    cases left with
    | nil =>
      rw [List.nil_append, List.cons.injEq] at hone
      exact ⟨rfl, hone.1.symm, hone.2.symm⟩
    | cons b left => simp at hone
  rfl

/-- Addresses are those of allocated leaves. -/
theorem BTree.Linked.lt_length {t : BTree} (h : t.Linked) {a : ℕ} (ha : a ∈ addrs t.root) :
    a < t.links.length := by
  obtain ⟨left, right, hsplit⟩ := List.append_of_mem ha
  exact (List.getElem?_eq_some_iff.mp (h.chained left a right hsplit)).1

/-- A list of leaves that has grown is linked. -/
theorem BTree.Linked.grows {t : BTree} (h : t.Linked) {root : Node} {links : List Link}
    (hgrows : Grows t.links (addrs t.root) (addrs root) links) :
    BTree.Linked { t with root, links } := by
  rcases hgrows with ⟨heq, rfl⟩ | ⟨left, a, right, hbefore, hafter, rfl⟩
  · exact ⟨by rw [heq]; exact h.nodup, by rw [heq]; exact h.chained, by rw [heq]; exact h.leftmost⟩
  · have hnodup := h.nodup
    have hchained := h.chained
    have hleft := h.leftmost
    have hnew : t.links.length ∉ addrs t.root := fun hmem => absurd (h.lt_length hmem) (lt_irrefl _)
    rw [hbefore] at hnodup hchained hleft hnew
    refine ⟨?_, ?_, ?_⟩
    · rw [hafter]
      have hperm : (left ++ a :: t.links.length :: right).Perm
          (t.links.length :: (left ++ a :: right)) := by
        rw [show left ++ a :: t.links.length :: right =
            (left ++ [a]) ++ t.links.length :: right by simp,
          show left ++ a :: right = (left ++ [a]) ++ right by simp]
        exact List.perm_middle
      exact hperm.nodup_iff.mpr (List.nodup_cons.mpr ⟨hnew, hnodup⟩)
    · rw [hafter]
      exact hchained.linkRight hnodup
    · rw [hafter]
      cases left with
      | nil => exact hleft
      | cons b left => exact hleft

/-- `fastkv_btree_insert` keeps the leaves linked. -/
theorem BTree.Linked.insert {t : BTree} (h : t.Linked) (hwf : t.WellFormed) (key val : Bytes) :
    (btreeInsert t key val).Linked := by
  obtain ⟨d, hd⟩ := hwf
  have hgrows := nodeInsert_grows val d none none t.root t.links hd (InRange.full key)
  unfold btreeInsert
  generalize nodeInsert key val t.root t.links = res at hgrows
  obtain ⟨root, split, links⟩ := res
  cases split with
  | none => exact h.grows hgrows
  | some p => exact h.grows (by simpa [splitAddrs] using hgrows)

/-- `fastkv_btree_delete` keeps the leaves linked. -/
theorem BTree.Linked.delete {t : BTree} (h : t.Linked) (key : Bytes) :
    (btreeDelete t key).2.Linked := by
  unfold btreeDelete
  simp only
  split
  · exact h.grows (Or.inl ⟨addrs_removeAt _ _ _, rfl⟩)
  · exact h

end FastKV
