import FastKV.Lib.Steps
import FastKV.RTreeShape

/-!
# Runs of insertions and deletions

A deletion goes down wherever the rectangle beside a child meets the given one and takes away
the first entry with the given key that it comes to, whatever its rectangle. Insertions and
deletions in any order keep the shape of the tree, as long as no split leaves its arrays; in
exact arithmetic none does.
-/

namespace FastKV.RTree

open Lib

variable {α β : Type} {n : ℕ}

/-! ## Taking an entry away -/

/-- The test of `rtree_delete_rec` on a leaf entry. -/
def hasKey (key : Bytes) (e : LeafEntry α n) : Bool := decide (e.item = key)

/-- A leaf without the key stays as it is. -/
theorem deleteLeaf_none {key : Bytes} {es : List (LeafEntry α n)} (h : deleteLeaf key es = none) :
    es.find? (hasKey key) = none := by
  have hidx : es.findIdx? (fun e => decide (e.item = key)) = none := Option.map_eq_none_iff.mp h
  rw [List.findIdx?_eq_none_iff] at hidx
  exact List.find?_eq_none.mpr fun e he => Bool.eq_false_iff.mp (hidx e he)

/-- A leaf loses the first entry with the key. -/
theorem deleteLeaf_some {key : Bytes} {es es' : List (LeafEntry α n)}
    (h : deleteLeaf key es = some es') :
    ∃ e, es.find? (hasKey key) = some e ∧ es.Perm (e :: es') := by
  obtain ⟨i, hidx, rfl⟩ := Option.map_eq_some_iff.mp h
  obtain ⟨hi, hkey, hbefore⟩ := List.findIdx?_eq_some_iff_getElem.mp hidx
  refine ⟨es[i], ?_, (swapRemove_perm hi).symm⟩
  rw [List.find?_eq_some_iff_getElem]
  refine ⟨hkey, i, hi, rfl, fun j hj => ?_⟩
  simpa [hasKey] using hbefore j hj

variable [LinearOrder α]

/-- The leaf entries below the children whose rectangles meet the given one. -/
def visitedIn (rect : Rect α n) (visited : β → List (LeafEntry α n)) (es : List (REntry α n β)) :
    List (LeafEntry α n) :=
  es.flatMap fun e => if rectIntersects e.rect rect then visited e.item else []

/-- The leaf entries that a search for a rectangle comes to, in this order: it goes down
wherever the rectangle beside a child meets the given one. -/
def RNode.visited (rect : Rect α n) : (h : ℕ) → RNode α n h → List (LeafEntry α n)
  | 0, es => es
  | h + 1, es => visitedIn rect (RNode.visited rect h) es

/-- The descent ends without a deletion if no entry that it comes to has the key. -/
theorem deleteIn_none {del : β → Option β} {mbr : β → Rect α n} {rect : Rect α n}
    {visited : β → List (LeafEntry α n)} {p : LeafEntry α n → Bool}
    (hdel : ∀ c, del c = none → (visited c).find? p = none) {es : List (REntry α n β)}
    (h : deleteIn del mbr rect es = none) : (visitedIn rect visited es).find? p = none := by
  induction es with
  | nil => rfl
  | cons c es ih =>
    unfold deleteIn at h
    rw [visitedIn, List.flatMap_cons, List.find?_append]
    by_cases hmeets : rectIntersects c.rect rect = true
    · rw [if_pos hmeets] at h
      rw [if_pos hmeets]
      cases hc : del c.item with
      | some child =>
        rw [hc] at h
        cases h
      | none =>
        rw [hc] at h
        rw [hdel c.item hc, Option.none_or]
        exact ih (Option.map_eq_none_iff.mp h)
    · rw [if_neg hmeets] at h
      rw [if_neg hmeets, List.find?_nil, Option.none_or]
      exact ih (Option.map_eq_none_iff.mp h)

/-- The changed node: one child was replaced, and all other entries stay. -/
structure Replaces (es es' : List (REntry α n β)) (mbr : β → Rect α n) (old new : β) : Prop where
  /-- One entry is replaced. -/
  split : ∃ pre c post, es = pre ++ c :: post ∧ c.item = old ∧ es' = pre ++ ⟨mbr new, new⟩ :: post

/-- The descent replaces the child in which it deletes: the one with the first entry that it
comes to. -/
theorem deleteIn_some {del : β → Option β} {mbr : β → Rect α n} {rect : Rect α n}
    {visited : β → List (LeafEntry α n)} {p : LeafEntry α n → Bool}
    (hdel : ∀ c, del c = none → (visited c).find? p = none) {es es' : List (REntry α n β)}
    (h : deleteIn del mbr rect es = some es') :
    ∃ old new, del old = some new ∧ Replaces es es' mbr old new ∧
      ∀ e, (visited old).find? p = some e → (visitedIn rect visited es).find? p = some e := by
  induction es generalizing es' with
  | nil => cases h
  | cons c es ih =>
    unfold deleteIn at h
    have hskip : ∀ {rest}, deleteIn del mbr rect es = some rest → c :: rest = es' →
        (if rectIntersects c.rect rect = true then visited c.item else []).find? p = none →
        ∃ old new, del old = some new ∧ Replaces (c :: es) es' mbr old new ∧
          ∀ e, (visited old).find? p = some e →
            (visitedIn rect visited (c :: es)).find? p = some e := by
      rintro rest hrest rfl hnone
      obtain ⟨old, new, hold, ⟨pre, d, post, rfl, hd, rfl⟩, hfind⟩ := ih hrest
      refine ⟨old, new, hold, ⟨c :: pre, d, post, rfl, hd, rfl⟩, fun e he => ?_⟩
      rw [visitedIn, List.flatMap_cons, List.find?_append, hnone, Option.none_or]
      exact hfind e he
    by_cases hmeets : rectIntersects c.rect rect = true
    · rw [if_pos hmeets] at h hskip
      cases hc : del c.item with
      | none =>
        rw [hc] at h
        obtain ⟨rest, hrest, hcons⟩ := Option.map_eq_some_iff.mp h
        exact hskip hrest hcons (hdel c.item hc)
      | some child =>
        rw [hc] at h
        refine ⟨c.item, child, hc, ⟨[], c, es, rfl, rfl, (Option.some.inj h).symm⟩, fun e he => ?_⟩
        rw [visitedIn, List.flatMap_cons, if_pos hmeets, List.find?_append, he, Option.some_or]
    · rw [if_neg hmeets] at h hskip
      obtain ⟨rest, hrest, hcons⟩ := Option.map_eq_some_iff.mp h
      exact hskip hrest hcons rfl

/-- A new tree is empty and in shape. -/
theorem rtreeCreate_wf {t : Tree α n} (h : rtreeCreate α n = .ok t) : t.WF ∧ t.entries = [] := by
  unfold rtreeCreate at h
  split at h
  · cases h
  · cases h
    exact ⟨⟨Nat.zero_le _⟩, rfl⟩

section Arithmetic

variable [Doubles α]

/-- Nothing is deleted if no entry that the search comes to has the key. -/
theorem deleteRec_none {rect : Rect α n} {key : Bytes} : ∀ {h : ℕ} {node : RNode α n h},
    deleteRec rect key h node = none → (RNode.visited rect h node).find? (hasKey key) = none := by
  intro h
  induction h with
  | zero => exact fun hdel => deleteLeaf_none hdel
  | succ h ih => exact fun hdel => deleteIn_none (fun _ hc => ih hc) hdel

/-- The first entry with the key that the search comes to is taken away. -/
theorem deleteRec_entries {rect : Rect α n} {key : Bytes} : ∀ {h : ℕ} {node node' : RNode α n h},
    deleteRec rect key h node = some node' →
      ∃ e, (RNode.visited rect h node).find? (hasKey key) = some e ∧
        (RNode.entries h node).Perm (e :: RNode.entries h node') := by
  intro h
  induction h with
  | zero => exact fun hdel => deleteLeaf_some hdel
  | succ h ih =>
    intro (es : List (REntry α n (RNode α n h))) (es' : List (REntry α n (RNode α n h))) hdel
    obtain ⟨old, new, hold, ⟨pre, c, post, rfl, rfl, rfl⟩, hfind⟩ :=
      deleteIn_some (fun _ hc => deleteRec_none hc) hdel
    obtain ⟨e, he, hperm⟩ := ih hold
    refine ⟨e, hfind e he, ?_⟩
    have hsplit : ∀ d : REntry α n (RNode α n h), RNode.entries (h + 1) (pre ++ d :: post) =
        entriesIn (RNode.entries h) pre ++
          (RNode.entries h d.item ++ entriesIn (RNode.entries h) post) := by
      intro d
      change entriesIn (RNode.entries h) (pre ++ d :: post) = _
      rw [entriesIn, List.flatMap_append, List.flatMap_cons]
      rfl
    rw [hsplit, hsplit]
    exact ((hperm.append_right _).append_left _).trans List.perm_middle

/-- A deletion keeps the shape. -/
theorem Bounded.deleteRec {rects : (h : ℕ) → RNode α n h → List (Rect α n)}
    (hrects : Bounded rects) {rect : Rect α n} {key : Bytes} : ∀ {h : ℕ} {node node' : RNode α n h},
    RNode.ShapedBy rects h node → deleteRec rect key h node = some node' →
      RNode.ShapedBy rects h node' := by
  intro h
  induction h with
  | zero =>
    intro (es : List (LeafEntry α n)) (es' : List (LeafEntry α n)) hnode hdel
    obtain ⟨e, -, hperm⟩ := deleteLeaf_some hdel
    have hlen := hperm.length_eq
    have hle := hnode.le
    rw [List.length_cons] at hlen
    exact ⟨by omega⟩
  | succ h ih =>
    intro (es : List (REntry α n (RNode α n h))) (es' : List (REntry α n (RNode α n h))) hnode hdel
    obtain ⟨old, new, hold, ⟨pre, c, post, rfl, rfl, rfl⟩, -⟩ :=
      deleteIn_some (fun _ hc => deleteRec_none hc) hdel
    have hnew := hrects.tight (ih (hnode.tight c (by simp)).child hold)
    have hset := hnode.set pre.length hnew
    rwa [List.set_append_right _ _ (Nat.le_refl _), Nat.sub_self, List.set_cons_zero] at hset

/-! ## Runs -/

/-- A change of a tree. -/
inductive TreeOp (α : Type) (n : ℕ)
  /-- `fastkv_rtree_insert`. -/
  | insert (rect : Rect α n) (key : Slice)
  /-- `fastkv_rtree_delete`. -/
  | delete (rect : Rect α n) (key : Slice)

/-- Execute a change; `none` once a split has left its arrays. -/
def treeStep (t : Option (Tree α n)) (op : TreeOp α n) : Option (Tree α n) :=
  t.bind fun t =>
    match op with
    | .insert rect key => (rtreeInsert t rect key).map Prod.snd
    | .delete rect key => some (rtreeDelete t rect key).2

/-- A deletion keeps the shape, and takes away the first entry with the key that the search
comes to, if there is one. -/
theorem rtreeDelete_spec {t : Tree α n} (ht : t.WF) (rect : Rect α n) (key : Bytes) :
    (rtreeDelete t rect (some key) = (.notfound, t) ∧
        (RNode.visited rect t.height t.root).find? (hasKey key) = none) ∨
      ∃ t' e, rtreeDelete t rect (some key) = (.ok, t') ∧ t'.WF ∧
        (RNode.visited rect t.height t.root).find? (hasKey key) = some e ∧
        t.entries.Perm (e :: t'.entries) := by
  unfold rtreeDelete
  cases hdel : deleteRec rect key t.height t.root with
  | none =>
    left
    simp only [hdel]
    exact ⟨trivial, deleteRec_none hdel⟩
  | some root =>
    right
    obtain ⟨e, hfind, hperm⟩ := deleteRec_entries hdel
    have hwf : RNode.WF t.height root := by
      rw [Tree.WF, RNode.wf_eq] at ht
      rw [RNode.wf_eq]
      exact bounded_rects.deleteRec ht hdel
    simp only [hdel]
    exact ⟨⟨t.height, root⟩, e, rfl, hwf, hfind, hperm⟩

/-- An insertion that comes to its end keeps the shape and adds its entry. -/
theorem rtreeInsert_spec {t : Tree α n} (ht : t.WF) {rect : Rect α n} {key : Bytes}
    {r : Err × Tree α n} (hr : rtreeInsert t rect (some key) = some r) :
    r.1 = .ok ∧ r.2.WF ∧ r.2.entries.Perm (⟨rect, key⟩ :: t.entries) := by
  obtain ⟨g, hg, rfl⟩ := Option.map_eq_some_iff.mp hr
  obtain ⟨hperm, -, hnode, hright⟩ := insertRec_inserts ⟨rect, key⟩ t.height ht hg
  cases hsplit : g.right with
  | none =>
    rw [hsplit, Option.map_none, Option.getD_none, List.append_nil] at hperm
    exact ⟨rfl, hnode, hperm⟩
  | some right =>
    rw [hsplit, Option.map_some, Option.getD_some] at hperm
    refine ⟨rfl, ?_, ?_⟩
    · have hright := hright right hsplit
      rw [RNode.wf_eq] at hnode hright
      rw [Tree.WF, RNode.wf_eq]
      exact bounded_rects.root hnode hright
    · exact (List.Perm.of_eq (entries_root _ _)).trans hperm

/-- Every change keeps the shape. -/
theorem treeStep_wf {t t' : Tree α n} (ht : t.WF) {op : TreeOp α n}
    (h : treeStep (some t) op = some t') : t'.WF := by
  cases op with
  | insert rect key =>
    obtain ⟨r, hr, rfl⟩ := Option.map_eq_some_iff.mp h
    cases key with
    | none =>
      obtain rfl := Option.some.inj hr
      exact ht
    | some key => exact (rtreeInsert_spec ht hr).2.1
  | delete rect key =>
    obtain rfl := Option.some.inj h
    cases key with
    | none => exact ht
    | some key =>
      rcases rtreeDelete_spec ht rect key with ⟨heq, -⟩ | ⟨t', e, heq, hwf, -⟩
      · rw [heq]
        exact ht
      · rw [heq]
        exact hwf

/-- Every tree that changes build from a new one is in shape. -/
theorem run_wf {t : Tree α n} (hcreate : rtreeCreate α n = .ok t) (ops : List (TreeOp α n)) :
    ∀ t' ∈ exec treeStep (some t) ops, t'.WF := by
  have hpermitted : Permitted treeStep (fun _ _ => True) (some t) ops :=
    Permitted.of_forall ops (some t) fun _ _ _ => trivial
  refine exec_invariant (I := fun s : Option (Tree α n) => ∀ t' ∈ s, t'.WF) ?_ ops ?_ hpermitted
  · intro s op hs _ t' ht'
    obtain ⟨t, rfl, -⟩ := Option.bind_eq_some_iff.mp ht'
    exact treeStep_wf (hs t rfl) ht'
  · rintro t' ht'
    obtain rfl := Option.some.inj ht'
    exact (rtreeCreate_wf hcreate).1

end Arithmetic

/-! ## Exact arithmetic -/

section Exact

variable [CommRing α] [IsStrictOrderedRing α]

/-- A node takes an entry in, or is split. -/
theorem addEntry_isSome (es : List (REntry α n β)) (e : REntry α n β) :
    (addEntry es e).isSome := by
  unfold addEntry
  split
  · rfl
  · rename_i hfull
    have hne : es ≠ [] := by
      rintro rfl
      exact hfull (by decide : 0 < rtMax)
    rw [Option.isSome_map]
    exact linearSplit_isSome hne e

/-- Every insertion comes to its end. -/
theorem insertRec_isSome {rects : (h : ℕ) → RNode α n h → List (Rect α n)} (e : LeafEntry α n) :
    ∀ (h : ℕ) {node : RNode α n h}, RNode.ShapedBy rects h node → (insertRec e h node).isSome := by
  intro h
  induction h with
  | zero => exact fun {node} _ => addEntry_isSome node e
  | succ h ih =>
    intro (es : List (REntry α n (RNode α n h))) hnode
    have hci : chooseChild es e.rect < es.length :=
      chooseChild_lt (List.length_pos_iff.mp hnode.pos) e.rect
    obtain ⟨child, hchild⟩ := Option.isSome_iff_exists.mp
      (ih (hnode.tight _ (List.getElem_mem hci)).child)
    rw [insertRec_succ e hci, hchild, Option.bind_some]
    cases hsplit : child.right with
    | none =>
      rw [absorb_of_none hsplit]
      rfl
    | some right =>
      rw [absorb_of_some hsplit]
      exact addEntry_isSome _ _

/-- Every insertion has a result. -/
theorem rtreeInsert_isSome {t : Tree α n} (ht : t.WF) (rect : Rect α n) (key : Slice) :
    (rtreeInsert t rect key).isSome := by
  cases key with
  | none => rfl
  | some key =>
    unfold rtreeInsert
    rw [Option.isSome_map]
    rw [Tree.WF, RNode.wf_eq] at ht
    exact insertRec_isSome _ _ ht

/-- Every run has a result. -/
theorem run_exact {t : Tree α n} (hcreate : rtreeCreate α n = .ok t) (ops : List (TreeOp α n)) :
    ∃ t', exec treeStep (some t) ops = some t' ∧ t'.WF := by
  have hpermitted : Permitted treeStep (fun _ _ => True) (some t) ops :=
    Permitted.of_forall ops (some t) fun _ _ _ => trivial
  refine exec_invariant (I := fun s : Option (Tree α n) => ∃ t', s = some t' ∧ t'.WF) ?_ ops
    ⟨t, rfl, (rtreeCreate_wf hcreate).1⟩ hpermitted
  rintro _ op ⟨t, rfl, ht⟩ _
  have hsome : (treeStep (some t) op).isSome := by
    cases op with
    | insert rect key =>
      show (Option.map Prod.snd _).isSome
      rw [Option.isSome_map]
      exact rtreeInsert_isSome ht rect key
    | delete rect key => rfl
  obtain ⟨t', ht'⟩ := Option.isSome_iff_exists.mp hsome
  exact ⟨t', ht', treeStep_wf ht ht'⟩

end Exact

end FastKV.RTree
