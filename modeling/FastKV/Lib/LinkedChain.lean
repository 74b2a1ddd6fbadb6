import FastKV.Lib.LinkedQueue

/-!
# Chains that grow at the head

A chain of nodes that others read while it changes: a new node is filled in first and becomes
the head in one step, and what a node holds may be replaced in place. The pointer from a node
to the next one never changes, so whoever stands at a node has the same nodes before it, in
the same order, for good.
-/

namespace FastKV.Lib

variable {A V : Type*} {heap : A → Option (ListNode A V)}

/-- A pointer has one list behind it. -/
theorem Linked.unique {items : List (A × V)} : ∀ {p : Option A} {items' : List (A × V)},
    Linked heap p items → Linked heap p items' → items = items' := by
  induction items with
  | nil =>
    intro p items' h h'
    cases items' with
    | nil => rfl
    | cons item' items' =>
      have hnone : p = none := h
      have hsome : p = some item'.1 := h'.1
      exact absurd (hnone.symm.trans hsome) (by simp)
  | cons item items ih =>
    intro p items' h h'
    obtain ⟨hp, next, hnode, hrest⟩ := h
    cases items' with
    | nil =>
      have hnone : p = none := h'
      exact absurd (hnone.symm.trans hp) (by simp)
    | cons item' items' =>
      obtain ⟨hp', next', hnode', hrest'⟩ := h'
      have haddr : item.1 = item'.1 := Option.some.inj (hp.symm.trans hp')
      rw [haddr, hnode'] at hnode
      injection hnode with hnode
      injection hnode with hvalue hnext
      subst hnext
      rw [ih hrest hrest', show item = item' from Prod.ext haddr hvalue.symm]

/-- What a list says about a node is what the node holds. -/
theorem Linked.node {items : List (A × V)} {a : A} {v : V} : ∀ {p : Option A},
    Linked heap p items → (a, v) ∈ items → ∃ next, heap a = some ⟨v, next⟩ := by
  induction items with
  | nil => exact fun _ hmem => absurd hmem List.not_mem_nil
  | cons item items ih =>
    intro p h hmem
    obtain ⟨-, next, hnode, hrest⟩ := h
    rcases List.mem_cons.mp hmem with rfl | hmem
    · exact ⟨next, hnode⟩
    · exact ih hrest hmem

/-- From a node in the middle of a list on. -/
theorem Linked.of_append {front : List (A × V)} {a : A} {v : V} {back : List (A × V)} :
    ∀ {p : Option A}, Linked heap p (front ++ (a, v) :: back) →
      Linked heap (some a) ((a, v) :: back) := by
  induction front with
  | nil =>
    intro p h
    obtain ⟨hp, hrest⟩ := h
    exact ⟨rfl, hrest⟩
  | cons item front ih =>
    intro p h
    obtain ⟨-, next, -, hrest⟩ := h
    exact ih hrest

/-- No node comes twice: the list behind it would be a part of itself. -/
theorem Linked.nodup {items : List (A × V)} : ∀ {p : Option A}, Linked heap p items →
    (items.map Prod.fst).Nodup := by
  induction items with
  | nil => exact fun _ => List.nodup_nil
  | cons item items ih =>
    intro p h
    obtain ⟨hp, next, hnode, hrest⟩ := h
    refine List.nodup_cons.mpr ⟨?_, ih hrest⟩
    intro hmem
    obtain ⟨⟨a, v⟩, hitem, hsame⟩ := List.mem_map.mp hmem
    obtain ⟨front, back, rfl⟩ := List.append_of_mem hitem
    have hsame : a = item.1 := hsame
    subst hsame
    have htail := hrest.of_append
    have hwhole : Linked heap (some item.1) (item :: (front ++ (item.1, v) :: back)) :=
      ⟨rfl, next, hnode, hrest⟩
    have hlength := congrArg List.length (htail.unique hwhole)
    simp only [List.length_cons, List.length_append] at hlength
    omega

variable [DecidableEq A]

/-- The items after the value at one address has been replaced. -/
def replaceAt (a : A) (v : V) (items : List (A × V)) : List (A × V) :=
  items.map fun item => if item.1 = a then (a, v) else item

/-- A replacement keeps the addresses. -/
@[simp] theorem map_fst_replaceAt (a : A) (v : V) (items : List (A × V)) :
    (replaceAt a v items).map Prod.fst = items.map Prod.fst := by
  unfold replaceAt
  rw [List.map_map]
  refine List.map_congr_left fun item _ => ?_
  simp only [Function.comp_apply]
  split
  · rename_i h
    exact h.symm
  · rfl

/-- A replacement at an address that does not occur. -/
theorem replaceAt_of_notMem {a : A} {items : List (A × V)} (h : a ∉ items.map Prod.fst) (v : V) :
    replaceAt a v items = items := by
  unfold replaceAt
  refine (List.map_congr_left fun item hitem => if_neg ?_).trans items.map_id'
  rintro rfl
  exact h (List.mem_map_of_mem hitem)

/-- A replacement in the middle of a list. -/
theorem replaceAt_append {a : A} {w : V} {front back : List (A × V)}
    (h : ((front ++ (a, w) :: back).map Prod.fst).Nodup) (v : V) :
    replaceAt a v (front ++ (a, w) :: back) = front ++ (a, v) :: back := by
  rw [List.map_append, List.map_cons] at h
  obtain ⟨-, hcons, hapart⟩ := List.nodup_append.mp h
  have hfront : a ∉ front.map Prod.fst := fun hmem => hapart a hmem a List.mem_cons_self rfl
  have hback : a ∉ back.map Prod.fst := (List.nodup_cons.mp hcons).1
  have happend : replaceAt a v (front ++ (a, w) :: back) =
      replaceAt a v front ++ replaceAt a v ((a, w) :: back) := List.map_append
  have hcons : replaceAt a v ((a, w) :: back) = (a, v) :: replaceAt a v back := by
    simp [replaceAt]
  rw [happend, hcons, replaceAt_of_notMem hfront, replaceAt_of_notMem hback]

/-- A value is replaced in every list that contains its node. -/
theorem Linked.store {a : A} {w v : V} {next : Option A} (hnode : heap a = some ⟨w, next⟩)
    {items : List (A × V)} : ∀ {p : Option A}, Linked heap p items →
      Linked (Function.update heap a (some ⟨v, next⟩)) p (replaceAt a v items) := by
  induction items with
  | nil => exact fun h => h
  | cons item items ih =>
    intro p h
    obtain ⟨hp, next', hitem, hrest⟩ := h
    by_cases ha : item.1 = a
    · have hnext : next' = next := by
        rw [ha, hnode] at hitem
        injection hitem with hitem
        injection hitem with _ hnext
        exact hnext.symm
      subst hnext
      rw [replaceAt, List.map_cons, if_pos ha]
      exact ⟨by rw [hp, ha], next', Function.update_self .., ih hrest⟩
    · rw [replaceAt, List.map_cons, if_neg ha]
      exact ⟨hp, next', (Function.update_of_ne ha ..).trans hitem, ih hrest⟩

/-- A node that a list does not contain may be written. -/
theorem Linked.update {a : A} {node : Option (ListNode A V)} {items : List (A × V)} {p : Option A}
    (h : Linked heap p items) (ha : a ∉ items.map Prod.fst) :
    Linked (Function.update heap a node) p items := by
  refine h.congr fun b hb => Function.update_of_ne ?_ ..
  rintro rfl
  exact ha hb

/-! ## What a pass over a chain is after -/

/-- A replacement that a pass does not notice keeps what the pass finds. -/
theorem findSome?_replaceAt {R : Type*} {look : V → Option R} {a : A} {w v : V}
    (hsame : look v = look w) {items : List (A × V)} (hitems : ∀ u, (a, u) ∈ items → u = w) :
    ((replaceAt a v items).map Prod.snd).findSome? look =
      (items.map Prod.snd).findSome? look := by
  induction items with
  | nil => rfl
  | cons item items ih =>
    have hrest := ih fun u hu => hitems u (List.mem_cons_of_mem _ hu)
    by_cases ha : item.1 = a
    · have hw : item.2 = w := hitems item.2 (by rw [← ha]; exact List.mem_cons_self)
      rw [replaceAt, List.map_cons, if_pos ha, List.map_cons, List.map_cons,
        List.findSome?_cons, List.findSome?_cons, hsame, hw]
      cases look w with
      | some r => rfl
      | none => exact hrest
    · rw [replaceAt, List.map_cons, if_neg ha, List.map_cons, List.map_cons,
        List.findSome?_cons, List.findSome?_cons]
      cases look item.2 with
      | some r => rfl
      | none => exact hrest

end FastKV.Lib
