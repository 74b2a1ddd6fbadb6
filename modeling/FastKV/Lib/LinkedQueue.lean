import Mathlib.Data.List.Basic
import Mathlib.Logic.Function.Basic
import Mathlib.Tactic.Common

/-!
# A queue as a linked list

The nodes of a singly linked list lie on a heap; a queue keeps a pointer to the first node and
one to the last. A new node is linked behind the last one, and the first one is taken out. A node
that was taken out stays on the heap until it is freed.
-/

namespace FastKV.Lib

variable {A V : Type*}

/-- A node on the heap. -/
structure ListNode (A V : Type*) where
  /-- What it holds. -/
  value : V
  /-- The next node, if there is one. -/
  next : Option A

/-- The two pointers of a queue, and the heap. -/
structure LinkedQueue (A V : Type*) where
  /-- The nodes that are allocated. -/
  heap : A → Option (ListNode A V)
  /-- The first node. -/
  head : Option A
  /-- The last node. -/
  tail : Option A

/-- The nodes from a pointer on, with their addresses. -/
def Linked (heap : A → Option (ListNode A V)) : Option A → List (A × V) → Prop
  | p, [] => p = none
  | p, (a, v) :: items =>
    p = some a ∧ ∃ next, heap a = some ⟨v, next⟩ ∧ Linked heap next items

/-- A list depends on its own nodes only. -/
theorem Linked.congr {heap heap' : A → Option (ListNode A V)} {items : List (A × V)} :
    ∀ {p : Option A}, Linked heap p items → (∀ a ∈ items.map Prod.fst, heap' a = heap a) →
      Linked heap' p items := by
  induction items with
  | nil => exact fun h _ => h
  | cons item items ih =>
    intro p h hsame
    obtain ⟨hp, next, hnode, hrest⟩ := h
    have hfirst : heap' item.1 = heap item.1 := hsame item.1 (by simp)
    exact ⟨hp, next, hfirst.trans hnode, ih hrest fun a ha => hsame a (List.mem_cons_of_mem _ ha)⟩

/-- The nodes of a list are on the heap. -/
theorem Linked.mem_heap {heap : A → Option (ListNode A V)} {a : A} {items : List (A × V)} :
    ∀ {p : Option A}, Linked heap p items → a ∈ items.map Prod.fst →
      ∃ node, heap a = some node := by
  induction items with
  | nil => exact fun _ ha => absurd ha List.not_mem_nil
  | cons item items ih =>
    intro p h ha
    obtain ⟨-, next, hnode, hrest⟩ := h
    rcases List.mem_cons.mp ha with rfl | ha
    · exact ⟨_, hnode⟩
    · exact ih hrest ha

/-- The last node has no next one. -/
theorem Linked.last {heap : A → Option (ListNode A V)} {t : A} {w : V} {front : List (A × V)} :
    ∀ {p : Option A}, Linked heap p (front ++ [(t, w)]) → heap t = some ⟨w, none⟩ := by
  induction front with
  | nil =>
    intro p h
    obtain ⟨-, next, hnode, hnext⟩ := h
    rw [hnode, show next = none from hnext]
  | cons item front ih =>
    intro p h
    obtain ⟨-, next, -, hrest⟩ := h
    exact ih hrest

/-- A queue holds a list of items, each at an address of its own. -/
structure LinkedQueue.Holds (q : LinkedQueue A V) (items : List (A × V)) : Prop where
  /-- The nodes from the first pointer on. -/
  linked : Linked q.heap q.head items
  /-- The other pointer is to the last node, if there is one. -/
  tail : q.tail = items.getLast?.map Prod.fst
  /-- No node comes twice. -/
  nodup : (items.map Prod.fst).Nodup

section Holds

variable {q : LinkedQueue A V} {items : List (A × V)} {a b : A} {v : V}

/-- An empty queue has no first node. -/
theorem LinkedQueue.Holds.head_eq_none (h : q.Holds []) : q.head = none := h.linked

/-- An address that is not in use is not in the list. -/
theorem LinkedQueue.Holds.fresh (h : q.Holds items) (ha : q.heap a = none) :
    a ∉ items.map Prod.fst := by
  intro hmem
  obtain ⟨node, hnode⟩ := h.linked.mem_heap hmem
  rw [ha] at hnode
  cases hnode

/-- Take the first node out of the list. -/
def LinkedQueue.pop (q : LinkedQueue A V) : LinkedQueue A V :=
  match q.head with
  | none => q
  | some a =>
    let next := (q.heap a).bind ListNode.next
    { q with head := next, tail := if next.isNone then none else q.tail }

/-- A pop takes the first item, whose node stays on the heap. -/
theorem LinkedQueue.Holds.pop (h : q.Holds ((a, v) :: items)) :
    q.head = some a ∧ (∃ next, q.heap a = some ⟨v, next⟩) ∧ q.pop.Holds items ∧
      q.pop.heap = q.heap ∧ a ∉ items.map Prod.fst := by
  obtain ⟨hhead, next, hnode, hrest⟩ := h.linked
  have hnodup := List.nodup_cons.mp h.nodup
  have hpop : q.pop = { q with head := next, tail := if next.isNone then none else q.tail } := by
    simp only [LinkedQueue.pop, hhead, hnode, Option.bind_some]
  refine ⟨hhead, ⟨next, hnode⟩, ?_, ?_, hnodup.1⟩
  · rw [hpop]
    refine ⟨hrest, ?_, hnodup.2⟩
    cases items with
    | nil =>
      rw [show next = none from hrest]
      rfl
    | cons item items =>
      rw [hrest.1, h.tail, List.getLast?_cons_cons]
      rfl
  · rw [hpop]

variable [DecidableEq A]

/-- Allocate a node and link it behind the last one. -/
def LinkedQueue.push (q : LinkedQueue A V) (a : A) (v : V) : LinkedQueue A V :=
  let heap := Function.update q.heap a (some ⟨v, none⟩)
  match q.tail with
  | some t =>
    ⟨Function.update heap t ((heap t).map fun node => { node with next := some a }), q.head, some a⟩
  | none => ⟨heap, some a, some a⟩

/-- Free a node. -/
def LinkedQueue.free (q : LinkedQueue A V) (a : A) : LinkedQueue A V :=
  { q with heap := Function.update q.heap a none }

/-- Linking a new node behind the last one. -/
theorem Linked.snoc {heap : A → Option (ListNode A V)} {t : A} {w : V} (hne : t ≠ a)
    {front : List (A × V)} : ∀ {p : Option A}, Linked heap p (front ++ [(t, w)]) →
      t ∉ front.map Prod.fst → a ∉ front.map Prod.fst →
      Linked (Function.update (Function.update heap a (some ⟨v, none⟩)) t (some ⟨w, some a⟩)) p
        (front ++ [(t, w), (a, v)]) := by
  induction front with
  | nil =>
    intro p h _ _
    refine ⟨h.1, some a, Function.update_self .., rfl, none, ?_, rfl⟩
    rw [Function.update_of_ne hne.symm, Function.update_self]
  | cons item front ih =>
    intro p h ht ha
    obtain ⟨hp, next, hnode, hrest⟩ := h
    rw [List.map_cons, List.mem_cons, not_or] at ht ha
    refine ⟨hp, next, ?_, ih hrest ht.2 ha.2⟩
    rw [Function.update_of_ne (Ne.symm ht.1), Function.update_of_ne (Ne.symm ha.1), hnode]

/-- A push appends an item, at an address that is not in use. -/
theorem LinkedQueue.Holds.push (h : q.Holds items) (ha : q.heap a = none) :
    (q.push a v).Holds (items ++ [(a, v)]) := by
  have hfresh := h.fresh ha
  have hnodup : ((items ++ [(a, v)]).map Prod.fst).Nodup := by
    rw [List.map_append, List.nodup_append]
    refine ⟨h.nodup, by simp, ?_⟩
    intro b hb c hc hbc
    rw [List.map_singleton, List.mem_singleton] at hc
    rw [hbc, hc] at hb
    exact hfresh hb
  rcases List.eq_nil_or_concat items with rfl | ⟨front, ⟨t, w⟩, rfl⟩
  · have htail : q.tail = none := h.tail
    refine ⟨?_, ?_, hnodup⟩
    · simp only [LinkedQueue.push, htail]
      exact ⟨rfl, none, Function.update_self .., rfl⟩
    · simp only [LinkedQueue.push, htail]
      rfl
  · rw [List.concat_eq_append] at h hfresh hnodup ⊢
    have htail : q.tail = some t := by
      rw [h.tail, List.getLast?_append]
      rfl
    have hparts := h.nodup
    rw [List.map_append, List.nodup_append] at hparts
    rw [List.map_append, List.mem_append, not_or] at hfresh
    have ht : t ∉ front.map Prod.fst := fun hmem => hparts.2.2 t hmem t (by simp) rfl
    have hne : t ≠ a := by
      rintro rfl
      exact hfresh.2 (by simp)
    have hnode : (Function.update q.heap a (some ⟨v, none⟩)) t = some ⟨w, none⟩ := by
      rw [Function.update_of_ne hne, h.linked.last]
    refine ⟨?_, ?_, hnodup⟩
    · simp only [LinkedQueue.push, htail, hnode, Option.map_some, List.append_assoc]
      exact h.linked.snoc hne ht hfresh.1
    · simp only [LinkedQueue.push, htail, List.getLast?_append]
      rfl

/-- A push changes the heap at the new address and at the last node only. -/
theorem LinkedQueue.Holds.push_heap (h : q.Holds items) (hb : b ∉ items.map Prod.fst)
    (hne : b ≠ a) : (q.push a v).heap b = q.heap b := by
  cases htail : q.tail with
  | none =>
    simp only [LinkedQueue.push, htail]
    exact Function.update_of_ne hne ..
  | some t =>
    have hlast : items.getLast?.map Prod.fst = some t := h.tail.symm.trans htail
    obtain ⟨item, hitem, rfl⟩ := Option.map_eq_some_iff.mp hlast
    have hmem : item.1 ∈ items.map Prod.fst := List.mem_map_of_mem (List.mem_of_getLast? hitem)
    have hbt : b ≠ item.1 := fun hbt => hb (hbt ▸ hmem)
    simp only [LinkedQueue.push, htail]
    rw [Function.update_of_ne hbt, Function.update_of_ne hne]

/-- Freeing a node that is not in the list. -/
theorem LinkedQueue.Holds.free (h : q.Holds items) (ha : a ∉ items.map Prod.fst) :
    (q.free a).Holds items := by
  refine ⟨h.linked.congr fun b hb => ?_, h.tail, h.nodup⟩
  have hne : b ≠ a := fun hba => ha (hba ▸ hb)
  exact Function.update_of_ne hne ..

end Holds

end FastKV.Lib
