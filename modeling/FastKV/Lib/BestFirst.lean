import Mathlib.Data.List.Perm.Basic
import Mathlib.Order.Lattice
import Mathlib.Tactic.Common

/-!
# Best-first search

A search for the nearest elements keeps a queue of items. An item stands for some elements, and
its key is a lower bound of their distances. The item with the smallest key is taken out; a
single element whose distance is the key is delivered, any other item is replaced by items that
stand for the same elements. Elements are then delivered in the order of their distances, and
none that is left is closer than one that was delivered.
-/

namespace FastKV.Lib

variable {I E K : Type*} [LinearOrder K]

/-- The delivered elements are nearest ones. -/
structure Nearest (dist : E → K) (all : List E) (limit : ℕ) (out : List E) : Prop where
  /-- As many as there are, but not more than asked for. -/
  length : out.length = min limit all.length
  /-- In the order of their distances. -/
  sorted : out.Pairwise fun e e' => dist e ≤ dist e'
  /-- They are elements, and none of the others is closer than one of them. -/
  others : ∃ rest, all.Perm (out ++ rest) ∧ ∀ e ∈ out, ∀ e' ∈ rest, dist e ≤ dist e'

/-- A state of the search: the queue, and the elements delivered so far. -/
structure Frontier (key : I → K) (dist : E → K) (content : I → List E) (all : List E)
    (queue : List I) (out : List E) : Prop where
  /-- Every element is delivered or in the queue. -/
  all : all.Perm (out ++ queue.flatMap content)
  /-- The keys are lower bounds. -/
  bound : ∀ i ∈ queue, ∀ e ∈ content i, key i ≤ dist e
  /-- Elements were delivered in order. -/
  sorted : out.Pairwise fun e e' => dist e ≤ dist e'
  /-- No element in the queue is closer than one that was delivered. -/
  done : ∀ e ∈ out, ∀ e' ∈ queue.flatMap content, dist e ≤ dist e'

variable {key : I → K} {dist : E → K} {content : I → List E} {all out : List E}
  {queue rest : List I}

/-- At the start one item stands for all elements. -/
theorem Frontier.start (key : I → K) (dist : E → K) (content : I → List E) {i : I}
    (hbound : ∀ e ∈ content i, key i ≤ dist e) :
    Frontier key dist content (content i) [i] [] where
  all := by
    rw [List.nil_append, List.flatMap_singleton]
  bound j hj := by
    rw [List.mem_singleton.mp hj]
    exact hbound
  sorted := List.Pairwise.nil
  done _ he := absurd he List.not_mem_nil

/-- The element with the smallest key is delivered. -/
theorem Frontier.deliver (h : Frontier key dist content all queue out) {i : I} {e : E}
    (hqueue : queue.Perm (i :: rest)) (hmin : ∀ j ∈ queue, key i ≤ key j)
    (hcontent : content i = [e]) (hkey : key i = dist e) :
    Frontier key dist content all rest (out ++ [e]) := by
  have hrest : ∀ j ∈ rest, j ∈ queue := fun j hj => hqueue.mem_iff.mpr (List.mem_cons_of_mem _ hj)
  have hperm : (queue.flatMap content).Perm (e :: rest.flatMap content) := by
    have hflat := hqueue.flatMap_right content
    rw [List.flatMap_cons, hcontent] at hflat
    exact hflat
  refine ⟨?_, fun j hj => h.bound j (hrest j hj), ?_, ?_⟩
  · rw [List.append_assoc]
    exact h.all.trans (hperm.append_left out)
  · rw [List.pairwise_append]
    refine ⟨h.sorted, List.pairwise_singleton _ _, fun a ha b hb => ?_⟩
    rw [List.mem_singleton.mp hb]
    exact h.done a ha e (hperm.mem_iff.mpr List.mem_cons_self)
  · intro a ha e' he'
    rcases List.mem_append.mp ha with ha | ha
    · exact h.done a ha e' (hperm.mem_iff.mpr (List.mem_cons_of_mem _ he'))
    · -- every other key is at least that of the delivered element
      obtain ⟨j, hj, hmem⟩ := List.mem_flatMap.mp he'
      rw [List.mem_singleton.mp ha, ← hkey]
      exact (hmin j (hrest j hj)).trans (h.bound j (hrest j hj) e' hmem)

/-- An item is replaced by items that stand for the same elements. -/
theorem Frontier.expand (h : Frontier key dist content all queue out) {i : I}
    {children queue' : List I} (hqueue : queue.Perm (i :: rest))
    (hqueue' : queue'.Perm (children ++ rest))
    (hcontent : content i = children.flatMap content)
    (hbound : ∀ c ∈ children, ∀ e ∈ content c, key c ≤ dist e) :
    Frontier key dist content all queue' out := by
  have hperm : (queue.flatMap content).Perm (queue'.flatMap content) := by
    have hold := hqueue.flatMap_right content
    have hnew := hqueue'.flatMap_right content
    rw [List.flatMap_cons, hcontent, ← List.flatMap_append] at hold
    exact hold.trans hnew.symm
  refine ⟨h.all.trans (hperm.append_left out), ?_, h.sorted, ?_⟩
  · intro j hj
    rcases List.mem_append.mp (hqueue'.mem_iff.mp hj) with hj | hj
    · exact hbound j hj
    · exact h.bound j (hqueue.mem_iff.mpr (List.mem_cons_of_mem _ hj))
  · intro a ha e' he'
    exact h.done a ha e' (hperm.mem_iff.mpr he')

/-- The search may end when the queue is empty or enough elements were delivered. -/
theorem Frontier.nearest (h : Frontier key dist content all queue out) {limit : ℕ}
    (hle : out.length ≤ limit) (hend : queue = [] ∨ limit ≤ out.length) :
    Nearest dist all limit out := by
  refine ⟨?_, h.sorted, queue.flatMap content, h.all, h.done⟩
  have hlen := h.all.length_eq
  rw [List.length_append] at hlen
  rcases hend with rfl | hlimit
  · rw [List.flatMap_nil, List.length_nil] at hlen
    omega
  · omega

end FastKV.Lib
