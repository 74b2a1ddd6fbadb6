import Mathlib.Data.List.Perm.Basic
import Mathlib.Order.Lattice
import Mathlib.Tactic.Common

/-!
# A binary heap in an array

The parent of the element at position `j` is at position `(j - 1) / 2` and has no larger key. A
new element is put at the end and moves up; the first element is taken out, and the last one is
put in its place and moves down. While an element moves, the order may fail only there.
-/

namespace FastKV.Lib

variable {X K : Type*} [LinearOrder K] {n : ℕ}

/-- The position of the parent. -/
def parent (j : ℕ) : ℕ := (j - 1) / 2

/-- The parent comes first. -/
theorem parent_lt {j : ℕ} (h : 0 < j) : parent j < j := by
  unfold parent
  omega

section Order

variable (key : X → K)

/-- No parent has a larger key. -/
def HeapOrder (v : Vector X n) : Prop :=
  ∀ i j (_ : i < n) (_ : j < n), 0 < j → i = parent j → key v[i] ≤ key v[j]

/-- The parent of a moving element has no larger key than the children of the element. -/
def OrderAround (v : Vector X n) (k : ℕ) : Prop :=
  ∀ i j (_ : i < n) (_ : j < n), 0 < k → i = parent k → 0 < j → k = parent j → key v[i] ≤ key v[j]

/-- The order while the element at `k` moves up: it may have a smaller key than its parent. -/
structure UpOrder (v : Vector X n) (k : ℕ) : Prop where
  /-- All others have no smaller key than their parents. -/
  others : ∀ i j (_ : i < n) (_ : j < n), 0 < j → i = parent j → j ≠ k → key v[i] ≤ key v[j]
  /-- Around the element. -/
  around : OrderAround key v k

/-- The order while the element at `k` moves down: it may have a larger key than a child. -/
structure DownOrder (v : Vector X n) (k : ℕ) : Prop where
  /-- All others have no larger key than their children. -/
  others : ∀ i j (_ : i < n) (_ : j < n), 0 < j → i = parent j → i ≠ k → key v[i] ≤ key v[j]
  /-- Around the element. -/
  around : OrderAround key v k

/-- Move an element up until its parent has no larger key. -/
def moveUp : ℕ → (v : Vector X n) → (k : ℕ) → k < n → Vector X n
  | 0, v, _, _ => v
  | fuel + 1, v, k, hk =>
    if hpos : 0 < k then
      have hp : parent k < n := Nat.lt_trans (parent_lt hpos) hk
      if key v[parent k] ≤ key v[k] then v else moveUp fuel (v.swap (parent k) k) (parent k) hp
    else v

/-- The position with the smaller key, the first if the second does not exist. -/
def smaller (v : Vector X n) (s : Fin n) (c : ℕ) : Fin n :=
  if hc : c < n then if key v[c] < key (v.get s) then ⟨c, hc⟩ else s else s

/-- Move an element down until no child has a smaller key. -/
def moveDown : ℕ → Vector X n → Fin n → Vector X n
  | 0, v, _ => v
  | fuel + 1, v, i =>
    let smallest := smaller key v (smaller key v i (2 * i + 1)) (2 * i + 2)
    if smallest = i then v else moveDown fuel (v.swap smallest i) smallest

end Order

variable {key : X → K}

/-! ## Moving up -/

/-- After a swap with its parent the element may be out of order there. -/
theorem UpOrder.swap {v : Vector X n} {k : ℕ} (hk : k < n) (hpos : 0 < k) (h : UpOrder key v k)
    (hp : parent k < n) (hlt : key v[k] < key v[parent k]) :
    UpOrder key (v.swap (parent k) k) (parent k) := by
  have hpk := parent_lt hpos
  have hother : ∀ x (hx : x < n), x ≠ parent k → x ≠ k → (v.swap (parent k) k)[x] = v[x] :=
    fun x hx hxp hxk => Vector.getElem_swap_of_ne hxp hxk
  constructor
  · intro i j hi hj hj0 hij hjp
    by_cases hjk : j = k
    · subst hjk
      subst hij
      rw [Vector.getElem_swap_left, Vector.getElem_swap_right]
      exact hlt.le
    · rw [hother j hj hjp hjk]
      by_cases hip : i = parent k
      · subst hip
        rw [Vector.getElem_swap_left]
        exact hlt.le.trans (h.others (parent k) j hp hj hj0 hij hjk)
      · by_cases hik : i = k
        · subst hik
          rw [Vector.getElem_swap_right]
          exact h.around (parent i) j hp hj hpos rfl hj0 hij
        · rw [hother i hi hip hik]
          exact h.others i j hi hj hj0 hij hjk
  · intro i j hi hj hp0 hip hj0 hpj
    have hparent := parent_lt hp0
    have hchild := parent_lt hj0
    rw [hother i hi (by omega) (by omega)]
    have hup : key v[i] ≤ key v[parent k] := h.others i (parent k) hi hp hp0 hip (by omega)
    by_cases hjk : j = k
    · subst hjk
      rw [Vector.getElem_swap_right]
      exact hup
    · rw [hother j hj (by omega) hjk]
      exact hup.trans (h.others (parent k) j hp hj hj0 hpj hjk)

/-- An element that is not out of order completes the heap. -/
theorem UpOrder.heap {v : Vector X n} {k : ℕ} (h : UpOrder key v k)
    (hk : ∀ i (_ : i < n) (_ : k < n), 0 < k → i = parent k → key v[i] ≤ key v[k]) :
    HeapOrder key v := by
  intro i j hi hj hj0 hij
  by_cases hjk : j = k
  · subst hjk
    exact hk i hi hj hj0 hij
  · exact h.others i j hi hj hj0 hij hjk

/-- Moving up restores the order. -/
theorem moveUp_heap (fuel : ℕ) : ∀ {v : Vector X n} {k : ℕ} (hk : k < n), k ≤ fuel →
    UpOrder key v k → HeapOrder key (moveUp key fuel v k hk) := by
  induction fuel with
  | zero =>
    intro v k hk hfuel h
    exact h.heap fun i _ _ hpos _ => absurd hpos (by omega)
  | succ fuel ih =>
    intro v k hk hfuel h
    unfold moveUp
    by_cases hpos : 0 < k
    · have hp : parent k < n := Nat.lt_trans (parent_lt hpos) hk
      rw [dif_pos hpos]
      by_cases hle : key v[parent k] ≤ key v[k]
      · rw [if_pos hle]
        refine h.heap fun i hi _ _ hip => ?_
        subst hip
        exact hle
      · rw [if_neg hle]
        have hlt := parent_lt hpos
        exact ih hp (by omega) (h.swap hk hpos hp (not_le.mp hle))
    · rw [dif_neg hpos]
      exact h.heap fun i _ _ hpos' _ => absurd hpos' hpos

/-- Moving up permutes the elements. -/
theorem moveUp_perm (fuel : ℕ) : ∀ {v : Vector X n} {k : ℕ} (hk : k < n),
    (moveUp key fuel v k hk).toList.Perm v.toList := by
  induction fuel with
  | zero => exact fun _ => List.Perm.refl _
  | succ fuel ih =>
    intro v k hk
    unfold moveUp
    split
    · simp only
      split
      · exact List.Perm.refl _
      · exact (ih _).trans (Vector.swap_perm _ _).toList
    · exact List.Perm.refl _

/-! ## Moving down -/

/-- The position with the smaller key. -/
theorem smaller_spec (key : X → K) (v : Vector X n) (s : Fin n) (c : ℕ) :
    key (v.get (smaller key v s c)) ≤ key (v.get s) ∧
      (∀ _ : c < n, key (v.get (smaller key v s c)) ≤ key v[c]) ∧
      (smaller key v s c = s ∨ (smaller key v s c : ℕ) = c) := by
  by_cases hc : c < n
  · by_cases hlt : key v[c] < key (v.get s)
    · have hs : smaller key v s c = ⟨c, hc⟩ := by rw [smaller, dif_pos hc, if_pos hlt]
      rw [hs]
      exact ⟨hlt.le, fun _ => le_refl _, Or.inr rfl⟩
    · have hs : smaller key v s c = s := by rw [smaller, dif_pos hc, if_neg hlt]
      rw [hs]
      exact ⟨le_refl _, fun _ => not_lt.mp hlt, Or.inl rfl⟩
  · have hs : smaller key v s c = s := by rw [smaller, dif_neg hc]
    rw [hs]
    exact ⟨le_refl _, fun h => absurd h hc, Or.inl rfl⟩

/-- The smallest of an element and its children: it is the element or a child, and it has no
larger key than any of them. -/
theorem smallest_spec (key : X → K) (v : Vector X n) (i : Fin n) :
    let s := smaller key v (smaller key v i (2 * i + 1)) (2 * i + 2)
    key (v.get s) ≤ key (v.get i) ∧ (s = i ∨ 0 < (s : ℕ) ∧ (i : ℕ) = parent s) ∧
      ∀ j (_ : j < n), 0 < j → (i : ℕ) = parent j → key (v.get s) ≤ key v[j] := by
  obtain ⟨hle, hleft, hcase⟩ := smaller_spec key v i (2 * i + 1)
  obtain ⟨hle', hright, hcase'⟩ := smaller_spec key v (smaller key v i (2 * i + 1))
    (2 * i + 2)
  simp only
  refine ⟨hle'.trans hle, ?_, fun j hj hpos hij => ?_⟩
  · rcases hcase' with hs | hs
    · rw [hs]
      rcases hcase with hs' | hs'
      · exact Or.inl hs'
      · refine Or.inr ⟨by omega, ?_⟩
        rw [hs', parent]
        omega
    · refine Or.inr ⟨by omega, ?_⟩
      rw [hs, parent]
      omega
  · unfold parent at hij
    by_cases hodd : j = 2 * i + 1
    · subst hodd
      exact hle'.trans (hleft hj)
    · obtain rfl : j = 2 * i + 2 := by omega
      exact hright hj

/-- After a swap with its smallest child the element may be out of order there. -/
theorem DownOrder.swap {v : Vector X n} {k s : ℕ} (hk : k < n) (hs : s < n)
    (h : DownOrder key v k) (hpos : 0 < s) (hks : k = parent s)
    (hsmall : key v[s] ≤ key v[k])
    (hleast : ∀ j (_ : j < n), 0 < j → k = parent j → key v[s] ≤ key v[j]) :
    DownOrder key (v.swap s k) s := by
  have hlt := parent_lt hpos
  have hother : ∀ x (hx : x < n), x ≠ s → x ≠ k → (v.swap s k)[x] = v[x] :=
    fun x hx hxs hxk => Vector.getElem_swap_of_ne hxs hxk
  constructor
  · intro i j hi hj hj0 hij his
    have hchild := parent_lt hj0
    by_cases hik : i = k
    · subst hik
      rw [Vector.getElem_swap_right]
      by_cases hjs : j = s
      · subst hjs
        rw [Vector.getElem_swap_left]
        exact hsmall
      · rw [hother j hj hjs (by omega)]
        exact hleast j hj hj0 hij
    · rw [hother i hi his hik]
      by_cases hjk : j = k
      · subst hjk
        rw [Vector.getElem_swap_right]
        exact h.around i s hi hs hj0 hij hpos hks
      · have hjs : j ≠ s := by
          rintro rfl
          exact hik (hij.trans hks.symm)
        rw [hother j hj hjs hjk]
        exact h.others i j hi hj hj0 hij hik
  · intro i j hi hj _ his hj0 hsj
    have hchild := parent_lt hj0
    obtain rfl : i = k := by omega
    rw [Vector.getElem_swap_right, hother j hj (by omega) (by omega)]
    exact h.others s j hs hj hj0 hsj (by omega)

/-- Moving down restores the order. -/
theorem moveDown_heap (fuel : ℕ) : ∀ {v : Vector X n} {i : Fin n}, n ≤ i + fuel →
    DownOrder key v i → HeapOrder key (moveDown key fuel v i) := by
  induction fuel with
  | zero => exact fun {_ i} hfuel _ => absurd i.isLt (by omega)
  | succ fuel ih =>
    intro v i hfuel h
    have hspec := smallest_spec key v i
    obtain ⟨s, hsmallest⟩ : ∃ s, smaller key v (smaller key v i (2 * i + 1)) (2 * i + 2) = s :=
      ⟨_, rfl⟩
    have hstep : moveDown key (fuel + 1) v i =
        if s = i then v else moveDown key fuel (v.swap s i) s := by
      subst hsmallest
      rfl
    simp only [hsmallest] at hspec
    obtain ⟨hsmall, hcase, hleast⟩ := hspec
    rw [hstep]
    by_cases hs : s = i
    · subst hs
      rw [if_pos rfl]
      intro k j hk hj hj0 hkj
      by_cases hki : k = s
      · subst hki
        exact hleast j hj hj0 hkj
      · exact h.others k j hk hj hj0 hkj hki
    · rw [if_neg hs]
      obtain ⟨hpos, hparent⟩ := hcase.resolve_left hs
      have hlt := parent_lt hpos
      exact ih (by omega) (h.swap i.isLt s.isLt hpos hparent hsmall hleast)

/-- Moving down permutes the elements. -/
theorem moveDown_perm (fuel : ℕ) : ∀ {v : Vector X n} {i : Fin n},
    (moveDown key fuel v i).toList.Perm v.toList := by
  induction fuel with
  | zero => exact List.Perm.refl _
  | succ fuel ih =>
    intro v i
    unfold moveDown
    simp only
    split
    · exact List.Perm.refl _
    · exact ih.trans (Vector.swap_perm _ _).toList

/-- The first element of a heap has the smallest key. -/
theorem HeapOrder.first_le {v : Vector X n} (h : HeapOrder key v) (j : ℕ) :
    ∀ (hj : j < n), key (v.get ⟨0, Nat.zero_lt_of_lt hj⟩) ≤ key v[j] := by
  induction j using Nat.strongRecOn with
  | ind j ih =>
    intro hj
    by_cases hpos : 0 < j
    · have hlt := parent_lt hpos
      have hp : parent j < n := Nat.lt_trans hlt hj
      exact (ih (parent j) hlt hp).trans (h (parent j) j hp hj hpos rfl)
    · obtain rfl : j = 0 := by omega
      exact le_refl _

/-! ## The heap -/

/-- Put the last element into the place of another one and shorten the list. -/
def swapRemove (l : List X) (i : ℕ) : List X :=
  match l.getLast? with
  | none => l
  | some last => (l.set i last).dropLast

/-- The removed element and what is left are the elements. -/
theorem swapRemove_perm {l : List X} {i : ℕ} (h : i < l.length) :
    (l[i] :: swapRemove l i).Perm l := by
  rcases List.eq_nil_or_concat' l with rfl | ⟨init, last, rfl⟩
  · exact absurd h (Nat.not_lt_zero i)
  · have hlast : (init ++ [last]).getLast? = some last := by simp
    have hremove : swapRemove (init ++ [last]) i = ((init ++ [last]).set i last).dropLast := by
      rw [swapRemove, hlast]
    rw [List.length_append, List.length_singleton] at h
    rw [hremove]
    by_cases hi : i < init.length
    · rw [List.set_append_left i last hi, List.dropLast_concat, List.getElem_append_left hi]
      have hset := (List.set_perm_cons_eraseIdx hi last).cons init[i]
      have hback := (List.getElem_cons_eraseIdx_perm hi).append_right [last]
      refine hset.trans ((List.Perm.swap last init[i] _).trans ?_)
      exact (List.perm_append_singleton last _).symm.trans hback
    · obtain rfl : i = init.length := by omega
      rw [List.set_append_right _ _ (Nat.le_refl _), Nat.sub_self, List.set_cons_zero,
        List.dropLast_concat, List.getElem_append_right (Nat.le_refl _)]
      simp only [Nat.sub_self, List.getElem_cons_zero]
      exact (List.perm_append_singleton last init).symm

/-- A new element at the end may be out of order. -/
theorem HeapOrder.push {v : Vector X n} (h : HeapOrder key v) (x : X) :
    UpOrder key (v.push x) n := by
  constructor
  · intro i j hi hj hj0 hij hjn
    have hlt := parent_lt hj0
    have hj' : j < n := by omega
    have hi' : i < n := by omega
    rw [Vector.getElem_push_lt hi', Vector.getElem_push_lt hj']
    exact h i j hi' hj' hj0 hij
  · intro i j hi hj _ _ hj0 hnj
    have hlt := parent_lt hj0
    exact absurd hnj (by omega)

/-- The last element in the place of the first may be out of order. -/
theorem HeapOrder.replaceFirst {v : Vector X (n + 1)} (h : HeapOrder key v) (x : X) :
    DownOrder key (v.set 0 x).pop 0 := by
  have hother : ∀ j (hj : j < n), j ≠ 0 → (v.set 0 x).pop[j] = v[j] := by
    intro j hj hj0
    rw [Vector.getElem_pop, Vector.getElem_set_ne _ _ (Ne.symm hj0)]
  constructor
  · intro i j hi hj hj0 hij hi0
    rw [hother i hi hi0, hother j hj (by omega)]
    exact h i j (Nat.lt_succ_of_lt hi) (Nat.lt_succ_of_lt hj) hj0 hij
  · exact fun _ _ _ _ h0 => absurd h0 (Nat.lt_irrefl 0)

/-- The elements without the first are those with the last in its place. -/
theorem replaceFirst_perm (v : Vector X (n + 1)) :
    v.toList.Perm (v[0] :: (v.set 0 v[n]).pop.toList) := by
  have hlen : 0 < v.toList.length := by simp
  have hlast : v.toList.getLast? = some v[n] := by
    simp [List.getLast?_eq_getElem?]
  have hrest : (v.set 0 v[n]).pop.toList = swapRemove v.toList 0 := by
    rw [swapRemove, hlast, Vector.toList_pop, Vector.toList_set]
  have hfirst : v.toList[0] = v[0] := Vector.getElem_toList hlen
  rw [hrest, ← hfirst]
  exact (swapRemove_perm hlen).symm

/-- A heap, with its number of elements. -/
structure MinHeap (X : Type*) where
  /-- The number of elements. -/
  size : ℕ
  /-- The elements. -/
  data : Vector X size

namespace MinHeap

/-- The heap without elements. -/
def empty : MinHeap X := ⟨0, #v[]⟩

/-- The elements of a heap. -/
def toList (h : MinHeap X) : List X := h.data.toList

section Operations

variable (key : X → K)

/-- Add an element. -/
def push (h : MinHeap X) (x : X) : MinHeap X :=
  ⟨h.size + 1, moveUp key h.size (h.data.push x) h.size (Nat.lt_succ_self _)⟩

/-- Take the first element out. -/
def pop : MinHeap X → Option (X × MinHeap X)
  | ⟨0, _⟩ => none
  | ⟨n + 1, v⟩ =>
    let rest : Vector X n := (v.set 0 v[n]).pop
    some (v[0], ⟨n, if hn : 0 < n then moveDown key n rest ⟨0, hn⟩ else rest⟩)

/-- The heap is in order. -/
def WF (h : MinHeap X) : Prop := HeapOrder key h.data

end Operations

/-- The empty heap is in order. -/
theorem empty_wf : (empty : MinHeap X).WF key := fun _ _ hi => absurd hi (Nat.not_lt_zero _)

/-- Adding an element keeps the order. -/
theorem push_wf {h : MinHeap X} (hwf : h.WF key) (x : X) : (h.push key x).WF key :=
  moveUp_heap h.size (Nat.lt_succ_self _) (Nat.le_refl _) (hwf.push x)

/-- Adding an element adds it to the elements. -/
theorem push_perm (h : MinHeap X) (x : X) : (h.push key x).toList.Perm (x :: h.toList) := by
  have hperm : (h.push key x).toList.Perm (h.data.push x).toList := moveUp_perm h.size _
  rw [Vector.toList_push] at hperm
  exact hperm.trans (List.perm_append_singleton x h.data.toList)

/-- Nothing is taken out of a heap exactly if it has no elements. -/
theorem pop_eq_none {h : MinHeap X} : h.pop key = none ↔ h.toList = [] := by
  obtain ⟨size, v⟩ := h
  cases size with
  | zero =>
    constructor
    · exact fun _ => List.eq_nil_of_length_eq_zero (by simp [toList])
    · exact fun _ => rfl
  | succ n =>
    constructor
    · intro hnone
      cases hnone
    · intro hnil
      have hlen := congrArg List.length hnil
      simp [toList] at hlen

/-- The element that is taken out has the smallest key, and the others stay and are in order. -/
theorem pop_eq_some {h h' : MinHeap X} {x : X} (hpop : h.pop key = some (x, h'))
    (hwf : h.WF key) :
    h'.WF key ∧ h.toList.Perm (x :: h'.toList) ∧ ∀ y ∈ h.toList, key x ≤ key y := by
  obtain ⟨size, v⟩ := h
  cases size with
  | zero => cases hpop
  | succ n =>
    simp only [pop, Option.some.injEq, Prod.mk.injEq] at hpop
    obtain ⟨rfl, rfl⟩ := hpop
    have hdown := HeapOrder.replaceFirst hwf v[n]
    have hperm := replaceFirst_perm v
    refine ⟨?_, ?_, ?_⟩
    · by_cases hn : 0 < n
      · simp only [dif_pos hn]
        exact moveDown_heap n (Nat.le_add_left n 0) hdown
      · intro i _ hi
        have hi' : i < n := hi
        exact absurd hi' (by omega)
    · by_cases hn : 0 < n
      · simp only [dif_pos hn]
        exact hperm.trans ((moveDown_perm n).symm.cons _)
      · simp only [dif_neg hn]
        exact hperm
    · intro y hy
      obtain ⟨j, hj, rfl⟩ := List.mem_iff_getElem.mp hy
      have hj' : j < n + 1 := by simpa [toList] using hj
      exact HeapOrder.first_le hwf j hj'

end MinHeap

end FastKV.Lib
