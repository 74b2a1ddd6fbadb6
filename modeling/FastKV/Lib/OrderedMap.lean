import Mathlib.Data.List.Lex
import Mathlib.Order.Lattice

/-!
# Ordered maps as sorted lists, and binary search

A finite map over a linear order is a list of pairs whose keys increase strictly.
The operations here are the specification of a search tree: `insert` and `erase` work
on the whole list, and the append lemmas say that they only touch the part of the list
whose keys surround the given one. `lowerBound` is the half-open binary search used by
sorted arrays; it is characterised by a partition of the index range.
-/

namespace FastKV.Lib

variable {κ ν : Type*}

/-! ## Binary search -/

/-- Binary search for the first index in `[lo, hi)` at which `before` is false. The
interval shrinks at every step, so its length is enough fuel. -/
def lowerBound (before : ℕ → Bool) : ℕ → ℕ → ℕ → ℕ
  | 0, lo, _ => lo
  | fuel + 1, lo, hi =>
    if lo < hi then
      let mid := (lo + hi) / 2
      if before mid then lowerBound before fuel (mid + 1) hi else lowerBound before fuel lo mid
    else lo

/-- If `before` holds on an initial part of the range only, the search returns the
boundary. -/
theorem lowerBound_eq {before : ℕ → Bool} {n boundary fuel lo hi : ℕ}
    (hbefore : ∀ i < n, before i = true ↔ i < boundary) (hhi : hi ≤ n)
    (hlo : lo ≤ boundary) (hbound : boundary ≤ hi) (hfuel : hi - lo ≤ fuel) :
    lowerBound before fuel lo hi = boundary := by
  induction fuel generalizing lo hi with
  | zero => simp only [lowerBound]; omega
  | succ fuel ih =>
    unfold lowerBound
    by_cases hlt : lo < hi
    · have hmid := hbefore ((lo + hi) / 2) (by omega)
      simp only [if_pos hlt]
      by_cases htest : before ((lo + hi) / 2) = true
      · have := hmid.mp htest
        rw [if_pos htest]
        exact ih hhi (by omega) hbound (by omega)
      · have : ¬ (lo + hi) / 2 < boundary := fun h => htest (hmid.mpr h)
        rw [if_neg htest]
        exact ih (by omega) hlo (by omega) (by omega)
    · rw [if_neg hlt]
      omega

/-- If a predicate can only turn false along a list, the positions where it holds are
the ones in front of the end of `takeWhile`. -/
theorem lt_length_takeWhile_iff {α : Type*} {p : α → Bool} {xs : List α}
    (hxs : xs.Pairwise fun a b => p b = true → p a = true) {i : ℕ} (hi : i < xs.length) :
    p xs[i] = true ↔ i < (xs.takeWhile p).length := by
  induction xs generalizing i with
  | nil => simp at hi
  | cons x xs ih =>
    obtain ⟨hx, hxs⟩ := List.pairwise_cons.mp hxs
    by_cases hp : p x = true
    · rw [List.takeWhile_cons_of_pos hp]
      cases i with
      | zero => simpa using hp
      | succ i => simpa using ih hxs (by simpa using hi)
    · rw [List.takeWhile_cons_of_neg hp]
      cases i with
      | zero => simpa using hp
      | succ i =>
        have hi' : i < xs.length := by simpa using hi
        have hfalse : ¬ p xs[i] = true := fun hpi => hp (hx _ (List.getElem_mem hi') hpi)
        simpa using hfalse

/-- If a predicate can only turn false along a list, its initial part is all of it. -/
theorem takeWhile_eq_filter {α : Type*} {p : α → Bool} {xs : List α}
    (hxs : xs.Pairwise fun a b => p b = true → p a = true) : xs.takeWhile p = xs.filter p := by
  induction xs with
  | nil => rfl
  | cons x xs ih =>
    obtain ⟨hx, hxs⟩ := List.pairwise_cons.mp hxs
    by_cases hp : p x = true
    · rw [List.takeWhile_cons_of_pos hp, List.filter_cons_of_pos hp, ih hxs]
    · rw [List.takeWhile_cons_of_neg hp, List.filter_cons_of_neg hp]
      refine (List.filter_eq_nil_iff.mpr fun y hy hpy => hp (hx y hy hpy)).symm

/-- Binary search over a list for the end of an initial part. -/
theorem lowerBound_list {α : Type*} {p : α → Bool} {xs : List α} (default : α)
    (hxs : xs.Pairwise fun a b => p b = true → p a = true) :
    lowerBound (fun i => p (xs.getD i default)) xs.length 0 xs.length =
      (xs.takeWhile p).length := by
  apply lowerBound_eq (n := xs.length) _ le_rfl (Nat.zero_le _)
    (List.takeWhile_prefix p).length_le (by omega)
  intro i hi
  rw [List.getD_eq_getElem?_getD, List.getElem?_eq_getElem hi, Option.getD_some]
  exact lt_length_takeWhile_iff hxs hi

/-! ## Sorted association lists -/

/-- The keys of an association list increase strictly. -/
def SortedKeys [LT κ] (m : List (κ × ν)) : Prop := m.Pairwise fun a b => a.1 < b.1

section Order

variable [LinearOrder κ]

/-- The value stored under a key. -/
def find (m : List (κ × ν)) (k : κ) : Option ν :=
  (m.find? fun e => decide (e.1 = k)).map Prod.snd

/-- A lookup in an empty map fails. -/
@[simp] theorem find_nil (k : κ) : find ([] : List (κ × ν)) k = none := rfl

/-- A lookup inspects the first entry, then the rest. -/
theorem find_cons (e : κ × ν) (m : List (κ × ν)) (k : κ) :
    find (e :: m) k = if e.1 = k then some e.2 else find m k := by
  by_cases h : e.1 = k <;> simp [find, h]

/-- A key that does not occur is not found. -/
theorem find_eq_none {m : List (κ × ν)} {k : κ} (h : ∀ e ∈ m, e.1 ≠ k) :
    find m k = none := by
  simp only [find, Option.map_eq_none_iff, List.find?_eq_none, decide_eq_true_eq]
  exact h

/-- A lookup in two consecutive parts prefers the first. -/
theorem find_append (m m' : List (κ × ν)) (k : κ) :
    find (m ++ m') k = (find m k).or (find m' k) := by
  simp only [find, List.find?_append]
  cases m.find? fun e => decide (e.1 = k) <;> rfl

/-- Insert a binding, replacing the one under the same key. -/
def insert : List (κ × ν) → κ → ν → List (κ × ν)
  | [], k, v => [(k, v)]
  | e :: m, k, v =>
    if k < e.1 then (k, v) :: e :: m
    else if e.1 = k then (k, v) :: m
    else e :: insert m k v

/-- Remove the binding of a key. -/
def erase (m : List (κ × ν)) (k : κ) : List (κ × ν) := m.filter fun e => decide (e.1 ≠ k)

/-- The bindings of one key. -/
def bindings (m : List (κ × ν)) (k : κ) : List (κ × ν) := m.filter fun e => decide (e.1 = k)

/-- Bindings of consecutive parts. -/
theorem bindings_append (m m' : List (κ × ν)) (k : κ) :
    bindings (m ++ m') k = bindings m k ++ bindings m' k := List.filter_append ..

/-- A key that does not occur has no binding. -/
theorem bindings_eq_nil {m : List (κ × ν)} {k : κ} (h : ∀ e ∈ m, e.1 ≠ k) : bindings m k = [] :=
  List.filter_eq_nil_iff.mpr fun e he => by simpa using h e he

/-- What an insertion does to lookups. -/
theorem find_insert (m : List (κ × ν)) (k k' : κ) (v : ν) :
    find (insert m k v) k' = if k' = k then some v else find m k' := by
  induction m with
  | nil => by_cases h : k = k' <;> simp [insert, find_cons, h, eq_comm]
  | cons e m ih =>
    unfold insert
    by_cases hlt : k < e.1
    · rw [if_pos hlt, find_cons]
      by_cases h : k = k'
      · simp [h]
      · simp [h, Ne.symm h]
    · rw [if_neg hlt]
      by_cases heq : e.1 = k
      · rw [if_pos heq, find_cons, find_cons]
        by_cases h : k = k'
        · simp [h]
        · simp [heq, h, Ne.symm h]
      · rw [if_neg heq, find_cons, ih, find_cons]
        by_cases h : k' = k
        · have hne : ¬ e.1 = k' := fun he => heq (he.trans h)
          rw [if_neg hne, if_pos h, if_pos h]
        · rw [if_neg h, if_neg h]

/-- What a removal does to lookups. -/
theorem find_erase (m : List (κ × ν)) (k k' : κ) :
    find (erase m k) k' = if k' = k then none else find m k' := by
  induction m with
  | nil => simp [erase]
  | cons e m ih =>
    unfold erase at ih ⊢
    by_cases heq : e.1 = k
    · rw [List.filter_cons_of_neg (by simp [heq]), ih, find_cons]
      by_cases h : k' = k
      · simp [h]
      · simp [heq, h, Ne.symm h]
    · rw [List.filter_cons_of_pos (by simp [heq]), find_cons, ih, find_cons]
      by_cases h : k' = k
      · have : ¬ e.1 = k' := fun he => heq (he.trans h)
        simp [h, heq]
      · simp [h]

/-- The keys after an insertion are the old ones and the new one. -/
theorem mem_insert {m : List (κ × ν)} {k : κ} {v : ν} {e : κ × ν} (h : e ∈ insert m k v) :
    e = (k, v) ∨ e ∈ m := by
  induction m with
  | nil => simpa [insert] using h
  | cons a m ih =>
    unfold insert at h
    split at h
    · simpa using h
    · split at h
      · rcases List.mem_cons.mp h with h | h
        · exact Or.inl h
        · exact Or.inr (List.mem_cons_of_mem _ h)
      · rcases List.mem_cons.mp h with h | h
        · exact Or.inr (h ▸ List.mem_cons_self)
        · exact (ih h).imp_right (List.mem_cons_of_mem _)

/-- Insertion passes over entries with smaller keys. -/
theorem insert_append_of_lt {left : List (κ × ν)} {k : κ} (hleft : ∀ e ∈ left, e.1 < k)
    (m : List (κ × ν)) (v : ν) : insert (left ++ m) k v = left ++ insert m k v := by
  induction left with
  | nil => rfl
  | cons e left ih =>
    have he := hleft e List.mem_cons_self
    rw [List.cons_append, insert, if_neg (not_lt_of_gt he), if_neg (ne_of_lt he),
      ih fun a ha => hleft a (List.mem_cons_of_mem _ ha), List.cons_append]

/-- Insertion does not reach entries with larger keys. -/
theorem insert_append_of_gt {right : List (κ × ν)} {k : κ} (hright : ∀ e ∈ right, k < e.1)
    (m : List (κ × ν)) (v : ν) : insert (m ++ right) k v = insert m k v ++ right := by
  induction m with
  | nil =>
    cases right with
    | nil => rfl
    | cons e right => simp [insert, hright e List.mem_cons_self]
  | cons e m ih =>
    simp only [List.cons_append, insert, ih]
    split
    · rfl
    · split <;> rfl

/-- Insertion between smaller and larger keys. -/
theorem insert_between {left right : List (κ × ν)} {k : κ} (hleft : ∀ e ∈ left, e.1 < k)
    (hright : ∀ e ∈ right, k < e.1) (m : List (κ × ν)) (v : ν) :
    insert (left ++ (m ++ right)) k v = left ++ (insert m k v ++ right) := by
  rw [insert_append_of_lt hleft, insert_append_of_gt hright]

/-- Insertion keeps the keys in order. -/
theorem SortedKeys.insert {m : List (κ × ν)} (hm : SortedKeys m) (k : κ) (v : ν) :
    SortedKeys (Lib.insert m k v) := by
  induction m with
  | nil => exact List.pairwise_singleton _ _
  | cons e m ih =>
    obtain ⟨he, hm⟩ := List.pairwise_cons.mp hm
    unfold Lib.insert
    split
    · rename_i hlt
      refine List.pairwise_cons.mpr ⟨?_, List.pairwise_cons.mpr ⟨he, hm⟩⟩
      intro a ha
      rcases List.mem_cons.mp ha with rfl | ha
      · exact hlt
      · exact hlt.trans (he a ha)
    · rename_i hlt
      split
      · rename_i heq
        subst heq
        exact List.pairwise_cons.mpr ⟨he, hm⟩
      · rename_i hne
        refine List.pairwise_cons.mpr ⟨?_, ih hm⟩
        intro a ha
        rcases mem_insert ha with rfl | ha
        · exact lt_of_le_of_ne (not_lt.mp hlt) hne
        · exact he a ha

/-- Insertion does not touch the bindings of other keys. -/
theorem erase_insert (m : List (κ × ν)) (k : κ) (v : ν) : erase (insert m k v) k = erase m k := by
  unfold erase
  induction m with
  | nil => simp [insert]
  | cons e m ih =>
    unfold insert
    split
    · rw [List.filter_cons_of_neg (by simp)]
    · split
      · rename_i heq
        rw [List.filter_cons_of_neg (by simp), List.filter_cons_of_neg (by simp [heq])]
      · rename_i hne
        rw [List.filter_cons_of_pos (by simp [hne]), List.filter_cons_of_pos (by simp [hne]), ih]

/-- After an insertion the key has one binding. -/
theorem SortedKeys.bindings_insert {m : List (κ × ν)} (hm : SortedKeys m) (k : κ) (v : ν) :
    bindings (Lib.insert m k v) k = [(k, v)] := by
  induction m with
  | nil => simp [Lib.insert, bindings]
  | cons e m ih =>
    obtain ⟨he, hm⟩ := List.pairwise_cons.mp hm
    unfold Lib.insert
    split
    · rename_i hlt
      have hnone : bindings (e :: m) k = [] := by
        apply bindings_eq_nil
        intro a ha
        rcases List.mem_cons.mp ha with rfl | ha
        · exact ne_of_gt hlt
        · exact ne_of_gt (hlt.trans (he a ha))
      rw [bindings, List.filter_cons_of_pos (by simp)]
      exact congrArg _ hnone
    · split
      · rename_i heq
        have hnone : bindings m k = [] :=
          bindings_eq_nil fun a ha => ne_of_gt (heq ▸ he a ha)
        rw [bindings, List.filter_cons_of_pos (by simp)]
        exact congrArg _ hnone
      · rename_i hne
        rw [bindings, List.filter_cons_of_neg (by simp [hne])]
        exact ih hm

/-- Removal keeps the keys in order. -/
theorem SortedKeys.erase {m : List (κ × ν)} (hm : SortedKeys m) (k : κ) :
    SortedKeys (Lib.erase m k) := hm.filter _

/-! ## Positions in a sorted list -/

/-- The number of keys below `k`. -/
def below (m : List (κ × ν)) (k : κ) : ℕ := (m.takeWhile fun e => decide (e.1 < k)).length

/-- There are no more keys below `k` than entries. -/
theorem below_le (m : List (κ × ν)) (k : κ) : below m k ≤ m.length :=
  (List.takeWhile_prefix _).length_le

/-- The test for keys below `k` can only turn false along a sorted list. -/
theorem SortedKeys.pairwise_below {m : List (κ × ν)} (hm : SortedKeys m) (k : κ) :
    m.Pairwise fun a b => decide (b.1 < k) = true → decide (a.1 < k) = true :=
  hm.imp fun hab hb => by simpa using hab.trans (by simpa using hb)

/-- In a sorted list the entries with keys below `k` form the front. -/
theorem SortedKeys.lt_iff_below {m : List (κ × ν)} (hm : SortedKeys m) (k : κ) {i : ℕ}
    (hi : i < m.length) : m[i].1 < k ↔ i < below m k := by
  rw [below, ← lt_length_takeWhile_iff (hm.pairwise_below k) hi, decide_eq_true_eq]

/-- The entries in front of the position of `k` have smaller keys. -/
theorem SortedKeys.lt_of_mem_take {m : List (κ × ν)} (hm : SortedKeys m) {k : κ} {e : κ × ν}
    (he : e ∈ m.take (below m k)) : e.1 < k := by
  obtain ⟨i, hi, rfl⟩ := List.mem_take_iff_getElem.mp he
  exact (hm.lt_iff_below k (by omega)).mpr (by omega)

/-- The entries from the position of `k` on have keys at least `k`. -/
theorem SortedKeys.le_of_mem_drop {m : List (κ × ν)} (hm : SortedKeys m) {k : κ} {e : κ × ν}
    (he : e ∈ m.drop (below m k)) : k ≤ e.1 := by
  obtain ⟨i, hi, rfl⟩ := List.mem_drop_iff_getElem.mp he
  exact not_lt.mp fun hlt => by
    have := (hm.lt_iff_below k (by omega)).mp hlt
    omega

/-- From the position of `k` on stand exactly the entries with keys at least `k`. -/
theorem SortedKeys.drop_below {m : List (κ × ν)} (hm : SortedKeys m) (k : κ) :
    m.drop (below m k) = m.filter fun e => decide (k ≤ e.1) := by
  conv_rhs => rw [← List.take_append_drop (below m k) m]
  rw [List.filter_append, List.filter_eq_nil_iff.mpr fun e he => by
      simpa using hm.lt_of_mem_take he,
    List.filter_eq_self.mpr fun e he => by simpa using hm.le_of_mem_drop he, List.nil_append]

/-- In front of the position behind `k` stand exactly the entries with keys at most `k`. -/
theorem SortedKeys.take_below {m : List (κ × ν)} (hm : SortedKeys m) {k : κ} {p : Prop}
    [Decidable p] (hp : p ↔ ∃ hi : below m k < m.length, m[below m k].1 = k) :
    m.take (if p then below m k + 1 else below m k) = m.filter fun e => decide (e.1 ≤ k) := by
  have hfront : (m.take (below m k)).filter (fun e => decide (e.1 ≤ k)) = m.take (below m k) :=
    List.filter_eq_self.mpr fun e he => by simpa using (hm.lt_of_mem_take he).le
  have hsplit : m.filter (fun e => decide (e.1 ≤ k)) =
      m.take (below m k) ++ (m.drop (below m k)).filter fun e => decide (e.1 ≤ k) := by
    conv_lhs => rw [← List.take_append_drop (below m k) m]
    rw [List.filter_append, hfront]
  rw [hsplit]
  by_cases hi : below m k < m.length
  · have hrest : ∀ e ∈ m.drop (below m k + 1), m[below m k].1 < e.1 := by
      intro e he
      obtain ⟨j, hj, rfl⟩ := List.mem_drop_iff_getElem.mp he
      exact List.pairwise_iff_getElem.mp hm _ _ _ _ (by omega)
    have hge : k ≤ m[below m k].1 :=
      hm.le_of_mem_drop (List.mem_drop_iff_getElem.mpr ⟨0, by omega, rfl⟩ : m[below m k + 0] ∈ _)
    have hnil : (m.drop (below m k + 1)).filter (fun e => decide (e.1 ≤ k)) = [] :=
      List.filter_eq_nil_iff.mpr fun e he => by simpa using hge.trans_lt (hrest e he)
    rw [List.drop_eq_getElem_cons hi]
    by_cases heq : m[below m k].1 = k
    · rw [if_pos (hp.mpr ⟨hi, heq⟩), List.filter_cons_of_pos (by simp [heq]), hnil,
        List.take_succ_eq_append_getElem hi]
    · have hlt : k < m[below m k].1 := lt_of_le_of_ne hge (Ne.symm heq)
      rw [if_neg fun h => heq (hp.mp h).2, List.filter_cons_of_neg (by simpa using hlt), hnil,
        List.append_nil]
  · rw [if_neg fun h => hi (hp.mp h).1, List.drop_of_length_le (by omega), List.filter_nil,
      List.append_nil]

/-- Inserting a key that is present overwrites the entry at its position. -/
theorem SortedKeys.insert_eq_of_eq {m : List (κ × ν)} (hm : SortedKeys m) {k : κ} (v : ν)
    (hi : below m k < m.length) (heq : m[below m k].1 = k) :
    Lib.insert m k v = m.take (below m k) ++ (k, v) :: m.drop (below m k + 1) := by
  conv_lhs => rw [← List.take_append_drop (below m k) m]
  rw [insert_append_of_lt (fun e he => hm.lt_of_mem_take he), List.drop_eq_getElem_cons hi]
  congr 1
  rw [Lib.insert, if_neg (by rw [heq]; exact lt_irrefl k), if_pos heq]

/-- Inserting a key that is absent opens a place at its position. -/
theorem SortedKeys.insert_eq_of_ne {m : List (κ × ν)} (hm : SortedKeys m) {k : κ} (v : ν)
    (hne : ∀ hi : below m k < m.length, m[below m k].1 ≠ k) :
    Lib.insert m k v = m.take (below m k) ++ (k, v) :: m.drop (below m k) := by
  conv_lhs => rw [← List.take_append_drop (below m k) m]
  rw [insert_append_of_lt (fun e he => hm.lt_of_mem_take he)]
  congr 1
  by_cases hi : below m k < m.length
  · have hmem : m[below m k] ∈ m.drop (below m k) :=
      List.mem_drop_iff_getElem.mpr ⟨0, by omega, by simp⟩
    rw [List.drop_eq_getElem_cons hi, Lib.insert,
      if_pos (lt_of_le_of_ne (hm.le_of_mem_drop hmem) (Ne.symm (hne hi)))]
  · rw [List.drop_of_length_le (by omega)]
    rfl

/-- Looking a key up means looking at the entry in its position. -/
theorem SortedKeys.find_eq {m : List (κ × ν)} (hm : SortedKeys m) (k : κ) :
    find m k = (m[below m k]?).bind fun e => if e.1 = k then some e.2 else none := by
  conv_lhs => rw [← List.take_append_drop (below m k) m]
  rw [find_append, find_eq_none fun e he => ne_of_lt (hm.lt_of_mem_take he), Option.none_or]
  by_cases hi : below m k < m.length
  · rw [List.drop_eq_getElem_cons hi, find_cons, List.getElem?_eq_getElem hi, Option.bind_some]
    split
    · rfl
    · apply find_eq_none
      intro e he heq
      have hpos : m[below m k].1 < e.1 := by
        obtain ⟨i, hi', rfl⟩ := List.mem_drop_iff_getElem.mp he
        exact List.pairwise_iff_getElem.mp hm _ _ _ _ (by omega)
      have hle := hm.le_of_mem_drop
        (List.mem_drop_iff_getElem.mpr ⟨0, by omega, rfl⟩ : m[below m k + 0] ∈ _)
      rw [heq] at hpos
      exact absurd hle (not_le.mpr hpos)
  · rw [List.drop_of_length_le (by omega), List.getElem?_eq_none (by omega)]
    rfl

/-- Removing a key that is present drops the entry at its position. -/
theorem SortedKeys.erase_eq_of_eq {m : List (κ × ν)} (hm : SortedKeys m) {k : κ}
    (hi : below m k < m.length) (heq : m[below m k].1 = k) :
    Lib.erase m k = m.take (below m k) ++ m.drop (below m k + 1) := by
  conv_lhs => rw [← List.take_append_drop (below m k) m, List.drop_eq_getElem_cons hi]
  have hright : ∀ e ∈ m.drop (below m k + 1), e.1 ≠ k := by
    intro e he
    obtain ⟨i, hi', rfl⟩ := List.mem_drop_iff_getElem.mp he
    have hpos : m[below m k].1 < m[below m k + 1 + i].1 :=
      List.pairwise_iff_getElem.mp hm _ _ _ _ (by omega)
    exact ne_of_gt (heq.symm.trans_lt hpos)
  rw [Lib.erase, List.filter_append, List.filter_cons_of_neg (by simpa using heq),
    List.filter_eq_self.mpr fun e he => by simpa using ne_of_lt (hm.lt_of_mem_take he),
    List.filter_eq_self.mpr fun e he => by simpa using hright e he]

/-- Removing an absent key changes nothing. -/
theorem erase_eq_self {m : List (κ × ν)} {k : κ} (h : ∀ e ∈ m, e.1 ≠ k) : erase m k = m :=
  List.filter_eq_self.mpr fun e he => by simpa using h e he

/-- Removal acts on consecutive parts separately. -/
theorem erase_append (m m' : List (κ × ν)) (k : κ) :
    erase (m ++ m') k = erase m k ++ erase m' k := List.filter_append ..

/-- Membership in a sorted list is a successful lookup. -/
theorem SortedKeys.mem_iff_find {m : List (κ × ν)} (hm : SortedKeys m) (k : κ) (v : ν) :
    (k, v) ∈ m ↔ find m k = some v := by
  induction m with
  | nil => simp
  | cons e m ih =>
    obtain ⟨he, hm⟩ := List.pairwise_cons.mp hm
    rw [List.mem_cons, find_cons, ih hm]
    by_cases hk : e.1 = k
    · have hnone : find m k = none := find_eq_none fun a ha => hk ▸ ne_of_gt (he a ha)
      rw [if_pos hk, hnone]
      constructor
      · rintro (rfl | h)
        · rfl
        · cases h
      · intro h
        exact Or.inl (Prod.ext hk.symm (Option.some.inj h).symm)
    · rw [if_neg hk]
      constructor
      · rintro (rfl | h)
        · exact absurd rfl hk
        · exact h
      · exact Or.inr

/-- Sorted lists with the same lookups are the same. -/
theorem SortedKeys.ext {m m' : List (κ × ν)} (hm : SortedKeys m) (hm' : SortedKeys m')
    (h : ∀ k, find m k = find m' k) : m = m' := by
  have hnodup : ∀ {l : List (κ × ν)}, SortedKeys l → l.Nodup := by
    intro l hl
    refine List.Pairwise.imp (fun {a b} hlt => ?_) hl
    rintro rfl
    exact lt_irrefl _ hlt
  have hperm : m.Perm m' := by
    refine (List.perm_ext_iff_of_nodup (hnodup hm) (hnodup hm')).mpr fun e => ?_
    rw [show e = (e.1, e.2) from rfl, hm.mem_iff_find, hm'.mem_iff_find, h]
  exact List.Perm.eq_of_pairwise (fun a b _ _ hlt hlt' => absurd hlt (lt_asymm hlt')) hm hm' hperm

end Order

end FastKV.Lib
