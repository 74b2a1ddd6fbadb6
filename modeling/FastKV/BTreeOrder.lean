import FastKV.BTree

/-!
# The B+tree is an ordered map

The contents of a tree are the entries of its leaves from left to right. The invariant
`Ordered` gives every node the half-open key range its separators leave for it, keeps the
entries of a leaf sorted and puts all leaves at one depth. Under it a lookup agrees with
the contents, an insertion inserts into the contents, and both halves of a split node
satisfy the invariant for the two parts of its range. Deletion only removes from a leaf.
-/

namespace FastKV.BTree

open Lib

/-! ## The comparison function -/

/-- `cmp` decides the first difference or the missing byte. -/
theorem cmp_cons (a b : UInt8) (as bs : Bytes) :
    cmp (a :: as) (b :: bs) = if a < b then .lt else if b < a then .gt else cmp as bs := by
  simp only [cmp, List.length_cons, Nat.add_min_add_right, memcmp]
  by_cases hab : a < b
  · simp [hab]
  · by_cases hba : b < a
    · simp [hab, hba]
    · simp only [hab, hba, if_false]
      cases memcmp (min as.length bs.length) as bs <;> simp [Nat.compare_eq_ite_lt]

/-- `cmp` is three-way comparison in the lexicographic order of byte strings. -/
theorem cmp_spec (a b : Bytes) :
    (cmp a b = .lt ↔ a < b) ∧ (cmp a b = .eq ↔ a = b) ∧ (cmp a b = .gt ↔ b < a) := by
  induction a generalizing b with
  | nil =>
    cases b with
    | nil => simp [cmp, memcmp]
    | cons b bs => simp [cmp, memcmp, Nat.compare_eq_ite_lt]
  | cons a as ih =>
    cases b with
    | nil => simp [cmp, memcmp, Nat.compare_eq_ite_lt]
    | cons b bs =>
      rw [cmp_cons]
      rcases lt_trichotomy a b with hab | rfl | hab
      · have hne := ne_of_lt hab
        have hnot := not_lt_of_gt hab
        simp [hab, hne, hne.symm, hnot, List.cons_lt_cons_iff]
      · simp [ih]
      · have hne := ne_of_gt hab
        have hnot := not_lt_of_gt hab
        simp [hab, hne, hne.symm, hnot, List.cons_lt_cons_iff]

/-- Less-than as the tree computes it. -/
theorem cmp_eq_lt {a b : Bytes} : cmp a b = .lt ↔ a < b := (cmp_spec a b).1

/-- Equality as the tree computes it. -/
theorem cmp_eq_eq {a b : Bytes} : cmp a b = .eq ↔ a = b := (cmp_spec a b).2.1

/-- At-most as the tree computes it. -/
theorem cmp_ne_gt {a b : Bytes} : cmp a b ≠ .gt ↔ a ≤ b := by
  rw [Ne, (cmp_spec a b).2.2, not_lt]

/-! ## Searching one node -/

/-- `leaf_lower` finds the position of a key among sorted entries. -/
theorem leafLower_eq {entries : List (Bytes × Bytes)} (h : SortedKeys entries) (key : Bytes) :
    leafLower entries key = below entries key := by
  have hsearch := lowerBound_list ([], []) (h.pairwise_below key)
  rw [leafLower, below, ← hsearch]
  congr 1
  funext mid
  exact decide_eq_decide.mpr cmp_eq_lt

/-- The number of separators at most `key`. -/
def childIdx (keys : List Bytes) (key : Bytes) : ℕ :=
  (keys.takeWhile fun s => decide (s ≤ key)).length

/-- `intr_child_idx` counts the separators at most `key`. -/
theorem intrChildIdx_eq {keys : List Bytes} (h : keys.Pairwise (· < ·)) (key : Bytes) :
    intrChildIdx keys key = childIdx keys key := by
  have hpair : keys.Pairwise fun a b => decide (b ≤ key) = true → decide (a ≤ key) = true :=
    h.imp fun hab hb => by simpa using hab.le.trans (by simpa using hb)
  have hsearch := lowerBound_list [] hpair
  rw [intrChildIdx, childIdx, ← hsearch]
  congr 1
  funext mid
  exact decide_eq_decide.mpr cmp_ne_gt

/-- A leaf hit is the presence of the key at its position. -/
theorem leafHit_iff {entries : List (Bytes × Bytes)} {i : ℕ} {key : Bytes} :
    leafHit entries i key ↔ ∃ hi : i < entries.length, entries[i].1 = key := by
  unfold leafHit
  constructor
  · rintro ⟨hi, heq⟩
    refine ⟨hi, ?_⟩
    rwa [List.getD_eq_getElem?_getD, List.getElem?_eq_getElem hi, Option.getD_some,
      cmp_eq_eq] at heq
  · rintro ⟨hi, heq⟩
    refine ⟨hi, ?_⟩
    rwa [List.getD_eq_getElem?_getD, List.getElem?_eq_getElem hi, Option.getD_some, cmp_eq_eq]

/-- A lookup among sorted entries inspects the position of the key. -/
theorem find_eq_leafHit {entries : List (Bytes × Bytes)} (h : SortedKeys entries) (key : Bytes) :
    Lib.find entries key =
      if leafHit entries (leafLower entries key) key then
        some (entries.getD (leafLower entries key) ([], [])).2
      else none := by
  rw [h.find_eq, leafLower_eq h]
  by_cases hi : below entries key < entries.length
  · rw [List.getElem?_eq_getElem hi, Option.bind_some, List.getD_eq_getElem?_getD,
      List.getElem?_eq_getElem hi, Option.getD_some]
    by_cases heq : entries[below entries key].1 = key
    · rw [if_pos heq, if_pos (leafHit_iff.mpr ⟨hi, heq⟩)]
    · rw [if_neg heq, if_neg fun hhit => heq (leafHit_iff.mp hhit).2]
  · rw [List.getElem?_eq_none (Nat.le_of_not_lt hi), if_neg fun hhit => hi hhit.1]
    rfl

/-! ## Ranges and the order invariant -/

/-- A key lies in the half-open range `[lo, hi)`; a missing bound is no bound. -/
def InRange (lo hi : Option Bytes) (k : Bytes) : Prop := (∀ l ∈ lo, l ≤ k) ∧ ∀ h ∈ hi, k < h

/-- A separator lies strictly inside a range. -/
def SepRange (lo hi : Option Bytes) (s : Bytes) : Prop := (∀ l ∈ lo, l < s) ∧ ∀ h ∈ hi, s < h

/-- Every key lies in the unbounded range. -/
theorem InRange.full (k : Bytes) : InRange none none k := ⟨by simp, by simp⟩

/-- The children of an internal node, each in the range between its separators. -/
def Chain (P : Option Bytes → Option Bytes → Node → Prop) :
    Option Bytes → Option Bytes → List Bytes → List Node → Prop
  | lo, hi, [], [c] => P lo hi c
  | lo, hi, s :: ks, c :: cs => P lo (some s) c ∧ SepRange lo hi s ∧ Chain P (some s) hi ks cs
  | _, _, _, _ => False

/-- The invariant of a node at height `d` that is responsible for a key range. -/
def Ordered : ℕ → Option Bytes → Option Bytes → Node → Prop
  | 0, lo, hi, .leaf _ entries =>
    SortedKeys entries ∧ (∀ e ∈ entries, InRange lo hi e.1) ∧ entries.length ≤ leafMax
  | d + 1, lo, hi, .intr keys children =>
    keys.length ≤ intrMax ∧ Chain (Ordered d) lo hi keys children
  | _, _, _, _ => False

mutual

/-- The entries below a node, from left to right. -/
def contents : Node → List (Bytes × Bytes)
  | .leaf _ entries => entries
  | .intr _ children => contentsList children

/-- The entries below a list of nodes. -/
def contentsList : List Node → List (Bytes × Bytes)
  | [] => []
  | c :: cs => contents c ++ contentsList cs

end

/-- Contents of consecutive children. -/
theorem contentsList_append (left right : List Node) :
    contentsList (left ++ right) = contentsList left ++ contentsList right := by
  induction left with
  | nil => rfl
  | cons c cs ih => simp [contentsList, ih]

section Chain

variable {P : Option Bytes → Option Bytes → Node → Prop}

/-- There is one more child than separators. -/
theorem Chain.length_eq {lo hi : Option Bytes} {ks : List Bytes} {cs : List Node}
    (h : Chain P lo hi ks cs) : cs.length = ks.length + 1 := by
  induction ks generalizing lo cs with
  | nil =>
    match cs, h with
    | [_], _ => rfl
  | cons s ks ih =>
    match cs, h with
    | c :: cs, ⟨_, _, hrest⟩ => simp [ih hrest]

/-- The separators lie strictly inside the range. -/
theorem Chain.sepRange {lo hi : Option Bytes} {ks : List Bytes} {cs : List Node}
    (h : Chain P lo hi ks cs) : ∀ s ∈ ks, SepRange lo hi s := by
  induction ks generalizing lo cs with
  | nil => simp
  | cons s ks ih =>
    match cs, h with
    | c :: cs, ⟨_, hs, hrest⟩ =>
      intro t ht
      rcases List.mem_cons.mp ht with rfl | ht
      · exact hs
      · obtain ⟨hlo, hhi⟩ := ih hrest t ht
        exact ⟨fun l hl => (hs.1 l hl).trans (hlo s rfl), hhi⟩

/-- The separators increase strictly. -/
theorem Chain.pairwise {lo hi : Option Bytes} {ks : List Bytes} {cs : List Node}
    (h : Chain P lo hi ks cs) : ks.Pairwise (· < ·) := by
  induction ks generalizing lo cs with
  | nil => exact List.Pairwise.nil
  | cons s ks ih =>
    match cs, h with
    | c :: cs, ⟨_, _, hrest⟩ =>
      exact List.pairwise_cons.mpr ⟨fun t ht => (hrest.sepRange t ht).1 s rfl, ih hrest⟩

/-- The last child has the property for some range. -/
theorem Chain.last {lo hi : Option Bytes} {ks : List Bytes} {front : List Node} {c : Node}
    (h : Chain P lo hi ks (front ++ [c])) : ∃ clo chi, P clo chi c := by
  induction ks generalizing lo front with
  | nil =>
    obtain rfl : front = [] := by
      have hlen := h.length_eq
      exact List.eq_nil_of_length_eq_zero (by simpa using hlen)
    exact ⟨lo, hi, h⟩
  | cons s ks ih =>
    match front, h with
    | [], ⟨hc, _, _⟩ => exact ⟨lo, some s, hc⟩
    | _ :: front, ⟨_, _, hrest⟩ => exact ih hrest

variable (hP : ∀ lo hi n, P lo hi n → ∀ e ∈ contents n, InRange lo hi e.1)

include hP in
/-- The contents of the children lie in the range. -/
theorem Chain.inRange {lo hi : Option Bytes} {ks : List Bytes} {cs : List Node}
    (h : Chain P lo hi ks cs) : ∀ e ∈ contentsList cs, InRange lo hi e.1 := by
  induction ks generalizing lo cs with
  | nil =>
    match cs, h with
    | [c], h => simpa [contentsList] using hP lo hi c h
  | cons s ks ih =>
    match cs, h with
    | c :: cs, ⟨hc, hs, hrest⟩ =>
      intro e he
      rcases List.mem_append.mp he with he | he
      · obtain ⟨hlo, hhi⟩ := hP lo (some s) c hc e he
        exact ⟨hlo, fun h hh => (hhi s rfl).trans (hs.2 h hh)⟩
      · obtain ⟨hlo, hhi⟩ := ih hrest e he
        exact ⟨fun l hl => (hs.1 l hl).le.trans (hlo s rfl), hhi⟩

include hP in
/-- The contents of the children are sorted if those of each child are. -/
theorem Chain.sorted (hsorted : ∀ lo hi n, P lo hi n → SortedKeys (contents n))
    {lo hi : Option Bytes} {ks : List Bytes} {cs : List Node}
    (h : Chain P lo hi ks cs) : SortedKeys (contentsList cs) := by
  induction ks generalizing lo cs with
  | nil =>
    match cs, h with
    | [c], h => simpa [contentsList] using hsorted lo hi c h
  | cons s ks ih =>
    match cs, h with
    | c :: cs, ⟨hc, _, hrest⟩ =>
      refine List.pairwise_append.mpr ⟨hsorted lo (some s) c hc, ih hrest, ?_⟩
      intro a ha b hb
      exact lt_of_lt_of_le ((hP lo (some s) c hc a ha).2 s rfl)
        ((Chain.inRange hP hrest b hb).1 s rfl)

/-- Everything a chain says about the child responsible for `key`: the ranges on both
sides exclude the key, the child may be replaced, and it may be replaced by two nodes with
a new separator. -/
structure Focus (P : Option Bytes → Option Bytes → Node → Prop) (lo hi : Option Bytes)
    (ks : List Bytes) (key : Bytes) where
  /-- The children in front. -/
  left : List Node
  /-- The responsible child. -/
  child : Node
  /-- The children behind. -/
  right : List Node
  /-- Lower end of the child's range. -/
  clo : Option Bytes
  /-- Upper end of the child's range. -/
  chi : Option Bytes
  index : left.length = childIdx ks key
  holds : P clo chi child
  inRange : InRange clo chi key
  left_lt : ∀ e ∈ contentsList left, e.1 < key
  right_gt : ∀ e ∈ contentsList right, key < e.1
  replace : ∀ c, P clo chi c → Chain P lo hi ks (left ++ c :: right)
  replace_two : ∀ l s r, P clo (some s) l → P (some s) chi r → SepRange clo chi s →
    Chain P lo hi (ks.take (childIdx ks key) ++ s :: ks.drop (childIdx ks key))
      (left ++ l :: r :: right)

/-- Inserting the key changes the contents of the responsible child only. -/
theorem Focus.insert_contents {lo hi : Option Bytes} {ks : List Bytes} {key : Bytes}
    (f : Focus P lo hi ks key) (keys : List Bytes) (val : Bytes) :
    Lib.insert (contents (.intr keys (f.left ++ f.child :: f.right))) key val =
      contentsList f.left ++ (Lib.insert (contents f.child) key val ++ contentsList f.right) := by
  rw [contents, contentsList_append, contentsList]
  exact insert_between f.left_lt f.right_gt _ val

include hP in
/-- A chain can be opened at the child responsible for a key of its range. -/
theorem Chain.focus {lo hi : Option Bytes} {ks : List Bytes} {cs : List Node} {key : Bytes}
    (h : Chain P lo hi ks cs) (hkey : InRange lo hi key) :
    ∃ f : Focus P lo hi ks key, cs = f.left ++ f.child :: f.right := by
  induction ks generalizing lo cs with
  | nil =>
    match cs, h with
    | [c], h =>
      exact ⟨{ left := [], child := c, right := [], clo := lo, chi := hi,
               index := rfl, holds := h, inRange := hkey, left_lt := by simp [contentsList],
               right_gt := by simp [contentsList], replace := fun c hc => hc,
               replace_two := fun l s r hl hr hs => ⟨hl, hs, hr⟩ }, rfl⟩
  | cons s ks ih =>
    match cs, h with
    | c :: cs, ⟨hc, hs, hrest⟩ =>
      by_cases hle : s ≤ key
      · have hidx : childIdx (s :: ks) key = childIdx ks key + 1 := by simp [childIdx, hle]
        have hkey' : InRange (some s) hi key := ⟨by simpa using hle, hkey.2⟩
        obtain ⟨f, rfl⟩ := ih hrest hkey'
        refine ⟨{ left := c :: f.left, child := f.child, right := f.right, clo := f.clo,
                  chi := f.chi, index := by simp [hidx, f.index], holds := f.holds,
                  inRange := f.inRange, left_lt := ?_, right_gt := f.right_gt,
                  replace := fun d hd => ⟨hc, hs, f.replace d hd⟩,
                  replace_two := ?_ }, rfl⟩
        · intro e he
          rcases List.mem_append.mp he with he | he
          · exact lt_of_lt_of_le ((hP lo (some s) c hc e he).2 s rfl) hle
          · exact f.left_lt e he
        · intro l t r hl hr ht
          rw [hidx]
          exact ⟨hc, hs, f.replace_two l t r hl hr ht⟩
      · have hlt : key < s := not_le.mp hle
        have hidx : childIdx (s :: ks) key = 0 := by simp [childIdx, hle]
        refine ⟨{ left := [], child := c, right := cs, clo := lo, chi := some s,
                  index := by rw [hidx]; rfl, holds := hc,
                  inRange := ⟨hkey.1, by simpa using hlt⟩,
                  left_lt := by simp [contentsList], right_gt := ?_,
                  replace := fun d hd => ⟨hd, hs, hrest⟩, replace_two := ?_ }, rfl⟩
        · intro e he
          exact lt_of_lt_of_le hlt ((Chain.inRange hP hrest e he).1 s rfl)
        · intro l t r hl hr ht
          rw [hidx]
          have hts : t < s := ht.2 s rfl
          exact ⟨hl, ⟨ht.1, fun h hh => hts.trans (hs.2 h hh)⟩, hr, ⟨by simpa using hts, hs.2⟩,
            hrest⟩

/-- A chain can be cut at a separator. -/
theorem Chain.cut {lo hi : Option Bytes} {ks : List Bytes} {cs : List Node} {m : ℕ}
    (h : Chain P lo hi ks cs) (hm : m < ks.length) :
    Chain P lo (some ks[m]) (ks.take m) (cs.take (m + 1)) ∧ SepRange lo hi ks[m] ∧
      Chain P (some ks[m]) hi (ks.drop (m + 1)) (cs.drop (m + 1)) := by
  induction ks generalizing lo cs m with
  | nil => simp at hm
  | cons s ks ih =>
    match cs, h with
    | c :: cs, ⟨hc, hs, hrest⟩ =>
      cases m with
      | zero => exact ⟨hc, hs, by simpa using hrest⟩
      | succ m =>
        obtain ⟨hleft, ⟨hlow, hhigh⟩, hright⟩ := ih hrest (by simpa using hm)
        exact ⟨⟨hc, ⟨hs.1, by simpa using hlow s rfl⟩, hleft⟩,
          ⟨fun l hl => (hs.1 l hl).trans (hlow s rfl), hhigh⟩, hright⟩

end Chain

/-- The contents of an ordered node lie in its range. -/
theorem Ordered.inRange (d : ℕ) : ∀ lo hi n, Ordered d lo hi n →
    ∀ e ∈ contents n, InRange lo hi e.1 := by
  induction d with
  | zero =>
    intro lo hi n h
    match n, h with
    | .leaf _ entries, ⟨_, hrange, _⟩ => simpa [contents] using hrange
  | succ d ih =>
    intro lo hi n h
    match n, h with
    | .intr keys children, ⟨_, hchain⟩ => simpa [contents] using Chain.inRange ih hchain

/-- The contents of an ordered node are sorted. -/
theorem Ordered.sorted (d : ℕ) : ∀ lo hi n, Ordered d lo hi n → SortedKeys (contents n) := by
  induction d with
  | zero =>
    intro lo hi n h
    match n, h with
    | .leaf _ entries, ⟨hsorted, _, _⟩ => simpa [contents] using hsorted
  | succ d ih =>
    intro lo hi n h
    match n, h with
    | .intr keys children, ⟨_, hchain⟩ =>
      simpa [contents] using Chain.sorted (Ordered.inRange d) ih hchain

/-! ## Lookup -/

/-- Descending into a child by its index. -/
theorem descendAt_append (choose : List Bytes → ℕ) (left right : List Node) (c : Node) :
    descendAt choose (left ++ c :: right) left.length = descend choose c := by
  induction left with
  | nil => rfl
  | cons b left ih => exact ih

/-- An inner node opened at the child responsible for a key: a search for the key goes on
there. -/
theorem Chain.search {d : ℕ} {lo hi : Option Bytes} {keys : List Bytes} {children : List Node}
    {key : Bytes} (h : Chain (Ordered d) lo hi keys children) (hkey : InRange lo hi key) :
    ∃ f : Focus (Ordered d) lo hi keys key, children = f.left ++ f.child :: f.right ∧
      intrChildIdx keys key = f.left.length ∧
      findLeaf key (.intr keys children) = findLeaf key f.child ∧
      f.left.length + f.right.length = keys.length := by
  obtain ⟨f, rfl⟩ := Chain.focus (Ordered.inRange d) h hkey
  have hci : intrChildIdx keys key = f.left.length := by
    rw [intrChildIdx_eq h.pairwise, f.index]
  refine ⟨f, rfl, hci, ?_, ?_⟩
  · simp only [findLeaf, descend, hci, descendAt_append]
  · have hcount := h.length_eq
    rw [List.length_append, List.length_cons] at hcount
    omega

/-- The leaf reached for a key: sorted, in its range, and the part of the contents
around the key. -/
theorem findLeaf_spec {key : Bytes} (d : ℕ) : ∀ lo hi n, Ordered d lo hi n →
    InRange lo hi key → ∃ left right, contents n = left ++ ((findLeaf key n).2 ++ right) ∧
      SortedKeys (findLeaf key n).2 ∧ (∀ e ∈ left, e.1 < key) ∧ ∀ e ∈ right, key < e.1 := by
  induction d with
  | zero =>
    intro lo hi n h _
    match n, h with
    | .leaf _ entries, ⟨hsorted, _, _⟩ =>
      exact ⟨[], [], by simp [contents, findLeaf, descend], hsorted, by simp, by simp⟩
  | succ d ih =>
    intro lo hi n h hkey
    match n, h with
    | .intr keys children, ⟨_, hchain⟩ =>
      obtain ⟨f, rfl, -, hfind, -⟩ := hchain.search hkey
      obtain ⟨left, right, heq, hsorted, hleft, hright⟩ := ih _ _ _ f.holds f.inRange
      refine ⟨contentsList f.left ++ left, right ++ contentsList f.right, ?_, ?_, ?_, ?_⟩
      · rw [hfind]
        simp only [contents, contentsList_append, contentsList, heq, List.append_assoc]
      · rw [hfind]; exact hsorted
      · intro e he
        rcases List.mem_append.mp he with he | he
        · exact f.left_lt e he
        · exact hleft e he
      · intro e he
        rcases List.mem_append.mp he with he | he
        · exact hright e he
        · exact f.right_gt e he

/-- A search in the reached leaf is a search in the contents. -/
theorem find_findLeaf {key : Bytes} {d : ℕ} {lo hi : Option Bytes} {n : Node}
    (h : Ordered d lo hi n) (hkey : InRange lo hi key) :
    find (findLeaf key n).2 key = find (contents n) key := by
  obtain ⟨left, right, heq, _, hleft, hright⟩ := findLeaf_spec d lo hi n h hkey
  rw [heq, find_append, find_append, find_eq_none fun e he => ne_of_lt (hleft e he),
    find_eq_none fun e he => ne_of_gt (hright e he), Option.none_or, Option.or_none]

/-! ## Insertion -/

/-- What an insertion may return: the whole range in one node, or two nodes that share it
at the returned separator. -/
def InsertSpec (P : Option Bytes → Option Bytes → Node → Prop) (lo hi : Option Bytes)
    (m : List (Bytes × Bytes)) : Node × Split → Prop
  | (n, none) => P lo hi n ∧ contents n = m
  | (n, some (s, r)) =>
    P lo (some s) n ∧ P (some s) hi r ∧ SepRange lo hi s ∧ contents n ++ contents r = m

/-- Overwriting the value at the position of a present key. -/
theorem modify_value_eq {entries : List (Bytes × Bytes)} {i : ℕ} {key val : Bytes}
    (hi : i < entries.length) (heq : entries[i].1 = key) :
    entries.modify i (fun e => (e.1, val)) =
      entries.take i ++ (key, val) :: entries.drop (i + 1) := by
  rw [List.modify_eq_take_cons_drop hi, heq]

/-- A full leaf is cut in two non-empty sorted halves. -/
theorem leafSplit_spec {lo hi : Option Bytes} {t : List (Bytes × Bytes)} {addr addr' : ℕ}
    (hsorted : SortedKeys t) (hrange : ∀ e ∈ t, InRange lo hi e.1)
    (hlen : t.length = leafMax + 1) :
    InsertSpec (Ordered 0) lo hi t (.leaf addr (t.take (t.length / 2)),
      some ((t.getD (t.length / 2) ([], [])).1, .leaf addr' (t.drop (t.length / 2)))) := by
  have hmid : t.length / 2 < t.length := by rw [hlen]; decide
  have hpos : 0 < t.length / 2 := by rw [hlen]; decide
  have hget : t.getD (t.length / 2) ([], []) = t[t.length / 2] := by
    rw [List.getD_eq_getElem?_getD, List.getElem?_eq_getElem hmid, Option.getD_some]
  have hlt : ∀ i (hi : i < t.length / 2), t[i].1 < t[t.length / 2].1 := fun i hi =>
    List.pairwise_iff_getElem.mp hsorted _ _ _ _ hi
  have hle : ∀ i (_ : t.length / 2 ≤ i) (hi : i < t.length), t[t.length / 2].1 ≤ t[i].1 := by
    intro i hge hi
    rcases Nat.eq_or_lt_of_le hge with heq | hgt
    · simp [← heq]
    · exact (List.pairwise_iff_getElem.mp hsorted _ _ _ hi hgt).le
  rw [hget]
  refine ⟨⟨hsorted.sublist (List.take_sublist _ _), ?_, ?_⟩,
    ⟨hsorted.sublist (List.drop_sublist _ _), ?_, ?_⟩, ⟨?_, ?_⟩, ?_⟩
  · intro e he
    obtain ⟨i, hi', rfl⟩ := List.mem_take_iff_getElem.mp he
    exact ⟨(hrange _ (List.getElem_mem _)).1, by simpa using hlt i (by omega)⟩
  · simp only [List.length_take, hlen]; decide
  · intro e he
    obtain ⟨i, hi', rfl⟩ := List.mem_drop_iff_getElem.mp he
    exact ⟨by simpa using hle _ (by omega) (by omega), (hrange _ (List.getElem_mem _)).2⟩
  · simp only [List.length_drop, hlen]; decide
  · intro l hl
    exact lt_of_le_of_lt ((hrange t[0] (List.getElem_mem _)).1 l hl) (hlt 0 hpos)
  · exact (hrange _ (List.getElem_mem hmid)).2
  · simp [contents]

/-- `leaf_insert` inserts into the entries of the leaf. -/
theorem leafInsert_spec {lo hi : Option Bytes} {addr : ℕ} {entries : List (Bytes × Bytes)}
    {key : Bytes} (h : Ordered 0 lo hi (.leaf addr entries)) (hkey : InRange lo hi key)
    (val : Bytes) (links : List Link) :
    InsertSpec (Ordered 0) lo hi (Lib.insert entries key val)
      ((leafInsert links addr entries key val).1, (leafInsert links addr entries key val).2.1) := by
  obtain ⟨hsorted, hrange, hlen⟩ := h
  have hrange' : ∀ e ∈ Lib.insert entries key val, InRange lo hi e.1 := by
    intro e he
    rcases mem_insert he with rfl | he
    · exact hkey
    · exact hrange e he
  have hsorted' := hsorted.insert key val
  unfold leafInsert
  simp only [leafLower_eq hsorted]
  split
  · rename_i hhit
    obtain ⟨hi', heq⟩ := leafHit_iff.mp hhit
    have hins := hsorted.insert_eq_of_eq val hi' heq
    rw [modify_value_eq hi' heq, ← hins]
    refine ⟨⟨hsorted', hrange', ?_⟩, rfl⟩
    rw [hins]
    simp only [List.length_append, List.length_take, List.length_cons, List.length_drop]
    omega
  · rename_i hhit
    have hne : ∀ hi' : below entries key < entries.length, entries[below entries key].1 ≠ key :=
      fun hi' heq => hhit (leafHit_iff.mpr ⟨hi', heq⟩)
    have hins := hsorted.insert_eq_of_ne val hne
    have hpos := below_le entries key
    have hlen' : (Lib.insert entries key val).length = entries.length + 1 := by
      rw [hins]
      simp only [List.length_append, List.length_take, List.length_cons, List.length_drop]
      omega
    rw [← hins]
    split
    · exact ⟨⟨hsorted', hrange', by omega⟩, rfl⟩
    · exact leafSplit_spec hsorted' hrange' (by omega)

/-- The children after a split has been taken in. -/
theorem take_in (left right : List Node) (l r : Node) :
    (left ++ l :: right).take (left.length + 1) ++
      r :: (left ++ l :: right).drop (left.length + 1) = left ++ l :: r :: right := by
  have hone : left.length + 1 - left.length = 1 := by omega
  rw [List.take_append, List.drop_append, hone, List.take_of_length_le (Nat.le_succ _),
    List.drop_of_length_le (Nat.le_succ _)]
  simp

/-- The number of separators after one has been taken in. -/
theorem length_take_in (keys : List Bytes) {ci : ℕ} (sep : Bytes) (hci : ci ≤ keys.length) :
    (keys.take ci ++ sep :: keys.drop ci).length = keys.length + 1 := by
  simp only [List.length_append, List.length_take, List.length_cons, List.length_drop]
  omega

/-- `intr_insert` after a child split: the separator is taken in, and a full node is cut at
its middle separator. -/
theorem intrAbsorb_spec {d : ℕ} {lo hi : Option Bytes} {keys : List Bytes} {sep : Bytes}
    {left right : List Node} {l r : Node} (hlen : keys.length ≤ intrMax)
    (hidx : left.length ≤ keys.length)
    (h : Chain (Ordered d) lo hi (keys.take left.length ++ sep :: keys.drop left.length)
      (left ++ l :: r :: right)) :
    InsertSpec (Ordered (d + 1)) lo hi (contentsList (left ++ l :: r :: right))
      (intrAbsorb keys (left ++ l :: right) left.length sep r) := by
  have htk := length_take_in keys sep hidx
  have hcs := h.length_eq
  unfold intrAbsorb
  simp only [take_in]
  split
  · rename_i hlt
    exact ⟨⟨by rw [htk]; omega, h⟩, rfl⟩
  · rename_i hge
    have hfull : keys.length = intrMax := by omega
    have hmid : keys.length / 2 <
        (keys.take left.length ++ sep :: keys.drop left.length).length := by
      omega
    obtain ⟨hl, hsep, hr⟩ := h.cut hmid
    have hget : (keys.take left.length ++ sep :: keys.drop left.length).getD (keys.length / 2) [] =
        (keys.take left.length ++ sep :: keys.drop left.length)[keys.length / 2] := by
      rw [List.getD_eq_getElem?_getD, List.getElem?_eq_getElem hmid, Option.getD_some]
    rw [hget]
    have hk : ((keys.take left.length ++ sep :: keys.drop left.length).drop
        (keys.length / 2 + 1)).length ≤ intrMax - keys.length / 2 := by
      rw [List.length_drop, htk]; omega
    have hc : ((left ++ l :: r :: right).drop (keys.length / 2 + 1)).length ≤
        intrMax - keys.length / 2 + 1 := by
      rw [List.length_drop, hcs, htk]; omega
    rw [List.take_of_length_le hk, List.take_of_length_le hc]
    refine ⟨⟨?_, hl⟩, ⟨?_, hr⟩, hsep, ?_⟩
    · rw [List.length_take]; omega
    · rw [List.length_drop, htk]; omega
    · simp only [contents]
      rw [← contentsList_append, List.take_append_drop]

/-- Inserting below a child only replaces that child. -/
theorem childInsert_append (key val : Bytes) (left right : List Node) (c : Node)
    (links : List Link) :
    childInsert key val (left ++ c :: right) left.length links =
      (left ++ (nodeInsert key val c links).1 :: right, (nodeInsert key val c links).2.1,
        (nodeInsert key val c links).2.2) := by
  induction left with
  | nil => rfl
  | cons b left ih =>
    simp only [List.cons_append, List.length_cons, childInsert, ih]

/-- `node_insert` inserts into the contents of an ordered node. -/
theorem nodeInsert_spec {key : Bytes} (val : Bytes) (d : ℕ) : ∀ lo hi n links,
    Ordered d lo hi n → InRange lo hi key →
    InsertSpec (Ordered d) lo hi (Lib.insert (contents n) key val)
      ((nodeInsert key val n links).1, (nodeInsert key val n links).2.1) := by
  induction d with
  | zero =>
    intro lo hi n links h hkey
    match n, h with
    | .leaf addr entries, h => exact leafInsert_spec h hkey val links
  | succ d ih =>
    intro lo hi n links h hkey
    match n, h with
    | .intr keys children, ⟨hlen, hchain⟩ =>
      obtain ⟨f, rfl, hci, -, -⟩ := hchain.search hkey
      have hrec := ih _ _ _ links f.holds f.inRange
      rw [f.insert_contents]
      -- the recursive call in the responsible child decides between the two shapes
      simp only [nodeInsert, hci, childInsert_append]
      cases hsplit : (nodeInsert key val f.child links).2.1 with
      | none =>
        rw [hsplit] at hrec
        obtain ⟨hchild, hmap⟩ := hrec
        refine ⟨⟨hlen, f.replace _ hchild⟩, ?_⟩
        simp [contents, contentsList_append, contentsList, hmap]
      | some p =>
        obtain ⟨s, r⟩ := p
        rw [hsplit] at hrec
        obtain ⟨hl, hr, hs, hmap⟩ := hrec
        have hchain' := f.replace_two _ s r hl hr hs
        rw [← f.index] at hchain'
        have hidx : f.left.length ≤ keys.length := by
          rw [f.index]; exact (List.takeWhile_prefix _).length_le
        have habsorb := intrAbsorb_spec hlen hidx hchain'
        have hmap' : contentsList f.left ++ (Lib.insert (contents f.child) key val ++
            contentsList f.right) =
            contentsList (f.left ++ (nodeInsert key val f.child links).1 :: r :: f.right) := by
          simp [contentsList_append, contentsList, ← hmap]
        rw [hmap']
        exact habsorb

/-! ## Deletion -/

/-- Removing from a child by its index. -/
theorem removeAtChild_append (key : Bytes) (i : ℕ) (left right : List Node) (c : Node) :
    removeAtChild key i (left ++ c :: right) left.length = left ++ removeAt key i c :: right := by
  induction left with
  | nil => rfl
  | cons b left ih => simp only [List.cons_append, List.length_cons, removeAtChild, ih]

/-- Dropping the entry of a present key erases it from the contents. -/
theorem removeAt_spec {key : Bytes} (d : ℕ) : ∀ lo hi n, Ordered d lo hi n →
    InRange lo hi key →
    leafHit (findLeaf key n).2 (leafLower (findLeaf key n).2 key) key →
    Ordered d lo hi (removeAt key (leafLower (findLeaf key n).2 key) n) ∧
      contents (removeAt key (leafLower (findLeaf key n).2 key) n) = erase (contents n) key := by
  induction d with
  | zero =>
    intro lo hi n h hkey hhit
    match n, h with
    | .leaf addr entries, ⟨hsorted, hrange, hlen⟩ =>
      change leafHit entries (leafLower entries key) key at hhit
      change Ordered 0 lo hi (removeAt key (leafLower entries key) _) ∧
        contents (removeAt key (leafLower entries key) _) = _
      rw [leafLower_eq hsorted] at hhit ⊢
      obtain ⟨hi', heq⟩ := leafHit_iff.mp hhit
      have herase := hsorted.erase_eq_of_eq hi' heq
      rw [removeAt, ← herase]
      exact ⟨⟨hsorted.erase key, fun e he => hrange e (List.mem_of_mem_filter he),
        (List.length_filter_le _ _).trans hlen⟩, rfl⟩
  | succ d ih =>
    intro lo hi n h hkey hhit
    match n, h with
    | .intr keys children, ⟨hlen, hchain⟩ =>
      obtain ⟨f, rfl, hci, hfind, -⟩ := hchain.search hkey
      rw [hfind] at hhit ⊢
      obtain ⟨hchild, hmap⟩ := ih _ _ _ f.holds f.inRange hhit
      simp only [removeAt, hci, removeAtChild_append]
      refine ⟨⟨hlen, f.replace _ hchild⟩, ?_⟩
      rw [contents, contents, contentsList_append, contentsList_append, contentsList, contentsList,
        hmap, erase_append, erase_append,
        erase_eq_self fun e he => ne_of_lt (f.left_lt e he),
        erase_eq_self fun e he => ne_of_gt (f.right_gt e he)]

end BTree

/-! ## The whole tree -/

open BTree

/-- The entries of a tree in key order. -/
def BTree.toMap (t : BTree) : List (Bytes × Bytes) := contents t.root

/-- The root is ordered for the unbounded range. -/
def BTree.WellFormed (t : BTree) : Prop := ∃ d, Ordered d none none t.root

/-- A new tree is well formed and empty. -/
theorem btreeCreate_wellFormed : btreeCreate.WellFormed ∧ btreeCreate.toMap = [] :=
  ⟨⟨0, List.Pairwise.nil, by simp, by simp⟩, rfl⟩

/-- `fastkv_btree_get` reads the map. -/
theorem btreeGet_eq {t : BTree} (ht : t.WellFormed) (key : Bytes) :
    btreeGet t key = match Lib.find t.toMap key with
      | some v => .ok v
      | none => .error .notfound := by
  obtain ⟨d, hd⟩ := ht
  obtain ⟨left, right, _, hsorted, _, _⟩ := findLeaf_spec d _ _ _ hd (InRange.full key)
  rw [BTree.toMap, ← find_findLeaf hd (InRange.full key), find_eq_leafHit hsorted]
  unfold btreeGet
  by_cases hhit : leafHit (findLeaf key t.root).2 (leafLower (findLeaf key t.root).2 key) key
  · simp [hhit]
  · simp [hhit]

/-- `fastkv_btree_insert` inserts into the map. -/
theorem btreeInsert_spec {t : BTree} (ht : t.WellFormed) (key val : Bytes) :
    (btreeInsert t key val).WellFormed ∧
      (btreeInsert t key val).toMap = Lib.insert t.toMap key val := by
  obtain ⟨d, hd⟩ := ht
  have hspec := nodeInsert_spec val d none none t.root t.links hd (InRange.full key)
  unfold btreeInsert
  generalize hres : nodeInsert key val t.root t.links = res at hspec
  obtain ⟨root, split, links⟩ := res
  cases split with
  | none => exact ⟨⟨d, hspec.1⟩, hspec.2⟩
  | some p =>
    obtain ⟨hl, hr, hs, hmap⟩ := hspec
    refine ⟨⟨d + 1, by simp [intrMax, order], hl, hs, hr⟩, ?_⟩
    simpa [BTree.toMap, contents, contentsList] using hmap

/-- `fastkv_btree_delete` erases from the map. -/
theorem btreeDelete_spec {t : BTree} (ht : t.WellFormed) (key : Bytes) :
    (btreeDelete t key).2.WellFormed ∧ (btreeDelete t key).2.toMap = Lib.erase t.toMap key := by
  obtain ⟨d, hd⟩ := ht
  unfold btreeDelete
  simp only
  split
  · rename_i hhit
    obtain ⟨hord, hmap⟩ := removeAt_spec d none none t.root hd (InRange.full key) hhit
    exact ⟨⟨d, hord⟩, hmap⟩
  · rename_i hhit
    refine ⟨⟨d, hd⟩, ?_⟩
    obtain ⟨left, right, _, hsorted, _, _⟩ := findLeaf_spec d _ _ _ hd (InRange.full key)
    have hnone : Lib.find t.toMap key = none := by
      rw [BTree.toMap, ← find_findLeaf hd (InRange.full key), find_eq_leafHit hsorted, if_neg hhit]
    refine (Lib.erase_eq_self fun e he heq' => ?_).symm
    simp only [Lib.find, Option.map_eq_none_iff, List.find?_eq_none, decide_eq_true_eq] at hnone
    exact hnone e he heq'

end FastKV
