import Mathlib.Data.List.Perm.Subperm
import FastKV.BTreeLeaves

/-!
# Scans are exact

`fastkv_btree_scan` starts in the leaf that the tree chooses for one bound, follows the
links and stops at the other bound. In a tree with ordered keys and linked leaves it hands
to its callback exactly the entries between the bounds, in key order or in reverse. Together
with the lookups this makes the tree an ordered map, whatever was inserted and deleted.
-/

namespace FastKV.BTree

open Lib

variable {σ : Type}

/-! ## One leaf after the other -/

/-- Hand entries to a callback until it refuses. -/
def feed (cb : σ → Bytes → Bytes → Err × σ) : List (Bytes × Bytes) → σ → Err × σ
  | [], s => (.ok, s)
  | e :: es, s =>
    match cb s e.1 e.2 with
    | (.ok, s) => feed cb es s
    | r => r

/-- The result of a scan that has come to its end or was stopped. -/
def scanEnd : Option Err × σ → Err × σ
  | (some rc, s) => (rc, s)
  | (none, s) => (.ok, s)

/-- A leaf is scanned up to the far bound. -/
theorem scanEnd_scanLeaf (beyond : Bytes → Bool) (cb : σ → Bytes → Bytes → Err × σ)
    (es : List (Bytes × Bytes)) : ∀ s, scanEnd (scanLeaf beyond cb es s) =
      feed cb (es.takeWhile fun e => !beyond e.1) s := by
  induction es with
  | nil => exact fun s => rfl
  | cons e es ih =>
    intro s
    unfold scanLeaf
    cases hb : beyond e.1 with
    | true => simp [hb, scanEnd, feed]
    | false =>
      rw [List.takeWhile_cons_of_pos (by simp [hb]), feed]
      simp only [Bool.false_eq_true, if_false]
      rcases cb s e.1 e.2 with ⟨rc, s'⟩
      cases rc with
      | ok => exact ih s'
      | _ => rfl

/-- A leaf hands its entries to the callback and to nothing else. -/
theorem scanLeaf_invariant {I : σ → Prop} (beyond : Bytes → Bool)
    {cb : σ → Bytes → Bytes → Err × σ} (hcb : ∀ s k v, I s → I (cb s k v).2)
    (es : List (Bytes × Bytes)) : ∀ s, I s → I (scanLeaf beyond cb es s).2 := by
  induction es with
  | nil => exact fun s h => h
  | cons e es ih =>
    intro s h
    have hnext := hcb s e.1 e.2 h
    unfold scanLeaf
    split
    · exact h
    · rcases hstep : cb s e.1 e.2 with ⟨rc, s'⟩
      rw [hstep] at hnext
      cases rc with
      | ok => exact ih s' hnext
      | _ => exact hnext

/-- So does the loop over the leaves. -/
theorem scanLeaves_invariant {I : σ → Prop} (t : BTree) (follow : Link → Option ℕ)
    (arrange : List (Bytes × Bytes) → List (Bytes × Bytes)) (beyond : Bytes → Bool)
    {cb : σ → Bytes → Bytes → Err × σ} (hcb : ∀ s k v, I s → I (cb s k v).2) (fuel : ℕ) :
    ∀ l s, I s → I (scanLeaves t follow arrange beyond cb fuel l s).2 := by
  induction fuel with
  | zero => exact fun l s h => by cases l <;> exact h
  | succ fuel ih =>
    intro l s h
    cases l with
    | none => exact h
    | some l =>
      have hleaf := scanLeaf_invariant beyond hcb (arrange ((leafAt l t.root).getD [])) s h
      unfold scanLeaves
      split
      · rename_i heq
        rw [heq] at hleaf
        exact hleaf
      · rename_i heq
        rw [heq] at hleaf
        exact ih _ _ hleaf

/-- What every call of the callback keeps holds after a scan, whatever the tree is like. -/
theorem btreeScan_invariant {I : σ → Prop} (t : BTree) (min max : Slice) (dir : CursorDir)
    {cb : σ → Bytes → Bytes → Err × σ} (hcb : ∀ s k v, I s → I (cb s k v).2) {s : σ} (h : I s) :
    I (btreeScan t min max dir cb s).2 := by
  have hfrom : ∀ follow arrange beyond l first,
      I (scanFrom t follow arrange beyond cb l first s).2 := by
    intro follow arrange beyond l first
    have hleaf := scanLeaf_invariant beyond hcb first s h
    unfold scanFrom
    split
    · rename_i heq
      rw [heq] at hleaf
      exact hleaf
    · rename_i heq
      rw [heq] at hleaf
      exact scanLeaves_invariant t follow arrange beyond hcb _ _ _ hleaf
  unfold btreeScan
  cases dir with
  | forward => exact hfrom _ _ _ _ _
  | backward => exact hfrom _ _ _ _ _

/-- Two parts are scanned one after the other. -/
theorem scanLeaf_append (beyond : Bytes → Bool) (cb : σ → Bytes → Bytes → Err × σ)
    (es es' : List (Bytes × Bytes)) : ∀ s, scanLeaf beyond cb (es ++ es') s =
      match scanLeaf beyond cb es s with
      | (some rc, s) => (some rc, s)
      | (none, s) => scanLeaf beyond cb es' s := by
  induction es with
  | nil => exact fun s => rfl
  | cons e es ih =>
    intro s
    rw [List.cons_append, scanLeaf, scanLeaf]
    split
    · rfl
    · rcases cb s e.1 e.2 with ⟨rc, s'⟩
      cases rc with
      | ok => exact ih s'
      | _ => rfl

/-- The leaves on a path that the links describe are scanned in this order. -/
theorem scanLeaves_eq (t : BTree) (follow : Link → Option ℕ)
    (arrange : List (Bytes × Bytes) → List (Bytes × Bytes)) (beyond : Bytes → Bool)
    (cb : σ → Bytes → Bytes → Err × σ) (path : List (ℕ × List (Bytes × Bytes))) :
    ∀ (fuel : ℕ) (s : σ), path.length ≤ fuel →
      (∀ left x right, path = left ++ x :: right → leafAt x.1 t.root = some x.2 ∧
        follow (t.links.getD x.1 ⟨none, none⟩) = right.head?.map Prod.fst) →
      scanLeaves t follow arrange beyond cb fuel (path.head?.map Prod.fst) s =
        scanEnd (scanLeaf beyond cb (path.flatMap fun x => arrange x.2) s) := by
  induction path with
  | nil =>
    intro fuel s _ _
    cases fuel <;> rfl
  | cons x path ih =>
    intro fuel s hfuel hpath
    obtain ⟨fuel, rfl⟩ : ∃ n, fuel = n + 1 := by
      rw [List.length_cons] at hfuel
      exact ⟨fuel - 1, by omega⟩
    obtain ⟨hleaf, hfollow⟩ := hpath [] x path rfl
    have hrest := fun s => ih fuel s (by simpa using hfuel) fun left y right heq =>
      hpath (x :: left) y right (by rw [heq]; rfl)
    rw [List.head?_cons, Option.map_some, scanLeaves, hleaf, hfollow, Option.getD_some,
      List.flatMap_cons, scanLeaf_append]
    rcases scanLeaf beyond cb (arrange x.2) s with ⟨rc, s'⟩
    cases rc with
    | some rc => rfl
    | none => exact hrest s'

/-- A scan from a selected part of a leaf goes on along a path. -/
theorem scanFrom_eq (t : BTree) (follow : Link → Option ℕ)
    (arrange : List (Bytes × Bytes) → List (Bytes × Bytes)) (beyond : Bytes → Bool)
    (cb : σ → Bytes → Bytes → Err × σ) {l : ℕ} (first : List (Bytes × Bytes))
    {path : List (ℕ × List (Bytes × Bytes))} (hfuel : path.length ≤ t.links.length)
    (hnext : follow (t.links.getD l ⟨none, none⟩) = path.head?.map Prod.fst)
    (hpath : ∀ left x right, path = left ++ x :: right → leafAt x.1 t.root = some x.2 ∧
      follow (t.links.getD x.1 ⟨none, none⟩) = right.head?.map Prod.fst) (s : σ) :
    scanFrom t follow arrange beyond cb l first s =
      feed cb ((first ++ path.flatMap fun x => arrange x.2).takeWhile fun e => !beyond e.1) s := by
  rw [← scanEnd_scanLeaf, scanLeaf_append, scanFrom, hnext]
  rcases scanLeaf beyond cb first s with ⟨rc, s'⟩
  cases rc with
  | some rc => rfl
  | none => exact scanLeaves_eq t follow arrange beyond cb path _ s' hfuel hpath

/-! ## Where a scan starts -/

/-- The leaf reached for a key, its entries in order, and the leaves around it. -/
theorem findLeaf_leaves {key : Bytes} (d : ℕ) : ∀ lo hi n, Ordered d lo hi n →
    InRange lo hi key → ∃ left right, leaves n = left ++ findLeaf key n :: right ∧
      SortedKeys (findLeaf key n).2 ∧ (∀ e ∈ left.flatMap Prod.snd, e.1 < key) ∧
      ∀ e ∈ right.flatMap Prod.snd, key < e.1 := by
  induction d with
  | zero =>
    intro lo hi n h _
    match n, h with
    | .leaf addr entries, ⟨hsorted, _, _⟩ => exact ⟨[], [], rfl, hsorted, by simp, by simp⟩
  | succ d ih =>
    intro lo hi n h hkey
    match n, h with
    | .intr keys children, ⟨_, hchain⟩ =>
      obtain ⟨f, rfl, hci, hfind, -⟩ := hchain.search hkey
      obtain ⟨left, right, hleaves, hsorted, hleft, hright⟩ := ih _ _ _ f.holds f.inRange
      rw [hfind]
      refine ⟨leavesList f.left ++ left, right ++ leavesList f.right, ?_, hsorted, ?_, ?_⟩
      · rw [leaves, leavesList_append, leavesList, hleaves]
        simp
      · intro e he
        rw [List.flatMap_append, ← contentsList_eq_leaves] at he
        rcases List.mem_append.mp he with he | he
        · exact f.left_lt e he
        · exact hleft e he
      · intro e he
        rw [List.flatMap_append, ← contentsList_eq_leaves] at he
        rcases List.mem_append.mp he with he | he
        · exact hright e he
        · exact f.right_gt e he

/-- The rightmost leaf is the last one. -/
theorem lastLeaf_leaves (d : ℕ) : ∀ lo hi n, Ordered d lo hi n →
    ∃ left, leaves n = left ++ [lastLeaf n] := by
  induction d with
  | zero =>
    intro lo hi n h
    match n, h with
    | .leaf addr entries, _ => exact ⟨[], rfl⟩
  | succ d ih =>
    intro lo hi n h
    match n, h with
    | .intr keys children, ⟨_, hchain⟩ =>
      have hlen := hchain.length_eq
      obtain ⟨front, last, rfl⟩ : ∃ front last, children = front ++ [last] := by
        refine ⟨children.dropLast, children.getLast (by rintro rfl; simp at hlen), ?_⟩
        exact (List.dropLast_append_getLast _).symm
      obtain ⟨clo, chi, hlast⟩ := hchain.last
      obtain ⟨left, hleft⟩ := ih clo chi last hlast
      have hidx : keys.length = front.length := by simpa using hlen.symm
      have hfind : lastLeaf (.intr keys (front ++ [last])) = lastLeaf last := by
        simp only [lastLeaf, descend, hidx, descendAt_append]
      refine ⟨leavesList front ++ left, ?_⟩
      rw [hfind, leaves, leavesList_append, leavesList, leavesList, List.append_nil, hleft,
        List.append_assoc]

end BTree

open Lib BTree

/-! ## The list of linked leaves -/

/-- The links of a tree lead through these leaves, which are the ones at their addresses. -/
structure BTree.Strung (t : BTree) (ls : List (ℕ × List (Bytes × Bytes))) : Prop where
  /-- Leaves have different addresses. -/
  nodup : (ls.map Prod.fst).Nodup
  /-- They are linked in order. -/
  chained : Chained t.links (ls.map Prod.fst)
  /-- The first one is known. -/
  leftmost : (ls.map Prod.fst).head? = some t.leftmost
  /-- The entries of each are found under its address. -/
  leafAt : ∀ x ∈ ls, leafAt x.1 t.root = some x.2

/-- A tree that is linked leads through its own leaves. -/
theorem BTree.Linked.strung {t : BTree} (h : t.Linked) : t.Strung (leaves t.root) :=
  ⟨h.nodup, h.chained, h.leftmost, fun _ hx => leafAt_of_mem h.nodup hx⟩

section Strung

variable {t : BTree} {ls left right : List (ℕ × List (Bytes × Bytes))}
  {x : ℕ × List (Bytes × Bytes)}

/-- The links of a leaf lead to its neighbours. -/
theorem BTree.Strung.neighbours (h : t.Strung ls) (hsplit : ls = left ++ x :: right) :
    t.links.getD x.1 ⟨none, none⟩ = ⟨left.getLast?.map Prod.fst, right.head?.map Prod.fst⟩ := by
  have haddrs : ls.map Prod.fst = left.map Prod.fst ++ x.1 :: right.map Prod.fst := by
    rw [hsplit, List.map_append, List.map_cons]
  rw [List.getD_eq_getElem?_getD, h.chained _ _ _ haddrs, List.getLast?_map, List.head?_map]
  rfl

/-- There are no more leaves than were allocated. -/
theorem BTree.Strung.length_le (h : t.Strung ls) : ls.length ≤ t.links.length := by
  have hsub : (ls.map Prod.fst).Subperm (List.range t.links.length) := by
    refine List.Nodup.subperm h.nodup fun a ha => List.mem_range.mpr ?_
    obtain ⟨left, right, hsplit⟩ := List.append_of_mem ha
    exact (List.getElem?_eq_some_iff.mp (h.chained left a right hsplit)).1
  have hlen := List.Subperm.length_le hsub
  simpa using hlen

/-- The leaves to the right are reached over the `next` links. -/
theorem BTree.Strung.forward (h : t.Strung ls) (hsplit : ls = left ++ x :: right) :
    ∀ l y r, right = l ++ y :: r → BTree.leafAt y.1 t.root = some y.2 ∧
      (t.links.getD y.1 ⟨none, none⟩).next = r.head?.map Prod.fst := by
  rintro l y r rfl
  have hsplit' : ls = (left ++ x :: l) ++ y :: r := by rw [hsplit]; simp
  rw [h.neighbours hsplit']
  exact ⟨h.leafAt y (by rw [hsplit']; simp), rfl⟩

/-- The leaves to the left are reached over the `prev` links. -/
theorem BTree.Strung.backward (h : t.Strung ls) (hsplit : ls = left ++ x :: right) :
    ∀ l y r, left.reverse = l ++ y :: r → BTree.leafAt y.1 t.root = some y.2 ∧
      (t.links.getD y.1 ⟨none, none⟩).prev = r.head?.map Prod.fst := by
  intro l y r hrev
  obtain rfl : left = r.reverse ++ y :: l.reverse := by
    rw [← List.reverse_reverse left, hrev]
    simp
  have hsplit' : ls = r.reverse ++ y :: (l.reverse ++ x :: right) := by
    rw [hsplit]
    simp
  rw [h.neighbours hsplit']
  refine ⟨h.leafAt y (by rw [hsplit']; simp), ?_⟩
  rw [List.getLast?_reverse]

/-- A path through some of the leaves is short enough. -/
theorem BTree.Strung.length_path (h : t.Strung ls) (hsplit : ls = left ++ x :: right) :
    left.length ≤ t.links.length ∧ right.length ≤ t.links.length := by
  have hlen := h.length_le
  rw [hsplit, List.length_append, List.length_cons] at hlen
  omega

/-- Something stands at the left end. -/
theorem BTree.Strung.exists_cons (h : t.Strung ls) :
    ∃ x path, ls = x :: path ∧ x.1 = t.leftmost := by
  have hhead := h.leftmost
  cases ls with
  | nil => cases hhead
  | cons x path => exact ⟨x, path, rfl, by simpa using hhead⟩

end Strung

/-! ## Whole scans -/

/-- The entries between two bounds; the null slice is no bound. -/
def between (min max : Slice) (es : List (Bytes × Bytes)) : List (Bytes × Bytes) :=
  es.filter fun e => min.all (fun m => decide (m ≤ e.1)) && max.all fun m => decide (e.1 ≤ m)

/-- The entries of a tree between two bounds; the null slice is no bound. -/
def BTree.range (t : BTree) (min max : Slice) : List (Bytes × Bytes) :=
  t.toMap.filter fun e => min.all (fun m => decide (m ≤ e.1)) && max.all fun m => decide (e.1 ≤ m)

/-- What the caller of a scan gets: a callback that ends the scan is not an error. -/
def scanResult {σ : Type} (r : Err × σ) : Err × σ := (if r.1 = .cursorEof then .ok else r.1, r.2)

/-- The keys of the linked leaves increase, and the walks from the root lead into the list: to a
place between smaller and greater keys, or behind everything. -/
structure BTree.Laid (t : BTree) (ls : List (ℕ × List (Bytes × Bytes))) : Prop
    extends t.Strung ls where
  /-- Keys increase. -/
  sorted : SortedKeys (ls.flatMap Prod.snd)
  /-- The leaf for a key and what lies around it. -/
  found : ∀ key, ∃ left right, ls = left ++ findLeaf key t.root :: right ∧
    (∀ e ∈ left.flatMap Prod.snd, e.1 < key) ∧ ∀ e ∈ right.flatMap Prod.snd, key < e.1
  /-- The last leaf. -/
  last : ∃ left right, ls = left ++ lastLeaf t.root :: right ∧ right.flatMap Prod.snd = []

/-- The keys of a tree increase. -/
theorem BTree.WellFormed.sorted {t : BTree} (hwf : t.WellFormed) : SortedKeys t.toMap := by
  obtain ⟨d, hd⟩ := hwf
  exact Ordered.sorted d none none t.root hd

/-- A tree that is ordered and linked. -/
theorem BTree.WellFormed.laid {t : BTree} (hwf : t.WellFormed) (hlinked : t.Linked) :
    t.Laid (leaves t.root) where
  toStrung := hlinked.strung
  sorted := by
    rw [← contents_eq_leaves]
    exact hwf.sorted
  found key := by
    obtain ⟨d, hd⟩ := hwf
    obtain ⟨left, right, hleaves, -, hleft, hright⟩ :=
      findLeaf_leaves d none none t.root hd (InRange.full key)
    exact ⟨left, right, hleaves, hleft, hright⟩
  last := by
    obtain ⟨d, hd⟩ := hwf
    obtain ⟨left, hleaves⟩ := lastLeaf_leaves d none none t.root hd
    exact ⟨left, [], hleaves, rfl⟩

section Bounds

variable (min max : Slice)

/-- Stopping at the upper bound leaves the entries up to it. -/
theorem takeWhile_upper {es : List (Bytes × Bytes)} (h : SortedKeys es) :
    es.takeWhile (fun e : Bytes × Bytes => !max.any fun m =>
      decide (BTree.cmp e.1 m = Ordering.gt)) =
      es.filter fun e => max.all fun m => decide (e.1 ≤ m) := by
  have hp : (fun e : Bytes × Bytes => !max.any fun m => decide (BTree.cmp e.1 m = Ordering.gt)) =
      fun e => max.all fun m => decide (e.1 ≤ m) := by
    funext e
    cases max with
    | none => rfl
    | some m => simp [← cmp_ne_gt]
  rw [hp]
  refine takeWhile_eq_filter (h.imp fun {a b} hab hb => ?_)
  cases max with
  | none => rfl
  | some m =>
    simp only [Option.all_some, decide_eq_true_eq] at hb ⊢
    exact hab.le.trans hb

/-- Stopping at the lower bound leaves the entries down to it. -/
theorem takeWhile_lower {es : List (Bytes × Bytes)} (h : SortedKeys es) :
    es.reverse.takeWhile
        (fun e : Bytes × Bytes => !min.any fun m => decide (BTree.cmp e.1 m = Ordering.lt)) =
      (es.filter fun e => min.all fun m => decide (m ≤ e.1)).reverse := by
  have hp : (fun e : Bytes × Bytes => !min.any fun m => decide (BTree.cmp e.1 m = Ordering.lt)) =
      fun e => min.all fun m => decide (m ≤ e.1) := by
    funext e
    cases min with
    | none => rfl
    | some m => simp [cmp_eq_lt, ← not_le]
  rw [hp, ← List.filter_reverse]
  refine takeWhile_eq_filter (List.pairwise_reverse.mpr (h.imp fun {a b} hab hb => ?_))
  cases min with
  | none => rfl
  | some m =>
    simp only [Option.all_some, decide_eq_true_eq] at hb ⊢
    exact hb.trans hab.le

end Bounds

/-- The leaf in which a forward scan starts, and the part of it that is scanned. -/
def forwardStart (t : BTree) : Slice → ℕ × List (Bytes × Bytes)
  | some m => ((BTree.findLeaf m t.root).1,
      (BTree.findLeaf m t.root).2.drop (leafLower (BTree.findLeaf m t.root).2 m))
  | none => (t.leftmost, (leafAt t.leftmost t.root).getD [])

/-- The leaf in which a backward scan starts, and the part of it that is scanned. -/
def backwardStart (t : BTree) : Slice → ℕ × List (Bytes × Bytes)
  | some m =>
    let entries := (BTree.findLeaf m t.root).2
    let i := leafLower entries m
    ((BTree.findLeaf m t.root).1, (entries.take (if leafHit entries i m then i + 1 else i)).reverse)
  | none => ((lastLeaf t.root).1, (lastLeaf t.root).2.reverse)

section Scan

variable {σ : Type} {t : BTree} {ls : List (ℕ × List (Bytes × Bytes))} (h : t.Laid ls)
  (min max : Slice) (cb : σ → Bytes → Bytes → Err × σ) (s : σ)

include h in
/-- The leaf for a bound, with all entries. -/
theorem BTree.Laid.findLeaf (key : Bytes) : ∃ left right,
    ls = left ++ BTree.findLeaf key t.root :: right ∧
      SortedKeys (BTree.findLeaf key t.root).2 ∧ (∀ e ∈ left.flatMap Prod.snd, e.1 < key) ∧
      (∀ e ∈ right.flatMap Prod.snd, key < e.1) ∧ ls.flatMap Prod.snd =
        left.flatMap Prod.snd ++ ((BTree.findLeaf key t.root).2 ++ right.flatMap Prod.snd) := by
  obtain ⟨left, right, hls, hleft, hright⟩ := h.found key
  have hflat : ls.flatMap Prod.snd =
      left.flatMap Prod.snd ++ ((BTree.findLeaf key t.root).2 ++ right.flatMap Prod.snd) := by
    rw [hls, List.flatMap_append, List.flatMap_cons]
  have hsorted := h.sorted
  rw [hflat] at hsorted
  refine ⟨left, right, hls, hsorted.sublist ?_, hleft, hright, hflat⟩
  exact (List.sublist_append_left _ _).trans (List.sublist_append_right _ _)

include h in
/-- A forward scan starts at the first entry that is not below the lower bound. -/
theorem forwardStart_spec : ∃ left x path, x.1 = (forwardStart t min).1 ∧
    ls = left ++ x :: path ∧ (forwardStart t min).2 ++ path.flatMap Prod.snd =
      (ls.flatMap Prod.snd).filter fun e => min.all fun m => decide (m ≤ e.1) := by
  cases min with
  | some m =>
    obtain ⟨left, right, hleaves, hsorted, hleft, hright, hmap⟩ := h.findLeaf m
    have hl : (left.flatMap Prod.snd).filter (fun e => decide (m ≤ e.1)) = [] :=
      List.filter_eq_nil_iff.mpr fun e he => by simpa using hleft e he
    have hr : (right.flatMap Prod.snd).filter (fun e => decide (m ≤ e.1)) =
        right.flatMap Prod.snd :=
      List.filter_eq_self.mpr fun e he => by simpa using (hright e he).le
    refine ⟨left, BTree.findLeaf m t.root, right, rfl, hleaves, ?_⟩
    simp only [forwardStart, Option.all_some]
    rw [leafLower_eq hsorted, hsorted.drop_below, hmap, List.filter_append, List.filter_append, hl,
      hr, List.nil_append]
  | none =>
    obtain ⟨x, path, hleaves, hx⟩ := h.exists_cons
    refine ⟨[], x, path, hx, hleaves, ?_⟩
    simp only [forwardStart, Option.all_none, List.filter_true]
    rw [← hx, h.leafAt x (by rw [hleaves]; simp), Option.getD_some, hleaves, List.flatMap_cons]

include h in
/-- A backward scan starts at the last entry that is not above the upper bound. -/
theorem backwardStart_spec : ∃ left x path, x.1 = (backwardStart t max).1 ∧
    ls = left ++ x :: path ∧ (backwardStart t max).2 ++ (left.flatMap Prod.snd).reverse =
      ((ls.flatMap Prod.snd).filter fun e => max.all fun m => decide (e.1 ≤ m)).reverse := by
  cases max with
  | some m =>
    obtain ⟨left, right, hleaves, hsorted, hleft, hright, hmap⟩ := h.findLeaf m
    have hl : (left.flatMap Prod.snd).filter (fun e => decide (e.1 ≤ m)) =
        left.flatMap Prod.snd :=
      List.filter_eq_self.mpr fun e he => by simpa using (hleft e he).le
    have hr : (right.flatMap Prod.snd).filter (fun e => decide (e.1 ≤ m)) = [] :=
      List.filter_eq_nil_iff.mpr fun e he => by simpa using hright e he
    refine ⟨left, BTree.findLeaf m t.root, right, rfl, hleaves, ?_⟩
    simp only [backwardStart, Option.all_some, leafLower_eq hsorted]
    rw [hsorted.take_below leafHit_iff, ← List.reverse_append, hmap, List.filter_append,
      List.filter_append, hl, hr, List.append_nil]
  | none =>
    obtain ⟨left, right, hleaves, hright⟩ := h.last
    refine ⟨left, lastLeaf t.root, right, rfl, hleaves, ?_⟩
    simp only [backwardStart, Option.all_none, List.filter_true]
    rw [← List.reverse_append, hleaves, List.flatMap_append, List.flatMap_cons, hright,
      List.append_nil]

include h in
/-- A forward scan hands out the entries between the bounds in order. -/
theorem BTree.Laid.scan_forward : btreeScan t min max .forward cb s =
    scanResult (feed cb (between min max (ls.flatMap Prod.snd)) s) := by
  obtain ⟨left, x, path, hx, hleaves, hentries⟩ := forwardStart_spec h min
  have hscan := scanFrom_eq t Link.next id
    (fun k => max.any fun m => decide (BTree.cmp k m = Ordering.gt)) cb (forwardStart t min).2
    (h.length_path hleaves).2 (by rw [h.neighbours hleaves]) (h.forward hleaves) s
  simp only [id_eq] at hscan
  rw [hentries, takeWhile_upper max (h.sorted.filter _), List.filter_filter, hx] at hscan
  have hrange : ((ls.flatMap Prod.snd).filter fun e => (max.all fun m => decide (e.1 ≤ m)) &&
      min.all fun m => decide (m ≤ e.1)) = between min max (ls.flatMap Prod.snd) := by
    unfold between
    simp only [Bool.and_comm]
  rw [← hrange, ← hscan]
  cases min <;> rfl

include h in
/-- A backward scan hands out the entries between the bounds in reverse. -/
theorem BTree.Laid.scan_backward : btreeScan t min max .backward cb s =
    scanResult (feed cb (between min max (ls.flatMap Prod.snd)).reverse s) := by
  obtain ⟨left, x, path, hx, hleaves, hentries⟩ := backwardStart_spec h max
  have hscan := scanFrom_eq t Link.prev List.reverse
    (fun k => min.any fun m => decide (BTree.cmp k m = Ordering.lt)) cb (backwardStart t max).2
    (by simpa using (h.length_path hleaves).1)
    (by rw [h.neighbours hleaves, List.head?_reverse]) (h.backward hleaves) s
  have hflat : (left.reverse.flatMap fun x => x.2.reverse) = (left.flatMap Prod.snd).reverse := by
    rw [List.reverse_flatMap]
    rfl
  rw [hflat, hentries, takeWhile_lower min (h.sorted.filter _), List.filter_filter, hx] at hscan
  have hrange : ((ls.flatMap Prod.snd).filter fun e => (min.all fun m => decide (m ≤ e.1)) &&
      max.all fun m => decide (e.1 ≤ m)) = between min max (ls.flatMap Prod.snd) := rfl
  rw [← hrange, ← hscan]
  cases max <;> rfl

end Scan

section Scan

variable {σ : Type} {t : BTree} (hwf : t.WellFormed) (hlinked : t.Linked) (min max : Slice)
  (cb : σ → Bytes → Bytes → Err × σ) (s : σ)

include hwf hlinked in
/-- A forward scan of an ordered and linked tree. -/
theorem btreeScan_forward :
    btreeScan t min max .forward cb s = scanResult (feed cb (t.range min max) s) := by
  rw [(hwf.laid hlinked).scan_forward, ← contents_eq_leaves]
  rfl

include hwf hlinked in
/-- A backward scan of an ordered and linked tree. -/
theorem btreeScan_backward :
    btreeScan t min max .backward cb s = scanResult (feed cb (t.range min max).reverse s) := by
  rw [(hwf.laid hlinked).scan_backward, ← contents_eq_leaves]
  rfl

end Scan

end FastKV
