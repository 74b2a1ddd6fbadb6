import FastKV.RTreeRuns
import Mathlib.Algebra.Order.Ring.Int
import Mathlib.Data.Fintype.Basic

/-!
# Window queries

A query goes down wherever the rectangle beside a child meets the window. It comes to every
leaf entry that meets the window, because the rectangle beside a child covers everything below.
`fastkv_rtree_intersects` hands these entries out. `fastkv_rtree_within` hands out those of them
that lie inside the window; an entry that is inverted in some dimension can lie inside the
window without meeting it, and is then left out.
-/

namespace FastKV.RTree

open Lib

variable {α β σ : Type} {n : ℕ}

/-- A loop in which every entry hands out a list of its own hands out all of them. -/
theorem forEntries_flatMap {γ : Type} (step : γ → σ → σ) (visit : β → σ → Err × σ)
    (out : β → List γ) {es : List β}
    (h : ∀ e ∈ es, ∀ s, visit e s = (.ok, (out e).foldl (fun s x => step x s) s)) :
    ∀ s, forEntries visit es s = (.ok, (es.flatMap out).foldl (fun s x => step x s) s) := by
  induction es with
  | nil => exact fun _ => rfl
  | cons e es ih =>
    intro s
    rw [forEntries, h e List.mem_cons_self, List.flatMap_cons, List.foldl_append]
    exact ih (fun e he => h e (List.mem_cons_of_mem _ he)) _

variable [LinearOrder α]

/-- The comparison of `rect_intersects`. -/
theorem rectIntersects_iff {r b : Rect α n} : rectIntersects r b = true ↔ r.Meets b := by
  simp only [rectIntersects, List.all_eq_true, List.mem_finRange, true_implies, Bool.not_eq_true',
    Bool.or_eq_false_iff, decide_eq_false_iff_not, not_lt]
  rfl

/-- The comparison of `rect_within`. -/
theorem rectWithin_iff {r b : Rect α n} : rectWithin r b = true ↔ b.Covers r := by
  simp only [rectWithin, List.all_eq_true, List.mem_finRange, true_implies, Bool.not_eq_true',
    Bool.or_eq_false_iff, decide_eq_false_iff_not, not_lt]
  rfl

/-- The entries that a query hands out. -/
def matched (accept : Rect α n → Bool) (b : Rect α n) (es : List (LeafEntry α n)) :
    List (LeafEntry α n) :=
  es.filter fun e => rectIntersects e.rect b && accept e.rect

/-- A query of any node with a callback that never fails runs it on the matching ones of the
entries that a search for the window comes to. -/
theorem queryRec_visited (accept : Rect α n → Bool) (b : Rect α n)
    (step : Rect α n → Bytes → σ → σ) : ∀ (h : ℕ) (node : RNode α n h) (s : σ),
      queryRec accept b (fun r k s => (.ok, step r k s)) h node s =
        (.ok, (matched accept b (RNode.visited b h node)).foldl
          (fun s e => step e.rect e.item s) s) := by
  intro h
  induction h with
  | zero =>
    intro (es : List (LeafEntry α n)) s
    have hvisit : ∀ e ∈ es, ∀ s, visitEntry accept b (fun r k s => (.ok, step r k s)) e s =
        (.ok, (matched accept b [e]).foldl (fun s e => step e.rect e.item s) s) := by
      intro e _ s
      simp only [visitEntry, matched, List.filter_cons, List.filter_nil]
      cases rectIntersects e.rect b with
      | false => rfl
      | true =>
        cases accept e.rect with
        | false => rfl
        | true => rfl
    have hloop := forEntries_flatMap (fun (e : LeafEntry α n) s => step e.rect e.item s) _ _
      hvisit s
    have hfilter : es.flatMap (fun e => matched accept b [e]) = matched accept b es := by
      conv_rhs => rw [matched, ← List.flatMap_singleton' es, List.filter_flatMap]
      rfl
    rw [hfilter] at hloop
    exact hloop
  | succ h ih =>
    intro (es : List (REntry α n (RNode α n h))) s
    have hvisit : ∀ c ∈ es, ∀ s,
        visitChild b (queryRec accept b (fun r k s => (.ok, step r k s)) h) c s =
          (.ok, (matched accept b
            (if rectIntersects c.rect b then RNode.visited b h c.item else [])).foldl
            (fun s e => step e.rect e.item s) s) := by
      intro c _ s
      unfold visitChild
      cases rectIntersects c.rect b with
      | true => exact ih c.item s
      | false => rfl
    have hloop := forEntries_flatMap (fun (e : LeafEntry α n) s => step e.rect e.item s) _ _
      hvisit s
    have hfilter : es.flatMap (fun c => matched accept b
        (if rectIntersects c.rect b then RNode.visited b h c.item else [])) =
        matched accept b (visitedIn b (RNode.visited b h) es) := by
      rw [visitedIn, matched, List.filter_flatMap]
      rfl
    rw [hfilter] at hloop
    exact hloop

/-- A search for a window comes to every entry that meets it, because the rectangle beside a
child covers the entries below. -/
theorem matched_visited (accept : Rect α n → Bool) (b : Rect α n) : ∀ {h : ℕ} {node : RNode α n h},
    RNode.Reach h node →
      matched accept b (RNode.visited b h node) = matched accept b (RNode.entries h node) := by
  intro h
  induction h with
  | zero => exact fun _ => rfl
  | succ h ih =>
    intro (es : List (REntry α n (RNode α n h))) hnode
    change matched accept b (visitedIn b (RNode.visited b h) es) =
      matched accept b (entriesIn (RNode.entries h) es)
    rw [visitedIn, entriesIn, matched, matched, List.filter_flatMap, List.filter_flatMap]
    apply List.flatMap_congr
    intro c hc
    obtain ⟨hcovers, hchild⟩ := hnode.tight c hc
    by_cases hmeets : rectIntersects c.rect b = true
    · rw [if_pos hmeets]
      exact ih hchild
    · have hnone : matched accept b (RNode.entries h c.item) = [] := by
        apply List.filter_eq_nil_iff.mpr
        intro e he hmatch
        have hbelow : rectIntersects e.rect b = true := (Bool.and_eq_true_iff.mp hmatch).1
        apply hmeets
        rw [rectIntersects_iff] at hbelow ⊢
        exact (hcovers e.rect (List.mem_map_of_mem he)).meets hbelow
      rw [if_neg hmeets, List.filter_nil]
      exact hnone.symm

/-- A query with a callback that never fails runs it on the matching entries of the leaves, once
for each and from left to right. -/
theorem queryRec_eq (accept : Rect α n → Bool) (b : Rect α n) (step : Rect α n → Bytes → σ → σ)
    {h : ℕ} {node : RNode α n h} (hnode : RNode.WF h node) (s : σ) :
    queryRec accept b (fun r k s => (.ok, step r k s)) h node s =
      (.ok, (matched accept b (RNode.entries h node)).foldl
        (fun s e => step e.rect e.item s) s) := by
  rw [queryRec_visited, matched_visited accept b hnode.reach]

/-- What `fastkv_rtree_intersects` hands out. -/
theorem rtreeIntersects_eq {t : Tree α n} (ht : t.WF) (b : Rect α n)
    (step : Rect α n → Bytes → σ → σ) (s : σ) :
    rtreeIntersects t b (fun r k s => (.ok, step r k s)) s =
      (.ok, (t.entries.filter fun e => decide (e.rect.Meets b)).foldl
        (fun s e => step e.rect e.item s) s) := by
  have hfilter : matched (fun _ => true) b t.entries =
      t.entries.filter fun e => decide (e.rect.Meets b) := by
    apply List.filter_congr
    intro e _
    rw [Bool.and_true, Bool.eq_iff_iff, rectIntersects_iff, decide_eq_true_iff]
  rw [← hfilter]
  exact queryRec_eq _ b step ht s

/-- What `fastkv_rtree_within` hands out. -/
theorem rtreeWithin_eq {t : Tree α n} (ht : t.WF) (b : Rect α n)
    (step : Rect α n → Bytes → σ → σ) (s : σ) :
    rtreeWithin t b (fun r k s => (.ok, step r k s)) s =
      (.ok, (t.entries.filter fun e => decide (b.Covers e.rect ∧ e.rect.Meets b)).foldl
        (fun s e => step e.rect e.item s) s) := by
  have hfilter : matched (fun r => rectWithin r b) b t.entries =
      t.entries.filter fun e => decide (b.Covers e.rect ∧ e.rect.Meets b) := by
    apply List.filter_congr
    intro e _
    rw [Bool.eq_iff_iff, Bool.and_eq_true, rectIntersects_iff, rectWithin_iff, decide_eq_true_iff,
      and_comm]
  rw [← hfilter]
  exact queryRec_eq _ b step ht s

variable [CommRing α]

/-- Window queries of a tree are exact, and so are its changes. -/
structure Tree.Exact (t : Tree α n) : Prop where
  /-- `fastkv_rtree_intersects` runs its callback once on each entry that meets the window. -/
  intersects : ∀ {σ : Type} (b : Rect α n) (step : Rect α n → Bytes → σ → σ) (s : σ),
    rtreeIntersects t b (fun r k s => (.ok, step r k s)) s =
      (.ok, (t.entries.filter fun e => decide (e.rect.Meets b)).foldl
        (fun s e => step e.rect e.item s) s)
  /-- `fastkv_rtree_within` runs its callback once on each entry that lies inside the window
  and meets it. -/
  within : ∀ {σ : Type} (b : Rect α n) (step : Rect α n → Bytes → σ → σ) (s : σ),
    rtreeWithin t b (fun r k s => (.ok, step r k s)) s =
      (.ok, (t.entries.filter fun e => decide (b.Covers e.rect ∧ e.rect.Meets b)).foldl
        (fun s e => step e.rect e.item s) s)
  /-- An entry that lies inside the window meets it if it is not inverted. -/
  inside : ∀ b : Rect α n, ∀ e ∈ t.entries, e.rect.Ordered → b.Covers e.rect → e.rect.Meets b
  /-- An insertion adds its entry and neither loses nor duplicates one. -/
  insert : ∀ (rect : Rect α n) (key : Bytes), ∃ t',
    rtreeInsert t rect (some key) = some (.ok, t') ∧ t'.entries.Perm (⟨rect, key⟩ :: t.entries)
  /-- A deletion takes one entry with the key away or leaves the tree as it is. -/
  delete : ∀ (rect : Rect α n) (key : Bytes), rtreeDelete t rect (some key) = (.notfound, t) ∨
    ∃ t' e, rtreeDelete t rect (some key) = (.ok, t') ∧ e.item = key ∧
      t.entries.Perm (e :: t'.entries)
  /-- No node has more than nine entries, and the rectangle beside a child covers all below. -/
  shape : t.WF

/-- After any insertions and deletions, window queries are exact. -/
theorem rtree_queries_exact [IsStrictOrderedRing α] {t₀ : Tree α n}
    (hcreate : rtreeCreate α n = .ok t₀) (ops : List (TreeOp α n)) :
    ∃ t, exec treeStep (some t₀) ops = some t ∧ t.Exact := by
  obtain ⟨t, hrun, ht⟩ := run_exact hcreate ops
  refine ⟨t, hrun, rtreeIntersects_eq ht, rtreeWithin_eq ht, ?_, ?_, ?_, ht⟩
  · intro b e _ hordered hinside
    exact (hinside.meets_of_ordered hordered).symm
  · intro rect key
    obtain ⟨⟨rc, t'⟩, hr⟩ := Option.isSome_iff_exists.mp (rtreeInsert_isSome ht rect (some key))
    obtain ⟨hok, -, hperm⟩ := rtreeInsert_spec ht hr
    cases hok
    exact ⟨t', hr, hperm⟩
  · intro rect key
    rcases rtreeDelete_spec ht rect key with ⟨heq, -⟩ | ⟨t', e, heq, -, hfind, hperm⟩
    · exact Or.inl heq
    · have hkey : hasKey key e = true := List.find?_some hfind
      exact Or.inr ⟨t', e, heq, of_decide_eq_true hkey, hperm⟩

/-- A rectangle on the line. -/
def span (lo hi : ℤ) : Rect ℤ 1 := ⟨fun _ => lo, fun _ => hi⟩

/-- A tree on the line without entries. -/
def emptyLine : Tree ℤ 1 := ⟨0, ([] : List (LeafEntry ℤ 1))⟩

/-- Of two entries one lies inside the window. -/
theorem rtree_queries_exact_line :
    ∃ t, exec treeStep (some emptyLine)
        [.insert (span 1 2) (some [1]), .insert (span 2 7) (some [2])] = some t ∧
      rtreeWithin t (span 0 5) (fun _ k s => (.ok, s ++ [k])) [] = (.ok, [[1]]) := by
  obtain ⟨t, hrun, hexact⟩ := rtree_queries_exact (rfl : rtreeCreate ℤ 1 = .ok emptyLine)
    [.insert (span 1 2) (some [1]), .insert (span 2 7) (some [2])]
  refine ⟨t, hrun, ?_⟩
  rw [hexact.within]
  obtain rfl := Option.some.inj hrun
  decide +kernel

/-- An inverted entry whose corners lie between those of the window is left out. -/
theorem inverted_entry_left_out :
    ¬ ∀ t₀ : Tree ℤ 1, rtreeCreate ℤ 1 = .ok t₀ → ∀ (ops : List (TreeOp ℤ 1)) (b : Rect ℤ 1),
      ∀ t ∈ exec treeStep (some t₀) ops,
        (rtreeWithin t b (fun _ k s => (.ok, s ++ [k])) []).2 =
          (t.entries.filter fun e => decide (b.Covers e.rect)).map fun e => e.item := by
  intro h
  have hrun := h emptyLine rfl [.insert (span 20 (-5)) (some [1])] (span 0 10) _ rfl
  revert hrun
  decide +kernel

end FastKV.RTree
