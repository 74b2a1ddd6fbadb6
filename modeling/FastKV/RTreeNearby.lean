import FastKV.Lib.BestFirst
import FastKV.RTreeQuery

/-!
# Nearest entries

`fastkv_rtree_nearby` is a best-first search with an array heap. An item of the heap stands for
one leaf entry or for all entries below a node. The distance to the rectangle beside a child is
a lower bound for the entries below, provided that these are not inverted.
-/

namespace FastKV.RTree

open Lib

variable {α σ : Type} {n : ℕ}

/-! ## Items of the heap -/

/-- The leaf entries that an item stands for. -/
def HeapItem.content : HeapItem α n → List (LeafEntry α n)
  | ⟨_, .inl e⟩ => [e]
  | ⟨_, .inr ⟨h, node⟩⟩ => RNode.entries h node

/-- How many items are still to be popped for an item. -/
def HeapItem.count : HeapItem α n → ℕ
  | ⟨_, .inl _⟩ => 1
  | ⟨_, .inr ⟨h, node⟩⟩ => RNode.count h node

/-- An item has to be popped. -/
theorem HeapItem.count_pos (item : HeapItem α n) : 0 < item.count := by
  obtain ⟨dist, e | ⟨h, node⟩⟩ := item
  · exact Nat.one_pos
  · cases h with
    | zero => exact Nat.add_pos_left Nat.one_pos _
    | succ h => exact Nat.add_pos_left Nat.one_pos _

/-- The number of items that are still to be popped. -/
def pending (heap : MinHeap (HeapItem α n)) : ℕ := (heap.toList.map HeapItem.count).sum

variable [LinearOrder α]

/-- Pushing several items. -/
theorem foldl_heapPush (items : List (HeapItem α n)) : ∀ {heap : MinHeap (HeapItem α n)},
    heap.WF HeapItem.dist → (items.foldl heapPush heap).WF HeapItem.dist ∧
      (items.foldl heapPush heap).toList.Perm (items ++ heap.toList) := by
  induction items with
  | nil => exact fun hwf => ⟨hwf, List.Perm.refl _⟩
  | cons item items ih =>
    intro heap hwf
    obtain ⟨hwf', hperm⟩ := ih (MinHeap.push_wf hwf item)
    refine ⟨hwf', hperm.trans ?_⟩
    exact ((MinHeap.push_perm heap item).append_left items).trans List.perm_middle

/-! ## Distances -/

variable [CommRing α]

section Distance

variable [IsStrictOrderedRing α] (pt : Fin n → α)

/-- A sum of larger terms is larger. -/
theorem foldl_add_le {f g : Fin n → α} (hfg : ∀ i, f i ≤ g i) (is : List (Fin n)) :
    ∀ {a b : α}, a ≤ b → is.foldl (fun d i => d + f i) a ≤ is.foldl (fun d i => d + g i) b := by
  induction is with
  | nil => exact fun h => h
  | cons i is ih => exact fun h => ih (add_le_add h (hfg i))

/-- A point is not farther from a rectangle than from one inside it that is not inverted. -/
theorem mindistSq_le {r e : Rect α n} (hcovers : r.Covers e) (hordered : e.Ordered) :
    mindistSq pt r ≤ mindistSq pt e := by
  refine foldl_add_le (fun i => ?_) (List.finRange n) (le_refl 0)
  exact Box.sq_sub_clamp_le (hcovers i).1 (hcovers i).2 (hordered i) (pt i)

/-- A distance is not negative. -/
theorem mindistSq_nonneg (r : Rect α n) : 0 ≤ mindistSq pt r := by
  have hzero : ∀ is : List (Fin n), is.foldl (fun d _ => d + 0) (0 : α) = 0 := by
    intro is
    induction is with
    | nil => rfl
    | cons i is ih =>
      rw [List.foldl_cons, add_zero]
      exact ih
  rw [← hzero (List.finRange n)]
  exact foldl_add_le (fun i => mul_self_nonneg _) (List.finRange n) (le_refl 0)

end Distance

/-! ## The items of a node -/

/-- An entry has its own distance, and a node is in shape. -/
def HeapItem.Good (pt : Fin n → α) : HeapItem α n → Prop
  | ⟨dist, .inl e⟩ => dist = mindistSq pt e.rect
  | ⟨_, .inr ⟨h, node⟩⟩ => RNode.WF h node

/-- The distance of an item is a lower bound for its entries. -/
def HeapItem.Bound (pt : Fin n → α) (item : HeapItem α n) : Prop :=
  ∀ e ∈ item.content, item.dist ≤ mindistSq pt e.rect

/-- The items for the entries of a node stand for the entries below it. -/
theorem childItems_content (pt : Fin n → α) : ∀ (h : ℕ) (node : RNode α n h),
    (childItems pt h node).flatMap HeapItem.content = RNode.entries h node := by
  intro h
  cases h with
  | zero =>
    intro (es : List (LeafEntry α n))
    change (es.map _).flatMap HeapItem.content = es
    rw [List.flatMap_map]
    exact List.flatMap_singleton' es
  | succ h =>
    intro (es : List (REntry α n (RNode α n h)))
    change (es.map _).flatMap HeapItem.content = entriesIn (RNode.entries h) es
    rw [List.flatMap_map]
    rfl

/-- Popping a node leaves one item less to be popped. -/
theorem childItems_count (pt : Fin n → α) : ∀ (h : ℕ) (node : RNode α n h),
    1 + ((childItems pt h node).map HeapItem.count).sum = RNode.count h node := by
  intro h
  cases h with
  | zero =>
    intro (es : List (LeafEntry α n))
    change 1 + ((es.map _).map HeapItem.count).sum = 1 + (es.map _).sum
    rw [List.map_map]
    rfl
  | succ h =>
    intro (es : List (REntry α n (RNode α n h)))
    change 1 + ((es.map _).map HeapItem.count).sum = 1 + (es.map _).sum
    rw [List.map_map]
    rfl

/-- The items for the entries of a node in shape. -/
theorem childItems_good [IsStrictOrderedRing α] (pt : Fin n → α) : ∀ {h : ℕ} {node : RNode α n h},
    RNode.WF h node → (∀ e ∈ RNode.entries h node, e.rect.Ordered) →
      ∀ item ∈ childItems pt h node, item.Good pt ∧ item.Bound pt := by
  intro h
  cases h with
  | zero =>
    intro (es : List (LeafEntry α n)) _ _ item hitem
    obtain ⟨e, -, rfl⟩ := List.mem_map.mp hitem
    refine ⟨rfl, fun e' he' => ?_⟩
    rw [List.mem_singleton.mp he']
  | succ h =>
    intro (es : List (REntry α n (RNode α n h))) hwf hordered item hitem
    obtain ⟨c, hc, rfl⟩ := List.mem_map.mp hitem
    have htight := hwf.tight c hc
    refine ⟨htight.child, fun e he => ?_⟩
    exact mindistSq_le pt (htight.covers_entry he) (hordered e (List.mem_flatMap.mpr ⟨c, hc, he⟩))

/-! ## The search -/

/-- A state of the loop: the heap is in order, its items are right, and the search is on its
way. -/
structure Searching (pt : Fin n → α) (all : List (LeafEntry α n)) (heap : MinHeap (HeapItem α n))
    (out : List (LeafEntry α n)) : Prop where
  /-- The heap is in order. -/
  wf : heap.WF HeapItem.dist
  /-- The items are right. -/
  good : ∀ item ∈ heap.toList, item.Good pt
  /-- The entries that are not inverted. -/
  ordered : ∀ e ∈ all, e.rect.Ordered
  /-- The search. -/
  frontier : Frontier HeapItem.dist (fun e => mindistSq pt e.rect) HeapItem.content all heap.toList
    out

variable {pt : Fin n → α} {all out : List (LeafEntry α n)} {heap rest : MinHeap (HeapItem α n)}

/-- A popped entry is delivered. -/
theorem Searching.deliver (hs : Searching pt all heap out) {dist : α} {e : LeafEntry α n}
    (hpop : heapPop heap = some (⟨dist, .inl e⟩, rest)) :
    Searching pt all rest (out ++ [e]) ∧ pending heap = pending rest + 1 := by
  obtain ⟨hwf, hperm, hmin⟩ := MinHeap.pop_eq_some hpop hs.wf
  have hdist : dist = mindistSq pt e.rect :=
    hs.good ⟨dist, .inl e⟩ (hperm.mem_iff.mpr List.mem_cons_self)
  constructor
  · refine ⟨hwf, fun item hitem => ?_, hs.ordered, ?_⟩
    · exact hs.good item (hperm.mem_iff.mpr (List.mem_cons_of_mem _ hitem))
    · exact hs.frontier.deliver hperm hmin rfl hdist
  · have hcount := (hperm.map HeapItem.count).sum_nat
    rw [List.map_cons, List.sum_cons] at hcount
    rw [pending, hcount]
    exact Nat.add_comm _ _

variable [IsStrictOrderedRing α]

/-- A popped node is replaced by the items of its entries. -/
theorem Searching.expand (hs : Searching pt all heap out) {dist : α} {h : ℕ} {node : RNode α n h}
    (hpop : heapPop heap = some (⟨dist, .inr ⟨h, node⟩⟩, rest)) :
    Searching pt all ((childItems pt h node).foldl heapPush rest) out ∧
      pending heap = pending ((childItems pt h node).foldl heapPush rest) + 1 := by
  obtain ⟨hwf, hperm, -⟩ := MinHeap.pop_eq_some hpop hs.wf
  have hmem : (⟨dist, .inr ⟨h, node⟩⟩ : HeapItem α n) ∈ heap.toList :=
    hperm.mem_iff.mpr List.mem_cons_self
  have hnode : RNode.WF h node := hs.good _ hmem
  have hbelow : ∀ e ∈ RNode.entries h node, e.rect.Ordered := by
    intro e he
    apply hs.ordered
    apply hs.frontier.all.mem_iff.mpr
    exact List.mem_append_right _ (List.mem_flatMap.mpr ⟨_, hmem, he⟩)
  have hchildren := childItems_good pt hnode hbelow
  obtain ⟨hwf', hperm'⟩ := foldl_heapPush (childItems pt h node) hwf
  constructor
  · refine ⟨hwf', fun item hitem => ?_, hs.ordered, ?_⟩
    · rcases List.mem_append.mp (hperm'.mem_iff.mp hitem) with hitem | hitem
      · exact (hchildren item hitem).1
      · exact hs.good item (hperm.mem_iff.mpr (List.mem_cons_of_mem _ hitem))
    · exact hs.frontier.expand hperm hperm' (childItems_content pt h node).symm
        fun c hc => (hchildren c hc).2
  · have hcount := (hperm.map HeapItem.count).sum_nat
    have hcount' := (hperm'.map HeapItem.count).sum_nat
    have hitem : HeapItem.count (⟨dist, .inr ⟨h, node⟩⟩ : HeapItem α n) =
        1 + ((childItems pt h node).map HeapItem.count).sum := (childItems_count pt h node).symm
    rw [List.map_cons, List.sum_cons, hitem] at hcount
    rw [List.map_append, List.sum_append] at hcount'
    unfold pending
    omega

/-- With enough fuel the loop runs its callback on nearest entries. -/
theorem nearbyLoop_spec (limit fuel : ℕ) :
    ∀ {heap : MinHeap (HeapItem α n)} {out : List (LeafEntry α n)},
      Searching pt all heap out → pending heap ≤ fuel → out.length ≤ limit →
        ∃ more, Nearest (fun e => mindistSq pt e.rect) all limit (out ++ more) ∧
          ∀ {σ : Type} (step : Rect α n → Bytes → σ → σ) (s : σ),
            nearbyLoop pt limit (fun r k s => (.ok, step r k s)) fuel heap out.length s =
              (.ok, more.foldl (fun s e => step e.rect e.item s) s) := by
  induction fuel with
  | zero =>
    intro heap out hs hfuel hlimit
    have hnil : heap.toList = [] := by
      by_contra hne
      obtain ⟨item, items, hcons⟩ := List.exists_cons_of_ne_nil hne
      have hpos := item.count_pos
      rw [pending, hcons, List.map_cons, List.sum_cons] at hfuel
      omega
    refine ⟨[], ?_, fun _ _ => rfl⟩
    rw [List.append_nil]
    exact hs.frontier.nearest hlimit (Or.inl hnil)
  | succ fuel ih =>
    intro heap out hs hfuel hlimit
    by_cases hmore : out.length < limit
    · cases hpop : heapPop heap with
      | none =>
        refine ⟨[], ?_, fun _ _ => ?_⟩
        · rw [List.append_nil]
          exact hs.frontier.nearest hlimit (Or.inl (MinHeap.pop_eq_none.mp hpop))
        · rw [nearbyLoop, if_pos hmore, hpop]
          rfl
      | some popped =>
        obtain ⟨⟨dist, e | ⟨h, node⟩⟩, rest⟩ := popped
        · obtain ⟨hs', hcount⟩ := hs.deliver hpop
          have hlen : (out ++ [e]).length = out.length + 1 := by simp
          obtain ⟨more, hnearest, hloop⟩ := ih hs' (by omega) (by omega)
          rw [List.append_assoc] at hnearest
          refine ⟨e :: more, hnearest, fun step s => ?_⟩
          rw [nearbyLoop, if_pos hmore, hpop, List.foldl_cons, ← hloop, hlen]
        · obtain ⟨hs', hcount⟩ := hs.expand hpop
          obtain ⟨more, hnearest, hloop⟩ := ih hs' (by omega) hlimit
          refine ⟨more, hnearest, fun step s => ?_⟩
          rw [nearbyLoop, if_pos hmore, hpop, ← hloop]
    · refine ⟨[], ?_, fun _ _ => ?_⟩
      · rw [List.append_nil]
        exact hs.frontier.nearest hlimit (Or.inr (by omega))
      · rw [nearbyLoop, if_neg hmore]
        rfl

/-- At the start the heap holds the root. -/
theorem searching_start (pt : Fin n → α) {t : Tree α n} (ht : t.WF)
    (hordered : ∀ e ∈ t.entries, e.rect.Ordered) :
    Searching pt t.entries (heapPush .empty ⟨0, .inr ⟨t.height, t.root⟩⟩) [] ∧
      pending (heapPush .empty ⟨0, .inr ⟨t.height, t.root⟩⟩) = RNode.count t.height t.root := by
  have hlist : (heapPush .empty (⟨0, .inr ⟨t.height, t.root⟩⟩ : HeapItem α n)).toList =
      [⟨0, .inr ⟨t.height, t.root⟩⟩] := rfl
  constructor
  · refine ⟨MinHeap.push_wf MinHeap.empty_wf _, fun item hitem => ?_, hordered, ?_⟩
    · rw [hlist, List.mem_singleton] at hitem
      rw [hitem]
      exact ht
    · have hbound : ∀ e ∈ HeapItem.content (⟨0, .inr ⟨t.height, t.root⟩⟩ : HeapItem α n),
          (0 : α) ≤ mindistSq pt e.rect := fun e _ => mindistSq_nonneg pt e.rect
      rw [hlist]
      exact Frontier.start HeapItem.dist (fun e => mindistSq pt e.rect) HeapItem.content hbound
  · rw [pending, hlist]
    rfl

/-- After any insertions and deletions, if no stored rectangle is inverted, a search for the
nearest entries ends and runs its callback on as many entries as there are, up to the limit, in
the order of their distances, and no other entry is closer than one of them. -/
theorem rtree_nearby_nearest {t₀ : Tree α n} (hcreate : rtreeCreate α n = .ok t₀)
    (ops : List (TreeOp α n)) : ∃ t, exec treeStep (some t₀) ops = some t ∧
      ((∀ e ∈ t.entries, e.rect.Ordered) → ∀ (point : Fin n → α) (limit : ℕ),
        ∃ out, Nearest (fun e => mindistSq point e.rect) t.entries limit out ∧
          ∀ {σ : Type} (step : Rect α n → Bytes → σ → σ) (s : σ),
            rtreeNearby t point limit (fun r k s => (.ok, step r k s)) s =
              (.ok, out.foldl (fun s e => step e.rect e.item s) s)) := by
  obtain ⟨t, hrun, ht⟩ := run_exact hcreate ops
  refine ⟨t, hrun, fun hordered point limit => ?_⟩
  obtain ⟨hs, hcount⟩ := searching_start point ht hordered
  exact nearbyLoop_spec limit _ hs (Nat.le_of_eq hcount) (Nat.zero_le limit)

/-- Three entries on the line. -/
def threeEntries : List (TreeOp ℤ 1) :=
  [.insert (span 5 6) (some [1]), .insert (span 1 2) (some [2]), .insert (span 7 7) (some [3])]

/-- The nearest of three entries on the line. -/
theorem rtree_nearby_nearest_line : ∃ t, exec treeStep (some emptyLine) threeEntries = some t ∧
    ∃ out, Nearest (fun e => mindistSq (fun _ => 3) e.rect) t.entries 2 out ∧
      ∀ {σ : Type} (step : Rect ℤ 1 → Bytes → σ → σ) (s : σ),
        rtreeNearby t (fun _ => 3) 2 (fun r k s => (.ok, step r k s)) s =
          (.ok, out.foldl (fun s e => step e.rect e.item s) s) := by
  obtain ⟨t, hrun, hnearest⟩ := rtree_nearby_nearest (rfl : rtreeCreate ℤ 1 = .ok emptyLine)
    threeEntries
  refine ⟨t, hrun, hnearest ?_ _ 2⟩
  obtain rfl := Option.some.inj hrun
  decide +kernel

/-- The two entries that are handed out there. -/
example : (exec treeStep (some emptyLine) threeEntries).map
    (fun t => rtreeNearby t (fun _ => 3) 2 (fun _ k s => (.ok, s ++ [k])) []) =
      some (.ok, [[2], [1]]) := by
  decide +kernel

end FastKV.RTree
