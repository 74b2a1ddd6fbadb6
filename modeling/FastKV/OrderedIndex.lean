import Mathlib.Logic.Function.Basic
import FastKV.BTreeScan

/-!
# Calls on the B+tree

Any sequence of insertions and deletions leaves a tree that is ordered and linked. Lookups
therefore read the finite map which the same calls build, and scans read it in key order,
through every split and every leaf that a deletion has emptied.
-/

namespace FastKV

open Lib BTree

/-! ## Sequences of calls -/

/-- A call that changes a tree. -/
inductive BTreeOp
  | insert (key val : Bytes)
  | delete (key : Bytes)

/-- The key a call is about. -/
def BTreeOp.key : BTreeOp → Bytes
  | .insert key _ => key
  | .delete key => key

/-- Run one call. -/
def BTreeOp.run (t : BTree) : BTreeOp → Err × BTree
  | .insert key val => (.ok, btreeInsert t key val)
  | .delete key => btreeDelete t key

/-- The tree after a sequence of calls. -/
def runBTree (ops : List BTreeOp) : BTree := ops.foldl (fun t op => (op.run t).2) btreeCreate

/-- The effect of a call on a map. -/
def BTreeOp.apply (m : Bytes → Option Bytes) : BTreeOp → Bytes → Option Bytes
  | .insert key val => Function.update m key (some val)
  | .delete key => Function.update m key none

/-- The map which a sequence of calls builds. -/
def mapOf (ops : List BTreeOp) : Bytes → Option Bytes := ops.foldl BTreeOp.apply fun _ => none

/-- The tree is ordered and linked and holds the map. -/
structure BTree.Holds (t : BTree) (m : Bytes → Option Bytes) : Prop where
  /-- Keys are in order. -/
  wellFormed : t.WellFormed
  /-- The links follow the leaves. -/
  linked : t.Linked
  /-- The entries are those of the map. -/
  find : ∀ key, Lib.find t.toMap key = m key

/-- A new tree holds nothing. -/
theorem btreeCreate_holds : btreeCreate.Holds fun _ => none :=
  ⟨btreeCreate_wellFormed.1, btreeCreate_linked, fun key => by rw [btreeCreate_wellFormed.2]; rfl⟩

/-- Every call does to the tree what it does to the map. -/
theorem BTree.Holds.run {t : BTree} {m : Bytes → Option Bytes} (h : t.Holds m) (op : BTreeOp) :
    (op.run t).2.Holds (op.apply m) := by
  cases op with
  | insert key val =>
    obtain ⟨hwf, hmap⟩ := btreeInsert_spec h.wellFormed key val
    refine ⟨hwf, h.linked.insert h.wellFormed key val, fun k => ?_⟩
    rw [BTreeOp.run, hmap, find_insert, BTreeOp.apply, h.find]
    by_cases hk : k = key
    · rw [if_pos hk, hk, Function.update_self]
    · rw [if_neg hk, Function.update_of_ne hk]
  | delete key =>
    obtain ⟨hwf, hmap⟩ := btreeDelete_spec h.wellFormed key
    refine ⟨hwf, h.linked.delete key, fun k => ?_⟩
    rw [BTreeOp.run, hmap, find_erase, BTreeOp.apply, h.find]
    by_cases hk : k = key
    · rw [if_pos hk, hk, Function.update_self]
    · rw [if_neg hk, Function.update_of_ne hk]

/-- A whole sequence of calls does to the tree what it does to the map. -/
theorem runBTree_holds (ops : List BTreeOp) : (runBTree ops).Holds (mapOf ops) := by
  have hrun : ∀ (ops : List BTreeOp) (t : BTree) (m : Bytes → Option Bytes), t.Holds m →
      (ops.foldl (fun t op => (op.run t).2) t).Holds (ops.foldl BTreeOp.apply m) := by
    intro ops
    induction ops with
    | nil => exact fun t m h => h
    | cons op ops ih => exact fun t m h => ih _ _ (h.run op)
  exact hrun ops _ _ btreeCreate_holds

/-! ## Lookups -/

/-- What a lookup answers when the map has this at its key. -/
def lookupResult : Option Bytes → Except Err Bytes
  | some v => .ok v
  | none => .error .notfound

/-- A lookup finds what the map has. -/
theorem lookupResult_eq_ok {o : Option Bytes} {v : Bytes} :
    lookupResult o = .ok v ↔ o = some v := by
  cases o with
  | none => simp [lookupResult]
  | some w => simp [lookupResult]

/-- `fastkv_btree_get` reads the map. -/
theorem BTree.Holds.get {t : BTree} {m : Bytes → Option Bytes} (h : t.Holds m) (key : Bytes) :
    btreeGet t key = lookupResult (m key) := by
  rw [btreeGet_eq h.wellFormed, h.find]
  cases m key <;> rfl

/-- `fastkv_btree_delete` reports whether `fastkv_btree_get` would have found the key. -/
theorem btreeDelete_err (t : BTree) (key : Bytes) :
    (btreeDelete t key).1 = if (btreeGet t key).toOption.isSome then Err.ok else Err.notfound := by
  unfold btreeDelete btreeGet
  simp only
  split <;> rfl

/-- After any calls, lookups and the results of deletions are those of the map which the same
calls build, and a further call leaves the lookups of all other keys as they are. -/
theorem btree_orderedMap (ops : List BTreeOp) :
    (∀ key, btreeGet (runBTree ops) key = lookupResult (mapOf ops key)) ∧
      (∀ key, (btreeDelete (runBTree ops) key).1 =
        if (mapOf ops key).isSome then Err.ok else Err.notfound) ∧
      ∀ (op : BTreeOp) (key : Bytes), key ≠ op.key →
        btreeGet (op.run (runBTree ops)).2 key = btreeGet (runBTree ops) key := by
  have h := runBTree_holds ops
  refine ⟨h.get, fun key => ?_, fun op key hne => ?_⟩
  · rw [btreeDelete_err, h.get]
    cases mapOf ops key <;> rfl
  · rw [(h.run op).get, h.get]
    cases op with
    | insert k v =>
      change key ≠ k at hne
      rw [BTreeOp.apply, Function.update_of_ne hne]
    | delete k =>
      change key ≠ k at hne
      rw [BTreeOp.apply, Function.update_of_ne hne]

/-- Deleting one of two keys leaves the other in place. -/
theorem btree_orderedMap_two :
    btreeGet (runBTree [.insert [1] [7], .insert [2] []]) [2] = .ok [] ∧
      btreeGet (BTreeOp.run (runBTree [.insert [1] [7], .insert [2] []]) (.delete [1])).2 [2] =
        .ok [] := by
  obtain ⟨hget, _, hother⟩ := btree_orderedMap [.insert [1] [7], .insert [2] []]
  have htwo : btreeGet (runBTree [.insert [1] [7], .insert [2] []]) [2] = .ok [] := by
    rw [hget]
    rfl
  exact ⟨htwo, (hother (.delete [1]) [2] (by decide)).trans htwo⟩

/-! ## Scans -/

/-- A callback that writes down what it is given and stops with `rc` at the `n`th entry. -/
def stopAfter (rc : Err) (n : ℕ) (seen : List (Bytes × Bytes)) (key val : Bytes) :
    Err × List (Bytes × Bytes) :=
  (if (seen ++ [(key, val)]).length < n then .ok else rc, seen ++ [(key, val)])

/-- A callback that writes down what it is given and never stops. -/
def collectAll (seen : List (Bytes × Bytes)) (key val : Bytes) : Err × List (Bytes × Bytes) :=
  (.ok, seen ++ [(key, val)])

/-- The callback that never stops sees everything. -/
theorem feed_collectAll (es : List (Bytes × Bytes)) :
    ∀ seen, feed collectAll es seen = (.ok, seen ++ es) := by
  induction es with
  | nil =>
    intro seen
    rw [feed, List.append_nil]
  | cons e es ih =>
    intro seen
    have hrest := ih (seen ++ [e])
    rwa [List.append_assoc] at hrest

/-- The callback that stops at the `n`th entry sees the first `n`. -/
theorem feed_stopAfter {rc : Err} (hrc : rc ≠ .ok) (n : ℕ) (es : List (Bytes × Bytes)) :
    ∀ seen, seen.length < n → (feed (stopAfter rc n) es seen).2 = (seen ++ es).take n := by
  induction es with
  | nil =>
    intro seen hlen
    rw [feed, List.append_nil, List.take_of_length_le hlen.le]
  | cons e es ih =>
    intro seen hlen
    have hsplit : seen ++ e :: es = (seen ++ [e]) ++ es := by simp
    rw [feed, stopAfter]
    by_cases hnext : (seen ++ [e]).length < n
    · rw [if_pos hnext, hsplit]
      exact ih _ hnext
    · have hn : (seen ++ [e]).length = n := by
        rw [List.length_append, List.length_singleton] at hnext ⊢
        omega
      rw [if_neg hnext, hsplit, List.take_left' hn]
      cases rc with
      | ok => exact absurd rfl hrc
      | _ => rfl

/-- After any calls there is for all bounds one list, in strictly increasing order, of exactly
the entries between them. A forward scan feeds it to its callback and a backward scan feeds
the reversed list. So a callback that never stops sees all of it, and one that stops at the
`n`th entry sees the first `n`. -/
theorem btreeScan_exact (ops : List BTreeOp) (min max : Slice) :
    ∃ es : List (Bytes × Bytes), es.Pairwise (fun a b => a.1 < b.1) ∧
      (∀ k v, (k, v) ∈ es ↔
        btreeGet (runBTree ops) k = .ok v ∧ (∀ m ∈ min, m ≤ k) ∧ ∀ m ∈ max, k ≤ m) ∧
      (∀ (σ : Type) (cb : σ → Bytes → Bytes → Err × σ) (s : σ),
        btreeScan (runBTree ops) min max .forward cb s = scanResult (feed cb es s) ∧
        btreeScan (runBTree ops) min max .backward cb s = scanResult (feed cb es.reverse s)) ∧
      btreeScan (runBTree ops) min max .forward collectAll [] = (.ok, es) ∧
      btreeScan (runBTree ops) min max .backward collectAll [] = (.ok, es.reverse) ∧
      ∀ (rc : Err) (n : ℕ), rc ≠ .ok → 0 < n →
        (btreeScan (runBTree ops) min max .forward (stopAfter rc n) []).2 = es.take n ∧
        (btreeScan (runBTree ops) min max .backward (stopAfter rc n) []).2 = es.reverse.take n := by
  have h := runBTree_holds ops
  have hforward : ∀ (σ : Type) (cb : σ → Bytes → Bytes → Err × σ) (s : σ),
      btreeScan (runBTree ops) min max .forward cb s =
        scanResult (feed cb ((runBTree ops).range min max) s) :=
    fun σ cb s => btreeScan_forward h.wellFormed h.linked min max cb s
  have hbackward : ∀ (σ : Type) (cb : σ → Bytes → Bytes → Err × σ) (s : σ),
      btreeScan (runBTree ops) min max .backward cb s =
        scanResult (feed cb ((runBTree ops).range min max).reverse s) :=
    fun σ cb s => btreeScan_backward h.wellFormed h.linked min max cb s
  refine ⟨(runBTree ops).range min max, h.wellFormed.sorted.filter _, fun k v => ?_,
    fun σ cb s => ⟨hforward σ cb s, hbackward σ cb s⟩, ?_, ?_, fun rc n hrc hn => ⟨?_, ?_⟩⟩
  · rw [BTree.range, List.mem_filter, h.wellFormed.sorted.mem_iff_find, h.find, h.get,
      lookupResult_eq_ok]
    cases min <;> cases max <;> simp
  · rw [hforward, feed_collectAll]
    rfl
  · rw [hbackward, feed_collectAll]
    rfl
  · rw [hforward]
    exact feed_stopAfter hrc n _ [] hn
  · rw [hbackward]
    exact feed_stopAfter hrc n _ [] hn

/-- The two scans of a tree with three entries above a lower bound, stopped after one. -/
theorem btreeScan_exact_stopped : ∃ es : List (Bytes × Bytes),
    (btreeScan (runBTree [.insert [2] [7], .insert [1] [], .insert [3] [8]]) (some [2]) none
        .forward (stopAfter .cursorEof 1) []).2 = es.take 1 ∧
      (btreeScan (runBTree [.insert [2] [7], .insert [1] [], .insert [3] [8]]) (some [2]) none
        .backward (stopAfter .cursorEof 1) []).2 = es.reverse.take 1 ∧
      ([2], [7]) ∈ es := by
  obtain ⟨es, _, hmem, _, _, _, hstop⟩ :=
    btreeScan_exact [.insert [2] [7], .insert [1] [], .insert [3] [8]] (some [2]) none
  obtain ⟨hforward, hbackward⟩ := hstop .cursorEof 1 (by decide) (by decide)
  exact ⟨es, hforward, hbackward, (hmem [2] [7]).mpr ⟨rfl, by simp, by simp⟩⟩

end FastKV
