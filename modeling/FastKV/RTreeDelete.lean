import FastKV.RTreeQuery

/-!
# Deleting by key and rectangle

`fastkv_rtree_delete` is called with a rectangle and a key. The rectangle only says where to
search; in a leaf the keys alone are compared. So the requested entry is the one that goes if
and only if no entry with the key and another rectangle comes before it in the search.
-/

namespace FastKV.RTree

open Lib

variable {α : Type} {n : ℕ} [LinearOrder α]

/-- The search for an ordered rectangle comes to every entry that has it. -/
theorem RNode.mem_visited {rect : Rect α n} (hordered : rect.Ordered) : ∀ {h : ℕ}
    {node : RNode α n h} {e : LeafEntry α n}, RNode.WF h node → e ∈ RNode.entries h node →
      e.rect = rect → e ∈ RNode.visited rect h node := by
  intro h
  induction h with
  | zero => exact fun _ he _ => he
  | succ h ih =>
    intro (es : List (REntry α n (RNode α n h))) e hwf he hrect
    obtain ⟨c, hc, hbelow⟩ := List.mem_flatMap.mp he
    have htight := hwf.tight c hc
    have hcovers : c.rect.Covers rect := hrect ▸ htight.covers_entry hbelow
    have hmeets : rectIntersects c.rect rect = true :=
      rectIntersects_iff.mpr (hcovers.meets_of_ordered hordered)
    refine List.mem_flatMap.mpr ⟨c, hc, ?_⟩
    rw [if_pos hmeets]
    exact ih htight.child hbelow hrect

variable [Doubles α]

/-- Deleting the key with the rectangle does what it is asked for: it succeeds exactly if such
an entry is stored, takes one such entry away, and otherwise reports that there is none and
leaves the entries as they are. -/
structure Tree.Deletes (t : Tree α n) (rect : Rect α n) (key : Bytes) : Prop where
  /-- It succeeds exactly if the entry is stored. -/
  ok : (rtreeDelete t rect (some key)).1 = .ok ↔ ⟨rect, key⟩ ∈ t.entries
  /-- One such entry is removed, and only it. -/
  removes : ⟨rect, key⟩ ∈ t.entries →
    t.entries.Perm (⟨rect, key⟩ :: (rtreeDelete t rect (some key)).2.entries)
  /-- If none is stored, nothing changes. -/
  notfound : ⟨rect, key⟩ ∉ t.entries → (rtreeDelete t rect (some key)).1 = .notfound ∧
    (rtreeDelete t rect (some key)).2.entries = t.entries

/-- The first entry with the key that the search comes to, if there is one, has the given
rectangle. -/
def Tree.FindsFirst (t : Tree α n) (rect : Rect α n) (key : Bytes) : Prop :=
  ∀ e, (RNode.visited rect t.height t.root).find? (hasKey key) = some e → e.rect = rect

/-- A deletion from any tree in shape does what it is asked for exactly if the first entry with
the key that the search comes to, if there is one, has the given rectangle. -/
theorem deletes_iff_of_wf {t : Tree α n} (ht : t.WF) {rect : Rect α n} (hordered : rect.Ordered)
    (key : Bytes) : t.Deletes rect key ↔ t.FindsFirst rect key := by
  unfold Tree.FindsFirst
  rcases rtreeDelete_spec ht rect key with ⟨heq, hnone⟩ | ⟨t', e, heq, -, hfind, hperm⟩
  · -- the search comes to no entry with the key, so the requested entry is not stored
    have hnot : (⟨rect, key⟩ : LeafEntry α n) ∉ t.entries := by
      intro hmem
      have hvisited := RNode.mem_visited hordered ht hmem rfl
      have hkey := List.find?_eq_none.mp hnone _ hvisited
      exact hkey (decide_eq_true rfl)
    constructor
    · intro _ e he
      rw [hnone] at he
      cases he
    · intro _
      refine ⟨?_, fun hmem => absurd hmem hnot, fun _ => ?_⟩
      · rw [heq]
        exact ⟨fun h => Err.noConfusion h, fun hmem => absurd hmem hnot⟩
      · rw [heq]
        exact ⟨rfl, rfl⟩
  · have hhas : hasKey key e = true := List.find?_some hfind
    have hkey : e.item = key := of_decide_eq_true hhas
    constructor
    · intro hdeletes e' he'
      rw [hfind] at he'
      obtain rfl := Option.some.inj he'
      -- the entry that went is the one whose removal leaves what is left
      have hok : (rtreeDelete t rect (some key)).1 = .ok := by rw [heq]
      have hrequested := hdeletes.removes (hdeletes.ok.mp hok)
      rw [heq] at hrequested
      have hsame : [e].Perm [⟨rect, key⟩] :=
        (List.perm_append_right_iff t'.entries).mp (hperm.symm.trans hrequested)
      rw [List.singleton_perm_singleton.mp hsame]
    · intro hfirst
      have hrect : e.rect = rect := hfirst e hfind
      have he : e = ⟨rect, key⟩ := by rw [← hrect, ← hkey]
      subst he
      have hmem : (⟨rect, key⟩ : LeafEntry α n) ∈ t.entries := hperm.mem_iff.mpr List.mem_cons_self
      refine ⟨?_, fun _ => ?_, fun hnot => absurd hmem hnot⟩
      · rw [heq]
        exact ⟨fun _ => hmem, fun _ => rfl⟩
      · rw [heq]
        exact hperm

/-- After any insertions and deletions, and for every arithmetic on coordinates, a deletion does
what it is asked for exactly if the first entry with the key that the search comes to, if there
is one, has the given rectangle. -/
theorem rtree_deletes_iff {t₀ t : Tree α n} (hcreate : rtreeCreate α n = .ok t₀)
    {ops : List (TreeOp α n)} (hrun : exec treeStep (some t₀) ops = some t) {rect : Rect α n}
    (hordered : rect.Ordered) (key : Bytes) :
    t.Deletes rect key ↔ t.FindsFirst rect key :=
  deletes_iff_of_wf (run_wf hcreate ops t hrun) hordered key

/-- A rectangle on the line that is not inverted. -/
theorem span_ordered {lo hi : ℤ} (h : lo ≤ hi) : (span lo hi).Ordered := fun _ => h

/-- The changes that store the key 1 with one rectangle. -/
def oneEntry : List (TreeOp ℤ 1) := [.insert (span 1 2) (some [1])]

/-- The tree that they build. -/
def oneEntryTree : Tree ℤ 1 := ⟨0, ([⟨span 1 2, [1]⟩] : List (LeafEntry ℤ 1))⟩

/-- The stored entry is deleted as it should be. -/
theorem rtree_deletes_iff_stored : oneEntryTree.Deletes (span 1 2) [1] := by
  have hrun : exec treeStep (some emptyLine) oneEntry = some oneEntryTree := rfl
  refine (rtree_deletes_iff (rfl : rtreeCreate ℤ 1 = .ok emptyLine) hrun
    (span_ordered (by decide)) [1]).mpr fun e he => ?_
  have hfirst : (RNode.visited (span 1 2) oneEntryTree.height oneEntryTree.root).find?
      (hasKey [1]) = some ⟨span 1 2, [1]⟩ := rfl
  rw [hfirst] at he
  rw [← Option.some.inj he]

/-- A deletion with another rectangle takes the stored entry away. -/
theorem other_rectangle_deleted :
    ¬ ∀ t₀ : Tree ℤ 1, rtreeCreate ℤ 1 = .ok t₀ → ∀ ops : List (TreeOp ℤ 1),
      ∀ t ∈ exec treeStep (some t₀) ops, ∀ (rect : Rect ℤ 1) (key : Bytes), rect.Ordered →
        t.Deletes rect key := by
  intro h
  have hdeletes := h emptyLine rfl oneEntry oneEntryTree rfl (span 5 6) [1]
    (span_ordered (by decide))
  have hok : (rtreeDelete oneEntryTree (span 5 6) (some [1])).1 = .ok := rfl
  have hstored : oneEntryTree.entries = [⟨span 1 2, [1]⟩] := rfl
  have hmem := hdeletes.ok.mp hok
  rw [hstored, List.mem_singleton] at hmem
  have hrect : span 5 6 = span 1 2 := congrArg REntry.rect hmem
  have hmin := congrFun (congrArg Box.min hrect) 0
  exact absurd hmin (by decide)

end FastKV.RTree
