import Mathlib.Data.List.Basic
import Mathlib.Data.Set.Defs
import Mathlib.Tactic.Common

/-!
# Serial runs of transactions

A transaction reads a map, computes a write set from what it has read and applies it. A serial
run executes one transaction after the other, each on the map that its predecessors have left.
A transaction that reads only keys which it then writes computes the same write set from every
map that agrees with the current one on those keys, so it may as well have read an older map as
long as nobody has written its keys since.
-/

namespace FastKV.Lib

variable {K V W : Type*}

/-- Write sets, what they do to a map, and the keys that they may change. -/
structure WriteSets (K V W : Type*) where
  /-- The map after the write set. -/
  apply : W → (K → V) → K → V
  /-- The keys that are written. -/
  keys : W → Set K
  /-- The other keys are left alone. -/
  frame : ∀ w m k, k ∉ keys w → apply w m k = m k

/-- A transaction: the write set that it computes from the map that it reads. -/
abbrev Body (K V W : Type*) := (K → V) → W

/-- The transaction depends on the keys that it writes only. -/
def WriteSets.ReadsOwn (ws : WriteSets K V W) (body : Body K V W) : Prop :=
  ∀ m m', (∀ k ∈ ws.keys (body m), m' k = m k) → body m' = body m

/-- The map after a serial run. -/
def WriteSets.serial (ws : WriteSets K V W) : List (Body K V W) → (K → V) → K → V
  | [], m => m
  | body :: bodies, m => ws.serial bodies (ws.apply (body m) m)

/-- The write sets of a serial run. -/
def WriteSets.serialSets (ws : WriteSets K V W) : List (Body K V W) → (K → V) → List W
  | [], _ => []
  | body :: bodies, m => body m :: ws.serialSets bodies (ws.apply (body m) m)

variable (ws : WriteSets K V W)

/-- The write sets of one serial run after the other. -/
theorem WriteSets.serialSets_append (bodies bodies' : List (Body K V W)) :
    ∀ m, ws.serialSets (bodies ++ bodies') m =
      ws.serialSets bodies m ++ ws.serialSets bodies' (ws.serial bodies m) := by
  induction bodies with
  | nil => exact fun _ => rfl
  | cons body bodies ih => exact fun m => congrArg (body m :: ·) (ih _)

/-- A serial run applies its write sets. -/
theorem WriteSets.foldl_serialSets (bodies : List (Body K V W)) :
    ∀ m, (ws.serialSets bodies m).foldl (fun m w => ws.apply w m) m = ws.serial bodies m := by
  induction bodies with
  | nil => exact fun _ => rfl
  | cons body bodies ih => exact fun m => ih _

/-- There is one write set for each transaction. -/
@[simp] theorem WriteSets.length_serialSets (bodies : List (Body K V W)) :
    ∀ m, (ws.serialSets bodies m).length = bodies.length := by
  induction bodies with
  | nil => exact fun _ => rfl
  | cons body bodies ih => exact fun m => congrArg (· + 1) (ih _)

/-- The write sets of the beginning of a serial run. -/
theorem WriteSets.take_serialSets (n : ℕ) : ∀ (bodies : List (Body K V W)) (m : K → V),
    (ws.serialSets bodies m).take n = ws.serialSets (bodies.take n) m := by
  induction n with
  | zero => exact fun _ _ => by rw [List.take_zero, List.take_zero]; rfl
  | succ n ih =>
    intro bodies m
    cases bodies with
    | nil => rfl
    | cons body bodies => exact congrArg (body m :: ·) (ih bodies _)

/-- Write sets that leave a key alone. -/
theorem WriteSets.foldl_frame {k : K} (sets : List W) (h : ∀ w ∈ sets, k ∉ ws.keys w) :
    ∀ m, sets.foldl (fun m w => ws.apply w m) m k = m k := by
  induction sets with
  | nil => exact fun _ => rfl
  | cons w sets ih =>
    intro m
    rw [List.foldl_cons, ih fun w' hw' => h w' (List.mem_cons_of_mem _ hw')]
    exact ws.frame w m k (h w List.mem_cons_self)

/-- A transaction has read an older map and depends on the keys that it writes only. Nobody has
written these keys since, so it has computed what it would compute now. -/
theorem WriteSets.ReadsOwn.up_to_date {ws : WriteSets K V W} {body : Body K V W}
    (h : ws.ReadsOwn body) {old m : K → V} (later : List W)
    (hm : later.foldl (fun m w => ws.apply w m) old = m)
    (hlater : ∀ w ∈ later, ∀ k ∈ ws.keys (body old), k ∉ ws.keys w) : body m = body old := by
  refine h old m fun k hk => ?_
  rw [← hm]
  exact ws.foldl_frame later (fun w hw => hlater w hw k hk) old

end FastKV.Lib
