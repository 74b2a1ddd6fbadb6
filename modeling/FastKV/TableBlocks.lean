import Mathlib.Data.Finset.Card
import FastKV.Lib.Ownership
import FastKV.PutFaults
import FastKV.VersionMap

/-!
# The memory of the hash table

`storage/hashtable/ht.c` once more, with the blocks of memory that it allocates and frees: the
table and its array, and for every version a node, a copy of the key and a copy of the value.
Allocations may fail. Blocks that no pointer leads to any more are written down by the model.
-/

namespace FastKV

open Lib

/-- A copy of a slice with its address. The null slice has no block. -/
abbrev Copy := Option (Bytes × ℕ)

/-- The slice. -/
def Copy.slice (c : Copy) : Slice := c.map Prod.fst

/-- Its data pointer. -/
def Copy.addr (c : Copy) : Option ℕ := c.map Prod.snd

/-- `slice_dup`. -/
def copySlice (s : Bytes) : Prog Copy :=
  if s = [] then pure none
  else do
    match ← malloc with
    | none => pure none
    | some p => pure (some (s, p))

/-- The copy of a value in `ht_insert_version`; a tombstone has none. -/
def copyValue : Slice → Prog Copy
  | some value => copySlice value
  | none => pure none

/-- `fastkv_version_t` with its blocks. -/
structure OwnedVersion where
  /-- Address of the node. -/
  addr : ℕ
  /-- Commit timestamp of the write that created the version. -/
  beginTs : ℕ
  /-- Commit timestamp of the write that replaced it, `tsMax` while it is live. -/
  endTs : ℕ
  /-- Owned copy of the key. -/
  key : Copy
  /-- Owned copy of the value. -/
  value : Copy

/-- The version without its addresses. -/
def OwnedVersion.version (v : OwnedVersion) : Version :=
  ⟨v.beginTs, v.endTs, v.key.slice.getD [], v.value.slice⟩

/-- Its blocks. -/
def OwnedVersion.blocks (v : OwnedVersion) : Multiset ℕ :=
  behind v.key.addr + (behind v.value.addr + {v.addr})

/-- The three calls that free a version. -/
def OwnedVersion.free (v : OwnedVersion) : Prog Unit := do
  Lib.free v.key.addr
  Lib.free v.value.addr
  Lib.free (some v.addr)

/-- `fastkv_ht_t` with its blocks. -/
structure TableBlocks where
  /-- Address of the table. -/
  addr : ℕ
  /-- Address of the array of buckets. -/
  array : ℕ
  /-- The chain of each bucket. -/
  chains : List (List OwnedVersion)
  /-- Number of versions in all chains. -/
  numVersions : ℕ
  /-- Copies of values that no pointer leads to. -/
  spilled : List ℕ

/-- The blocks of some versions. -/
def blocksOf (vs : List OwnedVersion) : Multiset ℕ := (vs.map OwnedVersion.blocks).sum

/-- All blocks that the calls for a table have allocated and not freed. -/
def TableBlocks.blocks (t : TableBlocks) : Multiset ℕ :=
  blocksOf t.chains.flatten + ({t.array} + {t.addr}) + t.spilled

/-- `fastkv_ht_create`. -/
def htCreateBlocks (capacity : ℕ) : Prog (Option TableBlocks) := do
  match ← malloc with
  | none => pure none
  | some h =>
    match ← malloc with
    | none =>
      free (some h)
      pure none
    | some buckets => pure (some ⟨h, buckets, List.replicate capacity [], 0, []⟩)

/-- The sealing walk of `ht_insert_version`. -/
def sealOwned (commitTs : ℕ) (key : Bytes) : List OwnedVersion → List OwnedVersion
  | [] => []
  | prev :: next =>
    if prev.version.key = key ∧ prev.endTs = tsMax then { prev with endTs := commitTs } :: next
    else prev :: sealOwned commitTs key next

/-- `ht_insert_version`. When a copy fails, the key and the node are freed. -/
def htInsertVersionBlocks (t : TableBlocks) (commitTs : ℕ) (key : Bytes) (value : Slice) :
    Prog (Err × TableBlocks) := do
  match ← malloc with
  | none => pure (.nomem, t)
  | some nv =>
    let k ← copySlice key
    let v ← copyValue value
    if (k = none ∧ key ≠ []) ∨ (v = none ∧ value.getD [] ≠ []) then
      free k.addr
      free (some nv)
      pure (.nomem, { t with spilled := v.addr.toList ++ t.spilled })
    else
      pure (.ok, { t with
        chains := t.chains.modify (maskedHash t.chains.length key) fun old =>
          ⟨nv, commitTs, tsMax, k, v⟩ :: sealOwned commitTs key old
        numVersions := add64 t.numVersions 1 })

/-- The inner loop of `fastkv_ht_gc`. -/
def gcChainBlocks (minActiveTs : ℕ) : List OwnedVersion → List OwnedVersion → ℕ →
    Prog (List OwnedVersion × ℕ)
  | [], keep, freed => pure (keep, freed)
  | v :: next, keep, freed =>
    if v.endTs < minActiveTs then do
      v.free
      gcChainBlocks minActiveTs next keep (freed + 1)
    else gcChainBlocks minActiveTs next (v :: keep) freed

/-- Its outer loop. -/
def gcBuckets (minActiveTs : ℕ) : List (List OwnedVersion) →
    Prog (List (List OwnedVersion) × ℕ)
  | [] => pure ([], 0)
  | chain :: chains => do
    let (keep, freed) ← gcChainBlocks minActiveTs chain [] 0
    let (chains, more) ← gcBuckets minActiveTs chains
    pure (keep :: chains, freed + more)

/-- `fastkv_ht_gc`. -/
def htGcBlocks (t : TableBlocks) (minActiveTs : ℕ) : Prog TableBlocks := do
  let (chains, freed) ← gcBuckets minActiveTs t.chains
  pure { t with chains, numVersions := sub64 t.numVersions freed }

/-- The loops of `fastkv_ht_destroy`. -/
def freeVersions : List OwnedVersion → Prog Unit
  | [] => pure ()
  | v :: vs => do
    v.free
    freeVersions vs

/-- `fastkv_ht_destroy`. -/
def htDestroyBlocks (t : TableBlocks) : Prog Unit := do
  freeVersions t.chains.flatten
  free (some t.array)
  free (some t.addr)

/-- Run an operation. -/
def HtOp.runBlocks (t : TableBlocks) : HtOp → Prog (Err × TableBlocks)
  | .put commitTs key value => htInsertVersionBlocks t commitTs key value
  | .delete commitTs key => htInsertVersionBlocks t commitTs key none
  | .gc minActiveTs => do
    let t ← htGcBlocks t minActiveTs
    pure (.ok, t)

/-- Run operations one after the other. -/
def runBlocks : List HtOp → TableBlocks → Prog (List Err × TableBlocks)
  | [], t => pure ([], t)
  | op :: ops, t => do
    let (rc, t) ← op.runBlocks t
    let (rcs, t) ← runBlocks ops t
    pure (rc :: rcs, t)

/-- The chain walk of `fastkv_ht_get`, which hands out the copy itself. -/
def chainGetBlocks (snapshotTs : ℕ) (key : Bytes) : List OwnedVersion → Copy
  | [] => none
  | v :: next =>
    if v.version.key = key ∧ v.beginTs ≤ snapshotTs ∧ snapshotTs < v.endTs then v.value
    else chainGetBlocks snapshotTs key next

/-- `fastkv_ht_get`. -/
def htGetBlocks (t : TableBlocks) (snapshotTs : ℕ) (key : Bytes) : Copy :=
  chainGetBlocks snapshotTs key (t.chains.getD (maskedHash t.chains.length key) [])

/-- A value that is read between operations on a table, and the table after all of them. -/
def readBetween (capacity : ℕ) (before : List HtOp) (snapshotTs : ℕ) (key : Bytes)
    (later : List HtOp) : Prog (Option (Copy × TableBlocks)) := do
  match ← htCreateBlocks capacity with
  | none => pure none
  | some t =>
    let (_, t) ← runBlocks before t
    let value := htGetBlocks t snapshotTs key
    let (_, t) ← runBlocks later t
    pure (some (value, t))

/-- The life of a table, and what its operations return. -/
def tableLife (capacity : ℕ) (ops : List HtOp) : Prog (Option (List Err)) := do
  match ← htCreateBlocks capacity with
  | none => pure none
  | some t =>
    let (rcs, t) ← runBlocks ops t
    htDestroyBlocks t
    pure (some rcs)

/-! ## Single versions -/

section Versions

variable {pre : Multiset ℕ} {mem : List Bool}

/-- A copy of a slice. -/
theorem runs_copySlice (s : Bytes) (pre : Multiset ℕ) (mem : List Bool) :
    Runs pre mem (copySlice s) fun c mem' post =>
      post = behind c.addr + pre ∧ (c.slice, mem') = sliceDupMem s mem := by
  unfold copySlice sliceDupMem fkvMalloc
  split
  · exact Runs.pure ⟨(zero_add _).symm, rfl⟩
  · refine (runs_malloc pre mem).bind ?_
    rintro p mem' post ⟨rfl, rfl, hp⟩
    cases p with
    | none =>
      rw [← hp]
      exact Runs.pure ⟨rfl, rfl⟩
    | some p =>
      rw [← hp]
      exact Runs.pure ⟨rfl, rfl⟩

@[simp] theorem Copy.slice_eq_none (c : Copy) : c.slice = none ↔ c = none := Option.map_eq_none_iff

/-- What is behind a pointer, as a list. -/
theorem coe_toList (p : Option ℕ) : (p.toList : Multiset ℕ) = behind p := by
  cases p <;> rfl

/-- A copy of a value; nothing is copied of a tombstone. -/
theorem runs_copyValue (value : Slice) (pre : Multiset ℕ) (mem : List Bool) :
    Runs pre mem (copyValue value) fun c mem' post =>
      post = behind c.addr + pre ∧ (c.slice, mem') = sliceDupMem (value.getD []) mem := by
  cases value with
  | none => exact Runs.pure ⟨(zero_add _).symm, rfl⟩
  | some value => exact runs_copySlice value pre mem

/-- A version is freed with its copies. -/
theorem OwnedVersion.runs_free (v : OwnedVersion) (pre : Multiset ℕ) (mem : List Bool) :
    Runs (v.blocks + pre) mem v.free fun _ mem' post => post = pre ∧ mem' = mem := by
  unfold OwnedVersion.free OwnedVersion.blocks
  rw [add_assoc, add_assoc]
  refine (Lib.runs_free _ _ mem).bind ?_
  rintro - mem' post ⟨rfl, rfl⟩
  refine (Lib.runs_free _ _ mem').bind ?_
  rintro - mem' post ⟨rfl, rfl⟩
  exact Lib.runs_free (some v.addr) pre mem'

@[simp] theorem blocksOf_nil : blocksOf [] = 0 := rfl

@[simp] theorem blocksOf_cons (v : OwnedVersion) (vs : List OwnedVersion) :
    blocksOf (v :: vs) = v.blocks + blocksOf vs := rfl

@[simp] theorem blocksOf_append (vs vs' : List OwnedVersion) :
    blocksOf (vs ++ vs') = blocksOf vs + blocksOf vs' := by
  simp [blocksOf]

/-- Versions are freed. -/
theorem runs_freeVersions (vs : List OwnedVersion) : ∀ (pre : Multiset ℕ) (mem : List Bool),
    Runs (blocksOf vs + pre) mem (freeVersions vs) fun _ mem' post => post = pre ∧ mem' = mem := by
  induction vs with
  | nil =>
    intro pre mem
    rw [blocksOf_nil, zero_add]
    exact Runs.pure ⟨rfl, rfl⟩
  | cons v vs ih =>
    intro pre mem
    rw [blocksOf_cons, add_assoc]
    refine (v.runs_free _ mem).bind ?_
    rintro - mem' post ⟨rfl, rfl⟩
    exact ih pre mem'

/-- Sealing frees and allocates nothing. -/
theorem blocksOf_sealOwned (commitTs : ℕ) (key : Bytes) (vs : List OwnedVersion) :
    blocksOf (sealOwned commitTs key vs) = blocksOf vs := by
  induction vs with
  | nil => rfl
  | cons v vs ih =>
    unfold sealOwned
    split
    · rfl
    · rw [blocksOf_cons, blocksOf_cons, ih]

/-- It does to the versions what it does without blocks. -/
theorem map_sealOwned (commitTs : ℕ) (key : Bytes) (vs : List OwnedVersion) :
    (sealOwned commitTs key vs).map OwnedVersion.version =
      sealLive commitTs key (vs.map OwnedVersion.version) := by
  induction vs with
  | nil => rfl
  | cons v vs ih =>
    unfold sealOwned
    rw [List.map_cons, sealLive]
    have hend : v.version.endTs = v.endTs := rfl
    rw [hend]
    split
    · rfl
    · rw [List.map_cons, ih]

/-- A version with the given value that ends after a time. -/
def Lends (vs : List OwnedVersion) (snapshotTs : ℕ) (value : Bytes × ℕ) : Prop :=
  ∃ v ∈ vs, v.value = some value ∧ snapshotTs < v.endTs

/-- A version that is sealed later keeps its value. -/
theorem Lends.sealing {vs : List OwnedVersion} {snapshotTs : ℕ} {value : Bytes × ℕ}
    (h : Lends vs snapshotTs value) {commitTs : ℕ} (hts : snapshotTs < commitTs) (key : Bytes) :
    Lends (sealOwned commitTs key vs) snapshotTs value := by
  obtain ⟨v, hv, hvalue, hend⟩ := h
  induction vs with
  | nil => cases hv
  | cons prev next ih =>
    unfold sealOwned
    split
    · rcases List.mem_cons.mp hv with rfl | hv
      · exact ⟨{ v with endTs := commitTs }, List.mem_cons_self, hvalue, hts⟩
      · exact ⟨v, List.mem_cons_of_mem _ hv, hvalue, hend⟩
    · rcases List.mem_cons.mp hv with rfl | hv
      · exact ⟨v, List.mem_cons_self, hvalue, hend⟩
      · obtain ⟨v', hv', hvalue', hend'⟩ := ih hv
        exact ⟨v', List.mem_cons_of_mem _ hv', hvalue', hend'⟩

end Versions

/-! ## Single operations -/

/-- The table with its blocks stands for the table without them. -/
structure TableBlocks.Stores (t : TableBlocks) (ht : Ht) : Prop where
  /-- The versions. -/
  chains : t.chains.map (List.map OwnedVersion.version) = ht.buckets
  /-- Their number. -/
  numVersions : t.numVersions = ht.numVersions

/-- The number of values that a call loses: the copy of the key has failed, and that of the value
has not. -/
def lostValues (key : Bytes) (value : Slice) (mem : List Bool) : ℕ :=
  match fkvMalloc mem with
  | (false, _) => 0
  | (true, mem) =>
    let (k, mem) := sliceDupMem key mem
    if k = none ∧ key ≠ [] ∧ (sliceDupMem (value.getD []) mem).1 ≠ none then 1 else 0

section Operations

variable {t : TableBlocks} {ht : Ht} {mem : List Bool}

/-- A new table. -/
theorem runs_htCreateBlocks (capacity : ℕ) (hcap : ∃ n < 64, capacity = 2 ^ n) (mem : List Bool) :
    Runs 0 mem (htCreateBlocks capacity) fun r mem' post => (post = r.elim 0 TableBlocks.blocks) ∧
      ∀ t ∈ r, t.Stores (htCreate capacity hcap) ∧ t.spilled = [] ∧ mem' = mem.tail.tail := by
  unfold htCreateBlocks
  refine (runs_malloc 0 mem).bind ?_
  rintro p mem' post ⟨rfl, rfl, -⟩
  cases p with
  | none => exact Runs.pure ⟨rfl, by simp⟩
  | some p =>
    refine (runs_malloc _ mem.tail).bind ?_
    rintro q mem' post ⟨rfl, rfl, -⟩
    cases q with
    | none =>
      rw [behind_none, zero_add]
      refine (runs_free (some p) 0 mem.tail.tail).bind ?_
      rintro - _ post ⟨rfl, -⟩
      exact Runs.pure ⟨rfl, by simp⟩
    | some q =>
      refine Runs.pure ⟨?_, ?_⟩
      · simp [TableBlocks.blocks, blocksOf, List.flatten_replicate_nil]
      · rintro t ⟨⟩
        exact ⟨⟨by simp [htCreate], rfl⟩, rfl, rfl⟩

/-- The blocks of a table after a version was put in front of a chain. -/
theorem TableBlocks.blocks_modify (t : TableBlocks) {i : ℕ} (hi : i < t.chains.length)
    (v : OwnedVersion) (commitTs : ℕ) (key : Bytes) (n : ℕ) :
    TableBlocks.blocks { t with
      chains := t.chains.modify i fun old => v :: sealOwned commitTs key old
      numVersions := n } = v.blocks + t.blocks := by
  have hsplit : t.chains.flatten = (t.chains.take i).flatten ++ (t.chains[i] ++
      (t.chains.drop (i + 1)).flatten) := by
    conv_lhs => rw [← List.take_append_drop i t.chains, List.drop_eq_getElem_cons hi]
    rw [List.flatten_append, List.flatten_cons]
  unfold TableBlocks.blocks
  rw [List.modify_eq_take_cons_drop hi, hsplit]
  simp only [List.flatten_append, List.flatten_cons, blocksOf_append, blocksOf_cons,
    blocksOf_sealOwned, List.cons_append]
  ac_rfl

/-- A version that is put in front of a chain leaves the values of the others. -/
theorem Lends.modify {chains : List (List OwnedVersion)} {snapshotTs i commitTs : ℕ}
    {value : Bytes × ℕ} (h : Lends chains.flatten snapshotTs value) (hi : i < chains.length)
    (hts : snapshotTs < commitTs) (key : Bytes) (v : OwnedVersion) :
    Lends (chains.modify i fun old => v :: sealOwned commitTs key old).flatten snapshotTs
      value := by
  rw [List.modify_eq_take_cons_drop hi, List.flatten_append, List.flatten_cons]
  obtain ⟨w, hw, hvalue, hend⟩ := h
  rw [← List.take_append_drop i chains, List.drop_eq_getElem_cons hi, List.flatten_append,
    List.flatten_cons, List.mem_append, List.mem_append] at hw
  rcases hw with hw | hw | hw
  · exact ⟨w, List.mem_append_left _ hw, hvalue, hend⟩
  · obtain ⟨w', hw', hvalue', hend'⟩ := Lends.sealing ⟨w, hw, hvalue, hend⟩ hts key
    exact ⟨w', List.mem_append_right _ (List.mem_append_left _ (List.mem_cons_of_mem _ hw')),
      hvalue', hend'⟩
  · exact ⟨w, List.mem_append_right _ (List.mem_append_right _ hw), hvalue, hend⟩

/-- A copy is complete or failed. -/
theorem sliceDupMem_cases (s : Bytes) (mem : List Bool) :
    ((sliceDupMem s mem).1 = none ∧ s ≠ []) ∨ (sliceDupMem s mem).1 = sliceDup (some s) := by
  unfold sliceDupMem
  by_cases hs : s = []
  · rw [if_pos hs, hs]
    exact Or.inr rfl
  · rw [if_neg hs, sliceDup_of_ne hs]
    dsimp only
    split
    · exact Or.inr rfl
    · exact Or.inl ⟨rfl, hs⟩

/-- A version is put in front of a chain as without blocks. -/
theorem TableBlocks.Stores.insert (h : t.Stores ht) {v : OwnedVersion} {commitTs : ℕ} {key : Bytes}
    {value : Slice} (hv : v.version = newVersion commitTs key value) :
    TableBlocks.Stores { t with
      chains := t.chains.modify (maskedHash t.chains.length key) fun old =>
        v :: sealOwned commitTs key old
      numVersions := add64 t.numVersions 1 } (htInsertVersion ht commitTs key value) := by
  have hlength : t.chains.length = ht.capacity := by
    rw [Ht.capacity, ← h.chains, List.length_map]
  refine ⟨?_, congrArg (add64 · 1) h.numVersions⟩
  simp only [htInsertVersion]
  rw [← h.chains, bucketIdx, hlength]
  refine List.ext_getElem? fun i => ?_
  rw [List.getElem?_map, List.getElem?_modify, List.getElem?_modify, List.getElem?_map]
  cases t.chains[i]? with
  | none => rfl
  | some old =>
    simp only [Option.map_eq_map, Option.map_some]
    split
    · rw [List.map_cons, map_sealOwned, hv]
    · rfl

/-- Of a tombstone the copy of the empty value is the null slice, too. -/
theorem htInsertVersionMem_copies (ht : Ht) (commitTs : ℕ) (key : Bytes) (value : Slice)
    (mem : List Bool) : htInsertVersionMem ht commitTs key value mem =
      if mem.headD true then
        let (k, mem) := sliceDupMem key mem.tail
        let (v, mem) := sliceDupMem (value.getD []) mem
        if (k = none ∧ key ≠ []) ∨ (v = none ∧ value.getD [] ≠ []) then (.nomem, ht, mem)
        else (.ok, htInsertVersion ht commitTs key value, mem)
      else (.nomem, ht, mem.tail) := by
  unfold htInsertVersionMem fkvMalloc
  cases mem.headD true <;> cases value <;> rfl

/-- An insertion does what it does without blocks, and what it owns are the blocks of the
table. -/
theorem TableBlocks.Stores.runs_insert (h : t.Stores ht) (commitTs : ℕ) (key : Bytes)
    (value : Slice) (mem : List Bool) :
    Runs t.blocks mem (htInsertVersionBlocks t commitTs key value) fun r mem' post =>
      (post = r.2.blocks ∧ r.2.spilled.length = t.spilled.length + lostValues key value mem) ∧
        (∃ ht', htInsertVersionMem ht commitTs key value mem = (r.1, ht', mem') ∧
          r.2.Stores ht') ∧
        ∀ snapshotTs lent, snapshotTs < commitTs → Lends t.chains.flatten snapshotTs lent →
          Lends r.2.chains.flatten snapshotTs lent := by
  rw [htInsertVersionMem_copies]
  unfold htInsertVersionBlocks lostValues fkvMalloc
  refine (runs_malloc t.blocks mem).bind ?_
  rintro nv mem₁ post ⟨rfl, rfl, hnv⟩
  rw [← hnv]
  cases nv with
  | none => exact Runs.pure ⟨⟨zero_add _, rfl⟩, ⟨ht, rfl, h⟩, fun _ _ _ hlent => hlent⟩
  | some nv =>
    refine (runs_copySlice key _ _).bind ?_
    rintro k mem₂ post ⟨rfl, hk⟩
    refine (runs_copyValue value _ _).bind ?_
    rintro v mem₃ post ⟨rfl, hv⟩
    have hkey := sliceDupMem_cases key mem.tail
    have hval := sliceDupMem_cases (value.getD []) mem₂
    simp only [Option.isSome_some, if_true, ← hk, ← hv, Copy.slice_eq_none] at hkey hval ⊢
    split
    · -- the key and the node are freed again, the value is not
      rename_i hfail
      have hblocks : behind v.addr + (behind k.addr + (behind (some nv) + t.blocks)) =
          behind k.addr + (behind (some nv) + (t.blocks + behind v.addr)) := by ac_rfl
      rw [hblocks]
      refine (runs_free k.addr _ _).bind ?_
      rintro - _ post ⟨rfl, rfl⟩
      refine (runs_free (some nv) _ _).bind ?_
      rintro - _ post ⟨rfl, rfl⟩
      refine Runs.pure ⟨⟨?_, ?_⟩, ⟨ht, rfl, h.chains, h.numVersions⟩, fun _ _ _ hlent => hlent⟩
      · rw [TableBlocks.blocks, TableBlocks.blocks, ← Multiset.coe_add, coe_toList]
        ac_rfl
      · cases v with
        | none =>
          rw [if_neg (by simp)]
          rfl
        | some v =>
          have hk' := hfail.resolve_right (by simp)
          rw [if_pos ⟨hk'.1, hk'.2, by simp⟩]
          rfl
    · rename_i hok
      have hlookup := hkey.resolve_left fun hk' => hok (Or.inl hk')
      have hcopied := hval.resolve_left fun hv' => hok (Or.inr hv')
      have hversion : OwnedVersion.version ⟨nv, commitTs, tsMax, k, v⟩ =
          newVersion commitTs key value := by
        rw [OwnedVersion.version, newVersion, hlookup, hcopied]
        cases key <;> cases value <;> rfl
      have hi : maskedHash t.chains.length key < t.chains.length := by
        have hlt := bucketIdx_lt ht key
        rwa [bucketIdx, Ht.capacity, ← h.chains, List.length_map] at hlt
      refine Runs.pure ⟨⟨?_, ?_⟩, ⟨_, rfl, h.insert hversion⟩, fun snapshotTs lent hts hlent => ?_⟩
      · rw [t.blocks_modify hi]
        simp only [OwnedVersion.blocks, behind_some]
        ac_rfl
      · rw [if_neg fun hlost => hok (Or.inl ⟨hlost.1, hlost.2.1⟩)]
        rfl
      · exact hlent.modify hi hts key ⟨nv, commitTs, tsMax, k, v⟩

/-- The inner loop of a collection. -/
theorem runs_gcChainBlocks (minActiveTs : ℕ) (vs : List OwnedVersion) :
    ∀ (keep : List OwnedVersion) (freed : ℕ) (pre : Multiset ℕ) (mem : List Bool),
      Runs (blocksOf vs + (blocksOf keep + pre)) mem (gcChainBlocks minActiveTs vs keep freed)
        fun r mem' post => (post = blocksOf r.1 + pre ∧ mem' = mem) ∧
          (r.1.map OwnedVersion.version, r.2) = gcChain minActiveTs (vs.map OwnedVersion.version)
            (keep.map OwnedVersion.version) freed ∧
          ∀ v, (v ∈ vs ∧ minActiveTs ≤ v.endTs) ∨ v ∈ keep → v ∈ r.1 := by
  induction vs with
  | nil =>
    intro keep freed pre mem
    rw [blocksOf_nil, zero_add]
    exact Runs.pure ⟨⟨rfl, rfl⟩, rfl, fun v hv => hv.resolve_left fun hv =>
      absurd hv.1 List.not_mem_nil⟩
  | cons v vs ih =>
    intro keep freed pre mem
    have hend : v.version.endTs = v.endTs := rfl
    rw [gcChainBlocks, List.map_cons, gcChain, hend]
    split
    · rw [blocksOf_cons, add_assoc]
      refine (v.runs_free _ mem).bind ?_
      rintro - mem' post ⟨rfl, rfl⟩
      rename_i hended
      refine (ih keep (freed + 1) pre mem').mono ?_
      rintro r mem'' post ⟨hpost, hchain, hkept⟩
      refine ⟨hpost, hchain, fun w hw => hkept w (hw.imp_left fun hw => ?_)⟩
      obtain ⟨hmem, hle⟩ := hw
      rcases List.mem_cons.mp hmem with rfl | hmem
      · exact absurd hle (not_le.mpr hended)
      · exact ⟨hmem, hle⟩
    · have hmoved : blocksOf (v :: vs) + (blocksOf keep + pre) =
          blocksOf vs + (blocksOf (v :: keep) + pre) := by
        rw [blocksOf_cons, blocksOf_cons]
        ac_rfl
      rw [hmoved]
      refine (ih (v :: keep) freed pre mem).mono ?_
      rintro r mem' post ⟨hpost, hchain, hkept⟩
      refine ⟨hpost, hchain, fun w hw => hkept w ?_⟩
      rcases hw with ⟨hmem, hle⟩ | hmem
      · rcases List.mem_cons.mp hmem with rfl | hmem
        · exact Or.inr List.mem_cons_self
        · exact Or.inl ⟨hmem, hle⟩
      · exact Or.inr (List.mem_cons_of_mem _ hmem)

/-- The outer loop. -/
theorem runs_gcBuckets (minActiveTs : ℕ) (chains : List (List OwnedVersion)) :
    ∀ (pre : Multiset ℕ) (mem : List Bool),
      Runs (blocksOf chains.flatten + pre) mem (gcBuckets minActiveTs chains) fun r mem' post =>
        (post = blocksOf r.1.flatten + pre ∧ mem' = mem) ∧
          (let collected := (chains.map (List.map OwnedVersion.version)).map fun chain =>
            gcChain minActiveTs chain [] 0
          r.1.map (List.map OwnedVersion.version) = collected.map Prod.fst ∧
            r.2 = (collected.map Prod.snd).sum) ∧
          ∀ v ∈ chains.flatten, minActiveTs ≤ v.endTs → v ∈ r.1.flatten := by
  induction chains with
  | nil => exact fun pre mem => Runs.pure ⟨⟨rfl, rfl⟩, ⟨rfl, rfl⟩, fun _ hv =>
      absurd hv List.not_mem_nil⟩
  | cons chain chains ih =>
    intro pre mem
    have hblocks : blocksOf (chain :: chains).flatten + pre =
        blocksOf chain + (blocksOf [] + (blocksOf chains.flatten + pre)) := by
      rw [List.flatten_cons, blocksOf_append, blocksOf_nil, zero_add, add_assoc]
    rw [hblocks]
    refine (runs_gcChainBlocks minActiveTs chain [] 0 _ mem).bind ?_
    rintro ⟨keep, freed⟩ mem' post ⟨⟨rfl, rfl⟩, hchain, hkept⟩
    have hmoved : blocksOf keep + (blocksOf chains.flatten + pre) =
        blocksOf chains.flatten + (blocksOf keep + pre) := by ac_rfl
    rw [hmoved]
    refine (ih _ mem').bind ?_
    rintro ⟨chains', more⟩ mem'' post ⟨⟨rfl, rfl⟩, ⟨hchains, hmore⟩, hothers⟩
    refine Runs.pure ⟨⟨?_, rfl⟩, ⟨?_, ?_⟩, fun v hv hle => ?_⟩
    · rw [List.flatten_cons, blocksOf_append]
      ac_rfl
    · simp only [List.map_cons] at hchain hchains ⊢
      rw [hchains, ← show _ = gcChain minActiveTs (chain.map OwnedVersion.version) [] 0 from hchain]
    · simp only [List.map_cons, List.sum_cons] at hchain hmore ⊢
      rw [hmore, ← show _ = gcChain minActiveTs (chain.map OwnedVersion.version) [] 0 from hchain]
    · rcases List.mem_append.mp hv with hv | hv
      · exact List.mem_append_left _ (hkept v (Or.inl ⟨hv, hle⟩))
      · exact List.mem_append_right _ (hothers v hv hle)

/-- A collection frees the blocks of what it removes. -/
theorem TableBlocks.Stores.runs_gc (h : t.Stores ht) (minActiveTs : ℕ) (mem : List Bool) :
    Runs t.blocks mem (htGcBlocks t minActiveTs) fun t' mem' post =>
      (post = t'.blocks ∧ mem' = mem) ∧ t'.Stores (htGc ht minActiveTs).2 ∧
        t'.spilled = t.spilled ∧ ∀ snapshotTs lent, minActiveTs ≤ snapshotTs →
          Lends t.chains.flatten snapshotTs lent → Lends t'.chains.flatten snapshotTs lent := by
  unfold htGcBlocks TableBlocks.blocks
  rw [add_assoc]
  refine (runs_gcBuckets minActiveTs t.chains _ mem).bind ?_
  rintro ⟨chains, freed⟩ mem' post ⟨⟨rfl, rfl⟩, ⟨hchains, hfreed⟩, hkept⟩
  rw [h.chains] at hchains hfreed
  refine Runs.pure ⟨⟨(add_assoc _ _ _).symm, rfl⟩, ⟨?_, ?_⟩, rfl, fun snapshotTs lent hts => ?_⟩
  · exact hchains.trans (List.map_map ..)
  · exact congrArg₂ sub64 h.numVersions hfreed
  · rintro ⟨v, hv, hvalue, hend⟩
    exact ⟨v, hkept v hv (hts.trans hend.le), hvalue, hend⟩

/-- The end of a table. -/
theorem TableBlocks.runs_destroy (t : TableBlocks) (mem : List Bool) :
    Runs t.blocks mem (htDestroyBlocks t) fun _ mem' post => post = t.spilled ∧ mem' = mem := by
  unfold htDestroyBlocks TableBlocks.blocks
  rw [add_assoc, add_assoc]
  refine (runs_freeVersions _ _ mem).bind ?_
  rintro - mem' post ⟨rfl, rfl⟩
  refine (runs_free (some t.array) _ mem').bind ?_
  rintro - mem'' post ⟨rfl, rfl⟩
  exact runs_free (some t.addr) _ mem''

end Operations

/-! ## Runs of operations -/

/-- Run an operation without blocks. -/
def HtOp.runMem (ht : Ht) (mem : List Bool) : HtOp → Err × Ht × List Bool
  | .put commitTs key value => htInsertVersionMem ht commitTs key value mem
  | .delete commitTs key => htInsertVersionMem ht commitTs key none mem
  | .gc minActiveTs => (.ok, (htGc ht minActiveTs).2, mem)

/-- The number of values that it loses. -/
def HtOp.lost (mem : List Bool) : HtOp → ℕ
  | .put _ key value => lostValues key value mem
  | .delete _ key => lostValues key none mem
  | .gc _ => 0

/-- Run operations without blocks: what they return, and how many values they lose. -/
def runMem : List HtOp → Ht → List Bool → List Err × ℕ
  | [], _, _ => ([], 0)
  | op :: ops, ht, mem =>
    let (rc, ht', mem') := op.runMem ht mem
    let (rcs, lost) := runMem ops ht' mem'
    (rc :: rcs, op.lost mem + lost)

/-- The table after them. -/
def memTable : List HtOp → Ht → List Bool → Ht
  | [], ht, _ => ht
  | op :: ops, ht, mem =>
    let (_, ht', mem') := op.runMem ht mem
    memTable ops ht' mem'

/-- It does not concern those who read at the given time: it writes later, or collects what has
ended before. -/
def HtOp.Spares (snapshotTs : ℕ) : HtOp → Prop
  | .put commitTs _ _ => snapshotTs < commitTs
  | .delete commitTs _ => snapshotTs < commitTs
  | .gc minActiveTs => minActiveTs ≤ snapshotTs

/-- An operation returns what it returns without blocks, and it leaves what is lent. -/
theorem TableBlocks.Stores.runs_op {t : TableBlocks} {ht : Ht} (h : t.Stores ht) (op : HtOp)
    (mem : List Bool) : Runs t.blocks mem (op.runBlocks t) fun r mem' post =>
      (post = r.2.blocks ∧ r.2.spilled.length = t.spilled.length + op.lost mem) ∧
        (∃ ht', op.runMem ht mem = (r.1, ht', mem') ∧ r.2.Stores ht') ∧
        ∀ snapshotTs lent, op.Spares snapshotTs → Lends t.chains.flatten snapshotTs lent →
          Lends r.2.chains.flatten snapshotTs lent := by
  cases op with
  | put commitTs key value => exact h.runs_insert commitTs key value mem
  | delete commitTs key => exact h.runs_insert commitTs key none mem
  | gc minActiveTs =>
    refine (h.runs_gc minActiveTs mem).bind ?_
    rintro t' mem' post ⟨⟨rfl, rfl⟩, hstores, hspilled, hlent⟩
    exact Runs.pure ⟨⟨rfl, by rw [hspilled]; rfl⟩, ⟨_, rfl, hstores⟩, hlent⟩

/-- So do any number of them. -/
theorem TableBlocks.Stores.runs_ops (ops : List HtOp) : ∀ {t : TableBlocks} {ht : Ht}
    (_ : t.Stores ht) (mem : List Bool), Runs t.blocks mem (runBlocks ops t) fun r _ post =>
      post = r.2.blocks ∧ (r.1 = (runMem ops ht mem).1 ∧
        r.2.spilled.length = t.spilled.length + (runMem ops ht mem).2) ∧
        r.2.Stores (memTable ops ht mem) ∧
        ∀ snapshotTs lent, (∀ op ∈ ops, op.Spares snapshotTs) →
          Lends t.chains.flatten snapshotTs lent → Lends r.2.chains.flatten snapshotTs lent := by
  induction ops with
  | nil => exact fun h _ => Runs.pure ⟨rfl, ⟨rfl, rfl⟩, h, fun _ _ _ hlent => hlent⟩
  | cons op ops ih =>
    intro t ht h mem
    refine (h.runs_op op mem).bind ?_
    rintro ⟨rc, t'⟩ mem' post ⟨⟨rfl, hlost⟩, ⟨ht', hop, hstores⟩, hlent⟩
    refine (ih hstores mem').bind ?_
    rintro ⟨rcs, t''⟩ mem'' post ⟨rfl, ⟨rfl, hmore⟩, hstored, hlater⟩
    refine Runs.pure ⟨rfl, ⟨?_, ?_⟩, ?_, fun snapshotTs lent hspares h' => ?_⟩
    · rw [runMem, hop]
    · rw [runMem, hop]
      exact hmore.trans (by rw [hlost, Nat.add_assoc])
    · rw [memTable, hop]
      exact hstored
    · exact hlater snapshotTs lent (fun op hop => hspares op (List.mem_cons_of_mem _ hop))
        (hlent snapshotTs lent (hspares op List.mem_cons_self) h')

/-! ## Enough memory -/

/-- A copy uses up outcomes and adds none. -/
theorem mem_of_mem_sliceDupMem {s : Bytes} {mem : List Bool} {b : Bool}
    (hb : b ∈ (sliceDupMem s mem).2) : b ∈ mem := by
  unfold sliceDupMem at hb
  split at hb
  · exact hb
  · exact List.mem_of_mem_tail hb

/-- With memory enough no value is lost, and there is enough memory later. -/
theorem HtOp.lost_of_enough {mem : List Bool} (hmem : ∀ b ∈ mem, b = true) (op : HtOp) (ht : Ht) :
    op.lost mem = 0 ∧ ∀ b ∈ (op.runMem ht mem).2.2, b = true := by
  have hhead : mem.headD true = true := by
    cases mem with
    | nil => rfl
    | cons b mem => exact hmem b (by simp)
  have htail : ∀ b ∈ mem.tail, b = true := fun b hb => hmem b (List.mem_of_mem_tail hb)
  have hwrite : ∀ commitTs key value, lostValues key value mem = 0 ∧
      ∀ b ∈ (htInsertVersionMem ht commitTs key value mem).2.2, b = true := by
    intro commitTs key value
    have hcopied : key ≠ [] → (sliceDupMem key mem.tail).1 ≠ none := by
      intro hkey
      have hhead' : mem.tail.headD true = true := by
        cases htl : mem.tail with
        | nil => rfl
        | cons b rest => exact htail b (by simp [htl])
      unfold sliceDupMem fkvMalloc
      rw [if_neg hkey, hhead']
      exact Option.some_ne_none key
    refine ⟨?_, ?_⟩
    · unfold lostValues fkvMalloc
      rw [hhead]
      exact if_neg fun hlost => hcopied hlost.2.1 hlost.1
    · rw [htInsertVersionMem_copies, if_pos hhead]
      dsimp only
      intro b hb
      split at hb
      · exact htail b (mem_of_mem_sliceDupMem (mem_of_mem_sliceDupMem hb))
      · exact htail b (mem_of_mem_sliceDupMem (mem_of_mem_sliceDupMem hb))
  cases op with
  | put commitTs key value => exact hwrite commitTs key value
  | delete commitTs key => exact hwrite commitTs key none
  | gc minActiveTs => exact ⟨rfl, hmem⟩

/-- With memory enough no run loses a value. -/
theorem runMem_lost_of_enough (ops : List HtOp) : ∀ {mem : List Bool} (ht : Ht),
    (∀ b ∈ mem, b = true) → (runMem ops ht mem).2 = 0 := by
  induction ops with
  | nil => exact fun _ _ => rfl
  | cons op ops ih =>
    intro mem ht hmem
    obtain ⟨hlost, hrest⟩ := op.lost_of_enough hmem ht
    rw [runMem]
    change op.lost mem + (runMem ops _ _).2 = 0
    rw [hlost, ih _ hrest]

/-! ## Reads -/

/-- The walk of a read finds what it finds without blocks. -/
theorem chainGet_map_version (snapshotTs : ℕ) (key : Bytes) (chain : List OwnedVersion) :
    chainGet snapshotTs key (chain.map OwnedVersion.version) =
      (chainGetBlocks snapshotTs key chain).slice.elim (.error .notfound) .ok := by
  induction chain with
  | nil => rfl
  | cons v next ih =>
    rw [List.map_cons, chainGet, chainGetBlocks]
    by_cases hv : v.version.key = key ∧ v.beginTs ≤ snapshotTs ∧ snapshotTs < v.endTs
    · refine (if_pos hv).trans ?_
      rw [if_pos hv]
      obtain ⟨addr, beginTs, endTs, k, value⟩ := v
      cases value with
      | none => rfl
      | some value => rfl
    · refine (if_neg hv).trans ?_
      rw [if_neg hv]
      exact ih

/-- A read hands out what it finds without blocks. -/
theorem TableBlocks.Stores.get {t : TableBlocks} {ht : Ht} (h : t.Stores ht) (snapshotTs : ℕ)
    (key : Bytes) : htGet ht snapshotTs key =
      (htGetBlocks t snapshotTs key).slice.elim (.error .notfound) .ok := by
  rw [htGet, htGetBlocks, ← chainGet_map_version, Ht.chain, bucketIdx, Ht.capacity, ← h.chains,
    List.length_map]
  rw [List.getD_eq_getElem?_getD, List.getD_eq_getElem?_getD, List.getElem?_map]
  cases t.chains[maskedHash t.chains.length key]? with
  | none => rfl
  | some chain => rfl

/-- The walk of a read hands out what a version of the chain lends. -/
theorem lends_of_chainGetBlocks {snapshotTs : ℕ} {key : Bytes} {value : Bytes × ℕ}
    {chain : List OwnedVersion} (h : chainGetBlocks snapshotTs key chain = some value) :
    Lends chain snapshotTs value := by
  induction chain with
  | nil => cases h
  | cons v next ih =>
    unfold chainGetBlocks at h
    split at h
    · rename_i hv
      exact ⟨v, List.mem_cons_self, h, hv.2.2⟩
    · obtain ⟨w, hw, hvalue, hend⟩ := ih h
      exact ⟨w, List.mem_cons_of_mem _ hw, hvalue, hend⟩

/-- A read hands out what a version lends. -/
theorem lends_of_get {t : TableBlocks} {snapshotTs : ℕ} {key : Bytes} {value : Bytes × ℕ}
    (h : htGetBlocks t snapshotTs key = some value) : Lends t.chains.flatten snapshotTs value := by
  obtain ⟨v, hv, hvalue, hend⟩ := lends_of_chainGetBlocks h
  refine ⟨v, ?_, hvalue, hend⟩
  rw [List.getD_eq_getElem?_getD] at hv
  cases hchain : t.chains[maskedHash t.chains.length key]? with
  | none =>
    rw [hchain] at hv
    cases hv
  | some chain =>
    rw [hchain] at hv
    exact List.mem_flatten_of_mem (List.mem_of_getElem? hchain) hv

/-- What is lent is a block of the table. -/
theorem Lends.mem_blocks {t : TableBlocks} {snapshotTs : ℕ} {value : Bytes × ℕ}
    (h : Lends t.chains.flatten snapshotTs value) : value.2 ∈ t.blocks := by
  obtain ⟨v, hv, hvalue, -⟩ := h
  obtain ⟨left, right, hsplit⟩ := List.append_of_mem hv
  rw [TableBlocks.blocks, hsplit, blocksOf_append, blocksOf_cons, OwnedVersion.blocks, hvalue]
  simp [Copy.addr]

/-! ## Main results -/

/-- The memory of a hash table is accounted for. However many operations there are between its
creation and its end, and whichever allocations fail: no block is freed twice, every operation
returns what it returns without blocks, blocks of others stay, and in the end as many blocks are
left as there were values whose keys could not be copied. With memory enough nothing is left. -/
theorem table_memory_accounted (capacity : ℕ) (hcap : ∃ n < 64, capacity = 2 ^ n)
    (ops : List HtOp) (h : Heap) : ∃ result h', tableLife capacity ops h = some (result, h') ∧
      h.live ⊆ h'.live ∧ (result = none → h'.live = h.live) ∧
      (∀ rcs ∈ result, rcs = (runMem ops (htCreate capacity hcap) h.answers.tail.tail).1 ∧
        h'.live.card = h.live.card +
          (runMem ops (htCreate capacity hcap) h.answers.tail.tail).2) ∧
      ((∀ b ∈ h.answers, b = true) → h'.live = h.live) := by
  have hruns : Runs 0 h.answers (tableLife capacity ops) fun result _ post =>
      (result = none → post = 0) ∧
        ∀ rcs ∈ result, rcs = (runMem ops (htCreate capacity hcap) h.answers.tail.tail).1 ∧
          post.card = (runMem ops (htCreate capacity hcap) h.answers.tail.tail).2 := by
    refine (runs_htCreateBlocks capacity hcap h.answers).bind ?_
    rintro (_ | t) mem post ⟨rfl, hcreated⟩
    · exact Runs.pure ⟨fun _ => rfl, by simp⟩
    · obtain ⟨hstores, hspilled, rfl⟩ := hcreated t rfl
      refine (hstores.runs_ops ops _).bind ?_
      rintro ⟨rcs, t'⟩ mem post ⟨rfl, ⟨hrcs, hlost⟩, -⟩
      refine (t'.runs_destroy mem).bind ?_
      rintro - mem' post ⟨rfl, -⟩
      refine Runs.pure ⟨by simp, ?_⟩
      rintro rcs ⟨⟩
      rw [hspilled] at hlost
      exact ⟨hrcs, by simpa using hlost⟩
  obtain ⟨result, h', post, hlife, ⟨hnone, hall⟩, hlive⟩ := hruns.result
  have hsame : post = 0 → h'.live = h.live := fun hpost =>
    Finset.val_inj.mp (by rw [hlive, hpost, zero_add])
  refine ⟨result, h', hlife, ?_, fun hn => hsame (hnone hn), fun rcs hrcs => ?_, fun henough => ?_⟩
  · rw [← Finset.val_le_iff, hlive]
    exact Multiset.le_add_left _ _
  · refine ⟨(hall rcs hrcs).1, ?_⟩
    rw [Finset.card_def, hlive, Multiset.card_add, (hall rcs hrcs).2, Nat.add_comm]
    rfl
  · cases result with
    | none => exact hsame (hnone rfl)
    | some rcs =>
      refine hsame (Multiset.card_eq_zero.mp ((hall rcs rfl).2.trans (runMem_lost_of_enough ops _
        fun b hb => henough b (List.mem_of_mem_tail (List.mem_of_mem_tail hb)))))

/-- The copy of a key fails, after the allocations for the table and for the node. -/
def keyFails : Heap := ⟨∅, 0, [true, true, true, false, true], by simp⟩

/-- A put whose key cannot be copied loses its value. -/
theorem table_memory_accounted_keyFails : ∃ h',
    tableLife 1 [.put 1 [97] (some [98])] keyFails = some (some [.nomem], h') ∧
      h'.live.card = 1 := by
  obtain ⟨result, h', hlife, -, -, hall, -⟩ :=
    table_memory_accounted 1 ⟨0, by decide, rfl⟩ [.put 1 [97] (some [98])] keyFails
  have hreturned : (tableLife 1 [.put 1 [97] (some [98])] keyFails).map Prod.fst =
      some (some [.nomem]) := by decide +kernel
  rw [hlife, Option.map_some, Option.some.injEq] at hreturned
  subst hreturned
  exact ⟨h', hlife, (hall [.nomem] rfl).2⟩

/-- A value that was read stays where it is. `fastkv_ht_get` hands out a pointer into the table.
As long as later writes have later timestamps, and collections only remove what has ended before
the time of the read, the block behind the pointer is allocated and belongs to a version with the
value that was read, whichever allocations fail. -/
theorem read_value_stays (capacity : ℕ) (hcap : ∃ n < 64, capacity = 2 ^ n) (before : List HtOp)
    (snapshotTs : ℕ) (key : Bytes) {later : List HtOp} (hlater : ∀ op ∈ later, op.Spares snapshotTs)
    (h : Heap) : ∃ result h', readBetween capacity before snapshotTs key later h =
        some (result, h') ∧
      ∀ copy t, result = some (copy, t) →
        htGet (memTable before (htCreate capacity hcap) h.answers.tail.tail) snapshotTs key =
          copy.slice.elim (.error .notfound) .ok ∧
        ∀ bytes addr, copy = some (bytes, addr) → addr ∈ h'.live ∧ addr ∉ h.live ∧
          ∃ v ∈ t.chains.flatten, v.value = some (bytes, addr) ∧ snapshotTs < v.endTs := by
  have hruns : Runs 0 h.answers (readBetween capacity before snapshotTs key later)
      fun result _ post => ∀ copy t, result = some (copy, t) →
        htGet (memTable before (htCreate capacity hcap) h.answers.tail.tail) snapshotTs key =
          copy.slice.elim (.error .notfound) .ok ∧ post = t.blocks ∧
        ∀ lent, copy = some lent → Lends t.chains.flatten snapshotTs lent := by
    refine (runs_htCreateBlocks capacity hcap h.answers).bind ?_
    rintro (_ | t) mem post ⟨rfl, hcreated⟩
    · exact Runs.pure fun _ _ heq => by cases heq
    · obtain ⟨hstores, -, rfl⟩ := hcreated t rfl
      refine (hstores.runs_ops before _).bind ?_
      rintro ⟨_, t'⟩ mem' post ⟨rfl, -, hstores', -⟩
      refine (hstores'.runs_ops later mem').bind ?_
      rintro ⟨_, t''⟩ mem'' post ⟨rfl, -, -, hstays⟩
      refine Runs.pure fun copy t₀ heq => ?_
      obtain ⟨rfl, rfl⟩ := Prod.mk.inj (Option.some.inj heq)
      exact ⟨hstores'.get snapshotTs key, rfl,
        fun lent hvalue => hstays snapshotTs lent hlater (lends_of_get hvalue)⟩
  obtain ⟨result, h', post, hread, hall, hlive⟩ := hruns.result
  refine ⟨result, h', hread, fun copy t heq => ?_⟩
  obtain ⟨hget, rfl, hlent⟩ := hall copy t heq
  refine ⟨hget, fun bytes addr hcopy => ?_⟩
  have hlends := hlent _ hcopy
  have hmem : addr ∈ t.blocks := hlends.mem_blocks
  have hnodup := h'.live.nodup
  rw [hlive, Multiset.nodup_add] at hnodup
  refine ⟨?_, fun hold => ?_, hlends⟩
  · rw [← Finset.mem_val, hlive]
    exact Multiset.mem_add.mpr (Or.inl hmem)
  · exact Multiset.disjoint_left.mp hnodup.2.2 hmem hold

/-- Nothing is allocated, and memory is enough. -/
def emptyHeap : Heap := ⟨∅, 0, [], by simp⟩

/-- A value is overwritten and deleted after it was read. -/
theorem read_value_stays_overwritten : ∃ addr t h',
    readBetween 1 [.put 1 [97] (some [98])] 1 [97] [.put 2 [97] (some [99]), .gc 1, .delete 3 [97]]
      emptyHeap = some (some (some ([98], addr), t), h') ∧ addr ∈ h'.live := by
  have hlater : ∀ op ∈ [HtOp.put 2 [97] (some [99]), .gc 1, .delete 3 [97]], op.Spares 1 := by
    simp [HtOp.Spares]
  obtain ⟨result, h', hread, hall⟩ := read_value_stays 1 ⟨0, by decide, rfl⟩
    [.put 1 [97] (some [98])] 1 [97] hlater emptyHeap
  have hcopy : (readBetween 1 [.put 1 [97] (some [98])] 1 [97]
      [.put 2 [97] (some [99]), .gc 1, .delete 3 [97]] emptyHeap).map
        (fun r => r.1.map (fun r => r.1)) = some (some (some ([98], 4))) := by decide +kernel
  rw [hread, Option.map_some, Option.some.injEq, Option.map_eq_some_iff] at hcopy
  obtain ⟨⟨copy, t⟩, rfl, rfl⟩ := hcopy
  exact ⟨4, t, h', hread, ((hall _ t rfl).2 _ _ rfl).1⟩

end FastKV
