import FastKV.Util

/-!
# The multi-version hash table

`storage/hashtable/ht.c`. A bucket is a chain of versions; the versions of all keys
that hash to the bucket share it. A writer puts the new version at the head of the
chain after closing the live version of the same key, a reader takes the first version
of its key whose interval contains its timestamp, and the garbage collector rebuilds
every chain without the versions that ended too early. Allocations succeed here.

The second half of the file reads a table one key at a time: `Ht.versions` is the chain
of a key with the other keys of its bucket left out, and each operation is described by
what it does to that list.
-/

namespace FastKV

/-- `fastkv_version_t`; the chain order stands for the `next` pointers. -/
structure Version where
  /-- Commit timestamp of the write that created the version. -/
  beginTs : ℕ
  /-- Commit timestamp of the write that replaced it, `tsMax` while it is live. -/
  endTs : ℕ
  /-- Owned copy of the key. -/
  key : Bytes
  /-- Owned copy of the value; `none` is a tombstone. -/
  value : Slice
  deriving DecidableEq, Repr

/-- The masked hash of `bucket_idx`, for a table of the given capacity. -/
def maskedHash (capacity : ℕ) (key : Bytes) : ℕ := (hash key).toNat &&& (capacity - 1)

/-- `fastkv_ht_t`: as many chains as the capacity, which `fastkv_ht_create` asserts to
be a power of two, and every version in the bucket its key hashes to. -/
structure Ht where
  /-- The chain of each bucket, newest insertion first. -/
  buckets : List (List Version)
  /-- Number of versions in all chains, a 64-bit counter. -/
  numVersions : ℕ
  /-- The capacity is a power of two that fits a machine word. -/
  powerOfTwo : ∃ n < 64, buckets.length = 2 ^ n
  /-- A version lies in the bucket of its key. -/
  placed : ∀ i chain, buckets[i]? = some chain →
    ∀ v ∈ chain, maskedHash buckets.length v.key = i
  deriving DecidableEq

/-- The `capacity` field. -/
def Ht.capacity (ht : Ht) : ℕ := ht.buckets.length

/-- A table has at least one bucket. -/
theorem Ht.capacity_pos (ht : Ht) : 0 < ht.capacity := by
  obtain ⟨n, _, hn⟩ := ht.powerOfTwo
  rw [Ht.capacity, hn]
  exact Nat.two_pow_pos n

/-- `bucket_idx`. -/
def bucketIdx (ht : Ht) (key : Bytes) : ℕ := maskedHash ht.capacity key

/-- The bucket index of a key is a valid index. -/
theorem bucketIdx_lt (ht : Ht) (key : Bytes) : bucketIdx ht key < ht.buckets.length := by
  have hle : bucketIdx ht key ≤ ht.capacity - 1 := Nat.and_le_right
  have hpos := ht.capacity_pos
  unfold Ht.capacity at hle hpos
  omega

/-- `slice_dup`: an empty slice is copied to the null slice. -/
def sliceDup : Slice → Slice
  | some [] => none
  | s => s

/-- `slice_dup` keeps a value that has at least one byte. -/
theorem sliceDup_of_ne {v : Bytes} (hv : v ≠ []) : sliceDup (some v) = some v := by
  cases v with
  | nil => exact absurd rfl hv
  | cons b bs => rfl

/-- The buckets of a new table. -/
theorem emptyBuckets_placed {capacity i : ℕ} {chain : List Version}
    (h : (List.replicate capacity ([] : List Version))[i]? = some chain) : chain = [] :=
  List.eq_of_mem_replicate (List.mem_of_getElem? h)

/-- `fastkv_ht_create` for a capacity that passes its assertion. -/
def htCreate (capacity : ℕ) (hcap : ∃ n < 64, capacity = 2 ^ n) : Ht where
  buckets := List.replicate capacity []
  numVersions := 0
  powerOfTwo := by simpa using hcap
  placed := by
    intro i chain hchain v hv
    rw [emptyBuckets_placed hchain] at hv
    cases hv

/-- The chain of the bucket of `key`. -/
def Ht.chain (ht : Ht) (key : Bytes) : List Version :=
  ht.buckets.getD (bucketIdx ht key) []

/-- The chain walk of `fastkv_ht_get`. -/
def chainGet (snapshotTs : ℕ) (key : Bytes) : List Version → Except Err Bytes
  | [] => .error .notfound
  | v :: next =>
    if v.key = key ∧ v.beginTs ≤ snapshotTs ∧ snapshotTs < v.endTs then
      match v.value with
      | none => .error .notfound
      | some value => .ok value
    else chainGet snapshotTs key next

/-- `fastkv_ht_get`. -/
def htGet (ht : Ht) (snapshotTs : ℕ) (key : Bytes) : Except Err Bytes :=
  chainGet snapshotTs key (ht.chain key)

/-- A read that finds nothing says so. -/
theorem htGet_error {ht : Ht} {snapshotTs : ℕ} {key : Bytes} {rc : Err}
    (h : htGet ht snapshotTs key = .error rc) : rc = .notfound := by
  unfold htGet at h
  generalize ht.chain key = chain at h
  induction chain with
  | nil =>
    cases h
    rfl
  | cons v next ih =>
    unfold chainGet at h
    split at h
    · split at h
      · cases h
        rfl
      · cases h
    · exact ih h

/-- The sealing walk of `ht_insert_version`: the first live version of the key ends. -/
def sealLive (commitTs : ℕ) (key : Bytes) : List Version → List Version
  | [] => []
  | prev :: next =>
    if prev.key = key ∧ prev.endTs = tsMax then { prev with endTs := commitTs } :: next
    else prev :: sealLive commitTs key next

/-- Sealing changes no key. -/
theorem sealLive_keys (commitTs : ℕ) (key : Bytes) (chain : List Version) :
    (sealLive commitTs key chain).map Version.key = chain.map Version.key := by
  induction chain with
  | nil => rfl
  | cons v next ih =>
    unfold sealLive
    split
    · rfl
    · simp [ih]

/-- The version that `ht_insert_version` allocates. -/
def newVersion (commitTs : ℕ) (key : Bytes) (value : Slice) : Version :=
  ⟨commitTs, tsMax, key, sliceDup value⟩

/-- `ht_insert_version`. The compare-and-swap succeeds at once: writers hold the commit
lock. -/
def htInsertVersion (ht : Ht) (commitTs : ℕ) (key : Bytes) (value : Slice) : Ht where
  buckets := ht.buckets.modify (bucketIdx ht key) fun old =>
    newVersion commitTs key value :: sealLive commitTs key old
  numVersions := add64 ht.numVersions 1
  powerOfTwo := by simpa using ht.powerOfTwo
  placed := by
    intro i chain hchain v hv
    rw [List.length_modify]
    rw [List.getElem?_modify] at hchain
    obtain ⟨old, hold, heq⟩ := Option.map_eq_some_iff.mp hchain
    split at heq
    · rename_i hi
      subst heq
      rcases List.mem_cons.mp hv with rfl | hv
      · exact hi
      · have hkey : v.key ∈ old.map Version.key := by
          rw [← sealLive_keys commitTs key old]
          exact List.mem_map_of_mem hv
        obtain ⟨w, hw, hwk⟩ := List.mem_map.mp hkey
        rw [← hwk]
        exact ht.placed i old hold w hw
    · subst heq
      exact ht.placed i old hold v hv

/-- `fastkv_ht_put`. -/
def htPut (ht : Ht) (commitTs : ℕ) (key : Bytes) (value : Slice) : Ht :=
  htInsertVersion ht commitTs key value

/-- `fastkv_ht_delete`. -/
def htDelete (ht : Ht) (commitTs : ℕ) (key : Bytes) : Ht :=
  htInsertVersion ht commitTs key none

/-- The inner loop of `fastkv_ht_gc`: each kept version becomes the new head of `keep`. -/
def gcChain (minActiveTs : ℕ) : List Version → List Version → ℕ → List Version × ℕ
  | [], keep, freed => (keep, freed)
  | v :: next, keep, freed =>
    if v.endTs < minActiveTs then gcChain minActiveTs next keep (freed + 1)
    else gcChain minActiveTs next (v :: keep) freed

/-- A version the collector keeps. -/
def Version.survives (minActiveTs : ℕ) (v : Version) : Bool := decide (minActiveTs ≤ v.endTs)

/-- The collector keeps the surviving versions of a chain in reverse order. -/
theorem gcChain_fst (minActiveTs : ℕ) (chain keep : List Version) (freed : ℕ) :
    (gcChain minActiveTs chain keep freed).1 =
      (chain.filter (Version.survives minActiveTs)).reverse ++ keep := by
  induction chain generalizing keep freed with
  | nil => rfl
  | cons v next ih =>
    unfold gcChain
    by_cases h : v.endTs < minActiveTs
    · have hv : v.survives minActiveTs = false := by simpa [Version.survives] using h
      simp [h, hv, ih]
    · have hv : v.survives minActiveTs = true := by simpa [Version.survives] using h
      simp [h, hv, ih]

/-- `fastkv_ht_gc`: the number of freed versions and the table without them. -/
def htGc (ht : Ht) (minActiveTs : ℕ) : ℕ × Ht :=
  let collected := ht.buckets.map fun chain => gcChain minActiveTs chain [] 0
  let freed := (collected.map Prod.snd).sum
  (freed,
    { buckets := ht.buckets.map fun chain => (gcChain minActiveTs chain [] 0).1
      numVersions := sub64 ht.numVersions freed
      powerOfTwo := by simpa using ht.powerOfTwo
      placed := by
        intro i chain hchain v hv
        rw [List.length_map]
        rw [List.getElem?_map] at hchain
        obtain ⟨old, hold, rfl⟩ := Option.map_eq_some_iff.mp hchain
        rw [gcChain_fst, List.append_nil, List.mem_reverse] at hv
        exact ht.placed i old hold v (List.mem_of_mem_filter hv) })

/-! ## One key at a time -/

/-- The versions of one key in a chain. -/
def keyVersions (key : Bytes) (chain : List Version) : List Version :=
  chain.filter fun v => decide (v.key = key)

/-- The versions of a key in the table, in chain order. -/
def Ht.versions (ht : Ht) (key : Bytes) : List Version := keyVersions key (ht.chain key)

/-- Every version in the list of a key is a version of that key. -/
theorem Ht.key_of_mem_versions {ht : Ht} {key : Bytes} {v : Version}
    (hv : v ∈ ht.versions key) : v.key = key := by
  simpa using (List.mem_filter.mp hv).2

/-- The bucket of a key is one of the buckets of the table. -/
theorem Ht.getElem?_chain (ht : Ht) (key : Bytes) :
    ht.buckets[bucketIdx ht key]? = some (ht.chain key) := by
  rw [Ht.chain, List.getD_eq_getElem?_getD,
    List.getElem?_eq_getElem (bucketIdx_lt ht key)]
  rfl

/-- A version of a key is in one of the buckets. -/
theorem Ht.exists_bucket_of_mem_versions {ht : Ht} {key : Bytes} {v : Version}
    (hv : v ∈ ht.versions key) : ∃ chain, ht.buckets[bucketIdx ht key]? = some chain ∧ v ∈ chain :=
  ⟨ht.chain key, ht.getElem?_chain key, List.mem_of_mem_filter hv⟩

/-- A reader only looks at the versions of its key. -/
theorem chainGet_keyVersions (snapshotTs : ℕ) (key : Bytes) (chain : List Version) :
    chainGet snapshotTs key (keyVersions key chain) = chainGet snapshotTs key chain := by
  induction chain with
  | nil => rfl
  | cons v next ih =>
    unfold keyVersions at ih ⊢
    by_cases hkey : v.key = key
    · simp only [List.filter_cons, hkey, decide_true, if_true, chainGet, ih]
    · simp only [List.filter_cons, hkey, decide_false, Bool.false_eq_true, if_false, chainGet,
        false_and, ih]

/-- A table read is a walk over the versions of the key. -/
theorem htGet_eq (ht : Ht) (snapshotTs : ℕ) (key : Bytes) :
    htGet ht snapshotTs key = chainGet snapshotTs key (ht.versions key) :=
  (chainGet_keyVersions snapshotTs key (ht.chain key)).symm

/-- Sealing commutes with restricting a chain to the sealed key. -/
theorem keyVersions_sealLive_self (commitTs : ℕ) (key : Bytes) (chain : List Version) :
    keyVersions key (sealLive commitTs key chain) =
      sealLive commitTs key (keyVersions key chain) := by
  induction chain with
  | nil => rfl
  | cons v next ih =>
    unfold keyVersions at ih ⊢
    by_cases hkey : v.key = key
    · by_cases hend : v.endTs = tsMax
      · simp [sealLive, hkey, hend]
      · simp [sealLive, hkey, hend, ih]
    · simp [sealLive, hkey, ih]

/-- Sealing leaves the versions of other keys alone. -/
theorem keyVersions_sealLive_other {key key' : Bytes} (h : key' ≠ key) (commitTs : ℕ)
    (chain : List Version) :
    keyVersions key' (sealLive commitTs key chain) = keyVersions key' chain := by
  induction chain with
  | nil => rfl
  | cons v next ih =>
    unfold keyVersions at ih ⊢
    by_cases hkey : v.key = key
    · have hne : ¬ v.key = key' := fun heq => h (heq.symm.trans hkey)
      by_cases hend : v.endTs = tsMax
      · have hne' : ¬ key = key' := fun heq => h heq.symm
        simp [sealLive, hkey, hend, hne']
      · simp [sealLive, hend, hne, ih]
    · simp [sealLive, hkey, ih, List.filter_cons]

/-- Inserting a version keeps the capacity. -/
@[simp] theorem capacity_htInsertVersion (ht : Ht) (commitTs : ℕ) (key : Bytes) (value : Slice) :
    (htInsertVersion ht commitTs key value).capacity = ht.capacity := by
  simp [Ht.capacity, htInsertVersion]

/-- Inserting a version keeps every bucket index. -/
@[simp] theorem bucketIdx_htInsertVersion (ht : Ht) (commitTs : ℕ) (key key' : Bytes)
    (value : Slice) :
    bucketIdx (htInsertVersion ht commitTs key value) key' = bucketIdx ht key' := by
  simp [bucketIdx]

/-- The bucket chains after an insertion. -/
theorem chain_htInsertVersion (ht : Ht) (commitTs : ℕ) (key key' : Bytes) (value : Slice) :
    (htInsertVersion ht commitTs key value).chain key' =
      if bucketIdx ht key = bucketIdx ht key' then
        newVersion commitTs key value :: sealLive commitTs key (ht.chain key')
      else ht.chain key' := by
  have hlen := bucketIdx_lt ht key'
  unfold Ht.chain
  rw [bucketIdx_htInsertVersion, List.getD_eq_getElem?_getD]
  simp only [htInsertVersion, List.getElem?_modify, List.getElem?_eq_getElem hlen,
    List.getD_eq_getElem?_getD]
  split <;> rfl

/-- The written key gains the new version in front of its sealed list. -/
theorem versions_htInsertVersion_self (ht : Ht) (commitTs : ℕ) (key : Bytes) (value : Slice) :
    (htInsertVersion ht commitTs key value).versions key =
      newVersion commitTs key value :: sealLive commitTs key (ht.versions key) := by
  rw [Ht.versions, chain_htInsertVersion, if_pos rfl]
  have hhead : (newVersion commitTs key value).key = key := rfl
  rw [keyVersions, List.filter_cons_of_pos (by simp [hhead])]
  exact congrArg _ (keyVersions_sealLive_self commitTs key (ht.chain key))

/-- Every other key keeps its versions, also when it shares the bucket. -/
theorem versions_htInsertVersion_other {key key' : Bytes} (h : key' ≠ key) (ht : Ht)
    (commitTs : ℕ) (value : Slice) :
    (htInsertVersion ht commitTs key value).versions key' = ht.versions key' := by
  rw [Ht.versions, chain_htInsertVersion]
  split
  · have hne : ¬ (newVersion commitTs key value).key = key' := fun heq => h heq.symm
    rw [keyVersions, List.filter_cons_of_neg (by simpa using hne)]
    exact keyVersions_sealLive_other h commitTs (ht.chain key')
  · rfl

/-- Collection keeps the capacity. -/
@[simp] theorem capacity_htGc (ht : Ht) (minActiveTs : ℕ) :
    (htGc ht minActiveTs).2.capacity = ht.capacity := by
  simp [Ht.capacity, htGc]

/-- Collection keeps every bucket index. -/
@[simp] theorem bucketIdx_htGc (ht : Ht) (minActiveTs : ℕ) (key : Bytes) :
    bucketIdx (htGc ht minActiveTs).2 key = bucketIdx ht key := by
  simp [bucketIdx]

/-- Collection reverses the surviving versions of every key. -/
theorem versions_htGc (ht : Ht) (minActiveTs : ℕ) (key : Bytes) :
    (htGc ht minActiveTs).2.versions key =
      ((ht.versions key).filter (Version.survives minActiveTs)).reverse := by
  have hchain : (htGc ht minActiveTs).2.chain key =
      ((ht.chain key).filter (Version.survives minActiveTs)).reverse := by
    rw [Ht.chain, bucketIdx_htGc, List.getD_eq_getElem?_getD]
    simp only [htGc, List.getElem?_map, ht.getElem?_chain key, Option.map_some, Option.getD_some]
    rw [gcChain_fst, List.append_nil]
  rw [Ht.versions, hchain, Ht.versions, keyVersions, keyVersions, List.filter_reverse]
  congr 1
  rw [List.filter_filter, List.filter_filter]
  simp only [Bool.and_comm]

end FastKV
