import FastKV.SnapshotFile
import FastKV.VersionMap

/-!
# Writing and loading a snapshot

The writer visits every bucket and leaves it after the first live entry. A bucket holds the
versions of all keys that hash to it, so of several live keys in one bucket only one is
written. A snapshot stands for the table it was taken from exactly if no bucket has two live
keys and all lengths fit their fields.
-/

namespace FastKV

open Lib

/-! ## What the writer visits -/

/-- The walk over a bucket returns the first live pair. -/
theorem bucketEntry_eq (chain : List Version) :
    bucketEntry chain = (chain.filterMap Version.livePair).head? := by
  induction chain with
  | nil => rfl
  | cons v next ih =>
    unfold bucketEntry
    cases hv : v.livePair with
    | none => simp only [List.filterMap_cons, hv, ih]
    | some entry => simp only [List.filterMap_cons, hv, List.head?_cons]

/-- The pair of a version, if it has one, is its key and its value. -/
theorem Version.livePair_eq_some {v : Version} {entry : Bytes × Bytes}
    (h : v.livePair = some entry) :
    v.endTs = tsMax ∧ v.key = entry.1 ∧ v.value = some entry.2 := by
  unfold Version.livePair at h
  split at h
  · rename_i hlive
    obtain ⟨value', hvalue, heq⟩ := Option.map_eq_some_iff.mp h
    subst heq
    exact ⟨hlive, rfl, hvalue⟩
  · cases h

/-- The live pairs in the bucket of a key are those of the map. -/
theorem Ht.OneLive.mem_livePairs_iff {ht : Ht} (h : ht.OneLive) (key value : Bytes) :
    (key, value) ∈ (ht.chain key).filterMap Version.livePair ↔ ht.live key = some value := by
  have hone := find?_eq_of_filter (h key)
  constructor
  · intro hmem
    obtain ⟨v, hv, hpair⟩ := List.mem_filterMap.mp hmem
    obtain ⟨hlive, hkey, hvalue⟩ := Version.livePair_eq_some hpair
    have hmem' : v ∈ (ht.versions key).filter Version.isLive :=
      List.mem_filter.mpr ⟨List.mem_filter.mpr ⟨hv, by simpa using hkey⟩,
        by simp [Version.isLive, hlive]⟩
    rw [hone, Option.mem_toList] at hmem'
    rw [Ht.live, hmem', Option.bind_some, hvalue]
  · intro hlive
    obtain ⟨v, hv, hvalue⟩ := Option.bind_eq_some_iff.mp hlive
    have hmem := List.mem_of_find?_eq_some hv
    have hend : v.endTs = tsMax := by simpa [Version.isLive] using List.find?_some hv
    refine List.mem_filterMap.mpr ⟨v, List.mem_of_mem_filter hmem, ?_⟩
    rw [Version.livePair, if_pos hend, hvalue, Option.map_some, Ht.key_of_mem_versions hmem]

/-- A pair is written exactly if it is the first live pair of the bucket of its key. -/
theorem mem_snapEntries_iff (ht : Ht) (entry : Bytes × Bytes) :
    entry ∈ snapEntries ht ↔ ((ht.chain entry.1).filterMap Version.livePair).head? =
      some entry := by
  rw [snapEntries, List.mem_filterMap]
  constructor
  · rintro ⟨chain, hchain, hentry⟩
    rw [bucketEntry_eq] at hentry
    obtain ⟨i, hi⟩ := List.mem_iff_getElem?.mp hchain
    obtain ⟨v, hv, hpair⟩ := List.mem_filterMap.mp (List.mem_of_mem_head? hentry)
    obtain ⟨-, hkey, -⟩ := Version.livePair_eq_some hpair
    have hidx : bucketIdx ht v.key = i := ht.placed i chain hi v hv
    have hbucket := ht.getElem?_chain entry.1
    rw [← hkey, hidx, hi] at hbucket
    rw [← hkey, ← Option.some.inj hbucket]
    exact hentry
  · intro hentry
    exact ⟨ht.chain entry.1, List.mem_of_getElem? (ht.getElem?_chain entry.1),
      by rw [bucketEntry_eq, hentry]⟩

/-- Only pairs of the map are written. -/
theorem Ht.OneLive.live_of_mem_snapEntries {ht : Ht} (h : ht.OneLive) {key value : Bytes}
    (hmem : (key, value) ∈ snapEntries ht) : ht.live key = some value := by
  rw [mem_snapEntries_iff] at hmem
  exact (h.mem_livePairs_iff key value).mp (List.mem_of_mem_head? hmem)

/-- No bucket has two live pairs. -/
def Ht.Exportable (ht : Ht) : Prop :=
  ∀ chain ∈ ht.buckets, (chain.filterMap Version.livePair).length ≤ 1

/-- Then every pair of the map is written. -/
theorem Ht.Exportable.mem_snapEntries {ht : Ht} (h : ht.Exportable) (hone : ht.OneLive)
    {key value : Bytes} (hlive : ht.live key = some value) : (key, value) ∈ snapEntries ht := by
  rw [mem_snapEntries_iff]
  have hmem := (hone.mem_livePairs_iff key value).mpr hlive
  have hle := h _ (List.mem_of_getElem? (ht.getElem?_chain key))
  generalize (ht.chain key).filterMap Version.livePair = pairs at hmem hle
  match pairs, hmem, hle with
  | [e], hmem, _ => rw [List.mem_singleton.mp hmem, List.head?_cons]

/-- A key has no more live pairs in a chain than live versions. -/
theorem length_livePairs_le (key : Bytes) (chain : List Version) :
    ((chain.filterMap Version.livePair).filter fun e => decide (e.1 = key)).length ≤
      ((keyVersions key chain).filter Version.isLive).length := by
  induction chain with
  | nil => exact Nat.le_refl 0
  | cons v next ih =>
    unfold keyVersions at ih ⊢
    cases hv : v.livePair with
    | none =>
      rw [List.filterMap_cons_none hv]
      refine ih.trans (List.Sublist.length_le ?_)
      exact ((List.sublist_cons_self v next).filter _).filter _
    | some entry =>
      obtain ⟨hend, hkey, -⟩ := Version.livePair_eq_some hv
      have hlive : v.isLive = true := by simp [Version.isLive, hend]
      rw [List.filterMap_cons_some hv]
      by_cases heq : entry.1 = key
      · rw [List.filter_cons_of_pos (by simpa using heq),
          List.filter_cons_of_pos (by simpa using hkey.trans heq), List.filter_cons_of_pos hlive,
          List.length_cons, List.length_cons]
        exact Nat.succ_le_succ ih
      · rw [List.filter_cons_of_neg (by simpa using heq),
          List.filter_cons_of_neg (by simpa using fun h => heq (hkey.symm.trans h))]
        exact ih

/-- If every pair of the map is written, no bucket has two. -/
theorem Ht.OneLive.exportable {ht : Ht} (h : ht.OneLive)
    (hall : ∀ key value, ht.live key = some value → (key, value) ∈ snapEntries ht) :
    ht.Exportable := by
  intro chain hchain
  by_contra hlong
  obtain ⟨⟨k₁, v₁⟩, ⟨k₂, v₂⟩, rest, hpairs⟩ :
      ∃ e₁ e₂ rest, chain.filterMap Version.livePair = e₁ :: e₂ :: rest := by
    match hp : chain.filterMap Version.livePair with
    | [] => rw [hp] at hlong; simp at hlong
    | [e] => rw [hp] at hlong; simp at hlong
    | e₁ :: e₂ :: rest => exact ⟨e₁, e₂, rest, rfl⟩
  -- the second pair belongs to this bucket, so it would be the one that is written
  have hmem : (k₂, v₂) ∈ chain.filterMap Version.livePair := by simp [hpairs]
  have hself : ht.chain k₂ = chain := by
    obtain ⟨i, hi⟩ := List.mem_iff_getElem?.mp hchain
    obtain ⟨v, hv, hpair⟩ := List.mem_filterMap.mp hmem
    have hkey : v.key = k₂ := (Version.livePair_eq_some hpair).2.1
    have hbucket := ht.getElem?_chain k₂
    rw [← hkey, show bucketIdx ht v.key = i from ht.placed i chain hi v hv, hi] at hbucket
    rw [← hkey, ← Option.some.inj hbucket]
  have hlive := (h.mem_livePairs_iff k₂ v₂).mp (by rw [hself]; exact hmem)
  have hwritten := hall k₂ v₂ hlive
  rw [mem_snapEntries_iff, hself, hpairs, List.head?_cons, Option.some.injEq] at hwritten
  have hone := h k₂
  rw [Ht.versions, hself] at hone
  have hle := (length_livePairs_le k₂ chain).trans hone
  rw [hpairs, hwritten] at hle
  simp at hle

/-! ## What the loader builds -/

/-- The table after loading: the last entry for each key counts. -/
theorem live_foldl_loadEntry (ts : ℕ) (entries : List (Bytes × Bytes)) (key : Bytes) :
    ∀ s : Stores, (entries.foldl (loadEntry ts) s).ht.live key =
      match find entries.reverse key with
      | some value => sliceDup (some value)
      | none => s.ht.live key := by
  induction entries with
  | nil => exact fun s => rfl
  | cons e entries ih =>
    intro s
    rw [List.foldl_cons, ih, List.reverse_cons, find_append, find_cons, find_nil]
    cases find entries.reverse key with
    | some value => rfl
    | none =>
      simp only [Option.none_or]
      rw [loadEntry, htPut, live_htInsertVersion]
      by_cases hkey : e.1 = key
      · rw [if_pos hkey, if_pos hkey.symm]
      · rw [if_neg hkey, if_neg fun heq => hkey heq.symm]

/-- The tree after loading. -/
theorem btreeGet_foldl_loadEntry (ts : ℕ) (entries : List (Bytes × Bytes)) (key : Bytes) :
    ∀ s : Stores, s.btree.WellFormed →
      (entries.foldl (loadEntry ts) s).btree.WellFormed ∧
      btreeGet (entries.foldl (loadEntry ts) s).btree key =
        match find entries.reverse key with
        | some value => .ok value
        | none => btreeGet s.btree key := by
  induction entries with
  | nil => exact fun s h => ⟨h, rfl⟩
  | cons e entries ih =>
    intro s h
    obtain ⟨hwf, hmap⟩ := btreeInsert_spec h e.1 e.2
    obtain ⟨hwf', hget⟩ := ih (loadEntry ts s e) hwf
    refine ⟨hwf', ?_⟩
    rw [List.foldl_cons, hget, List.reverse_cons, find_append, find_cons, find_nil]
    cases find entries.reverse key with
    | some value => rfl
    | none =>
      simp only [Option.none_or]
      rw [loadEntry, btreeGet_eq hwf, hmap, find_insert, btreeGet_eq h]
      by_cases hkey : e.1 = key
      · rw [if_pos hkey, if_pos hkey.symm]
      · rw [if_neg hkey, if_neg fun heq => hkey heq.symm]

/-- Loading the written entries into empty structures gives the written pairs. -/
theorem find_snapEntries {ht : Ht} (h : ht.OneLive) (key value : Bytes) :
    find (snapEntries ht).reverse key = some value ↔ (key, value) ∈ snapEntries ht := by
  constructor
  · intro hfind
    obtain ⟨e, he, hvalue⟩ := Option.map_eq_some_iff.mp hfind
    have hkey : e.1 = key := by simpa using List.find?_some he
    rw [← hkey, ← hvalue]
    exact List.mem_reverse.mp (List.mem_of_find?_eq_some he)
  · intro hmem
    cases hfind : find (snapEntries ht).reverse key with
    | none =>
      simp only [find, Option.map_eq_none_iff, List.find?_eq_none, List.mem_reverse,
        decide_eq_true_eq] at hfind
      exact absurd rfl (hfind (key, value) hmem)
    | some value' =>
      obtain ⟨e, he, hvalue⟩ := Option.map_eq_some_iff.mp hfind
      have hkey : e.1 = key := by simpa using List.find?_some he
      have hmem' : (key, value') ∈ snapEntries ht := by
        rw [← hkey, ← hvalue]
        exact List.mem_reverse.mp (List.mem_of_find?_eq_some he)
      rw [← h.live_of_mem_snapEntries hmem, ← h.live_of_mem_snapEntries hmem']

/-- If every pair of the map is written, the entries are the map. -/
theorem Ht.Exportable.find_eq {ht : Ht} (h : ht.Exportable) (hone : ht.OneLive) (key : Bytes) :
    find (snapEntries ht).reverse key = ht.live key := by
  cases hlive : ht.live key with
  | some value => exact (find_snapEntries hone key value).mpr (h.mem_snapEntries hone hlive)
  | none =>
    cases hfind : find (snapEntries ht).reverse key with
    | none => rfl
    | some value =>
      rw [hone.live_of_mem_snapEntries ((find_snapEntries hone key value).mp hfind)] at hlive
      cases hlive

/-! ## The round trip -/

/-- Loading the snapshot in a directory into the structures of a new database gives the
table it was taken from. -/
structure LoadsBack (ht : Ht) (ts : ℕ) (files : Files) (opts : Opts) : Prop where
  /-- Loading succeeds. -/
  rc : (snapshotLoad files opts.stores).1 = .ok
  /-- The timestamp is returned. -/
  ts_out : (snapshotLoad files opts.stores).2.2 = ts
  /-- The table stands for the same map. -/
  table : ∀ key, (snapshotLoad files opts.stores).2.1.ht.live key = ht.live key
  /-- So does the tree. -/
  tree : ∀ key, btreeGet (snapshotLoad files opts.stores).2.1.btree key = readResult (ht.live key)

/-- The structures of a new database are empty. -/
theorem Opts.stores_empty (opts : Opts) (key : Bytes) :
    opts.stores.ht.live key = none ∧ opts.stores.btree.WellFormed ∧
      btreeGet opts.stores.btree key = .error .notfound := by
  refine ⟨?_, btreeCreate_wellFormed.1, rfl⟩
  rw [Ht.live, Opts.stores, versions_htCreate]
  rfl

/-- Loading the entries of an exportable table gives its map. -/
theorem Ht.Exportable.load {ht : Ht} (h : ht.Exportable) (hone : ht.OneLive) (hne : ht.NoEmpty)
    (opts : Opts) (ts : ℕ) (key : Bytes) :
    ((snapEntries ht).foldl (loadEntry ts) opts.stores).ht.live key = ht.live key ∧
      btreeGet ((snapEntries ht).foldl (loadEntry ts) opts.stores).btree key =
        readResult (ht.live key) := by
  obtain ⟨hlive, hwf, hget⟩ := opts.stores_empty key
  rw [live_foldl_loadEntry, (btreeGet_foldl_loadEntry ts (snapEntries ht) key _ hwf).2,
    h.find_eq hone key, hlive, hget]
  cases hv : ht.live key with
  | none => exact ⟨rfl, rfl⟩
  | some value => exact ⟨sliceDup_of_ne (hne.live_ne hv), rfl⟩

/-- Files after a rename. -/
theorem lookup_rename {files : Files} {old new : Name} {data : Bytes}
    (h : files.lookup old = some data) (n : Name) :
    (applyOp files (.rename old new)).lookup n =
      if n = new then some data else if n = old then none else files.lookup n := by
  simp only [applyOp, h]
  split
  · rename_i hn
    rw [hn, AList.lookup_insert]
  · rename_i hn
    rw [AList.lookup_insert_ne hn]
    split
    · rename_i hold
      rw [hold, AList.lookup_erase]
    · rename_i hold
      exact AList.lookup_erase_ne hold

/-- The directory after a snapshot was written. -/
theorem SnapshotWritten.lookup {ts : ℕ} {ht : Ht} {id : Uuid} {d d' : Disk} {ops : List FsOp}
    (h : SnapshotWritten ts ht id d d' ops) (n : Name) : d'.files.lookup n =
      if n = snapName id.hex then some (snapshotBytes ts ht)
      else if n = snapTmpName id.hex then none else d.files.lookup n := by
  rw [h.did.files, List.foldl_append, List.foldl_cons, List.foldl_nil, lookup_rename h.complete]
  split
  · rfl
  · split
    · rfl
    · rename_i htmp
      rw [List.foldl_cons, lookup_foldl_pwrite_ne h.writes htmp, lookup_create_ne _ htmp]

/-- In a directory without other snapshots the new one is found. -/
theorem SnapshotWritten.find {ts : ℕ} {ht : Ht} {id : Uuid} {d d' : Disk} {ops : List FsOp}
    (h : SnapshotWritten ts ht id d d' ops)
    (hnames : ∀ n ∈ d.files, matchName snapPfx snapSfx n = none) :
    findLatestSnapshot d'.files = some (snapName id.hex) := by
  refine findLatestSnapshot_eq (isSnap_snapName id) ?_ fun n hn => ?_
  · rw [← AList.lookup_isSome, h.lookup, if_pos rfl]
    rfl
  · rw [← AList.lookup_isSome, h.lookup] at hn
    split at hn
    · rename_i heq
      exact Or.inr (Or.inl heq)
    · split at hn
      · cases hn
      · exact Or.inl (hnames n (AList.lookup_isSome.mp hn))

/-- Every pair of a table that was loaded into a new database fits into an entry. -/
theorem fitsEntry_of_loaded {bytes : Bytes} {opts : Opts}
    (hrc : (loadFile bytes opts.stores).1 = .ok)
    {key value : Bytes} (hlive : (loadFile bytes opts.stores).2.1.ht.live key = some value) :
    FitsEntry (key, value) := by
  rcases hresult : loadFile bytes opts.stores with ⟨rc, s, out⟩
  rw [hresult] at hrc hlive
  cases hrc
  obtain ⟨entries, hs, hentries⟩ := loadFile_fits hresult
  rw [hs, live_foldl_loadEntry, (opts.stores_empty key).1] at hlive
  cases hf : find entries.reverse key with
  | none =>
    rw [hf] at hlive
    cases hlive
  | some value' =>
    rw [hf] at hlive
    obtain ⟨e, he, hvalue⟩ := Option.map_eq_some_iff.mp hf
    have hkey : e.1 = key := by simpa using List.find?_some he
    have hsame : value' = value := by
      cases value' with
      | nil => cases hlive
      | cons b bs => exact Option.some.inj hlive
    rw [← hkey, ← hsame, ← hvalue]
    exact hentries e (List.mem_reverse.mp (List.mem_of_find?_eq_some he))

/-- A live pair that is live again after loading the entries of its table is an entry. -/
theorem Ht.OneLive.mem_of_loaded {ht : Ht} (hone : ht.OneLive) {opts : Opts} {ts : ℕ}
    {key value : Bytes} (hlive : ht.live key = some value)
    (hloaded : ((snapEntries ht).foldl (loadEntry ts) opts.stores).ht.live key = some value) :
    (key, value) ∈ snapEntries ht := by
  rw [live_foldl_loadEntry, (opts.stores_empty key).1] at hloaded
  cases hf : find (snapEntries ht).reverse key with
  | none =>
    rw [hf] at hloaded
    cases hloaded
  | some value' =>
    have hmem := (find_snapEntries hone key value').mp hf
    rw [hone.live_of_mem_snapEntries hmem] at hlive
    rw [← Option.some.inj hlive]
    exact hmem

/-- The round trip of a snapshot that stands in a directory. -/
theorem loadsBack_iff {ht : Ht} (hone : ht.OneLive) (hne : ht.NoEmpty) {ts : ℕ} (hts : ts < 2 ^ 64)
    {files : Files} {opts : Opts}
    (hload : snapshotLoad files opts.stores = loadFile (snapshotBytes ts ht) opts.stores) :
    LoadsBack ht ts files opts ↔
      ht.Exportable ∧ ∀ key value, ht.live key = some value → FitsEntry (key, value) := by
  have hwhole : (∀ key value, ht.live key = some value → FitsEntry (key, value)) →
      snapshotLoad files opts.stores =
        (.ok, (snapEntries ht).foldl (loadEntry ts) opts.stores, ts) :=
    fun hfits => hload.trans (loadFile_snapshotBytes
      (fun e he => hfits e.1 e.2 (hone.live_of_mem_snapEntries he)) hts opts.stores)
  constructor
  · rintro ⟨hrc, hout, htable, -⟩
    -- whatever is loaded fits, and the table has nothing else
    have hfits : ∀ key value, ht.live key = some value → FitsEntry (key, value) := by
      intro key value hlive
      rw [← htable key] at hlive
      rw [hload] at hrc hlive
      exact fitsEntry_of_loaded hrc hlive
    refine ⟨hone.exportable fun key value hlive => ?_, hfits⟩
    have hloaded := htable key
    rw [hwhole hfits, hlive] at hloaded
    exact hone.mem_of_loaded hlive hloaded
  · rintro ⟨hexport, hfits⟩
    have hkeys := hexport.load hone hne opts ts
    constructor
    · rw [hwhole hfits]
    · rw [hwhole hfits]
    · rw [hwhole hfits]
      exact fun key => (hkeys key).1
    · rw [hwhole hfits]
      exact fun key => (hkeys key).2

/-- For every table that operations lead to, in every quiet directory without other
snapshots: writing a snapshot and loading it into a new database of any capacity gives the
timestamp and the map of the table, exactly if no bucket of the table has two live keys and
the lengths of live keys and values fit into 32 bits. -/
theorem snapshot_loadsBack_iff {capacity : ℕ} (hcap : ∃ n < 64, capacity = 2 ^ n)
    {ops : List HtOp} (hops : ∀ op ∈ ops, op.ts < tsMax) {ts : ℕ} (hts : ts < 2 ^ 64) {d : Disk}
    (hquiet : d.Quiet) (hnames : ∀ n ∈ d.files, matchName snapPfx snapSfx n = none) (id : Uuid)
    (opts : Opts) :
    ((snapshotWrite (runHt capacity hcap ops) ts id d).1 = .ok ∧
      LoadsBack (runHt capacity hcap ops) ts
      (snapshotWrite (runHt capacity hcap ops) ts id d).2.files
        opts) ↔
      (runHt capacity hcap ops).Exportable ∧
        ∀ key value, (runHt capacity hcap ops).live key = some value → FitsEntry (key, value) := by
  obtain ⟨hone, hne⟩ := runHt_invariant hcap hops
  generalize runHt capacity hcap ops = ht at hone hne
  have hnew : snapTmpName id.hex ∉ d.files := by
    intro hmem
    obtain ⟨rest, -, hmatch⟩ := isSnap_snapTmpName id
    rw [hnames _ hmem] at hmatch
    cases hmatch
  obtain ⟨d', wops, hwrite, hwritten⟩ := snapshotWrite_quiet hquiet hnew ht ts
  have hfile : d'.files.lookup (snapName id.hex) = some (snapshotBytes ts ht) := by
    rw [hwritten.lookup, if_pos rfl]
  have hload : snapshotLoad d'.files opts.stores = loadFile (snapshotBytes ts ht) opts.stores := by
    simp only [snapshotLoad, hwritten.find hnames, hfile]
  rw [hwrite, ← loadsBack_iff hone hne hts hload]
  exact and_iff_right rfl

/-- A table with four buckets in which one key is written twice and collected. -/
def oneKeyHt : Ht :=
  runHt 4 ⟨2, by decide⟩ [.put 1 [1] (some [10]), .put 2 [1] (some [11]), .gc 2]

/-- It is written to an empty directory and loaded into a table with one bucket. -/
theorem snapshot_loadsBack_one_key :
    (snapshotWrite oneKeyHt 3 firstId ⟨∅, [], []⟩).1 = .ok ∧
      LoadsBack oneKeyHt 3 (snapshotWrite oneKeyHt 3 firstId ⟨∅, [], []⟩).2.files oneBucket := by
  have hops : ∀ op ∈ [HtOp.put 1 [1] (some [10]), .put 2 [1] (some [11]), .gc 2],
      op.ts < tsMax := by decide
  have hexport : oneKeyHt.Exportable := by
    unfold Ht.Exportable
    decide +kernel
  refine (snapshot_loadsBack_iff ⟨2, by decide⟩ hops (by decide)
    (fun _ h => absurd h List.not_mem_nil) (fun n hn => absurd hn (AList.notMem_empty n)) firstId
    oneBucket).mpr ⟨hexport, fun key value hlive => ?_⟩
  have hmem := hexport.mem_snapEntries (runHt_invariant ⟨2, by decide⟩ hops).1 hlive
  have hentries : snapEntries oneKeyHt = [([1], [11])] := by decide +kernel
  rw [hentries, List.mem_singleton] at hmem
  rw [hmem]
  exact ⟨by decide, by decide⟩

/-- A table with two keys in its only bucket. -/
def twoKeyHt : Ht := runHt 1 ⟨0, by decide⟩ [.put 1 [1] (some [10]), .put 2 [2] (some [20])]

/-- Of the two keys one is lost on the way through a snapshot. -/
theorem snapshot_loses_key :
    (snapshotWrite twoKeyHt 3 firstId ⟨∅, [], []⟩).1 = .ok ∧
      twoKeyHt.live [1] = some [10] ∧
      (snapshotLoad (snapshotWrite twoKeyHt 3 firstId ⟨∅, [], []⟩).2.files oneBucket.stores).1 =
        .ok ∧
      (snapshotLoad (snapshotWrite twoKeyHt 3 firstId ⟨∅, [], []⟩).2.files
        oneBucket.stores).2.1.ht.live [1] = none := by
  decide +kernel

end FastKV
