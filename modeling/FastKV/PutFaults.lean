import FastKV.BTreeFaults
import FastKV.WriteSet

/-!
# Puts that run out of memory

`fastkv_put` with allocations that may fail: for the transaction and its arena, for the copies in
the write set, for a version in the hash table and its copies, and in the trees. Of the copies in
the write set only that of the key is checked; a value that could not be copied is the null
slice, which marks a deletion. The results of the hash table and of the trees are dropped.
-/

namespace FastKV

open BTree

/-- Nodes that the trees of a database have lost. -/
structure Losses where
  /-- Those of the ordered index. -/
  btree : List Node
  /-- Those of each secondary index. -/
  indexes : List (List Node)

/-- A world whose trees may have lost nodes. -/
structure MemWorld extends World where
  /-- The lost nodes. -/
  losses : Losses

/-! ## Hash table -/

/-- `slice_dup`. -/
def sliceDupMem (s : Bytes) (mem : List Bool) : Slice × List Bool :=
  if s = [] then (none, mem)
  else
    let (ok, mem) := fkvMalloc mem
    (if ok then some s else none, mem)

/-- `ht_insert_version`. -/
def htInsertVersionMem (ht : Ht) (commitTs : ℕ) (key : Bytes) (value : Slice) (mem : List Bool) :
    Err × Ht × List Bool :=
  match fkvMalloc mem with
  | (false, mem) => (.nomem, ht, mem)
  | (true, mem) =>
    let (k, mem) := sliceDupMem key mem
    let (v, mem) := match value with
      | some value => sliceDupMem value mem
      | none => (none, mem)
    if (k = none ∧ key ≠ []) ∨ (v = none ∧ value.getD [] ≠ []) then (.nomem, ht, mem)
    else (.ok, htInsertVersion ht commitTs key value, mem)

/-! ## Secondary indexes and expiry -/

/-- The outcomes that are left after `fastkv_btree_insert`. -/
def btreeInsertRest (t : LeakyTree) (key val : Bytes) (mem : List Bool) : List Bool :=
  let r := nodeInsertMem key val mem t.root t.links
  match r.split with
  | none => r.mem
  | some _ => (fkvMalloc r.mem).2

/-- The copy of a value for the user function, and the index key that it extracts from it. -/
def indexKeyMem (idx : Index) (pk val : Bytes) (mem : List Bool) : Option Bytes × List Bool :=
  match fkvMalloc mem with
  | (false, mem) => (if val = [] then idx.fn pk val else none, mem)
  | (true, mem) => (idx.fn pk val, mem)

/-- `make_composite`. -/
def makeCompositeMem (ik pk : Bytes) (mem : List Bool) : Slice × List Bool :=
  let (ok, mem) := fkvMalloc mem
  (if ok then some (makeComposite ik pk) else none, mem)

/-- `remove_index_entry`. -/
def removeIndexEntryMem (idx : Index) (pk val : Bytes) (mem : List Bool) : Index × List Bool :=
  match indexKeyMem idx pk val mem with
  | (none, mem) => (idx, mem)
  | (some ik, mem) =>
    match makeCompositeMem ik pk mem with
    | (none, mem) => (idx, mem)
    | (some comp, mem) => ({ idx with btree := (btreeDelete idx.btree comp).2 }, mem)

/-- `add_index_entry`. -/
def addIndexEntryMem (idx : Index) (lost : List Node) (pk val : Bytes) (mem : List Bool) :
    Index × List Node × List Bool :=
  match indexKeyMem idx pk val mem with
  | (none, mem) => (idx, lost, mem)
  | (some ik, mem) =>
    match makeCompositeMem ik pk mem with
    | (none, mem) => (idx, lost, mem)
    | (some comp, mem) =>
      let t := (btreeInsertMem ⟨idx.btree, lost⟩ comp pk mem).2
      ({ idx with btree := t.toBTree }, t.lost, btreeInsertRest ⟨idx.btree, lost⟩ comp pk mem)

/-- `secondary_on_put`, with the nodes that each index has lost. -/
def secondaryOnPutMem (pk : Bytes) (old : Option Bytes) (new : Bytes) :
    List Index → List (List Node) → List Bool → List Index × List (List Node) × List Bool
  | [], lost, mem => ([], lost, mem)
  | idx :: next, lost, mem =>
    let (idx, mem) := match old with
      | some oldVal => removeIndexEntryMem idx pk oldVal mem
      | none => (idx, mem)
    let (idx, here, mem) := addIndexEntryMem idx (lost.headD []) pk new mem
    let (next, rest, mem) := secondaryOnPutMem pk old new next lost.tail mem
    (idx :: next, here :: rest, mem)

/-- `secondary_on_delete`. -/
def secondaryOnDeleteMem (pk oldVal : Bytes) :
    List Index → List Bool → List Index × List Bool
  | [], mem => ([], mem)
  | idx :: next, mem =>
    let (idx, mem) := removeIndexEntryMem idx pk oldVal mem
    let (next, mem) := secondaryOnDeleteMem pk oldVal next mem
    (idx :: next, mem)

/-- `fastkv_ttl_remove`. -/
def ttlRemoveMem (t : Ttl) (key : Bytes) (mem : List Bool) : Ttl × List Bool :=
  match t.expiry key with
  | some oldExpiry =>
    let (ok, mem) := fkvMalloc mem
    (⟨if ok then (btreeDelete t.exp (makeExpKey oldExpiry key)).2 else t.exp,
      (btreeDelete t.key key).2⟩, mem)
  | none => (t, mem)

/-! ## Transactions -/

/-- `sizeof(fastkv_write_entry_t)`: a pointer and two slices. -/
def writeEntrySize : ℕ := 40

/-- `fastkv_txn_mgr_begin`. -/
def txnMgrBeginMem (mgr : TxnMgr) (readOnly : Bool) (mem : List Bool) :
    Except Err (Txn × Arena × TxnMgr) × List Bool :=
  match fkvMalloc mem with
  | (false, mem) => (.error .nomem, mem)
  | (true, mem) =>
    match arenaCreate arenaDefaultBlock mem with
    | (none, mem) => (.error .nomem, mem)
    | (some arena, mem) =>
      let (txn, mgr) := txnMgrBegin mgr readOnly
      (.ok (txn, arena, mgr), mem)

/-- `fastkv_txn_begin`. -/
def txnBeginMem (db : Db) (readOnly : Bool) (mem : List Bool) :
    Except Err (Txn × Arena × Db) × List Bool :=
  if !readOnly && db.opts.readOnly then (.error .txnRo, mem)
  else
    match txnMgrBeginMem db.txnMgr readOnly mem with
    | (.error rc, mem) => (.error rc, mem)
    | (.ok (txn, arena, txnMgr), mem) => (.ok (txn, arena, { db with txnMgr }), mem)

/-- `write_entry_add`. -/
def writeEntryAddMem (txn : Txn) (arena : Arena) (key : Bytes) (value : Slice) (mem : List Bool) :
    Err × Txn × Arena × List Bool :=
  if txn.readOnly then (.txnRo, txn, arena, mem)
  else if txn.state ≠ .active then (.txnClosed, txn, arena, mem)
  else
    match arenaAlloc arena writeEntrySize mem with
    | (none, arena, mem) => (.nomem, txn, arena, mem)
    | (some _, arena, mem) =>
      let (k, arena, mem) := arenaDup arena key mem
      let (v, arena, mem) := match value with
        | some value => arenaDup arena value mem
        | none => (none, arena, mem)
      -- the copy of the value is not checked
      if k = none ∧ key ≠ [] then (.nomem, txn, arena, mem)
      else
        (.ok, { txn with
          writes := ⟨k.getD [], v⟩ :: txn.writes, writeCount := (txn.writeCount + 1) % 2 ^ 32 },
          arena, mem)

/-- `fastkv_txn_put`. -/
def txnPutMem (txn : Txn) (arena : Arena) (key : Bytes) (value : Slice) (mem : List Bool) :
    Err × Txn × Arena × List Bool :=
  if maxKeyLen < key.length then (.keysize, txn, arena, mem)
  else if maxValLen < (value.getD []).length then (.valsize, txn, arena, mem)
  else writeEntryAddMem txn arena key value mem

/-- The in-memory half of the loop body of `fastkv_db_apply_write_set`. -/
def applyEntryMem (db : Db) (lost : Losses) (e : WriteEntry) (commitTs : ℕ) (mem : List Bool) :
    Db × Losses × List Bool :=
  let old := (htGet db.ht (sub64 commitTs 1) e.key).toOption
  -- whether there is a new version is not looked at
  let (_, ht, mem) := htInsertVersionMem db.ht commitTs e.key e.value mem
  match e.value with
  | some value =>
    let t := (btreeInsertMem ⟨db.btree, lost.btree⟩ e.key value mem).2
    let mem := btreeInsertRest ⟨db.btree, lost.btree⟩ e.key value mem
    let (indexes, indexLost, mem) :=
      secondaryOnPutMem e.key old value db.indexes lost.indexes mem
    ({ db with
        ht
        btree := t.toBTree
        statNumKeys := if old.isSome then db.statNumKeys else add64 db.statNumKeys 1
        indexes }, ⟨t.lost, indexLost⟩, mem)
  | none =>
    let (ttl, mem) := ttlRemoveMem db.ttl e.key mem
    let (indexes, mem) := match old with
      | some oldVal => secondaryOnDeleteMem e.key oldVal db.indexes mem
      | none => (db.indexes, mem)
    ({ db with
        ht
        btree := (btreeDelete db.btree e.key).2
        ttl
        statNumKeys := if old.isSome then sub64 db.statNumKeys 1 else db.statNumKeys
        indexes }, lost, mem)

/-- `fastkv_db_apply_write_set`. -/
def dbApplyWriteSetMem (commitTs : ℕ) :
    List WriteEntry → MemWorld → List Bool → Err × MemWorld × List Bool
  | [], w, mem => (.ok, w, mem)
  | e :: next, w, mem =>
    let (rc, logged) := logEntry w.toWorld e commitTs
    if rc = .ok then
      let (db, losses, mem) := applyEntryMem logged.db w.losses e commitTs mem
      dbApplyWriteSetMem commitTs next ⟨⟨db, logged.disk⟩, losses⟩ mem
    else (rc, ⟨logged, w.losses⟩, mem)

/-- `fastkv_txn_mgr_commit`. -/
def txnMgrCommitMem (w : MemWorld) (txn : Txn) (mem : List Bool) : Err × MemWorld × Txn :=
  if txn.state ≠ .active then (.txnClosed, w, txn)
  else if !txn.readOnly && !txn.writes.isEmpty then
    let rc := dbCheckConflicts w.db txn.writes txn.beginTs
    if rc = .ok then
      let (commitTs, oracle) := oracleCommit w.db.txnMgr.oracle
      let drawn := { w.toWorld with db := { w.db with txnMgr := { w.db.txnMgr with oracle } } }
      let txn := { txn with commitTs }
      let (rc, w, _) := dbApplyWriteSetMem commitTs txn.writes ⟨drawn, w.losses⟩ mem
      let (world, closed) := if rc = .ok then w.toWorld.finish txn else w.toWorld.abort txn
      (rc, ⟨world, w.losses⟩, closed)
    else
      let mgr := { w.db.txnMgr with numConflicts := add64 w.db.txnMgr.numConflicts 1 }
      let (world, closed) := { w.toWorld with db := { w.db with txnMgr := mgr } }.abort txn
      (rc, ⟨world, w.losses⟩, closed)
  else
    let (world, closed) := w.toWorld.finish txn
    (.ok, ⟨world, w.losses⟩, closed)

/-- `fastkv_put`, and the writes that it has committed. -/
def fastkvPutMem (w : MemWorld) (key : Bytes) (value : Slice) (mem : List Bool) :
    Err × MemWorld × List WriteEntry :=
  match txnBeginMem w.db false mem with
  | (.error rc, _) => (rc, w, [])
  | (.ok (txn, arena, db), mem) =>
    match txnPutMem txn arena key value mem with
    | (.ok, txn, _, mem) =>
      let (rc, w, closed) := txnMgrCommitMem ⟨{ w.toWorld with db }, w.losses⟩ txn mem
      (rc, w, if rc = .ok then closed.writes else [])
    | (rc, txn, _, _) => (rc, ⟨({ w.toWorld with db }.abort txn).1, w.losses⟩, [])

/-! ## Without failures -/

/-- With memory enough a slice is copied. -/
theorem sliceDupMem_nil (s : Bytes) : sliceDupMem s [] = (sliceDup (some s), []) := by
  cases s <;> rfl

/-- With memory enough a version is inserted. -/
theorem htInsertVersionMem_nil (ht : Ht) (commitTs : ℕ) (key : Bytes) (value : Slice) :
    htInsertVersionMem ht commitTs key value [] =
      (.ok, htInsertVersion ht commitTs key value, []) := by
  unfold htInsertVersionMem
  simp only [fkvMalloc, List.headD_nil, List.tail_nil]
  cases value with
  | none => cases key <;> rfl
  | some value =>
    simp only [sliceDupMem_nil]
    cases key <;> cases value <;> rfl

/-- With memory enough nothing is used up. -/
theorem btreeInsertRest_nil (t : LeakyTree) (key val : Bytes) :
    btreeInsertRest t key val [] = [] := by
  unfold btreeInsertRest
  rw [nodeInsertMem_nil]
  simp only
  split <;> rfl

/-- With memory enough the user function sees the value. -/
theorem indexKeyMem_nil (idx : Index) (pk val : Bytes) :
    indexKeyMem idx pk val [] = (idx.fn pk val, []) := rfl

/-- With memory enough a composite key is made. -/
theorem makeCompositeMem_nil (ik pk : Bytes) :
    makeCompositeMem ik pk [] = (some (makeComposite ik pk), []) := rfl

/-- With memory enough an index entry is removed. -/
theorem removeIndexEntryMem_nil (idx : Index) (pk val : Bytes) :
    removeIndexEntryMem idx pk val [] = (removeIndexEntry idx pk val, []) := by
  unfold removeIndexEntryMem removeIndexEntry
  rw [indexKeyMem_nil]
  cases idx.fn pk val <;> rfl

/-- With memory enough an index entry is added. -/
theorem addIndexEntryMem_nil (idx : Index) (lost : List Node) (pk val : Bytes) :
    addIndexEntryMem idx lost pk val [] = (addIndexEntry idx pk val, lost, []) := by
  unfold addIndexEntryMem addIndexEntry
  rw [indexKeyMem_nil]
  cases idx.fn pk val with
  | none => rfl
  | some ik => simp only [makeCompositeMem_nil, btreeInsertMem_nil, btreeInsertRest_nil]

/-- With memory enough all indexes follow a put. -/
theorem secondaryOnPutMem_nil (pk : Bytes) (old : Option Bytes) (new : Bytes)
    (indexes : List Index) : ∀ lost : List (List Node), ∃ lost',
    secondaryOnPutMem pk old new indexes lost [] =
      (secondaryOnPut indexes pk old new, lost', []) := by
  induction indexes with
  | nil => exact fun lost => ⟨lost, rfl⟩
  | cons idx next ih =>
    intro lost
    obtain ⟨rest, hrest⟩ := ih lost.tail
    refine ⟨lost.headD [] :: rest, ?_⟩
    unfold secondaryOnPutMem
    cases old with
    | none =>
      simp only [addIndexEntryMem_nil, hrest]
      rfl
    | some oldVal =>
      simp only [removeIndexEntryMem_nil, addIndexEntryMem_nil, hrest]
      rfl

/-- With memory enough all indexes follow a deletion. -/
theorem secondaryOnDeleteMem_nil (pk oldVal : Bytes) (indexes : List Index) :
    secondaryOnDeleteMem pk oldVal indexes [] = (secondaryOnDelete indexes pk oldVal, []) := by
  induction indexes with
  | nil => rfl
  | cons idx next ih =>
    unfold secondaryOnDeleteMem
    simp only [removeIndexEntryMem_nil, ih]
    rfl

/-- With memory enough an expiry time is removed. -/
theorem ttlRemoveMem_nil (t : Ttl) (key : Bytes) :
    ttlRemoveMem t key [] = (ttlRemove t key, []) := by
  unfold ttlRemoveMem ttlRemove
  cases t.expiry key <;> rfl

/-- With memory enough a region is found. -/
theorem arenaAlloc_nil (arena : Arena) (size : ℕ) :
    ∃ offset arena', arenaAlloc arena size [] = (some offset, arena', []) := by
  unfold arenaAlloc arenaAllocAligned
  simp only
  by_cases hroom : arena.head.cap < arena.head.offset maxAlign + size
  · rw [if_pos hroom]
    exact ⟨_, _, rfl⟩
  · rw [if_neg hroom]
    exact ⟨_, _, rfl⟩

/-- With memory enough a copy is made. -/
theorem arenaDup_nil (arena : Arena) (buf : Bytes) :
    ∃ arena', arenaDup arena buf [] = (some buf, arena', []) := by
  obtain ⟨offset, arena', halloc⟩ := arenaAlloc_nil arena (buf.length + 1)
  unfold arenaDup
  simp only [halloc]
  exact ⟨arena', rfl⟩

/-- With memory enough a write is added. -/
theorem writeEntryAddMem_nil (txn : Txn) (arena : Arena) (key : Bytes) (value : Slice) :
    ∃ arena', writeEntryAddMem txn arena key value [] =
      ((writeEntryAdd txn key value).1, (writeEntryAdd txn key value).2, arena', []) := by
  unfold writeEntryAddMem writeEntryAdd
  by_cases hro : txn.readOnly = true
  · simp only [if_pos hro]
    exact ⟨arena, rfl⟩
  · simp only [if_neg hro]
    by_cases hactive : txn.state ≠ .active
    · simp only [if_pos hactive]
      exact ⟨arena, rfl⟩
    · obtain ⟨offset, entryArena, hentry⟩ := arenaAlloc_nil arena writeEntrySize
      obtain ⟨keyArena, hkey⟩ := arenaDup_nil entryArena key
      simp only [if_neg hactive, hentry, hkey, reduceCtorEq, false_and, if_false]
      cases value with
      | none => exact ⟨keyArena, rfl⟩
      | some value =>
        obtain ⟨valueArena, hvalue⟩ := arenaDup_nil keyArena value
        simp only [hvalue]
        exact ⟨valueArena, rfl⟩

/-- With memory enough the call checks the sizes and adds the write. -/
theorem txnPutMem_nil (txn : Txn) (arena : Arena) (key : Bytes) (value : Slice) :
    ∃ arena', txnPutMem txn arena key value [] =
      ((txnPut txn key value).1, (txnPut txn key value).2, arena', []) := by
  unfold txnPutMem txnPut
  by_cases hkey : maxKeyLen < key.length
  · simp only [if_pos hkey]
    exact ⟨arena, rfl⟩
  · by_cases hvalue : maxValLen < (value.getD []).length
    · simp only [if_neg hkey, if_pos hvalue]
      exact ⟨arena, rfl⟩
    · simp only [if_neg hkey, if_neg hvalue]
      exact writeEntryAddMem_nil txn arena key value

/-- With memory enough a write is applied. -/
theorem applyEntryMem_nil (db : Db) (lost : Losses) (e : WriteEntry) (commitTs : ℕ) :
    ∃ lost', applyEntryMem db lost e commitTs [] = (applyEntry db e commitTs, lost', []) := by
  unfold applyEntryMem applyEntry
  simp only [htInsertVersionMem_nil]
  cases e.value with
  | none =>
    simp only [ttlRemoveMem_nil]
    cases (htGet db.ht (sub64 commitTs 1) e.key).toOption with
    | none => exact ⟨lost, rfl⟩
    | some oldVal =>
      simp only [secondaryOnDeleteMem_nil]
      exact ⟨lost, rfl⟩
  | some value =>
    obtain ⟨indexLost, hindexes⟩ := secondaryOnPutMem_nil e.key
      (htGet db.ht (sub64 commitTs 1) e.key).toOption value db.indexes lost.indexes
    simp only [btreeInsertMem_nil, btreeInsertRest_nil, hindexes]
    exact ⟨_, rfl⟩

/-- With memory enough a write set is applied. -/
theorem dbApplyWriteSetMem_nil (commitTs : ℕ) (es : List WriteEntry) : ∀ w : MemWorld,
    ∃ losses, dbApplyWriteSetMem commitTs es w [] =
      ((dbApplyWriteSet commitTs es w.toWorld).1,
        ⟨(dbApplyWriteSet commitTs es w.toWorld).2, losses⟩, []) := by
  induction es with
  | nil => exact fun w => ⟨w.losses, rfl⟩
  | cons e es ih =>
    intro w
    unfold dbApplyWriteSetMem dbApplyWriteSet
    simp only
    by_cases hok : (logEntry w.toWorld e commitTs).1 = .ok
    · obtain ⟨lost, happly⟩ :=
        applyEntryMem_nil (logEntry w.toWorld e commitTs).2.db w.losses e commitTs
      simp only [if_pos hok, happly]
      exact ih _
    · simp only [if_neg hok]
      exact ⟨w.losses, rfl⟩

/-- With memory enough a transaction is committed. -/
theorem txnMgrCommitMem_nil (w : MemWorld) (txn : Txn) :
    ∃ losses, txnMgrCommitMem w txn [] = ((txnMgrCommit w.toWorld txn).1,
      ⟨(txnMgrCommit w.toWorld txn).2.1, losses⟩, (txnMgrCommit w.toWorld txn).2.2) := by
  unfold txnMgrCommitMem txnMgrCommit
  by_cases hactive : txn.state ≠ .active
  · simp only [if_pos hactive]
    exact ⟨w.losses, rfl⟩
  · simp only [if_neg hactive]
    by_cases hwrites : (!txn.readOnly && !txn.writes.isEmpty) = true
    · simp only [if_pos hwrites]
      by_cases hconflict : dbCheckConflicts w.db txn.writes txn.beginTs = .ok
      · simp only [if_pos hconflict]
        obtain ⟨losses, happly⟩ := dbApplyWriteSetMem_nil
          (oracleCommit w.db.txnMgr.oracle).1 txn.writes ⟨{ w.toWorld with
            db := { w.db with txnMgr := { w.db.txnMgr with
              oracle := (oracleCommit w.db.txnMgr.oracle).2 } } }, w.losses⟩
        simp only [happly]
        refine ⟨losses, ?_⟩
        split
        · rename_i hok
          rw [hok]
        · rfl
      · simp only [if_neg hconflict]
        exact ⟨w.losses, rfl⟩
    · simp only [if_neg hwrites]
      exact ⟨w.losses, rfl⟩

/-- With memory enough a put is the put of the model without failures. -/
theorem fastkvPutMem_nil (w : MemWorld) (key : Bytes) (value : Slice) :
    (fastkvPutMem w key value []).1 = (fastkvPut w.toWorld key value).1 ∧
      (fastkvPutMem w key value []).2.1.toWorld = (fastkvPut w.toWorld key value).2 := by
  unfold fastkvPutMem fastkvPut singleWrite txnBeginMem txnBegin
  by_cases hro : (!false && w.db.opts.readOnly) = true
  · simp only [if_pos hro, and_self]
  · obtain ⟨arena, hput⟩ := txnPutMem_nil (txnMgrBegin w.db.txnMgr false).1
      ⟨⟨arenaDefaultBlock, 0⟩, [], arenaDefaultBlock, 0⟩ key value
    have hbegin : txnMgrBeginMem w.db.txnMgr false [] = (.ok ((txnMgrBegin w.db.txnMgr false).1,
        ⟨⟨arenaDefaultBlock, 0⟩, [], arenaDefaultBlock, 0⟩,
        (txnMgrBegin w.db.txnMgr false).2), []) := rfl
    simp only [if_neg hro, hbegin, hput]
    cases hrc : (txnPut (txnMgrBegin w.db.txnMgr false).1 key value).1 with
    | ok =>
      obtain ⟨losses, hcommit⟩ := txnMgrCommitMem_nil
        ⟨{ w.toWorld with db := { w.db with txnMgr := (txnMgrBegin w.db.txnMgr false).2 } },
          w.losses⟩ (txnPut (txnMgrBegin w.db.txnMgr false).1 key value).2
      simp only [hcommit, if_true]
      exact ⟨rfl, rfl⟩
    | _ => exact ⟨rfl, rfl⟩

end FastKV
