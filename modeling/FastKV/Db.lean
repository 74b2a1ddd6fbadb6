import FastKV.HashTable
import FastKV.Index
import FastKV.Oracle
import FastKV.Wal

/-!
# Transactions

`txn/txn_manager.c` and the transaction half of `api/kv_api.c`. A transaction collects its
writes in a list, newest first; committing checks them against the hash table, draws a
timestamp and then, entry by entry, appends to the log and changes the in-memory
structures. API calls run one at a time, as they do under the commit lock.
-/

namespace FastKV

/-- `fastkv_txn_state_t`. -/
inductive TxnState
  | active
  | committed
  | aborted
  deriving DecidableEq, Repr

/-- `fastkv_write_entry_t`; the list order stands for the `next` pointers. -/
structure WriteEntry where
  /-- The key. -/
  key : Bytes
  /-- The value; the null slice is a deletion. -/
  value : Slice
  deriving DecidableEq, Repr

/-- `struct fastkv_txn`. -/
structure Txn where
  /-- The timestamp the transaction reads at. -/
  beginTs : ℕ
  /-- The timestamp of its writes, once drawn. -/
  commitTs : ℕ
  /-- Whether the transaction is open. -/
  state : TxnState
  /-- Whether writes are refused. -/
  readOnly : Bool
  /-- The oracle slot, if one was free. -/
  oracleSlot : Option ℕ
  /-- The write set, newest entry first. -/
  writes : List WriteEntry
  /-- Number of entries, a 32-bit counter. -/
  writeCount : ℕ
  deriving DecidableEq

/-- `fastkv_txn_mgr_t`. -/
structure TxnMgr where
  /-- The timestamp oracle. -/
  oracle : Oracle
  /-- Transactions committed. -/
  numCommitted : ℕ
  /-- Transactions aborted. -/
  numAborted : ℕ
  /-- Commits refused because of a conflict. -/
  numConflicts : ℕ
  deriving DecidableEq

/-- `fastkv_txn_mgr_init`. -/
def txnMgrInit : TxnMgr := ⟨oracleInit, 0, 0, 0⟩

/-- The options that `fastkv_open` reads. -/
structure Opts where
  /-- Requested number of buckets, 0 for the default. -/
  mapSize : ℕ
  /-- A larger request overflows when it is rounded up to a power of two, and the
  assertion in `fastkv_ht_create` stops the program. -/
  mapSize_le : mapSize ≤ 2 ^ 63
  /-- Whether every append to the log is synced. -/
  syncWrites : Bool
  /-- Whether the database is opened for reading only. -/
  readOnly : Bool

/-- `struct fastkv_db` without locks, threads and replication. -/
structure Db where
  /-- The options. -/
  opts : Opts
  /-- The transaction manager. -/
  txnMgr : TxnMgr
  /-- The version store. -/
  ht : Ht
  /-- The log handle, absent in a read-only database. -/
  wal : Option Wal
  /-- The ordered index of the newest values. -/
  btree : BTree
  /-- The secondary indexes, newest first. -/
  indexes : List Index
  /-- The expiry trees. -/
  ttl : Ttl
  /-- The timestamp of the loaded snapshot. -/
  snapshotTs : ℕ
  /-- `stat_num_keys`, a 64-bit counter. -/
  statNumKeys : ℕ
  /-- `stat_snapshot_count`, a 64-bit counter. -/
  statSnapshotCount : ℕ

/-- A database and the directory it lives in. -/
structure World where
  /-- The database. -/
  db : Db
  /-- The directory. -/
  disk : Disk

/-! ## The write set -/

/-- `write_entry_add`. -/
def writeEntryAdd (txn : Txn) (key : Bytes) (value : Slice) : Err × Txn :=
  if txn.readOnly then (.txnRo, txn)
  else if txn.state ≠ .active then (.txnClosed, txn)
  else
    (.ok, { txn with
      writes := ⟨key, value⟩ :: txn.writes, writeCount := (txn.writeCount + 1) % 2 ^ 32 })

/-- `fastkv_txn_write_put`. -/
def txnWritePut (txn : Txn) (key : Bytes) (value : Slice) : Err × Txn :=
  writeEntryAdd txn key value

/-- `fastkv_txn_write_delete`. -/
def txnWriteDelete (txn : Txn) (key : Bytes) : Err × Txn := writeEntryAdd txn key none

/-- The walk of `fastkv_txn_write_lookup`. -/
def lookupWrites (key : Bytes) : List WriteEntry → Except Err Bytes
  | [] => .error .notfound
  | e :: next =>
    if e.key = key then
      match e.value with
      | none => .error .notfound
      | some value => .ok value
    else lookupWrites key next

/-- `fastkv_txn_write_lookup`. -/
def txnWriteLookup (txn : Txn) (key : Bytes) : Except Err Bytes := lookupWrites key txn.writes

/-- `fastkv_txn_get`. -/
def txnGet (db : Db) (txn : Txn) (key : Bytes) : Except Err Bytes :=
  if txn.state ≠ .active then .error .txnClosed
  else if maxKeyLen < key.length then .error .keysize
  else
    match txnWriteLookup txn key with
    | .error .notfound => htGet db.ht txn.beginTs key
    | r => r

/-- `fastkv_txn_put`. -/
def txnPut (txn : Txn) (key : Bytes) (value : Slice) : Err × Txn :=
  if maxKeyLen < key.length then (.keysize, txn)
  else if maxValLen < (value.getD []).length then (.valsize, txn)
  else txnWritePut txn key value

/-- `fastkv_txn_delete`. -/
def txnDelete (txn : Txn) (key : Bytes) : Err × Txn :=
  if maxKeyLen < key.length then (.keysize, txn) else txnWriteDelete txn key

/-! ## Begin, commit and abort -/

/-- `fastkv_txn_mgr_begin`. -/
def txnMgrBegin (mgr : TxnMgr) (readOnly : Bool) : Txn × TxnMgr :=
  let (beginTs, slot, oracle) := oracleBegin mgr.oracle
  (⟨beginTs, tsInvalid, .active, readOnly, slot, [], 0⟩, { mgr with oracle })

/-- `fastkv_txn_begin`. -/
def txnBegin (db : Db) (readOnly : Bool) : Except Err (Txn × Db) :=
  if !readOnly && db.opts.readOnly then .error .txnRo
  else
    let (txn, txnMgr) := txnMgrBegin db.txnMgr readOnly
    .ok (txn, { db with txnMgr })

/-- The test of `fastkv_db_check_conflicts` for one key: the first version of the key in
its bucket decides. -/
def conflictsAt (ht : Ht) (beginTs : ℕ) (key : Bytes) : Bool :=
  match (ht.chain key).find? fun v => decide (v.key = key) with
  | some v => decide (beginTs < v.beginTs)
  | none => false

/-- `fastkv_db_check_conflicts`. -/
def dbCheckConflicts (db : Db) (writes : List WriteEntry) (beginTs : ℕ) : Err :=
  if writes.any fun e => conflictsAt db.ht beginTs e.key then .txnConflict else .ok

/-- The log record of a write. -/
def WriteEntry.record (e : WriteEntry) (commitTs : ℕ) : Record :=
  ⟨if e.value.isSome then .put else .delete, commitTs, e.key, e.value⟩

/-- The log append of `fastkv_db_apply_write_set`, when there is a log. -/
def logEntry (w : World) (e : WriteEntry) (commitTs : ℕ) : Err × World :=
  match w.db.wal with
  | none => (.ok, w)
  | some wal =>
    let (rc, log) := walAppend (e.record commitTs) ⟨wal, w.disk⟩
    (rc, ⟨{ w.db with wal := some log.wal }, log.disk⟩)

/-- The in-memory half of the loop body of `fastkv_db_apply_write_set`. -/
def applyEntry (db : Db) (e : WriteEntry) (commitTs : ℕ) : Db :=
  let old := (htGet db.ht (sub64 commitTs 1) e.key).toOption
  match e.value with
  | some value =>
    { db with
      ht := htPut db.ht commitTs e.key (some value)
      btree := btreeInsert db.btree e.key value
      statNumKeys := if old.isSome then db.statNumKeys else add64 db.statNumKeys 1
      indexes := secondaryOnPut db.indexes e.key old value }
  | none =>
    { db with
      ht := htDelete db.ht commitTs e.key
      btree := (btreeDelete db.btree e.key).2
      ttl := ttlRemove db.ttl e.key
      statNumKeys := if old.isSome then sub64 db.statNumKeys 1 else db.statNumKeys
      indexes := match old with
        | some oldVal => secondaryOnDelete db.indexes e.key oldVal
        | none => db.indexes }

/-- `fastkv_db_apply_write_set`: log and apply one entry after the other, up to the first
that cannot be logged. -/
def dbApplyWriteSet (commitTs : ℕ) : List WriteEntry → World → Err × World
  | [], w => (.ok, w)
  | e :: next, w =>
    let (rc, w) := logEntry w e commitTs
    if rc = .ok then dbApplyWriteSet commitTs next { w with db := applyEntry w.db e commitTs }
    else (rc, w)

/-- `fastkv_txn_mgr_abort`. -/
def txnMgrAbort (mgr : TxnMgr) (txn : Txn) : Err × TxnMgr × Txn :=
  if txn.state = .aborted then (.ok, mgr, txn)
  else
    (.ok, { mgr with
        numAborted := add64 mgr.numAborted 1, oracle := oracleRelease mgr.oracle txn.oracleSlot },
      { txn with state := .aborted })

/-- Abort inside a world. -/
def World.abort (w : World) (txn : Txn) : World × Txn :=
  let (_, txnMgr, txn) := txnMgrAbort w.db.txnMgr txn
  ({ w with db := { w.db with txnMgr } }, txn)

/-- The last lines of `fastkv_txn_mgr_commit` on success. -/
def World.finish (w : World) (txn : Txn) : World × Txn :=
  let mgr := w.db.txnMgr
  let txnMgr := { mgr with
    numCommitted := add64 mgr.numCommitted 1, oracle := oracleRelease mgr.oracle txn.oracleSlot }
  ({ w with db := { w.db with txnMgr } }, { txn with state := .committed })

/-- `fastkv_txn_mgr_commit`. -/
def txnMgrCommit (w : World) (txn : Txn) : Err × World × Txn :=
  if txn.state ≠ .active then (.txnClosed, w, txn)
  else if !txn.readOnly && !txn.writes.isEmpty then
    let rc := dbCheckConflicts w.db txn.writes txn.beginTs
    if rc = .ok then
      let (commitTs, oracle) := oracleCommit w.db.txnMgr.oracle
      let w := { w with db := { w.db with txnMgr := { w.db.txnMgr with oracle } } }
      let txn := { txn with commitTs }
      let (rc, w) := dbApplyWriteSet commitTs txn.writes w
      if rc = .ok then (.ok, w.finish txn) else (rc, w.abort txn)
    else
      let mgr := { w.db.txnMgr with numConflicts := add64 w.db.txnMgr.numConflicts 1 }
      (rc, { w with db := { w.db with txnMgr := mgr } }.abort txn)
  else (.ok, w.finish txn)

/-- `fastkv_txn_commit`. -/
def txnCommit (w : World) (txn : Txn) : Err × World × Txn := txnMgrCommit w txn

/-- `fastkv_txn_abort`. -/
def txnAbort (w : World) (txn : Txn) : Err × World × Txn := (.ok, w.abort txn)

/-! ## Single operations -/

/-- `fastkv_get`. -/
def fastkvGet (w : World) (key : Bytes) : Except Err Bytes × World :=
  match txnBegin w.db true with
  | .error rc => (.error rc, w)
  | .ok (txn, db) => (txnGet db txn key, ({ w with db }.abort txn).1)

/-- A single write in a transaction of its own. -/
def singleWrite (w : World) (write : Txn → Err × Txn) : Err × World :=
  match txnBegin w.db false with
  | .error rc => (rc, w)
  | .ok (txn, db) =>
    let w := { w with db }
    let (rc, txn) := write txn
    if rc = .ok then
      let (rc, w, _) := txnCommit w txn
      (rc, w)
    else (rc, (w.abort txn).1)

/-- `fastkv_put`. -/
def fastkvPut (w : World) (key : Bytes) (value : Slice) : Err × World :=
  singleWrite w fun txn => txnPut txn key value

/-- `fastkv_delete`. -/
def fastkvDelete (w : World) (key : Bytes) : Err × World :=
  singleWrite w fun txn => txnDelete txn key

/-- `fastkv_put_ttl` at the wall-clock time `now`. -/
def fastkvPutTtl (w : World) (now : ℕ) (key : Bytes) (value : Slice) (ttlMs : ℕ) : Err × World :=
  let (rc, w) := fastkvPut w key value
  if rc = .ok then (.ok, { w with db := { w.db with ttl := ttlSet w.db.ttl now key ttlMs } })
  else (rc, w)

/-- `fastkv_ttl_expire` at the wall-clock time `now`. -/
def ttlExpire (w : World) (now : ℕ) : World :=
  (expiredKeys w.db.ttl now).foldl (fun w pk =>
    match w.db.ttl.expiry pk with
    | some expiry => if now < expiry then w else (fastkvDelete w pk).2
    | none => w) w

end FastKV
