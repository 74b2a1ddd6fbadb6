import FastKV.Lib.Steps
import FastKV.Runs
import FastKV.StoreRuns

/-!
# All requests of a session

The calls on transactions together with the single operations, keys that expire and secondary
indexes. A request changes the database by a few kinds of moves only: the transaction manager
and the log change, a write set is applied at the clock, garbage is collected, an expiry time
is set, or an index comes or goes. A property that every move keeps holds in every session.
-/

namespace FastKV

open Lib

/-! ## Requests -/

/-- The room for a name in `fastkv_index_t`, with the final zero. -/
def indexNameSize : ℕ := 64

/-- `fastkv_index_create`. -/
def fastkvIndexCreate (db : Db) (name : List Char) (fn : Bytes → Bytes → Option Bytes) : Err × Db :=
  (.ok, { db with indexes := ⟨name.take (indexNameSize - 1), fn, btreeCreate⟩ :: db.indexes })

/-- `fastkv_index_drop`, which drops the newest index of the name. -/
def fastkvIndexDrop (db : Db) (name : List Char) : Err × Db :=
  if db.indexes.any fun idx => decide (idx.name = name.take indexNameSize) then
    (.ok, { db with
      indexes := db.indexes.eraseP fun idx => decide (idx.name = name.take indexNameSize) })
  else (.notfound, db)

/-- What a client can ask for. -/
inductive Request
  /-- A call on a transaction, a collection or a checkpoint. -/
  | action (a : Action)
  /-- `fastkv_put`. -/
  | put (key : Bytes) (value : Slice)
  /-- `fastkv_delete`. -/
  | delete (key : Bytes)
  /-- `fastkv_put_ttl`. -/
  | putTtl (now : ℕ) (key : Bytes) (value : Slice) (ttlMs : ℕ)
  /-- `fastkv_ttl_expire`. -/
  | expire (now : ℕ)
  /-- `fastkv_index_create`. -/
  | indexCreate (name : List Char) (fn : Bytes → Bytes → Option Bytes)
  /-- `fastkv_index_drop`. -/
  | indexDrop (name : List Char)

/-- A database with its open transactions. -/
structure Session where
  /-- Database and directory. -/
  world : World
  /-- The transactions by number; `none` once closed. -/
  txns : List (Option Txn)

/-- The open transaction with the given number. -/
def Session.txn (s : Session) (i : ℕ) : Option Txn := (s.txns[i]?).join

/-- The clock of the database. -/
def Session.clock (s : Session) : ℕ := s.world.db.clock

/-- The session as a system without a record of what has happened. -/
def Session.sys (s : Session) : Sys := ⟨s.world, s.txns, []⟩

/-- The session right after opening a database. -/
def Session.start (w : World) : Session := ⟨w, []⟩

/-- Serve a request. -/
def serve (s : Session) : Request → Err × Session
  | .action a =>
    let (rc, sys) := step s.sys a
    (rc, ⟨sys.world, sys.txns⟩)
  | .put key value =>
    let (rc, world) := fastkvPut s.world key value
    (rc, { s with world })
  | .delete key =>
    let (rc, world) := fastkvDelete s.world key
    (rc, { s with world })
  | .putTtl now key value ttlMs =>
    let (rc, world) := fastkvPutTtl s.world now key value ttlMs
    (rc, { s with world })
  | .expire now => (.ok, { s with world := ttlExpire s.world now })
  | .indexCreate name fn =>
    let (rc, db) := fastkvIndexCreate s.world.db name fn
    (rc, { s with world := { s.world with db } })
  | .indexDrop name =>
    let (rc, db) := fastkvIndexDrop s.world.db name
    (rc, { s with world := { s.world with db } })

/-- The session after a request. -/
def Session.after (s : Session) (r : Request) : Session := (serve s r).2

/-! ## Moves -/

/-- The changes that a condition can be put on. -/
inductive Change
  /-- A write set, or the beginning of one, is applied. -/
  | write (es : List WriteEntry)
  /-- A key gets an expiry time. -/
  | expiry (key : Bytes)
  /-- An index is created for a function. -/
  | index (fn : Bytes → Bytes → Option Bytes)

/-- One move of the database, under a condition `P` on the changes. -/
inductive Db.Move (P : Db → Change → Prop) (db : Db) : Db → Prop
  /-- The transaction manager and the log. -/
  | manage (txnMgr : TxnMgr) (wal : Option Wal) (statSnapshotCount : ℕ)
      (clock : db.clock ≤ txnMgr.oracle.clock) :
      Move P db { db with txnMgr, wal, statSnapshotCount }
  /-- A write set, or the beginning of one, is applied at the clock. -/
  | write (es : List WriteEntry) (txnMgr : TxnMgr) (wal : Option Wal)
      (room : db.clock + 1 < tsMax) (clock : txnMgr.oracle.clock = db.clock + 1)
      (cond : P db (.write es)) :
      Move P db { applyEntries db.clock es db with txnMgr, wal }
  /-- Garbage is collected. -/
  | collect (minActiveTs : ℕ) (spares : minActiveTs ≤ tsMax) :
      Move P db { db with ht := (htGc db.ht minActiveTs).2 }
  /-- A key gets an expiry time. -/
  | expiry (now : ℕ) (key : Bytes) (ttlMs : ℕ) (cond : P db (.expiry key)) :
      Move P db { db with ttl := ttlSet db.ttl now key ttlMs }
  /-- An index is created. -/
  | indexCreate (name : List Char) (fn : Bytes → Bytes → Option Bytes) (cond : P db (.index fn)) :
      Move P db (fastkvIndexCreate db name fn).2
  /-- An index is dropped. -/
  | indexDrop (name : List Char) : Move P db (fastkvIndexDrop db name).2

/-- Any number of changes. -/
abbrev Db.Moves (P : Db → Change → Prop) : Db → Db → Prop :=
  Relation.ReflTransGen (Db.Move P)

section Moves

variable {P : Db → Change → Prop} {w : World}

/-- A property that every move keeps. -/
theorem Db.Moves.invariant {I : Db → Prop} {db db' : Db} (h : Db.Moves P db db')
    (hmove : ∀ db db', Db.Move P db db' → I db → I db') (hI : I db) : I db' := by
  induction h with
  | refl => exact hI
  | tail _ hlast ih => exact hmove _ _ hlast ih

/-- A move of the transaction manager. -/
theorem Db.Moves.manager (db : Db) (mgr : TxnMgr) (hclock : db.clock ≤ mgr.oracle.clock) :
    Db.Moves P db { db with txnMgr := mgr } :=
  .single (.manage mgr db.wal db.statSnapshotCount hclock)

/-- Beginning a transaction. -/
theorem txnBegin_moves {db db' : Db} {readOnly : Bool} {txn : Txn} (hclock : db.clock + 1 < tsMax)
    (h : txnBegin db readOnly = .ok (txn, db')) : Db.Moves P db db' := by
  have hle := (txnBegin_evolves hclock h).clock_le
  unfold txnBegin at h
  split at h
  · cases h
  · simp only [Except.ok.injEq, Prod.mk.injEq] at h
    rw [← h.2] at hle ⊢
    exact .manager _ _ hle

/-- Aborting a transaction. -/
theorem World.abort_moves (w : World) (txn : Txn) : Db.Moves P w.db (w.abort txn).1.db := by
  obtain ⟨-, -, hclock, -, -⟩ := w.abort_db txn
  exact .manager w.db _ (le_of_eq hclock.symm)

/-- The database that a commit leaves. -/
theorem Applies.db_eq {txn : Txn} (h : Applies w txn) (hclock : w.db.clock + 1 < tsMax) :
    ∃ k wal mgr, mgr.oracle.clock = w.db.clock + 1 ∧
      ((txnCommit w txn).1 = .ok → txn.writes.take k = txn.writes) ∧
      (txnCommit w txn).2.1.db =
        { applyEntries w.db.clock (txn.writes.take k) w.db with txnMgr := mgr, wal } := by
  obtain ⟨hrc, -, mgr, hmgr, heq⟩ := h.txnCommit_eq
  obtain ⟨k, wal, hdb, hall⟩ := dbApplyWriteSet_cases w.db.clock txn.writes w.drawn
  refine ⟨k, wal, mgr, ?_, fun hok => hall (hrc.symm.trans hok), ?_⟩
  · rw [hmgr, hdb, ← World.drawn_clock hclock]
    simp only [Db.clock, applyEntries_txnMgr]
  · have hdrawn := applyEntries_mgr w.db.clock (txn.writes.take k) w.db w.drawn.db.txnMgr
    rw [heq]
    show ({ (dbApplyWriteSet w.db.clock txn.writes w.drawn).2.db with txnMgr := mgr } : Db) = _
    rw [hdb, show w.drawn.db = { w.db with txnMgr := w.drawn.db.txnMgr } from rfl, hdrawn]

/-- A commit applies its write set, the beginning of it, or nothing. -/
theorem txnCommit_moves {txn : Txn} (hclock : w.db.clock + 1 < tsMax)
    (hP : Applies w txn → ∀ es, es ≠ [] → es <+: txn.writes →
      ((txnCommit w txn).1 = .ok → es = txn.writes) → P w.db (.write es)) :
    Db.Moves P w.db (txnCommit w txn).2.1.db := by
  rcases txnCommit_cases w txn with ⟨-, mgr, hmgr, heq⟩ | ⟨happlies, -⟩
  · rw [heq]
    exact .manager _ mgr (le_of_eq hmgr.symm)
  · obtain ⟨k, wal, mgr, hmgr, hall, hdb⟩ := happlies.db_eq hclock
    rw [hdb]
    by_cases hnil : txn.writes.take k = []
    · rw [hnil]
      exact .single (.manage mgr wal w.db.statSnapshotCount (by omega))
    · exact .single (.write _ mgr wal hclock hmgr
        (hP happlies _ hnil (List.take_prefix _ _) hall))

/-- The part of a single write that is applied. -/
theorem eq_singleton_of_first {e : WriteEntry} {es : List WriteEntry} (hne : es ≠ [])
    (h : es <+: [e]) : es = [e] := by
  rcases List.prefix_cons_iff.mp h with rfl | ⟨t, rfl, ht⟩
  · exact absurd rfl hne
  · rw [List.prefix_nil.mp ht]

/-- A single write applies one entry, or nothing. -/
theorem singleWrite_moves {write : Txn → Err × Txn} {e : WriteEntry}
    (hclock : w.db.clock + 2 < tsMax)
    (hwrite : ∀ txn, txn.writes = [] → (write txn).1 = .ok → (write txn).2.writes = [e])
    (hP : (∃ txn, (write txn).1 = .ok) → ∀ mgr, P { w.db with txnMgr := mgr } (.write [e])) :
    Db.Moves P w.db (singleWrite w write).2.db := by
  unfold singleWrite
  split
  · exact .refl
  · rename_i txn db hbegin
    have hfirst : Db.Moves P w.db db := txnBegin_moves (by omega) hbegin
    have hle := (txnBegin_evolves (by omega) hbegin).clock_le_add
    obtain ⟨-, -, hwrites, -⟩ := txnBegin_spec hbegin
    have hdb : db = { w.db with txnMgr := db.txnMgr } := by
      unfold txnBegin at hbegin
      split at hbegin
      · cases hbegin
      · simp only [Except.ok.injEq, Prod.mk.injEq] at hbegin
        rw [← hbegin.2]
    simp only
    split
    · rename_i hok
      refine hfirst.trans
        (txnCommit_moves (w := { w with db }) (by show db.clock + 1 < _; omega) ?_)
      intro _ es hne hes _
      rw [hwrite txn hwrites hok] at hes
      rw [eq_singleton_of_first hne hes]
      show P db (.write [e])
      rw [hdb]
      exact hP ⟨txn, hok⟩ _
    · exact hfirst.trans (World.abort_moves { w with db } _)

/-- The write set of a single entry. -/
theorem writeEntryAdd_writes {txn : Txn} {key : Bytes} {value : Slice} (hwrites : txn.writes = [])
    (hok : (writeEntryAdd txn key value).1 = .ok) :
    (writeEntryAdd txn key value).2.writes = [⟨key, value⟩] := by
  unfold writeEntryAdd at hok ⊢
  split at hok
  · cases hok
  · rename_i hro
    split at hok
    · cases hok
    · rename_i hstate
      rw [if_neg hro, if_neg hstate, hwrites]

/-- A put that is accepted has permitted sizes and adds an entry. -/
theorem txnPut_ok {txn : Txn} {key : Bytes} {value : Slice} (hok : (txnPut txn key value).1 = .ok) :
    WriteEntry.Permitted ⟨key, value⟩ ∧ txnPut txn key value = writeEntryAdd txn key value := by
  unfold txnPut at hok ⊢
  split at hok
  · cases hok
  · rename_i hkey
    split at hok
    · cases hok
    · rename_i hval
      rw [if_neg hkey, if_neg hval]
      refine ⟨⟨by show key.length ≤ _; omega, fun v hv => ?_⟩, rfl⟩
      have hv' : value = some v := hv
      rw [hv', Option.getD_some] at hval
      omega

/-- A deletion that is accepted has a key of permitted size and adds an entry. -/
theorem txnDelete_ok {txn : Txn} {key : Bytes} (hok : (txnDelete txn key).1 = .ok) :
    key.length ≤ maxKeyLen ∧ txnDelete txn key = writeEntryAdd txn key none := by
  unfold txnDelete at hok ⊢
  split at hok
  · cases hok
  · rename_i hkey
    rw [if_neg hkey]
    exact ⟨by omega, rfl⟩

/-- `fastkv_put` applies one put, or nothing. -/
theorem fastkvPut_moves {key : Bytes} {value : Slice} (hclock : w.db.clock + 2 < tsMax)
    (hP : WriteEntry.Permitted ⟨key, value⟩ →
      ∀ mgr, P { w.db with txnMgr := mgr } (.write [⟨key, value⟩])) :
    Db.Moves P w.db (fastkvPut w key value).2.db := by
  refine singleWrite_moves (e := ⟨key, value⟩) hclock (fun txn hwrites hok => ?_) ?_
  · have heq := (txnPut_ok hok).2
    rw [heq] at hok ⊢
    exact writeEntryAdd_writes hwrites hok
  · rintro ⟨txn, hok⟩
    exact hP (txnPut_ok hok).1

/-- `fastkv_delete` applies one deletion, or nothing. -/
theorem fastkvDelete_moves {key : Bytes} (hclock : w.db.clock + 2 < tsMax)
    (hP : key.length ≤ maxKeyLen → ∀ mgr, P { w.db with txnMgr := mgr } (.write [⟨key, none⟩])) :
    Db.Moves P w.db (fastkvDelete w key).2.db := by
  refine singleWrite_moves (e := ⟨key, none⟩) hclock (fun txn hwrites hok => ?_) ?_
  · have heq := (txnDelete_ok hok).2
    rw [heq] at hok ⊢
    exact writeEntryAdd_writes hwrites hok
  · rintro ⟨txn, hok⟩
    exact hP (txnDelete_ok hok).1

end Moves

/-! ## What requests do -/

/-- An expiry pass collects a bounded number of keys. -/
theorem length_expiredKeys (t : Ttl) (now : ℕ) : (expiredKeys t now).length ≤ expireBatch := by
  refine BTree.btreeScan_invariant (I := fun keys : List Bytes => keys.length ≤ expireBatch)
    t.exp none none .forward (fun keys expKey val h => ?_) (Nat.zero_le _)
  unfold collectExpired
  split
  · exact h
  · split
    · exact h
    · split
      · rename_i hfew
        rw [List.length_append, List.length_singleton]
        omega
      · exact h

/-- The number of timestamps that a request draws at most. -/
def drawsMax : ℕ := 2 * expireBatch

section Requests

variable {P : Db → Change → Prop} {w : World}

/-- Expiry deletes keys one at a time. -/
theorem ttlExpire_moves {now : ℕ} (hclock : w.db.clock + drawsMax < tsMax)
    (hP : ∀ db key, key.length ≤ maxKeyLen → P db (.write [⟨key, none⟩])) :
    Db.Moves P w.db (ttlExpire w now).db := by
  have hrun : Db.Moves P w.db (ttlExpire w now).db ∧
      (ttlExpire w now).db.clock + 2 * ([] : List Bytes).length < tsMax := by
    apply ttlExpire_induction (P := fun keys w' => Db.Moves P w.db w'.db ∧
      w'.db.clock + 2 * keys.length < tsMax)
    · rintro pk keys w' ⟨hmoves, hroom⟩
      rw [List.length_cons] at hroom
      exact ⟨hmoves, by omega⟩
    · rintro pk keys w' ⟨hmoves, hroom⟩ -
      rw [List.length_cons] at hroom
      have hle : (fastkvDelete w' pk).2.db.clock ≤ w'.db.clock + 2 :=
        (singleWrite_evolves (by omega) _).clock_le_add
      exact ⟨hmoves.trans (fastkvDelete_moves (by omega) fun hkey mgr => hP _ pk hkey), by omega⟩
    · have hlength := length_expiredKeys w.db.ttl now
      unfold drawsMax at hclock
      exact ⟨.refl, by omega⟩
  exact hrun.1

/-- Expiry draws a bounded number of timestamps. -/
theorem ttlExpire_clock {now : ℕ} (hclock : w.db.clock + drawsMax < tsMax) :
    w.db.clock ≤ (ttlExpire w now).db.clock ∧
      (ttlExpire w now).db.clock ≤ w.db.clock + drawsMax := by
  have hlength := length_expiredKeys w.db.ttl now
  unfold drawsMax at hclock ⊢
  have h : w.db.Evolves (2 * (expiredKeys w.db.ttl now).length) (ttlExpire w now).db :=
    ttlExpire_evolves (by omega)
  have hle := h.clock_le_add
  exact ⟨h.clock_le, by omega⟩

/-- A checkpoint changes the log, deletes keys that have expired and collects garbage. -/
theorem fastkvCheckpoint_moves {now : ℕ} (hclock : w.db.clock + drawsMax < tsMax)
    (snapId segId : Uuid) (hP : ∀ db key, key.length ≤ maxKeyLen → P db (.write [⟨key, none⟩])) :
    Db.Moves P w.db (fastkvCheckpoint w snapId segId now).2.db := by
  rcases fastkvCheckpoint_cases w snapId segId now with ⟨wal, heq⟩ | ⟨-, wal, disk, heq⟩
  · rw [heq]
    exact .single (.manage w.db.txnMgr wal w.db.statSnapshotCount (Nat.le_refl _))
  · rw [heq]
    have hlog : Db.Moves P w.db { w.db with wal := some wal } :=
      .single (.manage w.db.txnMgr (some wal) w.db.statSnapshotCount (Nat.le_refl _))
    have hexpire : Db.Moves P { w.db with wal := some wal }
        (ttlExpire ⟨{ w.db with wal := some wal }, disk⟩ now).db :=
      ttlExpire_moves (w := ⟨{ w.db with wal := some wal }, disk⟩) hclock hP
    have hle' : (ttlExpire ⟨{ w.db with wal := some wal }, disk⟩ now).db.clock ≤
        w.db.clock + drawsMax :=
      (ttlExpire_clock (w := ⟨{ w.db with wal := some wal }, disk⟩) hclock).2
    have hmin := oracleMinActive_le
      (ttlExpire ⟨{ w.db with wal := some wal }, disk⟩ now).db.txnMgr.oracle
    have hcollect := (hlog.trans hexpire).tail
      (.collect _ (hmin.trans (by unfold Db.clock at hle' hclock; omega)))
    exact hcollect.tail (.manage _ _ _ (Nat.le_refl _))

/-- An action on the system. Of a commit the condition is asked for what it applies, which is
the whole write set if the commit succeeds. -/
theorem step_moves {s : Sys} {a : Action} (hclock : s.clock + drawsMax < tsMax)
    (hdelete : ∀ db key, key.length ≤ maxKeyLen → P db (.write [⟨key, none⟩]))
    (hcommit : ∀ i txn, a = .call (.commit i) → s.txn i = some txn → Applies s.world txn →
      ∀ es, es ≠ [] → es <+: txn.writes → ((step s a).1 = .ok → es = txn.writes) →
      P s.world.db (.write es)) : Db.Moves P s.world.db (step s a).2.world.db := by
  have hroom : s.world.db.clock + 1 < tsMax := by
    unfold Sys.clock drawsMax expireBatch at hclock
    omega
  cases a with
  | gc =>
    have hmin := oracleMinActive_le s.world.db.txnMgr.oracle
    exact .single (.collect _ (hmin.trans (by unfold Db.clock at hroom; omega)))
  | checkpoint snapId segId now => exact fastkvCheckpoint_moves hclock snapId segId hdelete
  | call c =>
    change Db.Moves P s.world.db (callStep s c).2.world.db
    rcases callStep_cases s c with ⟨hworld, -⟩ | ⟨readOnly, txn, db, -, hbegin, hworld, -⟩ |
      ⟨i, txn, rfl, hopen, heq⟩ | ⟨i, txn, -, -, hworld, -⟩
    · rw [hworld]
    · rw [hworld]
      exact txnBegin_moves hroom hbegin
    · have hcases := hcommit i txn rfl hopen
      simp only [step, heq] at hcases ⊢
      exact txnCommit_moves hroom hcases
    · rw [hworld]
      exact World.abort_moves s.world txn

/-- The entry that a request writes in a transaction of its own. -/
def Request.entry : Request → Option WriteEntry
  | .put key value => some ⟨key, value⟩
  | .delete key => some ⟨key, none⟩
  | .putTtl _ key value _ => some ⟨key, value⟩
  | _ => none

/-- Every change that a request makes meets the condition. -/
structure Request.Meets (P : Db → Change → Prop) (s : Session) (r : Request) : Prop where
  /-- What a commit applies: all writes if it succeeds, else the first ones. -/
  commit : ∀ i txn, r = .action (.call (.commit i)) → s.txn i = some txn → Applies s.world txn →
    ∀ es, es ≠ [] → es <+: txn.writes → ((serve s r).1 = .ok → es = txn.writes) →
    P s.world.db (.write es)
  /-- A single operation. -/
  single : ∀ e, r.entry = some e → e.Permitted → ∀ mgr,
    P { s.world.db with txnMgr := mgr } (.write [e])
  /-- An expiry time. -/
  expiry : ∀ now key value ttlMs, r = .putTtl now key value ttlMs → ∀ db, P db (.expiry key)
  /-- An index. -/
  index : ∀ name fn, r = .indexCreate name fn → P s.world.db (.index fn)

/-- What a request does to the database. -/
theorem serve_moves {s : Session} {r : Request} (hclock : s.clock + drawsMax < tsMax)
    (hdelete : ∀ db key, key.length ≤ maxKeyLen → P db (.write [⟨key, none⟩])) (h : r.Meets P s) :
    Db.Moves P s.world.db (s.after r).world.db := by
  have hroom : s.world.db.clock + 2 < tsMax := by
    unfold Session.clock drawsMax expireBatch at hclock
    omega
  cases r with
  | action a =>
    refine step_moves (s := s.sys) hclock hdelete fun i txn ha hopen happlies es hne hes hok => ?_
    exact h.commit i txn (congrArg _ ha) hopen happlies es hne hes hok
  | put key value => exact fastkvPut_moves hroom fun hfit => h.single _ rfl hfit
  | delete key => exact fastkvDelete_moves hroom fun hfit mgr => hdelete _ key hfit
  | putTtl now key value ttlMs =>
    have hput : Db.Moves P s.world.db (fastkvPut s.world key value).2.db :=
      fastkvPut_moves hroom fun hfit => h.single _ rfl hfit
    show Db.Moves P s.world.db (fastkvPutTtl s.world now key value ttlMs).2.db
    unfold fastkvPutTtl
    simp only
    split
    · exact hput.tail (.expiry now key ttlMs (h.expiry now key value ttlMs rfl _))
    · exact hput
  | expire now => exact ttlExpire_moves hclock hdelete
  | indexCreate name fn => exact .single (.indexCreate name fn (h.index name fn rfl))
  | indexDrop name => exact .single (.indexDrop name)

end Requests

/-! ## Sessions -/

/-- A condition that excludes nothing. -/
theorem Request.Meets.trivially (s : Session) (r : Request) : r.Meets (fun _ _ => True) s :=
  ⟨fun _ _ _ _ _ _ _ _ _ => trivial, fun _ _ _ _ => trivial, fun _ _ _ _ _ _ => trivial,
    fun _ _ _ => trivial⟩

/-- A move does not set the clock back. -/
theorem Db.Move.clock_le {P : Db → Change → Prop} {db db' : Db} (h : Db.Move P db db') :
    db.clock ≤ db'.clock := by
  cases h with
  | manage txnMgr wal n hclock => exact hclock
  | write es txnMgr wal hroom hclock _ =>
    show db.clock ≤ txnMgr.oracle.clock
    omega
  | collect | expiry | indexCreate => exact Nat.le_refl _
  | indexDrop name =>
    unfold fastkvIndexDrop
    split <;> exact Nat.le_refl _

/-- No request sets the clock back. -/
theorem Session.clock_le_after {s : Session} (hclock : s.clock + drawsMax < tsMax) (r : Request) :
    s.clock ≤ (s.after r).clock :=
  (serve_moves hclock (fun _ _ _ => trivial) (Request.Meets.trivially s r)).invariant
    (I := fun db => s.clock ≤ db.clock) (fun _ _ hmove h => h.trans hmove.clock_le) (Nat.le_refl _)

/-- A single write draws at most two timestamps. -/
theorem singleWrite_clock {w : World} (hclock : w.db.clock + drawsMax < tsMax)
    (write : Txn → Err × Txn) : (singleWrite w write).2.db.clock ≤ w.db.clock + drawsMax := by
  unfold drawsMax expireBatch at hclock ⊢
  have hle := (singleWrite_evolves (w := w) (by omega) write).clock_le_add
  omega

/-- A request draws a bounded number of timestamps. -/
theorem Session.clock_after {s : Session} (hclock : s.clock + drawsMax < tsMax) (r : Request) :
    (s.after r).clock ≤ s.clock + drawsMax := by
  have hroom : s.world.db.clock + 1 < tsMax := by
    unfold Session.clock drawsMax expireBatch at hclock
    omega
  have hone : ∀ {db : Db}, s.world.db.Evolves 1 db → db.clock ≤ s.clock + drawsMax := by
    intro db h
    have hle := h.clock_le_add
    unfold Session.clock drawsMax expireBatch
    omega
  cases r with
  | action a =>
    cases a with
    | gc => exact hone (s.world.gc_evolves.trans (n := 1) (.of_eq rfl rfl))
    | checkpoint snapId segId now =>
      have hlength := length_expiredKeys s.world.db.ttl now
      unfold Session.clock drawsMax at hclock
      show (fastkvCheckpoint s.world snapId segId now).2.db.clock ≤ s.world.db.clock + drawsMax
      have hevolves : s.world.db.Evolves (2 * (expiredKeys s.world.db.ttl now).length)
          (fastkvCheckpoint s.world snapId segId now).2.db :=
        fastkvCheckpoint_evolves (by omega) snapId segId
      have hle := hevolves.clock_le_add
      unfold drawsMax
      omega
    | call c =>
      change (callStep s.sys c).2.world.db.clock ≤ _
      rcases callStep_cases s.sys c with ⟨hworld, -⟩ | ⟨readOnly, txn, db, -, hbegin, hworld, -⟩ |
        ⟨i, txn, -, -, heq⟩ | ⟨i, txn, -, -, hworld, -⟩
      · rw [hworld]
        exact hone (.of_eq rfl rfl)
      · rw [hworld]
        exact hone (txnBegin_evolves hroom hbegin)
      · rw [heq]
        exact hone (txnCommit_evolves hroom txn)
      · rw [hworld]
        exact hone (World.abort_evolves s.world txn)
  | put key value => exact singleWrite_clock hclock _
  | delete key => exact singleWrite_clock hclock _
  | putTtl now key value ttlMs =>
    have hput : (fastkvPut s.world key value).2.db.clock ≤ _ := singleWrite_clock hclock _
    show (fastkvPutTtl s.world now key value ttlMs).2.db.clock ≤ s.world.db.clock + drawsMax
    unfold fastkvPutTtl
    simp only
    split <;> exact hput
  | expire now => exact (ttlExpire_clock hclock).2
  | indexCreate name fn => exact hone (.of_eq rfl rfl)
  | indexDrop name =>
    show (fastkvIndexDrop s.world.db name).2.clock ≤ _
    unfold fastkvIndexDrop
    split <;> exact hone (.of_eq rfl rfl)

/-- The open transactions of a session are as the engine made them. -/
def Session.TxnsOk (s : Session) : Prop := ∀ i txn, s.txn i = some txn → txn.Ok s.clock

/-- Requests keep them so. -/
theorem Session.TxnsOk.after {s : Session} (h : s.TxnsOk) (hclock : s.clock + drawsMax < tsMax)
    (r : Request) : (s.after r).TxnsOk := by
  have hle := Session.clock_le_after hclock r
  have hsame : (s.after r).txns = s.txns → (s.after r).TxnsOk := by
    intro htxns i txn hopen
    have hok := h i txn (by unfold Session.txn at hopen ⊢; rwa [htxns] at hopen)
    exact ⟨hok.active, hok.begun.trans_le hle, hok.readOnly, hok.permitted⟩
  cases r with
  | action a =>
    intro i txn hopen
    rcases step_txns s.sys a hopen with ⟨txn₀, hopen₀, hext⟩ | ⟨hactive, hts, hwrites, hnext⟩
    · have hok := h i txn₀ hopen₀
      refine ⟨hext.state.trans hok.active, ?_, fun hro => ?_, hext.permitted hok.permitted⟩
      · rw [hext.beginTs]
        exact hok.begun.trans_le hle
      · rw [hext.readOnly] at hro
        rw [hext.writes hro]
        exact hok.readOnly hro
    · refine ⟨hactive, ?_, fun _ => hwrites, by simp [hwrites]⟩
      have hstep : (s.after (.action a)).clock = s.clock + 1 := by
        unfold Session.clock drawsMax expireBatch tsMax at hclock
        exact hnext.trans (add64_eq (by show s.world.db.clock + 1 < _; omega))
      rw [hts, hstep]
      exact Nat.lt_succ_self _
  | put | delete | expire | indexCreate | indexDrop => exact hsame rfl
  | putTtl now key value ttlMs => exact hsame rfl

/-- A commit that returns success has applied the writes, if there are any. -/
theorem Session.TxnsOk.applies {s : Session} (h : s.TxnsOk) {i : ℕ} {txn : Txn}
    (hopen : s.txn i = some txn) (hne : txn.writes ≠ [])
    (hok : (serve s (.action (.call (.commit i)))).1 = .ok) : Applies s.world txn := by
  have hsys : s.sys.txn i = some txn := hopen
  simp only [serve, step, callStep, hsys, Sys.commit] at hok
  rcases txnCommit_cases s.world txn with ⟨hrefusal, -⟩ | ⟨happlies, -⟩
  · rw [show (txnCommit s.world txn).1 = .ok from hok] at hrefusal
    cases hrefusal with
    | nothing _ hnothing => exact absurd (hnothing.elim (h i txn hopen).readOnly id) hne
  · exact happlies

/-- An entry of an open transaction was there before or comes from this request. -/
theorem Session.mem_writes_after {s : Session} {r : Request} {i : ℕ} {txn : Txn} {e : WriteEntry}
    (hopen : (s.after r).txn i = some txn) (he : e ∈ txn.writes) :
    (∃ txn₀, s.txn i = some txn₀ ∧ e ∈ txn₀.writes) ∨
      r = .action (.call (.put i e.key e.value)) ∨
      (r = .action (.call (.delete i e.key)) ∧ e.value = none) := by
  have hadd : ∀ (txn₀ : Txn) (key : Bytes) (value : Slice),
      e ∈ (writeEntryAdd txn₀ key value).2.writes → e ∈ txn₀.writes ∨ e = ⟨key, value⟩ := by
    intro txn₀ key value h
    unfold writeEntryAdd at h
    split at h
    · exact Or.inl h
    · split at h
      · exact Or.inl h
      · exact (List.mem_cons.mp h).symm
  cases r with
  | action a =>
    rcases step_txn_cases s.sys a hopen with hsame | ⟨key, value, txn₀, rfl, hopen₀, rfl⟩ |
      ⟨key, txn₀, rfl, hopen₀, rfl⟩ | ⟨readOnly, db, -, hbegin⟩
    · exact Or.inl ⟨txn, hsame, he⟩
    · unfold txnPut at he
      split at he
      · exact Or.inl ⟨txn₀, hopen₀, he⟩
      · split at he
        · exact Or.inl ⟨txn₀, hopen₀, he⟩
        · rcases hadd txn₀ key value he with hold | rfl
          · exact Or.inl ⟨txn₀, hopen₀, hold⟩
          · exact Or.inr (Or.inl rfl)
    · unfold txnDelete at he
      split at he
      · exact Or.inl ⟨txn₀, hopen₀, he⟩
      · rcases hadd txn₀ key none he with hold | rfl
        · exact Or.inl ⟨txn₀, hopen₀, hold⟩
        · exact Or.inr (Or.inr ⟨rfl, rfl⟩)
    · obtain ⟨-, -, hwrites, -⟩ := txnBegin_spec hbegin
      rw [hwrites] at he
      cases he
  | put | delete | putTtl | expire | indexCreate | indexDrop => exact Or.inl ⟨txn, hopen, he⟩

/-- The state of a session after requests. -/
def session (s : Session) (rs : List Request) : Session := exec Session.after s rs

/-- A property of the database that every move keeps holds in every session whose requests
meet the condition, as long as the clock does not run out. -/
theorem session_invariant {P : Db → Change → Prop} {Q : Session → Request → Prop}
    {I : Db → Prop} (hdelete : ∀ db key, key.length ≤ maxKeyLen → P db (.write [⟨key, none⟩]))
    (hmeets : ∀ s r, s.clock + drawsMax < tsMax → s.TxnsOk → I s.world.db → Q s r → r.Meets P s)
    (hmove : ∀ db db', Db.Move P db db' → I db → I db') {s : Session} {rs : List Request}
    (htxns : s.TxnsOk) (hI : I s.world.db) (hclock : s.clock + drawsMax * rs.length < tsMax)
    (hQ : Permitted Session.after Q s rs) :
    I (session s rs).world.db ∧ (session s rs).TxnsOk ∧
      (session s rs).clock ≤ s.clock + drawsMax * rs.length := by
  have hrun := exec_induction_of_growth (I := fun s : Session => I s.world.db ∧ s.TxnsOk)
    Session.clock drawsMax
    (fun s r _ hroom => Session.clock_after hroom r)
    (fun s r h hroom hq => ⟨(serve_moves hroom hdelete
      (hmeets s r hroom h.2 h.1 hq)).invariant hmove h.1, h.2.after hroom r⟩)
    rs ⟨hI, htxns⟩ hclock hQ
  exact ⟨hrun.1.1, hrun.1.2, hrun.2⟩

/-! ## The stores in a session -/

/-- What holds for the stores of every database. -/
structure Db.Sound (db : Db) : Prop where
  /-- Some timestamp has been drawn. -/
  clock_pos : 0 < db.clock
  /-- Versions are older than the clock. -/
  bounded : db.ht.Bounded db.clock
  /-- No key has two live versions. -/
  oneLive : db.ht.OneLive
  /-- No value is empty. -/
  noEmpty : db.ht.NoEmpty
  /-- The tree is in order. -/
  wellFormed : db.btree.WellFormed
  /-- Its leaves are linked. -/
  linked : db.btree.Linked

/-- Applying writes keeps the tree in order. -/
theorem applyEntries_btree (commitTs : ℕ) (es : List WriteEntry) : ∀ {db : Db},
    db.btree.WellFormed → db.btree.Linked →
    (applyEntries commitTs es db).btree.WellFormed ∧
      (applyEntries commitTs es db).btree.Linked := by
  induction es with
  | nil => exact fun hwf hlinked => ⟨hwf, hlinked⟩
  | cons e es ih =>
    intro db hwf hlinked
    have hfirst : (applyEntry db e commitTs).btree.WellFormed ∧
        (applyEntry db e commitTs).btree.Linked := by
      unfold applyEntry
      cases e.value with
      | some value => exact ⟨(btreeInsert_spec hwf _ _).1, hlinked.insert hwf _ _⟩
      | none => exact ⟨(btreeDelete_spec hwf _).1, hlinked.delete _⟩
    exact ih hfirst.1 hfirst.2

/-- Every move keeps it. -/
theorem Db.Sound.move {P : Db → Change → Prop} {db db' : Db} (h : db.Sound)
    (hmove : Db.Move P db db') : db'.Sound := by
  have hpos := h.clock_pos
  cases hmove with
  | manage txnMgr wal n hclock =>
    exact ⟨hpos.trans_le hclock, h.bounded.mono hclock, h.oneLive, h.noEmpty, h.wellFormed,
      h.linked⟩
  | write es txnMgr wal hroom hclock _ =>
    have hclock' : ({ applyEntries db.clock es db with txnMgr, wal } : Db).clock = db.clock + 1 :=
      hclock
    obtain ⟨hwf, hlinked⟩ := applyEntries_btree db.clock es h.wellFormed h.linked
    refine ⟨by rw [hclock']; omega, ?_, ?_, ?_, hwf, hlinked⟩
    · rw [hclock']
      show (applyEntries db.clock es db).ht.Bounded _
      rw [applyEntries_ht]
      exact (h.bounded.mono (Nat.le_succ _)).insertEntries (Nat.lt_succ_self _) es
    · show (applyEntries db.clock es db).ht.OneLive
      rw [applyEntries_ht]
      exact h.oneLive.insertEntries (by omega) es
    · show (applyEntries db.clock es db).ht.NoEmpty
      rw [applyEntries_ht]
      exact h.noEmpty.insertEntries _ es
  | collect m _ =>
    exact ⟨hpos, h.bounded.gc m, h.oneLive.gc m, h.noEmpty.gc m, h.wellFormed, h.linked⟩
  | expiry | indexCreate => exact ⟨hpos, h.bounded, h.oneLive, h.noEmpty, h.wellFormed, h.linked⟩
  | indexDrop name =>
    unfold fastkvIndexDrop
    split <;> exact ⟨hpos, h.bounded, h.oneLive, h.noEmpty, h.wellFormed, h.linked⟩

/-- The database that an intact directory yields. -/
theorem fastkvOpen_sound {opts : Opts} {fresh : Uuid} {disk : Disk} {w : World}
    (hintact : Intact opts disk.files) (h : fastkvOpen opts fresh disk = .ok w) : w.db.Sound := by
  obtain ⟨hbounded, honeLive, hnoEmpty⟩ := fastkvOpen_invariant hintact h
  obtain ⟨hwf, hlinked, -⟩ := Opts.runs_inOrder (fastkvOpen_runs hintact h)
  obtain ⟨s, snapTs, walMaxTs, wal, rc, -, hdb, -⟩ := fastkvOpen_cases h
  refine ⟨?_, hbounded, honeLive, hnoEmpty, hwf, hlinked⟩
  rw [hdb]
  show 0 < (opts.assemble _ snapTs walMaxTs wal).txnMgr.oracle.clock
  simp only [Opts.assemble, clock_oracleAdvance]
  exact lt_of_lt_of_le (by decide : 0 < txnMgrInit.oracle.clock)
    ((Nat.le_max_left _ _).trans (Nat.le_max_left _ _))

/-- No transaction is open in a new session. -/
theorem Session.start_txnsOk (w : World) : (Session.start w).TxnsOk := by
  intro i txn hopen
  simp [Session.txn, Session.start] at hopen

end FastKV
