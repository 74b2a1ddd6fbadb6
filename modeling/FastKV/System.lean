import FastKV.LogHolds
import FastKV.Recovery
import FastKV.Visible

/-!
# Runs of the engine

A database with any number of open transactions whose API calls, garbage collections and
checkpoints execute one at a time. The state records, beside the engine itself, the commits
and checkpoints that took effect, in order; no call reads that record. The second half
describes what a commit does to each part of the engine.
-/

namespace FastKV

/-- Calls on transactions; a transaction is named by the number of its begin call. -/
inductive Call
  /-- `fastkv_txn_begin`. -/
  | begin (readOnly : Bool)
  /-- `fastkv_txn_get`. -/
  | get (i : ℕ) (key : Bytes)
  /-- `fastkv_txn_put`. -/
  | put (i : ℕ) (key : Bytes) (value : Slice)
  /-- `fastkv_txn_delete`. -/
  | delete (i : ℕ) (key : Bytes)
  /-- `fastkv_txn_commit`. -/
  | commit (i : ℕ)
  /-- `fastkv_txn_abort`. -/
  | abort (i : ℕ)

/-- What the engine can be asked to do next. -/
inductive Action
  /-- A call on a transaction. -/
  | call (c : Call)
  /-- `fastkv_ht_gc` with the smallest active timestamp. -/
  | gc
  /-- `fastkv_checkpoint`, with the names it generates and the wall clock. -/
  | checkpoint (snapId segId : Uuid) (now : ℕ)

/-- An event that took effect. -/
inductive Event
  /-- A transaction committed these writes, newest first, at this timestamp. -/
  | commit (ts : ℕ) (writes : List WriteEntry)
  /-- A snapshot of this name was written with this timestamp. -/
  | checkpoint (ts : ℕ) (snapId : Uuid)
  deriving DecidableEq

/-- The engine, its open transactions and what has happened. -/
structure Sys where
  /-- Database and directory. -/
  world : World
  /-- The transactions by number; `none` once closed. -/
  txns : List (Option Txn)
  /-- Commits and checkpoints, oldest first. -/
  history : List Event

/-- The open transaction with the given number. -/
def Sys.txn (s : Sys) (i : ℕ) : Option Txn := (s.txns[i]?).join

/-- Replace a transaction. -/
def Sys.setTxn (s : Sys) (i : ℕ) (txn : Option Txn) : Sys := { s with txns := s.txns.set i txn }

/-- The garbage collection of a checkpoint. -/
def World.gc (w : World) : World :=
  { w with db := { w.db with
    ht := (htGc w.db.ht (oracleMinActive w.db.txnMgr.oracle)).2 } }

/-- A commit, with its event if it wrote something. -/
def Sys.commit (s : Sys) (i : ℕ) (txn : Txn) : Err × Sys :=
  let (rc, world, closed) := txnCommit s.world txn
  let event := if rc = .ok ∧ txn.writes ≠ [] then [Event.commit closed.commitTs txn.writes] else []
  (rc, ⟨world, s.txns.set i none, s.history ++ event⟩)

/-- Execute a call. A call on a transaction that is not open is refused. -/
def callStep (s : Sys) : Call → Err × Sys
  | .begin readOnly =>
    match txnBegin s.world.db readOnly with
    | .error rc => (rc, s)
    | .ok (txn, db) => (.ok, { s with world := { s.world with db }, txns := s.txns ++ [some txn] })
  | .get i key =>
    match s.txn i with
    | none => (.inval, s)
    | some txn =>
      match txnGet s.world.db txn key with
      | .ok _ => (.ok, s)
      | .error rc => (rc, s)
  | .put i key value =>
    match s.txn i with
    | none => (.inval, s)
    | some txn =>
      let (rc, txn) := txnPut txn key value
      (rc, s.setTxn i (some txn))
  | .delete i key =>
    match s.txn i with
    | none => (.inval, s)
    | some txn =>
      let (rc, txn) := txnDelete txn key
      (rc, s.setTxn i (some txn))
  | .commit i =>
    match s.txn i with
    | none => (.inval, s)
    | some txn => s.commit i txn
  | .abort i =>
    match s.txn i with
    | none => (.inval, s)
    | some txn =>
      let (rc, world, _) := txnAbort s.world txn
      (rc, { s with world, txns := s.txns.set i none })

/-- Execute an action. -/
def step (s : Sys) : Action → Err × Sys
  | .call c => callStep s c
  | .gc => (.ok, { s with world := s.world.gc })
  | .checkpoint snapId segId now =>
    let (rc, world) := fastkvCheckpoint s.world snapId segId now
    let event := if rc = .ok ∧ s.world.db.wal.isSome then
      [Event.checkpoint (oracleNow s.world.db.txnMgr.oracle) snapId] else []
    (rc, { s with world, history := s.history ++ event })

/-- Execute a sequence of actions. -/
def run (s : Sys) (actions : List Action) : Sys := actions.foldl (fun s a => (step s a).2) s

/-- Every action of a run meets a condition on the state in which it is taken. -/
def Always (P : Sys → Action → Prop) : Sys → List Action → Prop
  | _, [] => True
  | s, a :: as => P s a ∧ Always P (step s a).2 as

/-- The system right after opening a database. -/
def Sys.start (w : World) : Sys := ⟨w, [], []⟩

/-! ## What a commit does -/

/-- Both kinds of writes insert a version. -/
@[simp] theorem applyEntry_ht (db : Db) (e : WriteEntry) (commitTs : ℕ) :
    (applyEntry db e commitTs).ht = htInsertVersion db.ht commitTs e.key e.value := by
  unfold applyEntry
  cases e.value <;> rfl

/-- Applying a write does not involve the transaction manager. -/
@[simp] theorem applyEntry_txnMgr (db : Db) (e : WriteEntry) (commitTs : ℕ) :
    (applyEntry db e commitTs).txnMgr = db.txnMgr := by
  unfold applyEntry
  cases e.value <;> rfl

/-- Applying a write does not involve the log. -/
theorem applyEntry_wal (db : Db) (e : WriteEntry) (commitTs : ℕ) (wal : Option Wal) :
    applyEntry { db with wal } e commitTs = { applyEntry db e commitTs with wal } := by
  unfold applyEntry
  cases e.value <;> rfl

/-- Applying a write does not look at the transaction manager. -/
theorem applyEntry_mgr (db : Db) (e : WriteEntry) (commitTs : ℕ) (txnMgr : TxnMgr) :
    applyEntry { db with txnMgr } e commitTs = { applyEntry db e commitTs with txnMgr } := by
  unfold applyEntry
  cases e.value <;> rfl

/-- The in-memory effect of a sequence of writes. -/
def applyEntries (commitTs : ℕ) (es : List WriteEntry) (db : Db) : Db :=
  es.foldl (fun db e => applyEntry db e commitTs) db

/-- The versions that a sequence of writes inserts. -/
def insertEntries (commitTs : ℕ) (es : List WriteEntry) (ht : Ht) : Ht :=
  es.foldl (fun ht e => htInsertVersion ht commitTs e.key e.value) ht

/-- The table after a sequence of writes. -/
theorem applyEntries_ht (commitTs : ℕ) (es : List WriteEntry) (db : Db) :
    (applyEntries commitTs es db).ht = insertEntries commitTs es db.ht := by
  induction es generalizing db with
  | nil => rfl
  | cons e es ih =>
    have h := ih (applyEntry db e commitTs)
    rw [applyEntry_ht] at h
    exact h

/-- A sequence of writes does not involve the transaction manager. -/
theorem applyEntries_txnMgr (commitTs : ℕ) (es : List WriteEntry) (db : Db) :
    (applyEntries commitTs es db).txnMgr = db.txnMgr := by
  induction es generalizing db with
  | nil => rfl
  | cons e es ih => exact (ih (applyEntry db e commitTs)).trans (applyEntry_txnMgr db e commitTs)

/-- A sequence of writes does not involve the log. -/
theorem applyEntries_wal (commitTs : ℕ) (es : List WriteEntry) (db : Db) (wal : Option Wal) :
    applyEntries commitTs es { db with wal } = { applyEntries commitTs es db with wal } := by
  induction es generalizing db with
  | nil => rfl
  | cons e es ih =>
    have h := ih (applyEntry db e commitTs)
    rw [← applyEntry_wal] at h
    exact h

/-- A sequence of writes does not look at the transaction manager. -/
theorem applyEntries_mgr (commitTs : ℕ) (es : List WriteEntry) (db : Db) (txnMgr : TxnMgr) :
    applyEntries commitTs es { db with txnMgr } = { applyEntries commitTs es db with txnMgr } := by
  induction es generalizing db with
  | nil => rfl
  | cons e es ih =>
    have h := ih (applyEntry db e commitTs)
    rw [← applyEntry_mgr] at h
    exact h

/-- Records that can all be logged: the writes are applied and the log has the records. -/
theorem dbApplyWriteSet_of_ok {commitTs : ℕ} {wal : Wal} (es : List WriteEntry) :
    ∀ w : World, w.db.wal = some wal →
      (appendAll (es.map fun e => e.record commitTs) ⟨wal, w.disk⟩).1 = .ok →
      dbApplyWriteSet commitTs es w =
        (.ok, ⟨{ applyEntries commitTs es w.db with
            wal := some (appendAll (es.map fun e => e.record commitTs) ⟨wal, w.disk⟩).2.wal },
          (appendAll (es.map fun e => e.record commitTs) ⟨wal, w.disk⟩).2.disk⟩) := by
  induction es generalizing wal with
  | nil =>
    intro w hwal _
    obtain ⟨db, disk⟩ := w
    simp only [dbApplyWriteSet, List.map_nil, appendAll, applyEntries, List.foldl_nil]
    simp only at hwal
    rw [← hwal]
  | cons e es ih =>
    intro w hwal hok
    rw [List.map_cons] at hok ⊢
    unfold appendAll at hok ⊢
    unfold dbApplyWriteSet logEntry
    simp only [hwal]
    rcases hr : walAppend (e.record commitTs) ⟨wal, w.disk⟩ with ⟨rc, log⟩
    rw [hr] at hok
    simp only at hok ⊢
    by_cases hrc : rc = .ok
    · simp only [if_pos hrc] at hok ⊢
      have hwal' : ({ applyEntry w.db e commitTs with wal := some log.wal } : Db).wal =
        some log.wal :=
        rfl
      have hrest := ih ⟨{ applyEntry w.db e commitTs with wal := some log.wal }, log.disk⟩ hwal' hok
      rw [applyEntry_wal, hrest, applyEntries_wal]
      rfl
    · simp only [if_neg hrc] at hok
      exact absurd hok hrc

/-- A record that cannot be logged: the writes before it are applied, and the error is
returned. -/
theorem dbApplyWriteSet_of_fail {commitTs : ℕ} {wal : Wal} {rc : Err} {log log' : Log}
    {e : WriteEntry} (before after : List WriteEntry) : ∀ w : World, w.db.wal = some wal →
      appendAll (before.map fun e => e.record commitTs) ⟨wal, w.disk⟩ = (.ok, log) →
      walAppend (e.record commitTs) log = (rc, log') → rc ≠ .ok →
      dbApplyWriteSet commitTs (before ++ e :: after) w =
        (rc, ⟨{ applyEntries commitTs before w.db with wal := some log'.wal }, log'.disk⟩) := by
  induction before generalizing wal with
  | nil =>
    intro w hwal hbefore hfail hrc
    have hlog : (⟨wal, w.disk⟩ : Log) = log := by
      simpa [appendAll] using hbefore
    unfold dbApplyWriteSet logEntry
    simp only [List.nil_append, hwal, hlog, hfail, if_neg hrc]
    rfl
  | cons b before ih =>
    intro w hwal hbefore hfail hrc
    rw [List.map_cons] at hbefore
    unfold appendAll at hbefore
    rw [List.cons_append]
    unfold dbApplyWriteSet logEntry
    simp only [hwal]
    rcases hr : walAppend (b.record commitTs) ⟨wal, w.disk⟩ with ⟨rc', log₁⟩
    rw [hr] at hbefore
    simp only at hbefore ⊢
    by_cases hok : rc' = .ok
    · simp only [if_pos hok] at hbefore ⊢
      have hwal' : ({ applyEntry w.db b commitTs with wal := some log₁.wal } : Db).wal =
        some log₁.wal := rfl
      have hrest := ih ⟨{ applyEntry w.db b commitTs with wal := some log₁.wal }, log₁.disk⟩ hwal'
        hbefore hfail hrc
      rw [applyEntry_wal, hrest, applyEntries_wal]
      rfl
    · simp only [if_neg hok] at hbefore
      exact absurd (congrArg Prod.fst hbefore) hok

end FastKV
