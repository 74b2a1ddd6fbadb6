import FastKV.Reachable

/-!
# What a transaction writes

A transaction is a sequence of put and delete calls. Its write set is the list of the
accepted ones, newest first, and everything below follows from the direction in which that
list is walked: a lookup inside the transaction starts at the newest write, a commit applies
the newest write first and the oldest last. A reader inside the transaction therefore finds
the last write on a key, unless that is a deletion, which the lookup cannot tell from no
write at all; a later reader finds the first.
-/

namespace FastKV

/-- A write call. -/
inductive TxnWrite
  /-- `fastkv_txn_put`. -/
  | put (key value : Bytes)
  /-- `fastkv_txn_delete`. -/
  | delete (key : Bytes)
  deriving DecidableEq

/-- The entry that a write call stores. -/
def TxnWrite.entry : TxnWrite → WriteEntry
  | .put key value => ⟨key, some value⟩
  | .delete key => ⟨key, none⟩

/-- The size checks that a write call passes. -/
def TxnWrite.accepted : TxnWrite → Bool
  | .put key value => decide (key.length ≤ maxKeyLen) && decide (value.length ≤ maxValLen)
  | .delete key => decide (key.length ≤ maxKeyLen)

/-- Make a write call. -/
def TxnWrite.call (txn : Txn) : TxnWrite → Err × Txn
  | .put key value => txnPut txn key (some value)
  | .delete key => txnDelete txn key

/-- The transaction after a sequence of write calls, whatever they return. -/
def runWrites (txn : Txn) (calls : List TxnWrite) : Txn :=
  calls.foldl (fun txn c => (c.call txn).2) txn

/-- The writes that a sequence of calls makes, in the order of the calls. -/
def writesOf (calls : List TxnWrite) : List WriteEntry :=
  (calls.filter TxnWrite.accepted).map TxnWrite.entry

/-- The value of the first entry for a key. -/
def firstOn (key : Bytes) (es : List WriteEntry) : Option Slice :=
  (es.find? fun e => decide (e.key = key)).map WriteEntry.value

/-- The value that the first of the calls on a key writes; the null slice is a deletion. -/
def firstWrite (calls : List TxnWrite) (key : Bytes) : Option Slice := firstOn key (writesOf calls)

/-- The value that the last of the calls on a key writes. -/
def lastWrite (calls : List TxnWrite) (key : Bytes) : Option Slice :=
  firstOn key (writesOf calls).reverse

/-! ## The write set -/

/-- An open transaction that may write. -/
structure Txn.Writable (txn : Txn) : Prop where
  /-- It is open. -/
  active : txn.state = .active
  /-- It may write. -/
  readWrite : txn.readOnly = false

/-- A write call on an open transaction stores its entry if it passes the size checks. -/
theorem TxnWrite.call_eq {txn : Txn} (h : txn.Writable) (c : TxnWrite) :
    (c.call txn).2 = if c.accepted then { txn with
      writes := c.entry :: txn.writes, writeCount := (txn.writeCount + 1) % 2 ^ 32 } else txn := by
  have hadd : ∀ key value, writeEntryAdd txn key value = (.ok, { txn with
      writes := ⟨key, value⟩ :: txn.writes, writeCount := (txn.writeCount + 1) % 2 ^ 32 }) := by
    intro key value
    simp only [writeEntryAdd, h.readWrite, h.active, Bool.false_eq_true, ne_eq, not_true_eq_false,
      if_false]
  cases c with
  | put key value =>
    simp only [call, txnPut, txnWritePut, accepted, entry, hadd, Option.getD_some,
      ← Nat.not_lt, Bool.and_eq_true, decide_eq_true_eq]
    by_cases hkey : maxKeyLen < key.length
    · simp only [hkey, not_true_eq_false, false_and, if_true, if_false]
    · by_cases hval : maxValLen < value.length
      · simp only [hkey, hval, not_true_eq_false, and_false, if_true, if_false]
      · simp only [hkey, hval, not_false_eq_true, and_self, if_true, if_false]
  | delete key =>
    simp only [call, txnDelete, txnWriteDelete, accepted, entry, hadd, ← Nat.not_lt,
      decide_eq_true_eq]
    by_cases hkey : maxKeyLen < key.length
    · simp only [hkey, not_true_eq_false, if_true, if_false]
    · simp only [hkey, not_false_eq_true, if_true, if_false]

/-- The transaction after a sequence of write calls. -/
structure HasWritten (txn : Txn) (calls : List TxnWrite) (txn' : Txn) : Prop where
  /-- The transaction is still open for writing. -/
  writable : txn'.Writable
  /-- It reads at the same timestamp. -/
  beginTs : txn'.beginTs = txn.beginTs
  /-- The accepted writes are in front, newest first. -/
  writes : txn'.writes = (writesOf calls).reverse ++ txn.writes

/-- What a sequence of write calls does. -/
theorem runWrites_spec (calls : List TxnWrite) : ∀ txn : Txn, txn.Writable →
    HasWritten txn calls (runWrites txn calls) := by
  induction calls with
  | nil => exact fun txn h => ⟨h, rfl, rfl⟩
  | cons c calls ih =>
    intro txn h
    have hrun : runWrites txn (c :: calls) = runWrites (c.call txn).2 calls := rfl
    rw [hrun, c.call_eq h]
    by_cases hc : c.accepted = true
    · obtain ⟨hopen, hbegin, hwrites⟩ := ih { txn with
        writes := c.entry :: txn.writes, writeCount := (txn.writeCount + 1) % 2 ^ 32 }
        ⟨h.active, h.readWrite⟩
      rw [if_pos hc]
      refine ⟨hopen, hbegin, ?_⟩
      rw [hwrites, writesOf, writesOf, List.filter_cons_of_pos hc, List.map_cons,
        List.reverse_cons, List.append_assoc]
      rfl
    · rw [if_neg hc]
      obtain ⟨hopen, hbegin, hwrites⟩ := ih txn h
      refine ⟨hopen, hbegin, ?_⟩
      rw [hwrites, writesOf, writesOf, List.filter_cons_of_neg hc]

/-- A transaction that has just begun. -/
theorem txnBegin_writable {db db' : Db} {txn : Txn} (h : txnBegin db false = .ok (txn, db')) :
    txn.Writable ∧ txn.writes = [] := by
  obtain ⟨-, hactive, hwrites, hro, -⟩ := txnBegin_spec h
  exact ⟨⟨hactive, hro⟩, hwrites⟩

/-- Only keys of permitted size are written. -/
theorem key_le_of_mem_writesOf {calls : List TxnWrite} {e : WriteEntry} (h : e ∈ writesOf calls) :
    e.key.length ≤ maxKeyLen := by
  obtain ⟨c, hc, rfl⟩ := List.mem_map.mp h
  have haccepted := (List.mem_filter.mp hc).2
  cases c with
  | put key value =>
    simp only [TxnWrite.accepted, Bool.and_eq_true, decide_eq_true_eq] at haccepted
    exact haccepted.1
  | delete key => exact of_decide_eq_true haccepted

/-- A value that was found is the value of an entry for the key. -/
theorem firstOn_eq_some {key : Bytes} {es : List WriteEntry} {value : Slice}
    (h : firstOn key es = some value) : ∃ e ∈ es, e.key = key ∧ e.value = value := by
  obtain ⟨e, he, hvalue⟩ := Option.map_eq_some_iff.mp h
  exact ⟨e, List.mem_of_find?_eq_some he, by simpa using List.find?_some he, hvalue⟩

/-- A key that is not found has no entry. -/
theorem firstOn_eq_none {key : Bytes} {es : List WriteEntry} :
    firstOn key es = none ↔ ∀ e ∈ es, e.key ≠ key := by
  simp [firstOn]

/-- The first and the last write exist together. -/
theorem lastWrite_eq_none {calls : List TxnWrite} {key : Bytes} :
    lastWrite calls key = none ↔ firstWrite calls key = none := by
  rw [lastWrite, firstWrite, firstOn_eq_none, firstOn_eq_none]
  simp

/-! ## Reading inside the transaction -/

/-- The lookup returns the value of the first entry for the key; a deletion and no entry
give the same answer. -/
theorem lookupWrites_eq (key : Bytes) (es : List WriteEntry) :
    lookupWrites key es = readResult (firstOn key es).join := by
  induction es with
  | nil => rfl
  | cons e es ih =>
    by_cases hkey : e.key = key
    · simp only [lookupWrites, firstOn, List.find?_cons, hkey, decide_true, if_true,
        Option.map_some, Option.join_some]
      cases e.value <;> rfl
    · simp only [lookupWrites, firstOn, List.find?_cons, hkey, decide_false, if_false, ih]

/-- A transaction reads the last value it put, and what is committed otherwise. -/
theorem txnGet_eq (db : Db) {txn : Txn} (hactive : txn.state = .active) {key : Bytes}
    (hkey : key.length ≤ maxKeyLen) :
    txnGet db txn key = match (firstOn key txn.writes).join with
      | some value => .ok value
      | none => htGet db.ht txn.beginTs key := by
  have hlong : ¬ maxKeyLen < key.length := by omega
  simp only [txnGet, hactive, ne_eq, not_true_eq_false, if_false, hlong, txnWriteLookup,
    lookupWrites_eq]
  cases (firstOn key txn.writes).join <;> rfl

/-- What a transaction that has made the given calls should read: its last write on the key,
and the committed value at its timestamp if there is none. -/
def ownRead (db : Db) (beginTs : ℕ) (calls : List TxnWrite) (key : Bytes) : Except Err Bytes :=
  match lastWrite calls key with
  | some value => readResult value
  | none => htGet db.ht beginTs key

/-- A transaction that has begun and made any write calls reads its own writes on a key
exactly if it is not the case that the last of them is a deletion and a committed value of
the key is visible at its timestamp. -/
theorem txnGet_eq_ownRead_iff {db₀ db₁ : Db} {txn : Txn}
    (hbegin : txnBegin db₀ false = .ok (txn, db₁)) (calls : List TxnWrite) (db : Db) {key : Bytes}
    (hkey : key.length ≤ maxKeyLen) :
    txnGet db (runWrites txn calls) key = ownRead db txn.beginTs calls key ↔
      ¬ (lastWrite calls key = some none ∧ ∃ value, htGet db.ht txn.beginTs key = .ok value) := by
  obtain ⟨hopen, hnil⟩ := txnBegin_writable hbegin
  obtain ⟨hopen', hts, hwrites⟩ := runWrites_spec calls txn hopen
  have hfirst : firstOn key (runWrites txn calls).writes = lastWrite calls key := by
    rw [hwrites, hnil, List.append_nil, lastWrite]
  rw [txnGet_eq db hopen'.active hkey, hfirst, hts, ownRead]
  rcases hlast : lastWrite calls key with - | (- | value)
  · simp
  · -- the lookup falls through to the committed state
    simp only [Option.join_some, readResult, true_and, not_exists]
    cases hget : htGet db.ht txn.beginTs key with
    | ok value => simp
    | error rc =>
      rcases htGet_error hget with rfl
      simp
  · simp [readResult]

/-- A new database in which the key 1 has the value 2. -/
def oneKeyWorld : World := (fastkvPut newWorld [1] (some [2])).2

/-- It is reachable. -/
theorem oneKeyWorld_reachable : oneKeyWorld.Reachable :=
  newWorld_reachable.singleWrite (by decide) _

/-- A transaction that begins in it. -/
def oneKeyTxn : Txn := (txnMgrBegin oneKeyWorld.db.txnMgr false).1

/-- It reads its own put. -/
theorem txnGet_eq_ownRead_after_put :
    ¬ (lastWrite [.delete [1], .put [1] [3]] [1] = some none ∧
      ∃ value, htGet oneKeyWorld.db.ht oneKeyTxn.beginTs [1] = .ok value) ∧
    txnGet oneKeyWorld.db (runWrites oneKeyTxn [.delete [1], .put [1] [3]]) [1] =
      ownRead oneKeyWorld.db oneKeyTxn.beginTs [.delete [1], .put [1] [3]] [1] := by
  have hlast : ¬ (lastWrite [.delete [1], .put [1] [3]] [1] = some none ∧
      ∃ value, htGet oneKeyWorld.db.ht oneKeyTxn.beginTs [1] = .ok value) := by
    rintro ⟨hnone, -⟩
    exact absurd hnone (by decide)
  have hbegun : txnBegin oneKeyWorld.db false = .ok (oneKeyTxn,
      { oneKeyWorld.db with txnMgr := (txnMgrBegin oneKeyWorld.db.txnMgr false).2 }) := rfl
  exact ⟨hlast, (txnGet_eq_ownRead_iff hbegun _ _ (by decide)).mpr hlast⟩

/-- It deletes the key and reads the committed value. -/
theorem deleted_key_is_read :
    txnGet oneKeyWorld.db (runWrites oneKeyTxn [.delete [1]]) [1] = .ok [2] ∧
      ownRead oneKeyWorld.db oneKeyTxn.beginTs [.delete [1]] [1] = .error .notfound := by
  decide +kernel

/-! ## Reading after the commit -/

/-- The map after some writes at one timestamp: the last of them on each key counts. -/
theorem live_insertEntries (commitTs : ℕ) (es : List WriteEntry) (key : Bytes) : ∀ ht : Ht,
    (insertEntries commitTs es ht).live key = match firstOn key es.reverse with
      | some value => sliceDup value
      | none => ht.live key := by
  induction es with
  | nil => exact fun ht => rfl
  | cons e es ih =>
    intro ht
    have hrun : insertEntries commitTs (e :: es) ht =
        insertEntries commitTs es (htInsertVersion ht commitTs e.key e.value) := rfl
    rw [hrun, ih, live_htInsertVersion, List.reverse_cons]
    unfold firstOn
    rw [List.find?_append]
    cases es.reverse.find? fun e => decide (e.key = key) with
    | some e' => rfl
    | none =>
      by_cases hkey : e.key = key
      · simp [hkey]
      · have hkey' : ¬ key = e.key := fun h => hkey h.symm
        simp [hkey, hkey']

/-- What a transaction reads that has just begun. -/
theorem txnGet_begun {db db' : Db} {readOnly : Bool} {txn : Txn}
    (hbegin : txnBegin db readOnly = .ok (txn, db')) (hb : db.ht.Bounded db.clock)
    (hclock : db.clock < tsMax) (key : Bytes) : txnGet db' txn key =
      if maxKeyLen < key.length then .error .keysize else readResult (db.ht.live key) := by
  have hread := hb.htGet_eq (Nat.le_refl _) hclock key
  obtain ⟨hts, hactive, hwrites, -, hht, -⟩ := txnBegin_spec hbegin
  split
  · rename_i hlong
    simp only [txnGet, hactive, ne_eq, not_true_eq_false, if_false, hlong, if_true]
  · rename_i hlong
    rw [txnGet_eq _ hactive (by omega), hwrites, hts, hht]
    exact hread

/-- What `fastkv_get` reads. -/
theorem fastkvGet_eq {w : World} (hb : w.db.ht.Bounded w.db.clock) (hclock : w.db.clock < tsMax)
    (key : Bytes) : (fastkvGet w key).1 =
      if maxKeyLen < key.length then .error .keysize else readResult (w.db.ht.live key) :=
  (txnGet_begun (show txnBegin w.db true = .ok ((txnMgrBegin w.db.txnMgr true).1,
    { w.db with txnMgr := (txnMgrBegin w.db.txnMgr true).2 }) from rfl) hb hclock key)

/-- A commit that succeeds has applied the writes of the transaction. -/
theorem live_txnCommit {w : World} {txn : Txn} (hok : (txnCommit w txn).1 = .ok)
    (hro : txn.readOnly = false) (key : Bytes) :
    (txnCommit w txn).2.1.db.ht.live key = match firstOn key txn.writes.reverse with
      | some value => sliceDup value
      | none => w.db.ht.live key := by
  rcases txnCommit_cases w txn with ⟨hrefusal, mgr, -, heq⟩ | ⟨-, hrc, -, mgr, -, heq⟩
  · have hwrites : txn.writes = [] := by
      rw [hok] at hrefusal
      cases hrefusal with
      | nothing _ hnothing =>
        rcases hnothing with h | h
        · rw [hro] at h
          cases h
        · exact h
    rw [heq, hwrites]
    rfl
  · obtain ⟨k, wal, happly, hall⟩ := dbApplyWriteSet_cases w.db.clock txn.writes w.drawn
    rw [heq]
    show (dbApplyWriteSet w.db.clock txn.writes w.drawn).2.db.ht.live key = _
    rw [happly, hall (hrc.symm.trans hok)]
    simp only [applyEntries_ht]
    exact live_insertEntries w.db.clock txn.writes key w.db.ht

/-- What a later reader should find after the given calls were committed. -/
def committedRead (w : World) (calls : List TxnWrite) (key : Bytes) : Except Err Bytes :=
  match lastWrite calls key with
  | some value => readResult value
  | none => (fastkvGet w key).1

/-- Values that a caller stores are not empty. -/
def TxnWrite.NonEmpty : TxnWrite → Prop
  | .put _ value => value ≠ []
  | .delete _ => True

/-- Entries of calls with values that are not empty are stored as they are. -/
theorem sliceDup_of_firstWrite {calls : List TxnWrite} (h : ∀ c ∈ calls, c.NonEmpty) {key : Bytes}
    {value : Slice} (hfirst : firstWrite calls key = some value) : sliceDup value = value := by
  obtain ⟨e, he, -, rfl⟩ := firstOn_eq_some hfirst
  obtain ⟨c, hc, rfl⟩ := List.mem_map.mp he
  have hne := h c (List.mem_of_mem_filter hc)
  cases c with
  | put key value => exact sliceDup_of_ne hne
  | delete key => rfl

/-- A commit that returns `FASTKV_OK` has, for later readers, the effect of the last write on
every key exactly if on every key the last write agrees with the first. -/
theorem commit_reads_last_iff {w : World} (hreach : w.Reachable) (hclock : w.db.clock + 1 < tsMax)
    {db₀ db₁ : Db} {txn : Txn} (hbegin : txnBegin db₀ false = .ok (txn, db₁))
    {calls : List TxnWrite} (hvalues : ∀ c ∈ calls, c.NonEmpty)
    (hok : (txnCommit w (runWrites txn calls)).1 = .ok) :
    (∀ key, (fastkvGet (txnCommit w (runWrites txn calls)).2.1 key).1 =
        committedRead w calls key) ↔
      ∀ key, firstWrite calls key = lastWrite calls key := by
  obtain ⟨hopen, hnil⟩ := txnBegin_writable hbegin
  obtain ⟨hopen', -, hwrites⟩ := runWrites_spec calls txn hopen
  have hevolves := txnCommit_evolves hclock (runWrites txn calls)
  have hle := hevolves.clock_le_add
  have hbounded := hreach.invariant.1
  have hafter : ∀ key, (fastkvGet (txnCommit w (runWrites txn calls)).2.1 key).1 =
      match firstWrite calls key with
      | some value => readResult value
      | none => (fastkvGet w key).1 := by
    intro key
    have hlive := live_txnCommit hok hopen'.readWrite key
    rw [hwrites, hnil, List.append_nil, List.reverse_reverse, ← firstWrite] at hlive
    rw [fastkvGet_eq (hevolves.bounded hbounded) (by omega),
      fastkvGet_eq hbounded (by omega), hlive]
    cases hfirst : firstWrite calls key with
    | none => rfl
    | some value =>
      obtain ⟨e, he, hkey, -⟩ := firstOn_eq_some hfirst
      have hshort := key_le_of_mem_writesOf he
      rw [hkey] at hshort
      rw [if_neg (by omega)]
      exact congrArg readResult (sliceDup_of_firstWrite hvalues hfirst)
  constructor
  · intro h key
    have hboth := (hafter key).symm.trans (h key)
    unfold committedRead at hboth
    cases hfirst : firstWrite calls key with
    | none => rw [lastWrite_eq_none.mpr hfirst]
    | some value =>
      cases hlast : lastWrite calls key with
      | none =>
        rw [lastWrite_eq_none.mp hlast] at hfirst
        cases hfirst
      | some value' =>
        simp only [hfirst, hlast] at hboth
        rw [readResult_inj hboth]
  · intro h key
    rw [hafter key, h key, committedRead]

/-- Putting one value twice and deleting another key. -/
theorem commit_reads_last_after_equal_puts :
    (∀ key, firstWrite [.put [2] [5], .delete [1], .put [2] [5]] key =
        lastWrite [.put [2] [5], .delete [1], .put [2] [5]] key) ∧
      ∀ key, (fastkvGet (txnCommit oneKeyWorld
          (runWrites oneKeyTxn [.put [2] [5], .delete [1], .put [2] [5]])).2.1 key).1 =
        committedRead oneKeyWorld [.put [2] [5], .delete [1], .put [2] [5]] key := by
  have hsame : ∀ key, firstWrite [.put [2] [5], .delete [1], .put [2] [5]] key =
      lastWrite [.put [2] [5], .delete [1], .put [2] [5]] key := by
    intro key
    have hwrites : writesOf [.put [2] [5], .delete [1], .put [2] [5]] =
        [⟨[2], some [5]⟩, ⟨[1], none⟩, ⟨[2], some [5]⟩] := by decide
    rw [firstWrite, lastWrite, hwrites]
    rfl
  have hvalues : ∀ c ∈ [TxnWrite.put [2] [5], .delete [1], .put [2] [5]], c.NonEmpty := by
    simp [TxnWrite.NonEmpty]
  have hbegun : txnBegin oneKeyWorld.db false = .ok (oneKeyTxn,
      { oneKeyWorld.db with txnMgr := (txnMgrBegin oneKeyWorld.db.txnMgr false).2 }) := rfl
  exact ⟨hsame, (commit_reads_last_iff oneKeyWorld_reachable (by decide +kernel) hbegun hvalues
    (by decide +kernel)).mpr hsame⟩

/-- A key that is put twice in one transaction: a later reader finds the first value. -/
theorem first_put_is_read :
    (txnCommit oneKeyWorld (runWrites oneKeyTxn [.put [1] [3], .put [1] [4]])).1 = .ok ∧
      (fastkvGet (txnCommit oneKeyWorld
        (runWrites oneKeyTxn [.put [1] [3], .put [1] [4]])).2.1 [1]).1 = .ok [3] ∧
      committedRead oneKeyWorld [.put [1] [3], .put [1] [4]] [1] = .ok [4] := by
  decide +kernel

end FastKV
