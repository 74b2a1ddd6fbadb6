import FastKV.ExpiryPass
import FastKV.PutFaults
import FastKV.Threads

/-!
# When a put survives failed allocations

A put makes three allocations for its transaction, at most one for a value that does not fit
behind its key in the first block, and two or three for the new version. The first three are
checked. That the value could not be copied is not noticed: the write becomes a deletion, which
is logged and applied like one. That there is no new version is not noticed either: the put
succeeds and the old value is read.
-/

namespace FastKV

/-- The transaction, its arena and the first block of it are allocated. -/
def begins (mem : List Bool) : Bool := (mem.take 3).all id

/-- The arena of a transaction that has just begun. -/
def newArena : Arena := ⟨⟨arenaDefaultBlock, 0⟩, [], arenaDefaultBlock, 0⟩

/-- The arena after the entry and the key of the first write. -/
def keyArena (key : Bytes) : Arena :=
  ⟨⟨arenaDefaultBlock, 57 + key.length⟩, [], arenaDefaultBlock,
    writeEntrySize + (key.length + 1)⟩

/-- The value of the first write is copied: behind the key, or to a block of its own. -/
def copiesValue (key val : Bytes) (mem : List Bool) : Bool :=
  (keyArena key).hasRoom val || (fkvMalloc mem).1

/-- The outcomes that are left after it. -/
def afterValue (key val : Bytes) (mem : List Bool) : List Bool :=
  if (keyArena key).hasRoom val then mem else (fkvMalloc mem).2

/-- The node of a version and its copies are allocated; an empty key is not copied. -/
def copiesVersion (key : Bytes) (mem : List Bool) : Bool :=
  (mem.take (if key = [] then 2 else 3)).all id

/-- The write that a put stores in its transaction. -/
def putEntry (key val : Bytes) (mem : List Bool) : WriteEntry :=
  ⟨key, if copiesValue key val (mem.drop 3) then some val else none⟩

/-- The log has no place for a record. -/
def World.LogRefuses (w : World) (e : WriteEntry) (commitTs : ℕ) : Prop :=
  (logEntry w e commitTs).1 ≠ .ok

/-- What makes a put fail. -/
inductive PutRefused (w : MemWorld) (key val : Bytes) (mem : List Bool) : Prop
  /-- The database is opened for reading only. -/
  | readOnly : w.db.opts.readOnly = true → PutRefused w key val mem
  /-- The transaction cannot begin. -/
  | memory : begins mem = false → PutRefused w key val mem
  /-- The key is too long. -/
  | keySize : maxKeyLen < key.length → PutRefused w key val mem
  /-- The value is too long. -/
  | valueSize : maxValLen < val.length → PutRefused w key val mem
  /-- The write cannot be logged. -/
  | log : w.toWorld.LogRefuses (putEntry key val mem) (add64 w.db.clock 1) →
      PutRefused w key val mem

/-- No failure in a put matters: it is refused, or the value is copied and a new version is
inserted or not needed. -/
def PutSpared (w : MemWorld) (key val : Bytes) (mem : List Bool) : Prop :=
  PutRefused w key val mem ∨ copiesValue key val (mem.drop 3) = true ∧
    (copiesVersion key (afterValue key val (mem.drop 3)) = true ∨ w.db.ht.live key = some val)

/-- A put that succeeds is followed by a read of its value, one that fails by a read of the value
before, and no deletion is committed. -/
structure PutServes (w : MemWorld) (key val : Bytes) (r : Err × MemWorld × List WriteEntry) :
    Prop where
  /-- A put that succeeds. -/
  done : r.1 = .ok → (fastkvGet r.2.1.toWorld key).1 = .ok val
  /-- A put that fails. -/
  failed : r.1 ≠ .ok → (fastkvGet r.2.1.toWorld key).1 = (fastkvGet w.toWorld key).1
  /-- The committed writes have values. -/
  not_deleted : ∀ e ∈ r.2.2, e.value ≠ none

/-! ## Allocations -/

/-- Beginning needs three allocations. -/
theorem txnMgrBeginMem_eq (mgr : TxnMgr) (readOnly : Bool) (mem : List Bool) :
    if begins mem then txnMgrBeginMem mgr readOnly mem =
      (.ok ((txnMgrBegin mgr readOnly).1, newArena, (txnMgrBegin mgr readOnly).2), mem.drop 3)
    else (txnMgrBeginMem mgr readOnly mem).1 = .error .nomem := by
  cases mem with
  | nil => rfl
  | cons txn mem =>
    cases txn with
    | false => rfl
    | true =>
      cases mem with
      | nil => rfl
      | cons arena mem =>
        cases arena with
        | false => rfl
        | true =>
          cases mem with
          | nil => rfl
          | cons block mem => cases block <;> rfl

/-- The first two regions fit into the first block. -/
theorem arenaDup_key {key : Bytes} (hkey : key.length ≤ maxKeyLen) (mem : List Bool) :
    arenaDup (arenaAlloc newArena writeEntrySize mem).2.1 key mem =
      (some key, keyArena key, mem) := by
  have hentry : (arenaAlloc newArena writeEntrySize mem).2.1 =
      ⟨⟨arenaDefaultBlock, 48⟩, [], arenaDefaultBlock, writeEntrySize⟩ := rfl
  have hused : 56 + (key.length + 1) = 57 + key.length := by omega
  have hroom : ¬ arenaDefaultBlock < 57 + key.length := by
    unfold maxKeyLen at hkey
    unfold arenaDefaultBlock
    omega
  have hoffset : (⟨arenaDefaultBlock, 48⟩ : ArenaBlock).offset maxAlign = 56 := rfl
  rw [hentry]
  unfold arenaDup arenaAlloc arenaAllocAligned
  simp only [hoffset, hused, if_neg hroom]
  rfl

/-- All of the next allocations succeed if the first and the others do. -/
theorem all_take_succ (mem : List Bool) (n : ℕ) :
    (mem.take (n + 1)).all id = (mem.headD true && (mem.tail.take n).all id) := by
  cases mem with
  | nil => cases n <;> rfl
  | cons ok mem => rfl

/-- A slice with bytes is copied if there is memory. -/
theorem sliceDupMem_of_ne {s : Bytes} (hs : s ≠ []) (mem : List Bool) :
    sliceDupMem s mem = (if mem.headD true then some s else none, mem.tail) := by
  unfold sliceDupMem
  rw [if_neg hs]
  rfl

/-- A version is inserted if its node and its copies are allocated. -/
theorem htInsertVersionMem_eq (ht : Ht) (commitTs : ℕ) (key : Bytes) {val : Bytes}
    (hval : val ≠ []) (mem : List Bool) :
    (htInsertVersionMem ht commitTs key (some val) mem).2.1 =
      if copiesVersion key mem then htInsertVersion ht commitTs key (some val) else ht := by
  unfold htInsertVersionMem copiesVersion fkvMalloc
  by_cases hkey : key = []
  · subst hkey
    have hempty : ∀ mem, sliceDupMem [] mem = (none, mem) := fun _ => rfl
    simp only [if_true, all_take_succ, List.take_zero, List.all_nil, Bool.and_true]
    cases mem.headD true with
    | false => rfl
    | true =>
      simp only [hempty, sliceDupMem_of_ne hval, Option.getD_some, Bool.true_and]
      cases mem.tail.headD true <;> simp [hval]
  · simp only [if_neg hkey, all_take_succ, List.take_zero, List.all_nil, Bool.and_true]
    cases mem.headD true with
    | false => rfl
    | true =>
      simp only [sliceDupMem_of_ne hkey, sliceDupMem_of_ne hval, Option.getD_some, Bool.true_and]
      cases mem.tail.headD true <;> cases mem.tail.tail.headD true <;> simp [hkey, hval]

/-- A version is inserted or the table stays as it is. -/
theorem htInsertVersionMem_cases (ht : Ht) (commitTs : ℕ) (key : Bytes) (value : Slice)
    (mem : List Bool) :
    (htInsertVersionMem ht commitTs key value mem).2.1 = htInsertVersion ht commitTs key value ∨
      (htInsertVersionMem ht commitTs key value mem).2.1 = ht := by
  unfold htInsertVersionMem fkvMalloc
  cases mem.headD true with
  | false => exact Or.inr rfl
  | true =>
    -- a condition on the copies decides, with or without a value
    cases value with
    | none =>
      simp only
      split
      · exact Or.inr rfl
      · exact Or.inl rfl
    | some value =>
      simp only
      split
      · exact Or.inr rfl
      · exact Or.inl rfl

/-! ## The write -/

/-- The first write of a transaction is stored with its value or without it. -/
theorem txnPutMem_first {txn : Txn} (hopen : txn.Writable) (hwrites : txn.writes = [])
    {key val : Bytes} (hkey : key.length ≤ maxKeyLen) (hval : val.length ≤ maxValLen)
    (mem : List Bool) : ∃ arena writeCount, txnPutMem txn newArena key (some val) mem =
      (.ok, { txn with
        writes := [⟨key, if copiesValue key val mem then some val else none⟩], writeCount },
        arena, afterValue key val mem) := by
  obtain ⟨hcopy, hrest⟩ := arenaDup_eq (keyArena key) val mem
  have hentry : arenaAlloc newArena writeEntrySize mem =
      (some 8, (arenaAlloc newArena writeEntrySize mem).2.1, mem) := rfl
  unfold txnPutMem writeEntryAddMem
  rw [if_neg (by omega), if_neg (by rw [Option.getD_some]; omega),
    if_neg (by simp [hopen.readWrite]), if_neg (by simp [hopen.active]), hentry]
  simp only [arenaDup_key hkey, reduceCtorEq, false_and, if_false, Option.getD_some, hwrites]
  rw [hcopy, hrest]
  exact ⟨_, _, rfl⟩

/-- The version of a write is inserted whatever else happens to it. -/
theorem applyEntryMem_db (db : Db) (lost : Losses) (e : WriteEntry) (commitTs : ℕ)
    (mem : List Bool) : (applyEntryMem db lost e commitTs mem).1.ht =
        (htInsertVersionMem db.ht commitTs e.key e.value mem).2.1 ∧
      (applyEntryMem db lost e commitTs mem).1.txnMgr = db.txnMgr := by
  unfold applyEntryMem
  cases e.value <;> exact ⟨rfl, rfl⟩

/-- Whether the log takes a record depends on the log. -/
theorem logEntry_err_congr (w : World) {db : Db} (hwal : db.wal = w.db.wal) (e : WriteEntry)
    (commitTs : ℕ) : (logEntry ⟨db, w.disk⟩ e commitTs).1 = (logEntry w e commitTs).1 := by
  unfold logEntry
  simp only [hwal]
  cases w.db.wal <;> rfl

/-- What a failed call leaves. -/
structure PutFails (w : MemWorld) (r : Err × MemWorld × List WriteEntry) : Prop where
  /-- It reports an error. -/
  rc : r.1 ≠ .ok
  /-- Nothing is committed. -/
  committed : r.2.2 = []
  /-- The table is as before. -/
  ht : r.2.1.db.ht = w.db.ht
  /-- The clock does not go back. -/
  clock_le : w.db.clock ≤ r.2.1.db.clock
  /-- It advances by at most two. -/
  clock_le_add : r.2.1.db.clock ≤ w.db.clock + 2

/-- What a successful call leaves. -/
structure PutCommits (w : MemWorld) (e : WriteEntry) (mem : List Bool)
    (r : Err × MemWorld × List WriteEntry) : Prop where
  /-- It reports success. -/
  rc : r.1 = .ok
  /-- One write is committed. -/
  committed : r.2.2 = [e]
  /-- Its version is inserted if there is memory. -/
  ht : r.2.1.db.ht = (htInsertVersionMem w.db.ht (w.db.clock + 1) e.key e.value mem).2.1
  /-- Two timestamps have been drawn. -/
  clock : r.2.1.db.clock = w.db.clock + 2

/-- Applying a single write. -/
theorem dbApplyWriteSetMem_single (commitTs : ℕ) (e : WriteEntry) (w : MemWorld)
    (mem : List Bool) : (dbApplyWriteSetMem commitTs [e] w mem).1 =
        (logEntry w.toWorld e commitTs).1 ∧
      (dbApplyWriteSetMem commitTs [e] w mem).2.1.db.txnMgr = w.db.txnMgr ∧
      (dbApplyWriteSetMem commitTs [e] w mem).2.1.db.ht =
        if (logEntry w.toWorld e commitTs).1 = .ok then
          (htInsertVersionMem w.db.ht commitTs e.key e.value mem).2.1 else w.db.ht := by
  have hht := logEntry_ht w.toWorld e commitTs
  have hmgr := logEntry_txnMgr w.toWorld e commitTs
  unfold dbApplyWriteSetMem
  simp only
  by_cases hok : (logEntry w.toWorld e commitTs).1 = .ok
  · obtain ⟨happlied, hkept⟩ :=
      applyEntryMem_db (logEntry w.toWorld e commitTs).2.db w.losses e commitTs mem
    rw [if_pos hok, if_pos hok, hok, ← hht, ← hmgr]
    exact ⟨rfl, hkept, happlied⟩
  · rw [if_neg hok, if_neg hok]
    exact ⟨rfl, hmgr, hht⟩

/-- Committing a single write. -/
theorem txnMgrCommitMem_single (w : MemWorld) (txn : Txn) {e : WriteEntry}
    (hopen : txn.Writable) (hwrites : txn.writes = [e])
    (hnew : dbCheckConflicts w.db [e] txn.beginTs = .ok) (hclock : w.db.clock + 1 < tsMax)
    (mem : List Bool) :
    (txnMgrCommitMem w txn mem).1 = (logEntry w.toWorld e w.db.clock).1 ∧
      (txnMgrCommitMem w txn mem).2.1.db.clock = w.db.clock + 1 ∧
      (txnMgrCommitMem w txn mem).2.1.db.ht =
        (if (logEntry w.toWorld e w.db.clock).1 = .ok then
          (htInsertVersionMem w.db.ht w.db.clock e.key e.value mem).2.1 else w.db.ht) ∧
      (txnMgrCommitMem w txn mem).2.2.writes = [e] := by
  have hlogged : (logEntry w.toWorld.drawn e w.db.clock).1 = (logEntry w.toWorld e w.db.clock).1 :=
    logEntry_err_congr w.toWorld (show w.toWorld.drawn.db.wal = w.db.wal from rfl) e w.db.clock
  obtain ⟨hrc, hmgr, hht⟩ :=
    dbApplyWriteSetMem_single w.db.clock e ⟨w.toWorld.drawn, w.losses⟩ mem
  have hdrawn : w.toWorld.drawn.db.clock = w.db.clock + 1 := World.drawn_clock hclock
  rw [hlogged] at hrc hht
  have hwrite : (!txn.readOnly && !txn.writes.isEmpty) = true := by
    rw [hopen.readWrite, hwrites]
    rfl
  have hcommit : txnMgrCommitMem w txn mem =
      let r := dbApplyWriteSetMem w.db.clock [e] ⟨w.toWorld.drawn, w.losses⟩ mem
      let txn := { txn with commitTs := w.db.clock }
      let closed := if r.1 = .ok then r.2.1.toWorld.finish txn else r.2.1.toWorld.abort txn
      (r.1, ⟨closed.1, r.2.1.losses⟩, closed.2) := by
    unfold txnMgrCommitMem
    rw [if_neg (by simp [hopen.active]), if_pos hwrite, hwrites]
    simp only [hnew, if_true]
    rfl
  rw [hcommit]
  generalize dbApplyWriteSetMem w.db.clock [e] ⟨w.toWorld.drawn, w.losses⟩ mem = r at hrc hmgr hht
  have hclosed : r.2.1.db.clock = w.db.clock + 1 := by
    rw [← hdrawn]
    exact congrArg (fun mgr : TxnMgr => mgr.oracle.clock) hmgr
  simp only
  by_cases hok : r.1 = .ok
  · rw [if_pos hok]
    refine ⟨hrc, ?_, hht, hwrites⟩
    rw [← hclosed]
    exact clock_oracleRelease _ _
  · obtain ⟨habort, -, hclock', -, -⟩ := r.2.1.toWorld.abort_db { txn with commitTs := w.db.clock }
    have hkept : (r.2.1.toWorld.abort { txn with commitTs := w.db.clock }).2.writes = [e] := by
      unfold World.abort txnMgrAbort
      rw [if_neg (by simp [hopen.active])]
      exact hwrites
    rw [if_neg hok]
    exact ⟨hrc, hclock'.trans hclosed, habort.trans hht, hkept⟩

/-- A transaction that cannot begin. -/
theorem txnBeginMem_refused {db : Db} {mem : List Bool}
    (h : db.opts.readOnly = true ∨ begins mem = false) :
    ∃ rc rest, rc ≠ .ok ∧ txnBeginMem db false mem = (.error rc, rest) := by
  unfold txnBeginMem
  by_cases hro : db.opts.readOnly = true
  · rw [if_pos (by simp [hro])]
    exact ⟨.txnRo, mem, nofun, rfl⟩
  · have hmgr := txnMgrBeginMem_eq db.txnMgr false mem
    rw [if_neg (by simp [h.resolve_left hro])] at hmgr
    rw [if_neg (by simp [hro])]
    generalize txnMgrBeginMem db.txnMgr false mem = r at hmgr
    obtain ⟨outcome, rest⟩ := r
    simp only at hmgr
    subst hmgr
    exact ⟨.nomem, rest, nofun, rfl⟩

/-- A transaction that begins does so as with memory enough. -/
theorem txnBeginMem_begins {db : Db} {mem : List Bool} (hro : ¬ db.opts.readOnly = true)
    (hmem : begins mem = true) : ∃ txn db', txnBegin db false = .ok (txn, db') ∧
      txnBeginMem db false mem = (.ok (txn, newArena, db'), mem.drop 3) := by
  have hmgr := txnMgrBeginMem_eq db.txnMgr false mem
  rw [if_pos hmem] at hmgr
  have hwrite : ¬ (!false && db.opts.readOnly) = true := by simp [hro]
  refine ⟨(txnMgrBegin db.txnMgr false).1,
    { db with txnMgr := (txnMgrBegin db.txnMgr false).2 }, ?_, ?_⟩
  · unfold txnBegin
    rw [if_neg hwrite]
  · unfold txnBeginMem
    rw [if_neg hwrite, hmgr]

/-- A write that is too large. -/
theorem txnPutMem_refused {key val : Bytes}
    (h : maxKeyLen < key.length ∨ maxValLen < val.length) (txn : Txn) (arena : Arena)
    (mem : List Bool) : ∃ rc, rc ≠ .ok ∧
      txnPutMem txn arena key (some val) mem = (rc, txn, arena, mem) := by
  unfold txnPutMem
  by_cases hkey : maxKeyLen < key.length
  · rw [if_pos hkey]
    exact ⟨.keysize, nofun, rfl⟩
  · rw [if_neg hkey, if_pos (by exact h.resolve_left hkey)]
    exact ⟨.valsize, nofun, rfl⟩

/-- A put fails where it is refused, and else it commits its write. -/
theorem fastkvPutMem_cases {w : MemWorld} (hb : w.db.ht.Bounded w.db.clock)
    (hclock : w.db.clock + 2 < tsMax) (key val : Bytes) (mem : List Bool) :
    PutRefused w key val mem ∧ PutFails w (fastkvPutMem w key (some val) mem) ∨
      ¬ PutRefused w key val mem ∧ PutCommits w (putEntry key val mem)
        (afterValue key val (mem.drop 3)) (fastkvPutMem w key (some val) mem) := by
  have htick : add64 w.db.clock 1 = w.db.clock + 1 := add64_eq (by unfold tsMax at hclock; omega)
  by_cases hbegins : w.db.opts.readOnly = true ∨ begins mem = false
  · left
    obtain ⟨rc, rest, hrc, hbegin⟩ := txnBeginMem_refused hbegins
    unfold fastkvPutMem
    rw [hbegin]
    exact ⟨hbegins.elim .readOnly .memory, hrc, rfl, rfl, Nat.le_refl _, Nat.le_add_right _ _⟩
  · obtain ⟨hro, hmem⟩ := not_or.mp hbegins
    obtain ⟨txn, db, hbegin, hbeginMem⟩ :=
      txnBeginMem_begins hro (Bool.eq_true_of_not_eq_false hmem)
    obtain ⟨hts, -, -, -, hht, -, hnext, hwal⟩ := txnBegin_spec hbegin
    obtain ⟨hopen, hwrites⟩ := txnBegin_writable hbegin
    rw [htick] at hnext
    unfold fastkvPutMem
    rw [hbeginMem]
    simp only
    by_cases hsizes : maxKeyLen < key.length ∨ maxValLen < val.length
    · left
      obtain ⟨rc, hrc, hput⟩ := txnPutMem_refused hsizes txn newArena (mem.drop 3)
      obtain ⟨habort, -, hclosed, -, -⟩ := World.abort_db ⟨db, w.disk⟩ txn
      refine ⟨hsizes.elim .keySize .valueSize, ?_⟩
      have hlater : (World.abort ⟨db, w.disk⟩ txn).1.db.clock = w.db.clock + 1 :=
        hclosed.trans hnext
      rw [hput]
      cases rc with
      | ok => exact absurd rfl hrc
      | _ =>
        exact ⟨hrc, rfl, habort.trans hht, le_of_le_of_eq (Nat.le_succ _) hlater.symm,
          le_of_eq_of_le hlater (Nat.le_succ _)⟩
    · obtain ⟨hkey, hval⟩ := not_or.mp hsizes
      obtain ⟨arena, writeCount, hput⟩ : ∃ arena writeCount,
          txnPutMem txn newArena key (some val) (mem.drop 3) =
            (.ok, { txn with writes := [putEntry key val mem], writeCount }, arena,
              afterValue key val (mem.drop 3)) :=
        txnPutMem_first hopen hwrites (Nat.le_of_not_lt hkey) (Nat.le_of_not_lt hval) _
      have hnew : dbCheckConflicts db [putEntry key val mem] txn.beginTs = .ok := by
        rw [hts]
        exact dbCheckConflicts_of_bounded (by rw [hht]; exact hb) _
      obtain ⟨hrc, hclosed, hafter, hcommitted⟩ := txnMgrCommitMem_single
        ⟨⟨db, w.disk⟩, w.losses⟩ { txn with writes := [putEntry key val mem], writeCount }
        ⟨hopen.active, hopen.readWrite⟩ rfl hnew (by show db.clock + 1 < tsMax; omega)
        (afterValue key val (mem.drop 3))
      have hlog : (logEntry ⟨db, w.disk⟩ (putEntry key val mem) db.clock).1 =
          (logEntry w.toWorld (putEntry key val mem) (add64 w.db.clock 1)).1 := by
        rw [htick, ← hnext]
        exact logEntry_err_congr w.toWorld hwal _ _
      rw [hput]
      simp only
      generalize txnMgrCommitMem ⟨⟨db, w.disk⟩, w.losses⟩ _ _ = r at hrc hclosed hafter hcommitted
      by_cases hok : (logEntry ⟨db, w.disk⟩ (putEntry key val mem) db.clock).1 = .ok
      · right
        rw [if_pos hok, hnext] at hafter
        constructor
        · rintro (h | h | h | h | h)
          · exact hro h
          · exact hmem h
          · exact hkey h
          · exact hval h
          · exact h (hlog ▸ hok)
        · have hdone : r.1 = .ok := hrc.trans hok
          rw [if_pos hdone]
          exact ⟨hdone, hcommitted, by rw [← hht]; exact hafter,
            hclosed.trans (congrArg (· + 1) hnext)⟩
      · left
        rw [if_neg hok] at hafter
        have hfails : ¬ r.1 = .ok := fun h => hok (hrc.symm.trans h)
        have hlater : r.2.1.db.clock = w.db.clock + 2 :=
          hclosed.trans (congrArg (· + 1) hnext)
        rw [if_neg hfails]
        constructor
        · exact .log fun h => hok (hlog.trans h)
        · exact ⟨hfails, rfl, hafter.trans hht, by rw [hlater]; omega, le_of_eq hlater⟩

/-! ## What is read afterwards -/

/-- Memory or not, a put keeps the versions older than the clock. -/
theorem fastkvPutMem_bounded {w : MemWorld} (hb : w.db.ht.Bounded w.db.clock)
    (hclock : w.db.clock + 2 < tsMax) (key val : Bytes) (mem : List Bool) :
    (fastkvPutMem w key (some val) mem).2.1.db.ht.Bounded
      (fastkvPutMem w key (some val) mem).2.1.db.clock := by
  rcases fastkvPutMem_cases hb hclock key val mem with ⟨-, hfails⟩ | ⟨-, hcommits⟩
  · rw [hfails.ht]
    exact hb.mono hfails.clock_le
  · have hlater := hb.mono (Nat.le_add_right w.db.clock 2)
    rw [hcommits.ht, hcommits.clock]
    rcases htInsertVersionMem_cases w.db.ht (w.db.clock + 1) key (putEntry key val mem).value
      (afterValue key val (mem.drop 3)) with hnew | hold
    · rw [show (putEntry key val mem).key = key from rfl, hnew]
      exact hlater.insert (by omega) key _
    · rw [show (putEntry key val mem).key = key from rfl, hold]
      exact hlater

/-- A put whose value is copied serves its callers if the new version is inserted or not needed. -/
theorem PutCommits.serves {w : MemWorld} {key val : Bytes} {mem : List Bool}
    {r : Err × MemWorld × List WriteEntry} (h : PutCommits w ⟨key, some val⟩ mem r)
    (hb : r.2.1.db.ht.Bounded r.2.1.db.clock) (hclock : w.db.clock + 2 < tsMax)
    (hkey : key.length ≤ maxKeyLen) (hval : val ≠ []) :
    PutServes w key val r ↔ copiesVersion key mem = true ∨ w.db.ht.live key = some val := by
  have hread : (fastkvGet r.2.1.toWorld key).1 = readResult
      (if copiesVersion key mem then some val else w.db.ht.live key) := by
    rw [fastkvGet_eq hb (by rw [h.clock]; exact hclock), if_neg (by omega), h.ht]
    simp only [htInsertVersionMem_eq w.db.ht (w.db.clock + 1) key hval mem]
    by_cases hcopies : copiesVersion key mem = true
    · rw [if_pos hcopies, if_pos hcopies, live_htInsertVersion, if_pos rfl, sliceDup_of_ne hval]
    · rw [if_neg hcopies, if_neg hcopies]
  constructor
  · intro hserves
    have hdone := hread.symm.trans (hserves.done h.rc)
    by_cases hcopies : copiesVersion key mem = true
    · exact Or.inl hcopies
    · rw [if_neg hcopies] at hdone
      exact Or.inr (readResult_inj (b := some val) hdone)
  · intro hor
    refine ⟨fun _ => ?_, fun hfailed => absurd h.rc hfailed, fun e he => ?_⟩
    · rw [hread]
      by_cases hcopies : copiesVersion key mem = true
      · rw [if_pos hcopies]
        rfl
      · rw [if_neg hcopies, hor.resolve_left hcopies]
        rfl
    · rw [h.committed] at he
      cases List.mem_singleton.mp he
      exact Option.some_ne_none val

/-- In every database, whatever allocations fail, a put serves its callers if and only if it is
refused, or the value is copied and the new version is inserted or says what is read anyway. -/
theorem put_serves_iff {w : MemWorld} (hb : w.db.ht.Bounded w.db.clock)
    (hclock : w.db.clock + 2 < tsMax) (key : Bytes) {val : Bytes} (hval : val ≠ [])
    (mem : List Bool) :
    PutServes w key val (fastkvPutMem w key (some val) mem) ↔ PutSpared w key val mem := by
  have hlater := fastkvPutMem_bounded hb hclock key val mem
  rcases fastkvPutMem_cases hb hclock key val mem with ⟨hrefused, hfails⟩ | ⟨hnot, hcommits⟩
  · refine iff_of_true ?_ (Or.inl hrefused)
    have hafter := hfails.clock_le_add
    constructor
    · exact fun hok => absurd hok hfails.rc
    · intro _
      rw [fastkvGet_eq hlater (by omega), fastkvGet_eq hb (by omega), hfails.ht]
    · rw [hfails.committed]
      exact fun e he => absurd he List.not_mem_nil
  · by_cases hcopies : copiesValue key val (mem.drop 3) = true
    · have hkey : key.length ≤ maxKeyLen := by
        by_contra hlong
        exact hnot (.keySize (Nat.lt_of_not_le hlong))
      unfold putEntry at hcommits
      rw [if_pos hcopies] at hcommits
      rw [hcommits.serves hlater hclock hkey hval]
      constructor
      · exact fun hor => Or.inr ⟨hcopies, hor⟩
      · exact fun hspared => (hspared.resolve_left hnot).2
    · refine iff_of_false (fun hserves => ?_) fun hspared => ?_
      · apply hserves.not_deleted (putEntry key val mem)
        · rw [hcommits.committed]
          exact List.mem_singleton_self _
        · exact if_neg hcopies
      · exact hcopies (hspared.resolve_left hnot).1

/-- A new database after a first put. -/
def onePut : MemWorld := (fastkvPutMem ⟨newWorld, [], []⟩ [1] (some [7]) []).2.1

/-- The value is put once more, and there is no memory for the node of the new version. The put
succeeds without it, and the value is read. -/
theorem put_serves_again :
    PutServes onePut [1] [7] (fastkvPutMem onePut [1] (some [7]) [true, true, true, false]) ∧
      (fastkvPutMem onePut [1] (some [7]) [true, true, true, false]).1 = .ok ∧
      (fastkvPutMem onePut [1] (some [7]) [true, true, true, false]).2.1.db.ht.versions [1] =
        onePut.db.ht.versions [1] := by
  have hbounded : onePut.db.ht.Bounded onePut.db.clock :=
    fastkvPutMem_bounded newWorld_reachable.invariant.1 (by decide +kernel) [1] [7] []
  have hlive : onePut.db.ht.live [1] = some [7] := by decide +kernel
  have hspared : PutSpared onePut [1] [7] [true, true, true, false] :=
    Or.inr ⟨by decide, Or.inr hlive⟩
  exact ⟨(put_serves_iff hbounded (by decide +kernel) [1] (List.cons_ne_nil 7 []) _).mpr hspared,
    by decide +kernel, by decide +kernel⟩

/-- A value that fills a block is not copied behind the key. -/
theorem copiesValue_large {key val : Bytes} (hval : arenaDefaultBlock ≤ val.length)
    (mem : List Bool) : copiesValue key val mem = mem.headD true := by
  have hroom : (keyArena key).hasRoom val = false := by
    unfold Arena.hasRoom
    apply decide_eq_false
    show ¬ _ ≤ arenaDefaultBlock
    omega
  unfold copiesValue
  rw [hroom, Bool.false_or]
  rfl

/-- A value that fills a block needs one of its own. Without it the put succeeds and commits a
deletion. -/
theorem failed_value_copy_not_served :
    ¬ PutServes ⟨newWorld, [], []⟩ [1] (List.replicate arenaDefaultBlock 7)
      (fastkvPutMem ⟨newWorld, [], []⟩ [1] (some (List.replicate arenaDefaultBlock 7))
        [true, true, true, false]) := by
  have hlen : (List.replicate arenaDefaultBlock (7 : UInt8)).length = arenaDefaultBlock :=
    List.length_replicate
  generalize List.replicate arenaDefaultBlock (7 : UInt8) = val at hlen
  intro hserves
  have hentry : putEntry [1] val [true, true, true, false] = ⟨[1], none⟩ := by
    unfold putEntry
    rw [copiesValue_large (le_of_eq hlen.symm)]
    rfl
  rcases fastkvPutMem_cases (w := ⟨newWorld, [], []⟩) newWorld_reachable.invariant.1
      (by decide +kernel) [1] val [true, true, true, false] with
    ⟨hrefused, -⟩ | ⟨-, hcommits⟩
  · cases hrefused with
    | readOnly h => exact absurd h (by decide)
    | memory h => exact absurd h (by decide)
    | keySize h => exact absurd h (by decide)
    | valueSize h =>
      rw [hlen] at h
      exact absurd h (by decide)
    | log h =>
      rw [hentry] at h
      exact h (by decide +kernel)
  · rw [hentry] at hcommits
    apply hserves.not_deleted ⟨[1], none⟩ _ rfl
    rw [hcommits.committed]
    exact List.mem_singleton_self _

end FastKV
