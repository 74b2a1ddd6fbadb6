import FastKV.System

/-!
# Invariants of all runs

What holds in every state that the engine reaches from a new directory, whatever the
operating system answers: the timestamps in the table are older than the clock, no key has
two live versions, nothing expires, and open transactions began before now. The clock
advances by at most one in each step, so a run that is shorter than the range of the clock
does not wrap it.
-/

namespace FastKV

/-- The clock of a database. -/
def Db.clock (db : Db) : ℕ := db.txnMgr.oracle.clock

/-! ## Parts of a step -/

/-- With no expiry times nothing expires. -/
theorem ttlExpire_of_init {w : World} (h : w.db.ttl = ttlInit) (now : ℕ) : ttlExpire w now = w := by
  unfold ttlExpire
  rw [h]
  rfl

/-- Applying a write keeps the expiry trees empty. -/
theorem applyEntry_ttl {db : Db} (h : db.ttl = ttlInit) (e : WriteEntry) (commitTs : ℕ) :
    (applyEntry db e commitTs).ttl = ttlInit := by
  unfold applyEntry
  cases e.value with
  | some value => exact h
  | none =>
    simp only [h]
    rfl

/-- Applying writes keeps the expiry trees empty. -/
theorem applyEntries_ttl {db : Db} (h : db.ttl = ttlInit) (es : List WriteEntry) (commitTs : ℕ) :
    (applyEntries commitTs es db).ttl = ttlInit := by
  induction es generalizing db with
  | nil => exact h
  | cons e es ih => exact ih (applyEntry_ttl h e commitTs)

/-- Applying a write set applies a beginning of it; all of it on success. -/
theorem dbApplyWriteSet_cases (commitTs : ℕ) (es : List WriteEntry) : ∀ w : World,
    ∃ k wal, (dbApplyWriteSet commitTs es w).2.db =
        { applyEntries commitTs (es.take k) w.db with wal } ∧
      ((dbApplyWriteSet commitTs es w).1 = .ok → es.take k = es) := by
  induction es with
  | nil => exact fun w => ⟨0, w.db.wal, rfl, fun _ => rfl⟩
  | cons e es ih =>
    intro w
    have hlog : ∃ wal, (logEntry w e commitTs).2.db = { w.db with wal } := by
      unfold logEntry
      split
      · exact ⟨w.db.wal, rfl⟩
      · exact ⟨_, rfl⟩
    obtain ⟨wal, hwal⟩ := hlog
    unfold dbApplyWriteSet
    simp only
    split
    · obtain ⟨k, wal', heq, hall⟩ := ih
        { (logEntry w e commitTs).2 with db := applyEntry (logEntry w e commitTs).2.db e commitTs }
      refine ⟨k + 1, wal', ?_, fun hok => by rw [List.take_succ_cons, hall hok]⟩
      rw [heq]
      simp only [hwal, applyEntry_wal, applyEntries_wal]
      rfl
    · rename_i hfail
      exact ⟨0, wal, hwal, fun hok => absurd hok hfail⟩

/-- Inserting versions at a timestamp below the clock keeps the table bounded. -/
theorem Ht.Bounded.insertEntries {ht : Ht} {clock commitTs : ℕ} (h : ht.Bounded clock)
    (hts : commitTs < clock) (es : List WriteEntry) :
    (insertEntries commitTs es ht).Bounded clock := by
  induction es generalizing ht with
  | nil => exact h
  | cons e es ih => exact ih (h.insert hts e.key e.value)

/-- Inserting versions keeps one live version for each key. -/
theorem Ht.OneLive.insertEntries {ht : Ht} (h : ht.OneLive) {commitTs : ℕ} (hts : commitTs ≠ tsMax)
    (es : List WriteEntry) : (insertEntries commitTs es ht).OneLive := by
  induction es generalizing ht with
  | nil => exact h
  | cons e es ih => exact ih (h.insert hts e.key e.value)

/-- Inserting versions keeps values non-empty. -/
theorem Ht.NoEmpty.insertEntries {ht : Ht} (h : ht.NoEmpty) (commitTs : ℕ)
    (es : List WriteEntry) : (insertEntries commitTs es ht).NoEmpty := by
  induction es generalizing ht with
  | nil => exact h
  | cons e es ih => exact ih (h.insert commitTs e.key e.value)

/-- What a database keeps when versions are written and collected while the clock advances
by at most `n`. -/
structure Db.Evolves (n : ℕ) (db db' : Db) : Prop where
  /-- The clock does not go back. -/
  clock_le : db.clock ≤ db'.clock
  /-- It advances by at most `n`. -/
  clock_le_add : db'.clock ≤ db.clock + n
  /-- Versions are older than the clock. -/
  bounded : db.ht.Bounded db.clock → db'.ht.Bounded db'.clock
  /-- No key has two live versions. -/
  oneLive : db.ht.OneLive → db'.ht.OneLive
  /-- No value is empty. -/
  noEmpty : db.ht.NoEmpty → db'.ht.NoEmpty

/-- Same table and clock. -/
theorem Db.Evolves.of_eq {db db' : Db} {n : ℕ} (hht : db'.ht = db.ht)
    (hclock : db'.clock = db.clock) : db.Evolves n db' :=
  ⟨by omega, by omega, fun h => by rw [hht, hclock]; exact h, fun h => by rw [hht]; exact h,
    fun h => by rw [hht]; exact h⟩

/-- One evolution after another. -/
theorem Db.Evolves.trans {db db₁ db' : Db} {m n : ℕ} (h : db.Evolves m db₁)
    (h' : db₁.Evolves n db') : db.Evolves (m + n) db' := by
  have hle := h.clock_le_add
  have hle' := h'.clock_le_add
  exact ⟨h.clock_le.trans h'.clock_le, by omega, fun hb => h'.bounded (h.bounded hb),
    fun ho => h'.oneLive (h.oneLive ho), fun hne => h'.noEmpty (h.noEmpty hne)⟩

/-- Aborting only touches the transaction manager. -/
theorem World.abort_db (w : World) (txn : Txn) :
    (w.abort txn).1.db.ht = w.db.ht ∧ (w.abort txn).1.db.ttl = w.db.ttl ∧
      (w.abort txn).1.db.clock = w.db.clock ∧ (w.abort txn).1.db.wal = w.db.wal ∧
      (w.abort txn).1.disk = w.disk := by
  by_cases h : txn.state = .aborted
  · simp only [World.abort, txnMgrAbort, if_pos h, and_self]
  · simp only [World.abort, txnMgrAbort, if_neg h, Db.clock, clock_oracleRelease, and_self]

/-- Replace the transaction manager. -/
def World.withMgr (w : World) (mgr : TxnMgr) : World := { w with db := { w.db with txnMgr := mgr } }

/-- The world in which a commit that passed the conflict check applies its writes: the
timestamp is drawn. -/
def World.drawn (w : World) : World :=
  { w with db := { w.db with txnMgr := { w.db.txnMgr with
    oracle := (oracleCommit w.db.txnMgr.oracle).2 } } }

/-- What a commit that applies nothing returns. -/
inductive Refusal (w : World) (txn : Txn) : Err → Prop
  /-- The transaction is closed already. -/
  | closed : txn.state ≠ .active → Refusal w txn .txnClosed
  /-- There is nothing to apply. -/
  | nothing : txn.state = .active → (txn.readOnly = true ∨ txn.writes = []) → Refusal w txn .ok
  /-- A written key has changed. -/
  | conflict : txn.state = .active → txn.readOnly = false →
      dbCheckConflicts w.db txn.writes txn.beginTs ≠ .ok → Refusal w txn .txnConflict

/-- A transaction whose writes a commit applies. -/
structure Applies (w : World) (txn : Txn) : Prop where
  /-- It is open. -/
  active : txn.state = .active
  /-- It may write. -/
  readWrite : txn.readOnly = false
  /-- It has written. -/
  writes : txn.writes ≠ []
  /-- No written key has changed. -/
  noConflict : dbCheckConflicts w.db txn.writes txn.beginTs = .ok

/-- A conflict check succeeds or finds a conflict. -/
theorem dbCheckConflicts_ne_ok {db : Db} {writes : List WriteEntry} {beginTs : ℕ}
    (h : dbCheckConflicts db writes beginTs ≠ .ok) :
    dbCheckConflicts db writes beginTs = .txnConflict := by
  unfold dbCheckConflicts at h ⊢
  split
  · rfl
  · rename_i hany
    rw [if_neg hany] at h
    exact absurd rfl h

/-- What a commit does. Only the transaction manager changes, or the writes are applied, as
far as that works, at the clock. -/
theorem txnCommit_cases (w : World) (txn : Txn) :
    (Refusal w txn (txnCommit w txn).1 ∧ ∃ mgr : TxnMgr, mgr.oracle.clock = w.db.clock ∧
      (txnCommit w txn).2.1 = w.withMgr mgr) ∨
    (Applies w txn ∧ (txnCommit w txn).1 = (dbApplyWriteSet w.db.clock txn.writes w.drawn).1 ∧
      (txnCommit w txn).2.2.commitTs = w.db.clock ∧
      ∃ mgr : TxnMgr, mgr.oracle.clock =
        (dbApplyWriteSet w.db.clock txn.writes w.drawn).2.db.clock ∧
        (txnCommit w txn).2.1 =
          (dbApplyWriteSet w.db.clock txn.writes w.drawn).2.withMgr mgr) := by
  by_cases hstate : txn.state = .active
  · by_cases hwrites : txn.readOnly = true ∨ txn.writes = []
    · refine Or.inl ⟨?_, ?_⟩
      all_goals
        have hskip : (!txn.readOnly && !txn.writes.isEmpty) = false := by
          rcases hwrites with h | h <;> simp [h]
        simp only [txnCommit, txnMgrCommit, hstate, hskip, ne_eq, not_true_eq_false, if_false,
          Bool.false_eq_true]
      · exact .nothing hstate hwrites
      · exact ⟨_, clock_oracleRelease _ _, rfl⟩
    · have hro : txn.readOnly = false := by
        cases h : txn.readOnly with
        | false => rfl
        | true => exact absurd (Or.inl h) hwrites
      have hne : txn.writes ≠ [] := fun h => hwrites (Or.inr h)
      have hgo : (!txn.readOnly && !txn.writes.isEmpty) = true := by simp [hro, hne]
      by_cases hcheck : dbCheckConflicts w.db txn.writes txn.beginTs = .ok
      · refine Or.inr ⟨⟨hstate, hro, hne, hcheck⟩, ?_⟩
        simp only [txnCommit, txnMgrCommit, hstate, hgo, hcheck, ne_eq, not_true_eq_false, if_false,
          if_true]
        rcases happly : dbApplyWriteSet (oracleCommit w.db.txnMgr.oracle).1 txn.writes w.drawn
          with ⟨rc, w'⟩
        have hclock : (oracleCommit w.db.txnMgr.oracle).1 = w.db.clock := rfl
        have hdrawn : w.drawn = { w with db := { w.db with txnMgr := { w.db.txnMgr with
          oracle := (oracleCommit w.db.txnMgr.oracle).2 } } } := rfl
        rw [hdrawn] at happly ⊢
        rw [hclock] at happly ⊢
        simp only [happly]
        by_cases hrc : rc = .ok
        · simp only [if_pos hrc, World.finish]
          exact ⟨hrc.symm, trivial, _, clock_oracleRelease _ _, rfl⟩
        · simp only [if_neg hrc, World.abort, txnMgrAbort]
          exact ⟨trivial, rfl, _, clock_oracleRelease _ _, rfl⟩
      · refine Or.inl ?_
        have hconflict := dbCheckConflicts_ne_ok hcheck
        have hrefusal : Refusal w txn .txnConflict := .conflict hstate hro hcheck
        simp only [txnCommit, txnMgrCommit, hstate, hgo, hconflict, ne_eq, not_true_eq_false,
          if_false, if_true, reduceCtorEq, World.abort, txnMgrAbort]
        exact ⟨hrefusal, _, clock_oracleRelease _ _, rfl⟩
  · refine Or.inl ⟨?_, w.db.txnMgr, rfl, ?_⟩
    · simp only [txnCommit, txnMgrCommit, ne_eq, hstate, not_false_eq_true, if_true]
      exact .closed hstate
    · simp only [txnCommit, txnMgrCommit, ne_eq, hstate, not_false_eq_true, if_true]
      rfl

/-- A commit that applies its writes. -/
theorem Applies.txnCommit_eq {w : World} {txn : Txn} (h : Applies w txn) :
    (txnCommit w txn).1 = (dbApplyWriteSet w.db.clock txn.writes w.drawn).1 ∧
      (txnCommit w txn).2.2.commitTs = w.db.clock ∧
      ∃ mgr : TxnMgr, mgr.oracle.clock =
        (dbApplyWriteSet w.db.clock txn.writes w.drawn).2.db.clock ∧
        (txnCommit w txn).2.1 =
          (dbApplyWriteSet w.db.clock txn.writes w.drawn).2.withMgr mgr := by
  rcases txnCommit_cases w txn with ⟨hrefusal, -⟩ | ⟨-, heq⟩
  · exfalso
    generalize (txnCommit w txn).1 = rc at hrefusal
    cases hrefusal with
    | closed hstate => exact hstate h.active
    | nothing _ hnothing =>
      rcases hnothing with hro | hnil
      · rw [h.readWrite] at hro
        cases hro
      · exact h.writes hnil
    | conflict _ _ hcheck => exact hcheck h.noConflict
  · exact heq

/-- The clock after the draw. -/
theorem World.drawn_clock {w : World} (hclock : w.db.clock + 1 < tsMax) :
    w.drawn.db.clock = w.db.clock + 1 :=
  add64_eq (by unfold tsMax Db.clock at hclock; omega)

/-- Applying a write set, or a beginning of it, writes versions with the drawn timestamp. -/
theorem dbApplyWriteSet_evolves {w : World} (hclock : w.db.clock + 1 < tsMax)
    (es : List WriteEntry) : w.db.Evolves 1 (dbApplyWriteSet w.db.clock es w.drawn).2.db := by
  obtain ⟨k, wal, heq, -⟩ := dbApplyWriteSet_cases w.db.clock es w.drawn
  have hnext : (dbApplyWriteSet w.db.clock es w.drawn).2.db.clock = w.db.clock + 1 := by
    rw [heq, ← World.drawn_clock hclock]
    simp only [Db.clock, applyEntries_txnMgr]
  have hht : (dbApplyWriteSet w.db.clock es w.drawn).2.db.ht =
      insertEntries w.db.clock (es.take k) w.db.ht := by
    rw [heq]
    exact applyEntries_ht _ _ _
  refine ⟨by omega, hnext.le, fun hb => ?_, fun ho => ?_, fun hne => ?_⟩
  · rw [hht, hnext]
    exact (hb.mono (Nat.le_succ _)).insertEntries (Nat.lt_succ_self _) _
  · rw [hht]
    exact ho.insertEntries (by omega) _
  · rw [hht]
    exact hne.insertEntries _ _

/-- A commit draws one timestamp and writes versions with it. -/
theorem txnCommit_evolves {w : World} (hclock : w.db.clock + 1 < tsMax) (txn : Txn) :
    w.db.Evolves 1 (txnCommit w txn).2.1.db := by
  rcases txnCommit_cases w txn with ⟨-, mgr, hmgr, heq⟩ | ⟨-, -, -, mgr, hmgr, heq⟩
  · rw [heq]
    exact .of_eq rfl hmgr
  · rw [heq]
    exact (dbApplyWriteSet_evolves hclock txn.writes).trans (n := 0) (.of_eq rfl hmgr)

/-- Collecting garbage keeps the invariants of the table. -/
theorem World.gc_evolves (w : World) : w.db.Evolves 0 w.gc.db :=
  ⟨Nat.le_refl _, Nat.le_refl _, fun hb => hb.gc _, fun ho => ho.gc _, fun hne => hne.gc _⟩

/-- Aborting keeps the invariants of the table. -/
theorem World.abort_evolves (w : World) (txn : Txn) {n : ℕ} :
    w.db.Evolves n (w.abort txn).1.db := by
  obtain ⟨hht, -, hclock, -, -⟩ := w.abort_db txn
  exact .of_eq hht hclock

/-- Beginning a transaction. -/
theorem txnBegin_spec {db db' : Db} {readOnly : Bool} {txn : Txn}
    (h : txnBegin db readOnly = .ok (txn, db')) :
    txn.beginTs = db.clock ∧ txn.state = .active ∧ txn.writes = [] ∧ txn.readOnly = readOnly ∧
      db'.ht = db.ht ∧ db'.ttl = db.ttl ∧ db'.clock = add64 db.clock 1 ∧ db'.wal = db.wal := by
  unfold txnBegin at h
  split at h
  · cases h
  · obtain ⟨hts, hclock⟩ := oracleBegin_clock db.txnMgr.oracle
    simp only [txnMgrBegin, Except.ok.injEq, Prod.mk.injEq] at h
    obtain ⟨rfl, rfl⟩ := h
    exact ⟨hts, rfl, rfl, rfl, rfl, rfl, hclock, rfl⟩

/-- Beginning a transaction draws one timestamp. -/
theorem txnBegin_evolves {db db' : Db} {readOnly : Bool} {txn : Txn}
    (hclock : db.clock + 1 < tsMax) (h : txnBegin db readOnly = .ok (txn, db')) :
    db.Evolves 1 db' := by
  obtain ⟨-, -, -, -, hht, -, hnext, -⟩ := txnBegin_spec h
  rw [add64_eq (by unfold tsMax at hclock; omega)] at hnext
  refine ⟨by omega, by omega, fun hb => ?_, fun ho => ?_, fun hne => ?_⟩
  · rw [hht, hnext]
    exact hb.mono (Nat.le_succ _)
  · rw [hht]
    exact ho
  · rw [hht]
    exact hne

/-- A single write draws at most two timestamps. -/
theorem singleWrite_evolves {w : World} (hclock : w.db.clock + 2 < tsMax)
    (write : Txn → Err × Txn) : w.db.Evolves 2 (singleWrite w write).2.db := by
  unfold singleWrite
  split
  · exact .of_eq rfl rfl
  · rename_i txn db hbegin
    have hfirst := txnBegin_evolves (by omega) hbegin
    have hle := hfirst.clock_le_add
    simp only
    split
    · have hroom : ({ w with db } : World).db.clock + 1 < tsMax := by
        show db.clock + 1 < _
        omega
      exact hfirst.trans (txnCommit_evolves hroom _)
    · exact hfirst.trans (World.abort_evolves { w with db } (write txn).2 (n := 1))

/-- Expiry passes over a key or deletes it, the latter only if it has an expiry time. -/
theorem ttlExpire_induction {P : List Bytes → World → Prop} {w : World} {now : ℕ}
    (hskip : ∀ pk keys w', P (pk :: keys) w' → P keys w')
    (hdelete : ∀ pk keys w', P (pk :: keys) w' → (w'.db.ttl.expiry pk).isSome →
      P keys (fastkvDelete w' pk).2)
    (h : P (expiredKeys w.db.ttl now) w) : P [] (ttlExpire w now) := by
  unfold ttlExpire
  generalize expiredKeys w.db.ttl now = keys at h
  induction keys generalizing w with
  | nil => exact h
  | cons pk keys ih =>
    rw [List.foldl_cons]
    apply ih
    split
    · rename_i expiry hexpiry
      split
      · exact hskip pk keys w h
      · exact hdelete pk keys w h (by rw [hexpiry]; rfl)
    · exact hskip pk keys w h

/-- Expiry draws at most two timestamps for each key it looks at. -/
theorem ttlExpire_evolves {w : World} {now : ℕ}
    (hclock : w.db.clock + 2 * (expiredKeys w.db.ttl now).length < tsMax) :
    w.db.Evolves (2 * (expiredKeys w.db.ttl now).length) (ttlExpire w now).db := by
  have hrun : ∃ n, n + 2 * ([] : List Bytes).length = 2 * (expiredKeys w.db.ttl now).length ∧
      w.db.Evolves n (ttlExpire w now).db := by
    apply ttlExpire_induction (P := fun keys w' =>
      ∃ n, n + 2 * keys.length = 2 * (expiredKeys w.db.ttl now).length ∧ w.db.Evolves n w'.db)
    · rintro pk keys w' ⟨n, hn, hevolves⟩
      rw [List.length_cons] at hn
      exact ⟨n + 2, by omega, hevolves.trans (.of_eq rfl rfl)⟩
    · rintro pk keys w' ⟨n, hn, hevolves⟩ -
      rw [List.length_cons] at hn
      have hle := hevolves.clock_le_add
      exact ⟨n + 2, by omega, hevolves.trans (singleWrite_evolves (by omega) _)⟩
    · exact ⟨0, by omega, .of_eq rfl rfl⟩
  obtain ⟨n, hn, hevolves⟩ := hrun
  rw [List.length_nil, Nat.mul_zero, Nat.add_zero] at hn
  rw [← hn]
  exact hevolves

/-- A checkpoint changes the handle of the log only, or goes on to expiry and garbage
collection. -/
theorem fastkvCheckpoint_cases (w : World) (snapId segId : Uuid) (now : ℕ) :
    (∃ wal, (fastkvCheckpoint w snapId segId now).2.db = { w.db with wal }) ∨
      (fastkvCheckpoint w snapId segId now).1 = .ok ∧ ∃ wal disk,
        (fastkvCheckpoint w snapId segId now).2 =
          checkpointMemory ⟨{ w.db with wal := some wal }, disk⟩ now := by
  unfold fastkvCheckpoint
  split
  · exact Or.inl ⟨w.db.wal, rfl⟩
  · simp only
    split
    · exact Or.inl ⟨_, rfl⟩
    · split
      · exact Or.inl ⟨_, rfl⟩
      · split
        · exact Or.inl ⟨_, rfl⟩
        · exact Or.inr ⟨rfl, _, _, rfl⟩

/-- A checkpoint keeps the invariants of the table. -/
theorem fastkvCheckpoint_evolves {w : World} {now : ℕ}
    (hclock : w.db.clock + 2 * (expiredKeys w.db.ttl now).length < tsMax) (snapId segId : Uuid) :
    w.db.Evolves (2 * (expiredKeys w.db.ttl now).length)
      (fastkvCheckpoint w snapId segId now).2.db := by
  rcases fastkvCheckpoint_cases w snapId segId now with ⟨wal, h⟩ | ⟨-, wal, disk, h⟩
  · rw [h]
    exact .of_eq rfl rfl
  · rw [h]
    have hexpire := ttlExpire_evolves (w := ⟨{ w.db with wal := some wal }, disk⟩) hclock
    have hgc := hexpire.trans (World.gc_evolves _)
    exact ⟨hgc.clock_le, hgc.clock_le_add, hgc.bounded, hgc.oneLive, hgc.noEmpty⟩

end FastKV
