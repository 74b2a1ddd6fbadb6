import FastKV.Threads

/-!
# One thread at a time

The steps of a thread, taken without interruption, are the calls of the sequential model:
beginning a transaction, committing it and collecting garbage lead to the same database as
`fastkv_txn_begin`, `fastkv_txn_commit` and the collection at the end of a checkpoint. Threads
do not count transactions, so the counters of the transaction manager are not compared.
-/

namespace FastKV

open Lib

variable {s : Threads} {t : ℕ}

/-- The phase of the transaction that proceeded. -/
@[simp] theorem Threads.phase_to (s : Threads) (t : ℕ) (p : Phase) : (s.to t p).phase t = p := by
  rw [Threads.to_phase, if_pos rfl]

/-- Of two phases in a row the second one stays. -/
@[simp] theorem Threads.to_to (s : Threads) (t : ℕ) (p q : Phase) :
    (s.to t p).to t q = s.to t q := by
  simp only [Threads.to, Function.update_idem]

/-- A transaction that stays where it is. -/
theorem Threads.to_self {p : Phase} (h : s.phase t = p) : s.to t p = s := by
  rw [← h, Threads.to, Function.update_eq_self]

/-- A thread leaves the database alone when its phase changes. -/
@[simp] theorem Threads.world_to (s : Threads) (t : ℕ) (p : Phase) :
    (s.to t p).world = s.world := rfl

/-- The oracle too. -/
@[simp] theorem Threads.oracle_to (s : Threads) (t : ℕ) (p : Phase) :
    (s.to t p).oracle = s.oracle := rfl

/-! ## Beginning -/

/-- The slots that `fastkv_oracle_begin` tries. -/
def Oracle.tries (o : Oracle) : ℕ := (o.slots.findIdx? (· = 0)).getD maxConcurrentTxn

/-- The steps of `fastkv_txn_begin`. -/
def beginAlone (o : Oracle) (t : ℕ) (readOnly : Bool) : List ThreadStep :=
  .draw t readOnly :: List.replicate o.tries (.claim t) ++ [.claim t]

/-- Taken slots are passed over. -/
theorem exec_taken {readOnly : Bool} {beginTs n : ℕ}
    (hphase : s.phase t = .claiming readOnly beginTs 0)
    (hn : n ≤ maxConcurrentTxn) (htaken : ∀ i < n, s.oracle.slots.getD i 0 ≠ 0) :
    exec threadStep s (List.replicate n (.claim t)) = s.to t (.claiming readOnly beginTs n) := by
  induction n with
  | zero => exact (Threads.to_self hphase).symm
  | succ n ih =>
    rw [List.replicate_succ', exec_append, ih (by omega) fun i hi => htaken i (by omega)]
    have hslot := htaken n (by omega)
    simp only [exec_cons, exec_nil, threadStep, Threads.phase_to, Threads.oracle_to,
      if_pos (Nat.lt_of_succ_le hn), if_neg hslot, Threads.to_to]

/-- The slots before the one that is free are taken. -/
theorem Oracle.tries_spec (o : Oracle) :
    o.tries ≤ maxConcurrentTxn ∧ ∀ i < o.tries, o.slots.getD i 0 ≠ 0 := by
  unfold Oracle.tries
  cases hfree : o.slots.findIdx? (· = 0) with
  | none =>
    refine ⟨Nat.le_refl _, fun i hi => ?_⟩
    rw [Option.getD_none, ← o.length_slots] at hi
    rw [List.findIdx?_eq_none_iff] at hfree
    rw [List.getD_eq_getElem?_getD, List.getElem?_eq_getElem hi, Option.getD_some]
    simpa using hfree _ (List.getElem_mem hi)
  | some j =>
    obtain ⟨hj, -, hbefore⟩ := List.findIdx?_eq_some_iff_getElem.mp hfree
    refine ⟨?_, fun i hi => ?_⟩
    · rw [Option.getD_some, ← o.length_slots]
      exact hj.le
    · rw [Option.getD_some] at hi
      rw [List.getD_eq_getElem?_getD, List.getElem?_eq_getElem (hi.trans hj), Option.getD_some]
      simpa using hbefore i hi

/-- The slot after them is free, or there is none. -/
theorem oracleBegin_cases (o : Oracle) :
    (o.tries < maxConcurrentTxn ∧ o.slots.getD o.tries 0 = 0 ∧
      oracleBegin o = (o.clock, some o.tries, o.tick.setSlot o.tries o.clock)) ∨
    (o.tries = maxConcurrentTxn ∧ oracleBegin o = (o.clock, none, o.tick)) := by
  unfold Oracle.tries oracleBegin
  cases hfree : o.slots.findIdx? (· = 0) with
  | none => exact Or.inr ⟨rfl, rfl⟩
  | some j =>
    obtain ⟨hj, hzero, -⟩ := List.findIdx?_eq_some_iff_getElem.mp hfree
    refine Or.inl ⟨?_, ?_, rfl⟩
    · rw [Option.getD_some, ← o.length_slots]
      exact hj
    · rw [Option.getD_some, List.getD_eq_getElem?_getD, List.getElem?_eq_getElem hj,
        Option.getD_some]
      simpa using hzero

/-- Without interruption the steps of a beginning transaction are `fastkv_txn_begin`. -/
theorem exec_beginAlone (hphase : s.phase t = .idle) (readOnly : Bool) :
    exec threadStep s (beginAlone s.oracle t readOnly) =
      match txnBegin s.world.db readOnly with
      | .ok (txn, db) => { s with world := { s.world with db } }.to t (.active txn)
      | .error rc => s.to t (.closed (some rc)) := by
  by_cases hro : (!readOnly && s.world.db.opts.readOnly) = true
  · have hstep : threadStep s (.draw t readOnly) = s.to t (.closed (some .txnRo)) := by
      simp only [threadStep, hphase, hro, if_true]
    have hclaims : ∀ a ∈ List.replicate s.oracle.tries (ThreadStep.claim t) ++ [.claim t],
        threadStep (s.to t (.closed (some .txnRo))) a = s.to t (.closed (some .txnRo)) := by
      intro a ha
      rw [← List.replicate_succ'] at ha
      rw [List.eq_of_mem_replicate ha]
      simp only [threadStep, Threads.phase_to]
    rw [beginAlone, List.cons_append, exec_cons, hstep, exec_stuck _ hclaims]
    simp only [txnBegin, hro, if_true]
  · have hstep : threadStep s (.draw t readOnly) =
        { s with world := s.world.drawn }.to t (.claiming readOnly s.clock 0) := by
      simp only [threadStep, hphase, hro, Bool.false_eq_true, if_false]
    obtain ⟨hle, htaken⟩ := s.oracle.tries_spec
    have hclaims := exec_taken
      (s := { s with world := s.world.drawn }.to t (.claiming readOnly s.clock 0))
      (Threads.phase_to _ _ _) hle htaken
    rw [beginAlone, List.cons_append, exec_cons, hstep, exec_append, hclaims, exec_cons, exec_nil]
    rcases oracleBegin_cases s.oracle with ⟨hlt, hfree, hbegin⟩ | ⟨hall, hbegin⟩
    · have hclaim : ({ s with world := s.world.drawn }.to t (.claiming readOnly s.clock
          s.oracle.tries)).oracle.slots.getD s.oracle.tries 0 = 0 := hfree
      simp only [Threads.to_to, threadStep, Threads.phase_to, if_pos hlt, if_pos hclaim,
        txnBegin, hro, Bool.false_eq_true, if_false, txnMgrBegin]
      rw [show oracleBegin s.world.db.txnMgr.oracle = _ from hbegin]
      simp only [Threads.to, Function.update_idem]
      rfl
    · simp only [Threads.to_to, threadStep, Threads.phase_to, hall, lt_irrefl, if_false,
        txnBegin, hro, Bool.false_eq_true, txnMgrBegin]
      rw [show oracleBegin s.world.db.txnMgr.oracle = _ from hbegin]
      rfl

/-! ## Committing -/

/-- The steps of `fastkv_txn_commit`. -/
def commitAlone (t : ℕ) (txn : Txn) : List ThreadStep :=
  [.check t, .drawCommit t] ++ txn.writes.flatMap (fun _ => [.append t, .install t]) ++
    [.unlock t, .release t]

/-- A database without the counters of its transaction manager. -/
def World.uncounted (w : World) : World := w.withMgr ⟨w.db.txnMgr.oracle, 0, 0, 0⟩

/-- The steps of the loop for which the transaction is not ready change nothing. -/
theorem exec_loop_stuck {rest : List WriteEntry} (happend : threadStep s (.append t) = s)
    (hinstall : threadStep s (.install t) = s) :
    exec threadStep s (rest.flatMap fun _ => [.append t, .install t]) = s := by
  refine exec_stuck _ fun a ha => ?_
  obtain ⟨e, -, ha⟩ := List.mem_flatMap.mp ha
  rcases List.mem_pair.mp ha with rfl | rfl
  · exact happend
  · exact hinstall

/-- The loop over the write set. -/
theorem exec_writes (rest : List WriteEntry) : ∀ {s : Threads} {txn : Txn},
    s.phase t = .applying txn rest →
    exec threadStep s (rest.flatMap fun _ => [.append t, .install t]) =
      { s with world := (dbApplyWriteSet txn.commitTs rest s.world).2 }.to t
        (if (dbApplyWriteSet txn.commitTs rest s.world).1 = Err.ok then .applying txn []
          else .failed txn (dbApplyWriteSet txn.commitTs rest s.world).1) := by
  induction rest with
  | nil => exact fun hphase => (Threads.to_self hphase).symm
  | cons e rest ih =>
    intro s txn hphase
    rw [List.flatMap_cons, exec_append, exec_cons, exec_cons, exec_nil]
    by_cases hrc : (logEntry s.world e txn.commitTs).1 = .ok
    · have hstep : threadStep (threadStep s (.append t)) (.install t) =
          { s with world := { (logEntry s.world e txn.commitTs).2 with
            db := applyEntry (logEntry s.world e txn.commitTs).2.db e txn.commitTs } }.to t
              (.applying txn rest) := by
        simp only [threadStep, hphase, hrc, if_true, Threads.phase_to]
        simp only [Threads.to, Function.update_idem]
      rw [hstep, ih (Threads.phase_to _ _ _)]
      simp only [dbApplyWriteSet, hrc, if_true, Threads.to, Function.update_idem]
      rfl
    · have hfail : threadStep s (.append t) =
          { s with world := (logEntry s.world e txn.commitTs).2 }.to t
          (.failed txn (logEntry s.world e txn.commitTs).1) := by
        simp only [threadStep, hphase, hrc, if_false]
      have hwait : ∀ a, a = ThreadStep.append t ∨ a = .install t →
          threadStep (threadStep s (.append t)) a = threadStep s (.append t) := by
        rw [hfail]
        rintro a (rfl | rfl) <;> simp only [threadStep, Threads.phase_to]
      rw [hwait _ (Or.inr rfl),
        exec_loop_stuck (hwait _ (Or.inl rfl)) (hwait _ (Or.inr rfl)), hfail]
      simp only [dbApplyWriteSet, hrc, if_false]

/-- A commit that is over only releases its slot. -/
theorem exec_ended {txn : Txn} {rc : Option Err} (hphase : s.phase t = .closing txn rc)
    (rest : List WriteEntry) :
    exec threadStep s (.drawCommit t :: (rest.flatMap fun _ => [.append t, .install t]) ++
        [.unlock t, .release t]) =
      { s with world := s.world.withOracle (oracleRelease s.oracle txn.oracleSlot) }.to t
        (.closed rc) := by
  have hdraw : threadStep s (.drawCommit t) = s := by simp only [threadStep, hphase]
  have happend : threadStep s (.append t) = s := by simp only [threadStep, hphase]
  have hinstall : threadStep s (.install t) = s := by simp only [threadStep, hphase]
  have hunlock : threadStep s (.unlock t) = s := by simp only [threadStep, hphase]
  rw [List.cons_append, exec_cons, hdraw, exec_append, exec_loop_stuck happend hinstall, exec_cons,
    hunlock, exec_cons, exec_nil]
  simp only [threadStep, hphase]

/-- After the loop the lock and the slot are released. -/
theorem exec_unlock {txn : Txn} {rc : Err}
    (hphase : s.phase t = if rc = .ok then .applying txn [] else .failed txn rc) :
    exec threadStep s [.unlock t, .release t] =
      { s with
        world := s.world.withOracle (oracleRelease s.oracle txn.oracleSlot), lock := none }.to t
          (.closed (some rc)) := by
  have hunlock : threadStep s (.unlock t) = { s with lock := none }.to t
      (.closing txn (some rc)) := by
    split at hphase
    · rename_i hrc
      simp only [threadStep, hphase, hrc]
    · simp only [threadStep, hphase]
  rw [exec_cons, hunlock, exec_cons, exec_nil]
  simp only [threadStep, Threads.phase_to]
  simp only [Threads.to, Function.update_idem]
  rfl

/-- A commit that applies its writes ends, successful or not, with the release of its slot. -/
theorem txnCommit_drawn {w : World} {txn : Txn} (hstate : txn.state = .active)
    (hwrites : (!txn.readOnly && !txn.writes.isEmpty) = true)
    (hconflict : dbCheckConflicts w.db txn.writes txn.beginTs = .ok) :
    (txnCommit w txn).1 = (dbApplyWriteSet w.db.clock txn.writes w.drawn).1 ∧
      (txnCommit w txn).2.1.uncounted =
        ((dbApplyWriteSet w.db.clock txn.writes w.drawn).2.withOracle (oracleRelease
          (dbApplyWriteSet w.db.clock txn.writes w.drawn).2.db.txnMgr.oracle
            txn.oracleSlot)).uncounted := by
  have heq : txnCommit w txn =
      if (dbApplyWriteSet w.db.clock txn.writes w.drawn).1 = .ok then
        (.ok, (dbApplyWriteSet w.db.clock txn.writes w.drawn).2.finish
          { txn with commitTs := w.db.clock })
      else ((dbApplyWriteSet w.db.clock txn.writes w.drawn).1,
        (dbApplyWriteSet w.db.clock txn.writes w.drawn).2.abort
          { txn with commitTs := w.db.clock }) := by
    simp only [txnCommit, txnMgrCommit, hstate, hwrites, hconflict, ne_eq, not_true_eq_false,
      if_false, if_true]
    rfl
  rw [heq]
  generalize dbApplyWriteSet w.db.clock txn.writes w.drawn = result
  split
  · rename_i hrc
    exact ⟨hrc.symm, rfl⟩
  · simp only [World.abort, txnMgrAbort, hstate, reduceCtorEq, if_false]
    exact ⟨trivial, rfl⟩

/-- Without interruption the steps of a commit are `fastkv_txn_commit`, apart from the
counters. -/
theorem exec_commitAlone {txn : Txn} (hphase : s.phase t = .active txn)
    (hstate : txn.state = .active) (hlock : s.lock = none) :
    (exec threadStep s (commitAlone t txn)).world.uncounted =
      (txnCommit s.world txn).2.1.uncounted ∧
      (exec threadStep s (commitAlone t txn)).phase t =
        .closed (some (txnCommit s.world txn).1) := by
  rw [commitAlone, List.cons_append, List.cons_append, exec_cons]
  by_cases hwrites : txn.readOnly ∨ txn.writes = []
  · have hcheck : threadStep s (.check t) = s.to t (.closing txn (some .ok)) := by
      simp only [threadStep, hphase, hwrites, if_true]
    have hcommit : txnCommit s.world txn = (.ok, s.world.finish txn) := by
      have hnone : (!txn.readOnly && !txn.writes.isEmpty) = false := by
        rcases hwrites with hro | hempty
        · rw [hro]
          rfl
        · rw [hempty]
          exact Bool.and_false _
      simp only [txnCommit, txnMgrCommit, hstate, hnone, ne_eq, not_true_eq_false, if_false,
        Bool.false_eq_true]
    rw [hcheck, List.singleton_append, exec_ended (Threads.phase_to _ _ _), hcommit]
    exact ⟨rfl, Threads.phase_to _ _ _⟩
  · have hsome : (!txn.readOnly && !txn.writes.isEmpty) = true := by
      rw [not_or] at hwrites
      simp [hwrites.1, hwrites.2]
    by_cases hconflict : dbCheckConflicts s.world.db txn.writes txn.beginTs = .ok
    · have hbefore : threadStep (threadStep s (.check t)) (.drawCommit t) =
          { s with
            world := s.world.drawn, lock := some t
            commits := s.commits ++ [(s.clock, txn.writes)] }.to t
              (.applying { txn with commitTs := s.clock } txn.writes) := by
        simp only [threadStep, hphase, hwrites, hlock, hconflict, if_false, if_true,
          Option.isSome_none, Bool.false_eq_true, Threads.phase_to]
        simp only [Threads.to, Function.update_idem]
        rfl
      obtain ⟨hrc, hworld⟩ := txnCommit_drawn hstate hsome hconflict
      rw [List.singleton_append, List.cons_append, exec_cons, hbefore, exec_append,
        exec_writes txn.writes (Threads.phase_to _ _ _), exec_unlock (Threads.phase_to _ _ _),
        hrc, hworld]
      exact ⟨rfl, Threads.phase_to _ _ _⟩
    · have hcheck : threadStep s (.check t) = s.to t (.closing txn (some .txnConflict)) := by
        simp only [threadStep, hphase, hwrites, hlock, hconflict, if_false, Option.isSome_none,
          Bool.false_eq_true]
      have hrc := dbCheckConflicts_ne_ok hconflict
      rw [hcheck, List.singleton_append, exec_ended (Threads.phase_to _ _ _)]
      simp only [txnCommit, txnMgrCommit, hstate, hsome, hrc, ne_eq, not_true_eq_false, if_false,
        if_true, reduceCtorEq, World.abort, txnMgrAbort]
      exact ⟨rfl, Threads.phase_to _ _ _⟩

/-! ## Collecting -/

/-- The steps of a collection. -/
def collectAlone (c : ℕ) : List ThreadStep :=
  .readClock c :: List.replicate maxConcurrentTxn (.readSlot c) ++ [.collect c]

/-- The collector keeps the minimum of the slots it has read. -/
theorem exec_readSlots {c n : ℕ} (hn : n ≤ maxConcurrentTxn) :
    exec threadStep { s with scan := Function.update s.scan c (some (s.clock, 0)) }
        (List.replicate n (.readSlot c)) =
      { s with scan := Function.update s.scan c (some ((s.oracle.slots.take n).foldl
        (fun minTs ts => if ts ≠ 0 ∧ ts < minTs then ts else minTs) s.clock, n)) } := by
  induction n with
  | zero => rfl
  | succ n ih =>
    have hlt : n < s.oracle.slots.length := by
      rw [s.oracle.length_slots]
      exact hn
    have hslot : s.world.db.txnMgr.oracle.slots.getD n 0 = s.oracle.slots.get ⟨n, hlt⟩ := by
      have hsome : s.world.db.txnMgr.oracle.slots[n]? = some (s.oracle.slots.get ⟨n, hlt⟩) :=
        List.getElem?_eq_getElem hlt
      rw [List.getD_eq_getElem?_getD, hsome, Option.getD_some]
    rw [List.replicate_succ', exec_append, ih (Nat.le_of_succ_le hn),
      List.take_succ_eq_append_getElem hlt, List.foldl_append]
    simp only [exec_cons, exec_nil, threadStep, Threads.oracle, Function.update_self,
      Function.update_idem, if_pos (Nat.lt_of_succ_le hn), hslot]
    rfl

/-- Without interruption the steps of a collector collect what the sequential one does. -/
theorem exec_collectAlone {c : ℕ} (hscan : s.scan c = none) :
    exec threadStep s (collectAlone c) = { s with world := s.world.gc } := by
  have hclock : threadStep s (.readClock c) =
      { s with scan := Function.update s.scan c (some (s.clock, 0)) } := by
    simp only [threadStep, hscan]
  have hidle : Function.update s.scan c none = s.scan := by
    rw [← hscan, Function.update_eq_self]
  rw [collectAlone, List.cons_append, exec_cons, hclock, exec_append,
    exec_readSlots (Nat.le_refl _), ← s.oracle.length_slots, List.take_length]
  simp only [exec_cons, exec_nil, threadStep, Function.update_self, Function.update_idem,
    s.oracle.length_slots, lt_irrefl, if_false, hidle]
  rfl

end FastKV
