import FastKV.Reachable

/-!
# Steps and runs of the engine

`step_effect` says once what a step can do: change the transaction manager only, apply a
write set, collect garbage or take a checkpoint. The invariants of all runs are derived from
it: the table is older than the clock, no key has two live versions, nothing expires, and
open transactions began before now and hold writes of permitted size. The clock advances by
at most one in each step, so a run that is shorter than the range of the clock does not wrap
it.
-/

namespace FastKV

/-- The clock of the engine. -/
def Sys.clock (s : Sys) : ℕ := s.world.db.clock

/-- What a step does, and what it returns. -/
inductive Effect (s : Sys) : Action → Err × Sys → Prop
  /-- Only the transaction manager changes. -/
  | manager {a : Action} {r : Err × Sys} (mgr : TxnMgr)
      (clock : mgr.oracle.clock = s.clock ∨ mgr.oracle.clock = add64 s.clock 1)
      (world : r.2.world = s.world.withMgr mgr) (history : r.2.history = s.history) : Effect s a r
  /-- A commit applies its writes at the clock, as far as that works. -/
  | applied {i : ℕ} {txn : Txn} {r : Err × Sys} (mgr : TxnMgr) (opened : s.txn i = some txn)
      (applies : Applies s.world txn)
      (rc : r.1 = (dbApplyWriteSet s.clock txn.writes s.world.drawn).1)
      (clock : mgr.oracle.clock =
        (dbApplyWriteSet s.clock txn.writes s.world.drawn).2.db.clock)
      (world : r.2.world = (dbApplyWriteSet s.clock txn.writes s.world.drawn).2.withMgr mgr)
      (history : r.2.history = s.history ++
        if (dbApplyWriteSet s.clock txn.writes s.world.drawn).1 = .ok then
          [.commit s.clock txn.writes] else []) : Effect s (.call (.commit i)) r
  /-- Garbage collection. -/
  | collected {r : Err × Sys} (world : r.2.world = s.world.gc)
      (history : r.2.history = s.history) : Effect s .gc r
  /-- A checkpoint. -/
  | checkpointed {snapId segId : Uuid} {now : ℕ} {r : Err × Sys}
      (rc : r.1 = (fastkvCheckpoint s.world snapId segId now).1)
      (world : r.2.world = (fastkvCheckpoint s.world snapId segId now).2)
      (history : r.2.history = s.history ++
        if (fastkvCheckpoint s.world snapId segId now).1 = .ok ∧ s.world.db.wal.isSome then
          [.checkpoint s.clock snapId] else []) : Effect s (.checkpoint snapId segId now) r

/-- The effect of a commit. -/
theorem commit_effect {s : Sys} {i : ℕ} {txn : Txn} (hopen : s.txn i = some txn)
    (hro : txn.readOnly = true → txn.writes = []) :
    Effect s (.call (.commit i)) (s.commit i txn) := by
  rcases txnCommit_cases s.world txn with ⟨hrefusal, mgr, hmgr, hworld⟩ |
    ⟨happlies, hrc, hts, mgr, hmgr, hworld⟩
  · refine .manager mgr (Or.inl hmgr) hworld ?_
    have hnone : ¬ ((txnCommit s.world txn).1 = .ok ∧ txn.writes ≠ []) := by
      rintro ⟨hok, hne⟩
      rw [hok] at hrefusal
      cases hrefusal with
      | nothing _ hnothing => exact hne (hnothing.elim hro fun h => h)
    simp only [Sys.commit, if_neg hnone, List.append_nil]
  · refine .applied mgr hopen happlies hrc hmgr hworld ?_
    have hclock : s.clock = s.world.db.clock := rfl
    simp only [Sys.commit, hrc, hts, happlies.writes, ne_eq, not_false_eq_true, and_true, hclock]

/-- What a call does to the engine: nothing, or it begins, commits or aborts a transaction. -/
theorem callStep_cases (s : Sys) (c : Call) :
    ((callStep s c).2.world = s.world ∧ (callStep s c).2.history = s.history) ∨
      (∃ readOnly txn db, c = .begin readOnly ∧ txnBegin s.world.db readOnly = .ok (txn, db) ∧
        (callStep s c).2.world = { s.world with db } ∧ (callStep s c).2.history = s.history) ∨
      (∃ i txn, c = .commit i ∧ s.txn i = some txn ∧ callStep s c = s.commit i txn) ∨
      ∃ i txn, c = .abort i ∧ s.txn i = some txn ∧
        (callStep s c).2.world = (s.world.abort txn).1 ∧ (callStep s c).2.history = s.history := by
  cases c with
  | begin readOnly =>
    simp only [callStep]
    split
    · exact Or.inl ⟨rfl, rfl⟩
    · rename_i txn db hbegin
      exact Or.inr (Or.inl ⟨readOnly, txn, db, rfl, hbegin, rfl, rfl⟩)
  | get i key =>
    simp only [callStep]
    split
    · exact Or.inl ⟨rfl, rfl⟩
    · split <;> exact Or.inl ⟨rfl, rfl⟩
  | put i key value =>
    simp only [callStep]
    split <;> exact Or.inl ⟨rfl, rfl⟩
  | delete i key =>
    simp only [callStep]
    split <;> exact Or.inl ⟨rfl, rfl⟩
  | commit i =>
    simp only [callStep]
    split
    · exact Or.inl ⟨rfl, rfl⟩
    · rename_i txn hopen
      exact Or.inr (Or.inr (Or.inl ⟨i, txn, rfl, hopen, rfl⟩))
  | abort i =>
    simp only [callStep]
    split
    · exact Or.inl ⟨rfl, rfl⟩
    · rename_i txn hopen
      exact Or.inr (Or.inr (Or.inr ⟨i, txn, rfl, hopen, rfl, rfl⟩))

/-- What a step does. -/
theorem step_effect {s : Sys}
    (hro : ∀ i txn, s.txn i = some txn → txn.readOnly = true → txn.writes = []) (a : Action) :
    Effect s a (step s a) := by
  cases a with
  | gc => exact .collected rfl rfl
  | checkpoint snapId segId now => exact .checkpointed rfl rfl rfl
  | call c =>
    change Effect s (.call c) (callStep s c)
    rcases callStep_cases s c with ⟨hworld, hhistory⟩ |
      ⟨readOnly, txn, db, -, hbegin, hworld, hhistory⟩ | ⟨i, txn, rfl, hopen, heq⟩ |
      ⟨i, txn, -, -, hworld, hhistory⟩
    · exact .manager s.world.db.txnMgr (Or.inl rfl) hworld hhistory
    · obtain ⟨-, -, -, -, -, -, hclock, -⟩ := txnBegin_spec hbegin
      refine .manager db.txnMgr (Or.inr hclock) ?_ hhistory
      rw [hworld]
      unfold txnBegin at hbegin
      split at hbegin
      · cases hbegin
      · simp only [Except.ok.injEq, Prod.mk.injEq] at hbegin
        rw [← hbegin.2]
        rfl
    · rw [heq]
      exact commit_effect hopen (hro i txn hopen)
    · by_cases h : txn.state = .aborted
      · simp only [World.abort, txnMgrAbort, if_pos h] at hworld
        exact .manager _ (Or.inl rfl) hworld hhistory
      · simp only [World.abort, txnMgrAbort, if_neg h] at hworld
        exact .manager _ (Or.inl (clock_oracleRelease _ _)) hworld hhistory

/-! ## Open transactions -/

/-- A write that the API accepts. -/
def WriteEntry.Permitted (e : WriteEntry) : Prop :=
  e.key.length ≤ maxKeyLen ∧ ∀ v ∈ e.value, v.length ≤ maxValLen

/-- An open transaction. -/
structure Txn.Ok (clock : ℕ) (txn : Txn) : Prop where
  /-- It is open. -/
  active : txn.state = .active
  /-- It began before now. -/
  begun : txn.beginTs < clock
  /-- It writes only if it may. -/
  readOnly : txn.readOnly = true → txn.writes = []
  /-- What it writes is of permitted size. -/
  permitted : ∀ e ∈ txn.writes, e.Permitted

/-- A transaction after further writes. -/
structure Txn.Extends (txn txn' : Txn) : Prop where
  /-- The state. -/
  state : txn'.state = txn.state
  /-- The timestamp. -/
  beginTs : txn'.beginTs = txn.beginTs
  /-- Whether it may write. -/
  readOnly : txn'.readOnly = txn.readOnly
  /-- Its writes, unless it may not write. -/
  writes : txn.readOnly = true → txn'.writes = txn.writes
  /-- New writes are of permitted size. -/
  permitted : (∀ e ∈ txn.writes, e.Permitted) → ∀ e ∈ txn'.writes, e.Permitted

/-- Nothing was written. -/
theorem Txn.Extends.refl (txn : Txn) : txn.Extends txn := ⟨rfl, rfl, rfl, fun _ => rfl, fun h => h⟩

/-- Adding an entry. -/
theorem writeEntryAdd_extends (txn : Txn) {key : Bytes} {value : Slice}
    (h : WriteEntry.Permitted ⟨key, value⟩) : txn.Extends (writeEntryAdd txn key value).2 := by
  unfold writeEntryAdd
  split
  · exact .refl txn
  · rename_i hro
    split
    · exact .refl txn
    · refine ⟨rfl, rfl, rfl, fun h => absurd h hro, fun hold e he => ?_⟩
      rcases List.mem_cons.mp he with rfl | he
      · exact h
      · exact hold e he

/-- `fastkv_txn_put` extends the transaction. -/
theorem txnPut_extends (txn : Txn) (key : Bytes) (value : Slice) :
    txn.Extends (txnPut txn key value).2 := by
  unfold txnPut
  split
  · exact .refl txn
  · split
    · exact .refl txn
    · rename_i hkey hval
      refine writeEntryAdd_extends txn ⟨by show key.length ≤ _; omega, fun v hv => ?_⟩
      have hv' : value = some v := hv
      rw [hv', Option.getD_some] at hval
      omega

/-- `fastkv_txn_delete` extends the transaction. -/
theorem txnDelete_extends (txn : Txn) (key : Bytes) : txn.Extends (txnDelete txn key).2 := by
  unfold txnDelete
  split
  · exact .refl txn
  · rename_i hkey
    exact writeEntryAdd_extends txn ⟨by show key.length ≤ _; omega, fun v hv => by cases hv⟩

/-- Transactions after one of them was replaced or closed. -/
theorem Sys.txn_set {s : Sys} {i j : ℕ} {txn' : Txn} {new : Option Txn} {txns : List (Option Txn)}
    (htxns : txns = s.txns.set i new) (h : (txns[j]?).join = some txn') :
    s.txn j = some txn' ∨ (i = j ∧ new = some txn') := by
  subst htxns
  rw [List.getElem?_set] at h
  split at h
  · rename_i hij
    split at h
    · exact Or.inr ⟨hij, by simpa using h⟩
    · cases h
  · exact Or.inl h

/-- Where a transaction that is open after a step comes from: it was open before as it is, a write
was added to it, or it has just begun. -/
theorem step_txn_cases (s : Sys) (a : Action) {j : ℕ} {txn' : Txn}
    (h : (step s a).2.txn j = some txn') :
    s.txn j = some txn' ∨
      (∃ key value txn, a = .call (.put j key value) ∧ s.txn j = some txn ∧
        (txnPut txn key value).2 = txn') ∨
      (∃ key txn, a = .call (.delete j key) ∧ s.txn j = some txn ∧ (txnDelete txn key).2 = txn') ∨
      ∃ readOnly db, a = .call (.begin readOnly) ∧
        txnBegin s.world.db readOnly = .ok (txn', db) := by
  cases a with
  | gc => exact Or.inl h
  | checkpoint snapId segId now => exact Or.inl h
  | call c =>
    cases c with
    | begin readOnly =>
      simp only [step, callStep] at h
      cases hbegin : txnBegin s.world.db readOnly with
      | error rc =>
        rw [hbegin] at h
        exact Or.inl h
      | ok r =>
        obtain ⟨txn, db⟩ := r
        rw [hbegin] at h
        simp only [Sys.txn, List.getElem?_append] at h
        split at h
        · exact Or.inl h
        · cases hk : j - s.txns.length with
          | zero =>
            rw [hk] at h
            simp only [List.getElem?_cons_zero, Option.join_some, Option.some.injEq] at h
            exact Or.inr (Or.inr (Or.inr ⟨readOnly, db, rfl, h ▸ hbegin⟩))
          | succ k =>
            rw [hk] at h
            simp at h
    | get i key =>
      simp only [step, callStep] at h
      split at h
      · exact Or.inl h
      · split at h <;> exact Or.inl h
    | put i key value =>
      simp only [step, callStep] at h
      split at h
      · exact Or.inl h
      · rename_i txn hopen
        rcases Sys.txn_set rfl h with hold | ⟨rfl, hnew⟩
        · exact Or.inl hold
        · exact Or.inr (Or.inl ⟨key, value, txn, rfl, hopen, Option.some.inj hnew⟩)
    | delete i key =>
      simp only [step, callStep] at h
      split at h
      · exact Or.inl h
      · rename_i txn hopen
        rcases Sys.txn_set rfl h with hold | ⟨rfl, hnew⟩
        · exact Or.inl hold
        · exact Or.inr (Or.inr (Or.inl ⟨key, txn, rfl, hopen, Option.some.inj hnew⟩))
    | commit i =>
      simp only [step, callStep] at h
      split at h
      · exact Or.inl h
      · rcases Sys.txn_set rfl h with h | ⟨-, h⟩
        · exact Or.inl h
        · cases h
    | abort i =>
      simp only [step, callStep] at h
      split at h
      · exact Or.inl h
      · rcases Sys.txn_set rfl h with h | ⟨-, h⟩
        · exact Or.inl h
        · cases h

/-- Transactions after a step: an open transaction was open before, with possibly fewer
writes, or has just begun. -/
theorem step_txns (s : Sys) (a : Action) {j : ℕ} {txn' : Txn}
    (h : (step s a).2.txn j = some txn') :
    (∃ txn, s.txn j = some txn ∧ txn.Extends txn') ∨
      (txn'.state = .active ∧ txn'.beginTs = s.clock ∧ txn'.writes = [] ∧
        (step s a).2.clock = add64 s.clock 1) := by
  rcases step_txn_cases s a h with hsame | ⟨key, value, txn, -, hopen, rfl⟩ |
    ⟨key, txn, -, hopen, rfl⟩ | ⟨readOnly, db, rfl, hbegin⟩
  · exact Or.inl ⟨txn', hsame, .refl txn'⟩
  · exact Or.inl ⟨txn, hopen, txnPut_extends txn key value⟩
  · exact Or.inl ⟨txn, hopen, txnDelete_extends txn key⟩
  · obtain ⟨hts, hactive, hwrites, -, -, -, hclock, -⟩ := txnBegin_spec hbegin
    right
    simp only [step, callStep, hbegin]
    exact ⟨hactive, hts, hwrites, hclock⟩

/-! ## What holds in every run -/

/-- What every reachable state satisfies. -/
structure Sys.Sound (s : Sys) : Prop where
  /-- Versions are older than the clock. -/
  bounded : s.world.db.ht.Bounded s.clock
  /-- No key has two live versions. -/
  oneLive : s.world.db.ht.OneLive
  /-- No value is empty. -/
  noEmpty : s.world.db.ht.NoEmpty
  /-- No key has an expiry time. -/
  ttl : s.world.db.ttl = ttlInit
  /-- Transactions are open and began before now. -/
  txns : ∀ i txn, s.txn i = some txn → txn.Ok s.clock

/-- A checkpoint of a database without expiry times. -/
theorem fastkvCheckpoint_db {w : World} (httl : w.db.ttl = ttlInit) (snapId segId : Uuid)
    (now : ℕ) :
    ∃ wal n, (fastkvCheckpoint w snapId segId now).2.db = { w.db with wal } ∨
      (fastkvCheckpoint w snapId segId now).2.db =
        { w.gc.db with wal, statSnapshotCount := n } := by
  rcases fastkvCheckpoint_cases w snapId segId now with ⟨wal, h⟩ | ⟨-, wal, disk, h⟩
  · exact ⟨wal, 0, Or.inl h⟩
  · refine ⟨some wal, add64 w.db.statSnapshotCount 1, Or.inr ?_⟩
    rw [h, checkpointMemory, ttlExpire_of_init (by exact httl)]
    rfl

/-- The database after a step: at most one draw from the clock, and the table and the expiry
trees keep what holds for them. -/
theorem Effect.evolves {s : Sys} {a : Action} {r : Err × Sys} (h : Effect s a r)
    (hclock : s.clock + 1 < tsMax) (httl : s.world.db.ttl = ttlInit) :
    s.world.db.Evolves 1 r.2.world.db ∧ r.2.world.db.ttl = ttlInit := by
  have hnext : add64 s.clock 1 = s.clock + 1 := add64_eq (by unfold tsMax at hclock; omega)
  have hgc : s.world.db.Evolves 1 s.world.gc.db :=
    s.world.gc_evolves.trans (n := 1) (.of_eq rfl rfl)
  cases h with
  | manager mgr hmgr hworld hhistory =>
    rw [hworld]
    have hle : s.clock ≤ mgr.oracle.clock ∧ mgr.oracle.clock ≤ s.clock + 1 := by omega
    exact ⟨⟨hle.1, hle.2, fun hb => hb.mono hle.1, fun ho => ho, fun hne => hne⟩, httl⟩
  | @applied i txn _ mgr hopen happlies hrc hmgr hworld hhistory =>
    rw [hworld]
    refine ⟨(dbApplyWriteSet_evolves hclock txn.writes).trans (n := 0) (.of_eq rfl hmgr), ?_⟩
    obtain ⟨k, wal, heq, -⟩ := dbApplyWriteSet_cases s.clock txn.writes s.world.drawn
    show (dbApplyWriteSet s.clock txn.writes s.world.drawn).2.db.ttl = ttlInit
    rw [heq]
    exact applyEntries_ttl (show s.world.drawn.db.ttl = ttlInit from httl) _ _
  | collected hworld hhistory =>
    rw [hworld]
    exact ⟨hgc, httl⟩
  | @checkpointed snapId segId now _ hrc hworld hhistory =>
    rw [hworld]
    obtain ⟨wal, n, heq⟩ := fastkvCheckpoint_db httl snapId segId now
    rcases heq with heq | heq
    · rw [heq]
      exact ⟨.of_eq rfl rfl, httl⟩
    · rw [heq]
      exact ⟨hgc.trans (n := 0) (.of_eq rfl rfl), httl⟩

/-- What a step keeps. -/
theorem Sys.Sound.step {s : Sys} (h : s.Sound) (hclock : s.clock + 1 < tsMax) (a : Action) :
    (step s a).2.Sound ∧ s.clock ≤ (step s a).2.clock ∧ (step s a).2.clock ≤ s.clock + 1 := by
  have heffect := step_effect (fun i txn hopen => (h.txns i txn hopen).readOnly) a
  obtain ⟨hevolves, httl⟩ := heffect.evolves hclock h.ttl
  refine ⟨⟨hevolves.bounded h.bounded, hevolves.oneLive h.oneLive, hevolves.noEmpty h.noEmpty, httl,
    fun i txn hopen => ?_⟩, hevolves.clock_le, hevolves.clock_le_add⟩
  rcases step_txns s a hopen with ⟨txn₀, hopen₀, hext⟩ | ⟨hactive, hts, hwrites, hnext⟩
  · have hok := h.txns i txn₀ hopen₀
    refine ⟨hext.state.trans hok.active, ?_, fun hro => ?_, hext.permitted hok.permitted⟩
    · rw [hext.beginTs]
      exact lt_of_lt_of_le hok.begun hevolves.clock_le
    · rw [hext.readOnly] at hro
      rw [hext.writes hro]
      exact hok.readOnly hro
  · refine ⟨hactive, ?_, fun _ => hwrites, by simp [hwrites]⟩
    rw [hts, hnext, add64_eq (by unfold tsMax at hclock; omega)]
    exact Nat.lt_succ_self _

/-- A property that every permitted step preserves, as long as the clock is in range, holds
after every permitted run that is short enough. -/
theorem run_induction_of_clock {P : Sys → Action → Prop} {Inv : Sys → Prop}
    (hsound : ∀ s, Inv s → s.Sound)
    (hstep : ∀ s a, Inv s → s.clock + 1 < tsMax → P s a → Inv (step s a).2)
    (actions : List Action) :
    ∀ s, Inv s → s.clock + actions.length < tsMax → Always P s actions →
      Inv (run s actions) ∧ (run s actions).clock ≤ s.clock + actions.length := by
  induction actions with
  | nil => exact fun s h _ _ => ⟨h, Nat.le_refl _⟩
  | cons a as ih =>
    intro s h hclock hp
    rw [List.length_cons] at hclock
    obtain ⟨-, -, hle⟩ := (hsound s h).step (by omega) a
    obtain ⟨hinv, hle'⟩ := ih (step s a).2 (hstep s a h (by omega) hp.1) (by omega) hp.2
    refine ⟨hinv, ?_⟩
    rw [List.length_cons]
    exact hle'.trans (by omega)

/-- A database that was just opened. -/
theorem Sys.Sound.start {opts : Opts} {fresh : Uuid} {disk : Disk} {w : World}
    (hintact : Intact opts disk.files) (h : fastkvOpen opts fresh disk = .ok w) :
    (Sys.start w).Sound := by
  obtain ⟨hb, ho, hne⟩ := fastkvOpen_invariant hintact h
  refine ⟨hb, ho, hne, ?_, fun i txn hopen => ?_⟩
  · obtain ⟨s, snapTs, walMaxTs, wal, rc, -, hdb, -⟩ := fastkvOpen_cases h
    show w.db.ttl = ttlInit
    rw [hdb]
    rfl
  · simp [Sys.txn, Sys.start] at hopen

end FastKV
