import FastKV.Lib.Steps
import FastKV.Quiet

/-!
# Threads

Transactions and garbage collection in different threads. Beginning a transaction draws a
timestamp and then tries the slots of the oracle one after the other; a commit takes the
commit lock, draws its timestamp and then logs and applies one entry after the other; a
collector reads the clock, the slots one after the other, and then collects. Every such step
is atomic, and the steps of all threads interleave in any order. Reads are not steps: a
transaction can read in every state. The counters of the transaction manager are left out.
-/

namespace FastKV

open Lib

/-- Where a transaction stands. -/
inductive Phase
  /-- It has not begun. -/
  | idle
  /-- `fastkv_oracle_begin` has drawn the timestamp and tries this slot next. -/
  | claiming (readOnly : Bool) (beginTs slot : ℕ)
  /-- It is between two calls. -/
  | active (txn : Txn)
  /-- `fastkv_txn_mgr_commit` has the commit lock and has found no conflict. -/
  | checked (txn : Txn)
  /-- The commit timestamp is drawn and these entries are left. -/
  | applying (txn : Txn) (rest : List WriteEntry)
  /-- The record of an entry is in the log and the entry is not applied yet. -/
  | logged (txn : Txn) (entry : WriteEntry) (rest : List WriteEntry)
  /-- An entry could not be logged. -/
  | failed (txn : Txn) (rc : Err)
  /-- The commit lock is free again; the slot is not. The result of a commit, `none` in an
  abort. -/
  | closing (txn : Txn) (rc : Option Err)
  /-- The transaction is over. -/
  | closed (rc : Option Err)
  deriving DecidableEq

/-- The transaction of a phase after its beginning and before its end. -/
def Phase.txn : Phase → Option Txn
  | .active txn | .checked txn | .applying txn _ | .logged txn _ _ | .failed txn _
  | .closing txn _ => some txn
  | .idle | .claiming _ _ _ | .closed _ => none

/-- The timestamp from which on the transaction reads, once drawn. -/
def Phase.beginTs : Phase → Option ℕ
  | .claiming _ beginTs _ => some beginTs
  | p => p.txn.map Txn.beginTs

/-- The slot that the transaction has claimed. -/
def Phase.slot (p : Phase) : Option ℕ := p.txn.bind Txn.oracleSlot

/-- A database with the threads that use it. -/
structure Threads where
  /-- The database and its directory. -/
  world : World
  /-- The transaction that holds `commit_lock`. -/
  lock : Option ℕ
  /-- The transactions. -/
  phase : ℕ → Phase
  /-- The collectors in `fastkv_oracle_min_active`: the minimum so far and the next slot. -/
  scan : ℕ → Option (ℕ × ℕ)
  /-- The commits that have drawn a timestamp, oldest first. -/
  commits : List (ℕ × List WriteEntry)

/-- The next timestamp. -/
def Threads.clock (s : Threads) : ℕ := s.world.db.clock

/-- The oracle. -/
def Threads.oracle (s : Threads) : Oracle := s.world.db.txnMgr.oracle

/-- The hash table. -/
def Threads.ht (s : Threads) : Ht := s.world.db.ht

/-- A transaction proceeds. -/
def Threads.to (s : Threads) (t : ℕ) (p : Phase) : Threads :=
  { s with phase := Function.update s.phase t p }

/-- A database without threads. -/
def Threads.start (w : World) : Threads := ⟨w, none, fun _ => .idle, fun _ => none, []⟩

/-- Replace the oracle. -/
def World.withOracle (w : World) (oracle : Oracle) : World := w.withMgr { w.db.txnMgr with oracle }

/-- A step of a transaction or of a collector. -/
inductive ThreadStep
  /-- The first half of `fastkv_txn_begin`: draw the timestamp. -/
  | draw (t : ℕ) (readOnly : Bool)
  /-- The second half, one slot at a time. -/
  | claim (t : ℕ)
  /-- `fastkv_txn_put`. -/
  | put (t : ℕ) (key : Bytes) (value : Slice)
  /-- `fastkv_txn_delete`. -/
  | delete (t : ℕ) (key : Bytes)
  /-- `fastkv_txn_commit`: take the commit lock and look for conflicts. -/
  | check (t : ℕ)
  /-- Draw the commit timestamp. -/
  | drawCommit (t : ℕ)
  /-- Log the next entry. -/
  | append (t : ℕ)
  /-- Apply it. -/
  | install (t : ℕ)
  /-- Release the commit lock. -/
  | unlock (t : ℕ)
  /-- `fastkv_txn_abort`. -/
  | abort (t : ℕ)
  /-- Release the slot. -/
  | release (t : ℕ)
  /-- `fastkv_oracle_min_active`: read the clock. -/
  | readClock (c : ℕ)
  /-- Read the next slot. -/
  | readSlot (c : ℕ)
  /-- `fastkv_ht_gc`. -/
  | collect (c : ℕ)

/-- A new transaction. -/
def newTxn (readOnly : Bool) (beginTs : ℕ) (slot : Option ℕ) : Txn :=
  ⟨beginTs, tsInvalid, .active, readOnly, slot, [], 0⟩

/-- Execute a step. A step for which the thread is not ready, or which has to wait for the
commit lock, changes nothing. -/
def threadStep (s : Threads) : ThreadStep → Threads
  | .draw t readOnly =>
    match s.phase t with
    | .idle =>
      if !readOnly && s.world.db.opts.readOnly then s.to t (.closed (some .txnRo))
      else { s with world := s.world.drawn }.to t (.claiming readOnly s.clock 0)
    | _ => s
  | .claim t =>
    match s.phase t with
    | .claiming readOnly beginTs i =>
      if i < maxConcurrentTxn then
        if s.oracle.slots.getD i 0 = 0 then
          { s with world := s.world.withOracle (s.oracle.setSlot i beginTs) }.to t
            (.active (newTxn readOnly beginTs (some i)))
        else s.to t (.claiming readOnly beginTs (i + 1))
      else s.to t (.active (newTxn readOnly beginTs none))
    | _ => s
  | .put t key value =>
    match s.phase t with
    | .active txn => s.to t (.active (txnPut txn key value).2)
    | _ => s
  | .delete t key =>
    match s.phase t with
    | .active txn => s.to t (.active (txnDelete txn key).2)
    | _ => s
  | .check t =>
    match s.phase t with
    | .active txn =>
      if txn.readOnly ∨ txn.writes = [] then s.to t (.closing txn (some .ok))
      else if s.lock.isSome then s
      else if dbCheckConflicts s.world.db txn.writes txn.beginTs = .ok then
        { s with lock := some t }.to t (.checked txn)
      else s.to t (.closing txn (some .txnConflict))
    | _ => s
  | .drawCommit t =>
    match s.phase t with
    | .checked txn =>
      { s with world := s.world.drawn, commits := s.commits ++ [(s.clock, txn.writes)] }.to t
        (.applying { txn with commitTs := s.clock } txn.writes)
    | _ => s
  | .append t =>
    match s.phase t with
    | .applying txn (e :: rest) =>
      let (rc, world) := logEntry s.world e txn.commitTs
      if rc = .ok then { s with world }.to t (.logged txn e rest)
      else { s with world }.to t (.failed txn rc)
    | _ => s
  | .install t =>
    match s.phase t with
    | .logged txn e rest =>
      { s with world := { s.world with db := applyEntry s.world.db e txn.commitTs } }.to t
        (.applying txn rest)
    | _ => s
  | .unlock t =>
    match s.phase t with
    | .applying txn [] => { s with lock := none }.to t (.closing txn (some .ok))
    | .failed txn rc => { s with lock := none }.to t (.closing txn (some rc))
    | _ => s
  | .abort t =>
    match s.phase t with
    | .active txn => s.to t (.closing txn none)
    | _ => s
  | .release t =>
    match s.phase t with
    | .closing txn rc =>
      { s with world := s.world.withOracle (oracleRelease s.oracle txn.oracleSlot) }.to t
      (.closed rc)
    | _ => s
  | .readClock c =>
    match s.scan c with
    | none => { s with scan := Function.update s.scan c (some (s.clock, 0)) }
    | some _ => s
  | .readSlot c =>
    match s.scan c with
    | some (minTs, i) =>
      if i < maxConcurrentTxn then
        let ts := s.oracle.slots.getD i 0
        { s with
          scan := Function.update s.scan c
            (some (if ts ≠ 0 ∧ ts < minTs then ts else minTs, i + 1)) }
      else s
    | none => s
  | .collect c =>
    match s.scan c with
    | some (minTs, i) =>
      if i < maxConcurrentTxn then s
      else
        { s with
          world := { s.world with db := { s.world.db with ht := (htGc s.ht minTs).2 } }
          scan := Function.update s.scan c none }
    | none => s

/-- The steps of a transaction that writes one key, if at most one slot is taken. -/
def commitOf (t : ℕ) (key value : Bytes) : List ThreadStep :=
  [.draw t false, .claim t, .claim t, .put t key (some value), .check t, .drawCommit t, .append t,
    .install t, .unlock t, .release t]

/-! ## What a step can do -/

/-- A transaction before and after a call that adds to its write set. -/
structure Txn.Collects (txn txn' : Txn) : Prop extends Txn.Extends txn txn' where
  /-- The slot. -/
  slot : txn'.oracleSlot = txn.oracleSlot
  /-- Earlier writes stay. -/
  earlier : txn.writes <:+ txn'.writes

/-- A refused call adds nothing. -/
theorem Txn.Collects.refl (txn : Txn) : txn.Collects txn := ⟨.refl txn, rfl, List.suffix_rfl⟩

/-- One call after the other. -/
theorem Txn.Collects.trans {txn txn' txn'' : Txn} (h : txn.Collects txn')
    (h' : txn'.Collects txn'') :
    txn.Collects txn'' where
  state := h'.state.trans h.state
  beginTs := h'.beginTs.trans h.beginTs
  readOnly := h'.readOnly.trans h.readOnly
  writes := fun hro => (h'.writes (h.readOnly.trans hro)).trans (h.writes hro)
  permitted := fun hold => h'.permitted (h.permitted hold)
  slot := h'.slot.trans h.slot
  earlier := h.earlier.trans h'.earlier

/-- `write_entry_add` adds an entry or refuses. -/
theorem writeEntryAdd_collects (txn : Txn) {key : Bytes} {value : Slice}
    (h : WriteEntry.Permitted ⟨key, value⟩) : txn.Collects (writeEntryAdd txn key value).2 := by
  refine ⟨writeEntryAdd_extends txn h, ?_, ?_⟩
  · unfold writeEntryAdd
    split
    · rfl
    · split <;> rfl
  · unfold writeEntryAdd
    split
    · exact List.suffix_rfl
    · split
      · exact List.suffix_rfl
      · exact List.suffix_cons _ _

/-- `fastkv_txn_put`. -/
theorem txnPut_collects (txn : Txn) (key : Bytes) (value : Slice) :
    txn.Collects (txnPut txn key value).2 := by
  unfold txnPut
  split
  · exact .refl txn
  · split
    · exact .refl txn
    · rename_i hkey hval
      refine writeEntryAdd_collects txn ⟨by show key.length ≤ _; omega, fun v hv => ?_⟩
      have hv' : value = some v := hv
      rw [hv', Option.getD_some] at hval
      omega

/-- `fastkv_txn_delete`. -/
theorem txnDelete_collects (txn : Txn) (key : Bytes) : txn.Collects (txnDelete txn key).2 := by
  unfold txnDelete
  split
  · exact .refl txn
  · rename_i hkey
    exact writeEntryAdd_collects txn ⟨by show key.length ≤ _; omega, fun v hv => by cases hv⟩

/-- What a step can do. -/
inductive ThreadEffect (s : Threads) : ThreadStep → Threads → Prop
  /-- Nothing. -/
  | stay {a : ThreadStep} : ThreadEffect s a s
  /-- A transaction that would write is refused in a read-only database. -/
  | refused {t : ℕ} {readOnly : Bool} : s.phase t = .idle →
      ThreadEffect s (.draw t readOnly) (s.to t (.closed (some .txnRo)))
  /-- A begin timestamp is drawn. -/
  | drawn {t : ℕ} {readOnly : Bool} : s.phase t = .idle → ThreadEffect s (.draw t readOnly)
      ({ s with world := s.world.drawn }.to t (.claiming readOnly s.clock 0))
  /-- A slot is taken. -/
  | taken {t i beginTs : ℕ} {readOnly : Bool} : s.phase t = .claiming readOnly beginTs i →
      ThreadEffect s (.claim t) (s.to t (.claiming readOnly beginTs (i + 1)))
  /-- A slot is free. -/
  | claimed {t i beginTs : ℕ} {readOnly : Bool} : s.phase t = .claiming readOnly beginTs i →
      i < maxConcurrentTxn → s.oracle.slots.getD i 0 = 0 → ThreadEffect s (.claim t)
      ({ s with world := s.world.withOracle (s.oracle.setSlot i beginTs) }.to t
        (.active (newTxn readOnly beginTs (some i))))
  /-- All slots were taken. -/
  | unclaimed {t i beginTs : ℕ} {readOnly : Bool} : s.phase t = .claiming readOnly beginTs i →
      maxConcurrentTxn ≤ i → ThreadEffect s (.claim t)
      (s.to t (.active (newTxn readOnly beginTs none)))
  /-- A write is collected, or refused. -/
  | wrote {t : ℕ} {a : ThreadStep} {txn txn' : Txn} : s.phase t = .active txn →
      txn.Collects txn' → ThreadEffect s a (s.to t (.active txn'))
  /-- The transaction ends without applying anything. -/
  | ended {t : ℕ} {a : ThreadStep} {txn : Txn} {rc : Option Err} : s.phase t = .active txn →
      ThreadEffect s a (s.to t (.closing txn rc))
  /-- The commit lock is taken. -/
  | locked {t : ℕ} {txn : Txn} : s.phase t = .active txn → s.lock = none →
      txn.readOnly = false → txn.writes ≠ [] →
      dbCheckConflicts s.world.db txn.writes txn.beginTs = .ok →
      ThreadEffect s (.check t) ({ s with lock := some t }.to t (.checked txn))
  /-- A commit timestamp is drawn. -/
  | drewCommit {t : ℕ} {txn : Txn} : s.phase t = .checked txn → ThreadEffect s (.drawCommit t)
      ({ s with world := s.world.drawn, commits := s.commits ++ [(s.clock, txn.writes)] }.to t
        (.applying { txn with commitTs := s.clock } txn.writes))
  /-- An entry is logged. -/
  | appended {t : ℕ} {txn : Txn} {e : WriteEntry} {rest : List WriteEntry} :
      s.phase t = .applying txn (e :: rest) → (logEntry s.world e txn.commitTs).1 = .ok →
      ThreadEffect s (.append t)
        ({ s with world := (logEntry s.world e txn.commitTs).2 }.to t (.logged txn e rest))
  /-- An entry cannot be logged. -/
  | appendFailed {t : ℕ} {txn : Txn} {e : WriteEntry} {rest : List WriteEntry} :
      s.phase t = .applying txn (e :: rest) → (logEntry s.world e txn.commitTs).1 ≠ .ok →
      ThreadEffect s (.append t) ({ s with world := (logEntry s.world e txn.commitTs).2 }.to t
        (.failed txn (logEntry s.world e txn.commitTs).1))
  /-- An entry is applied. -/
  | installed {t : ℕ} {txn : Txn} {e : WriteEntry} {rest : List WriteEntry} :
      s.phase t = .logged txn e rest → ThreadEffect s (.install t)
      ({ s with world := { s.world with db := applyEntry s.world.db e txn.commitTs } }.to t
        (.applying txn rest))
  /-- The commit lock is released after the last entry. -/
  | unlocked {t : ℕ} {txn : Txn} : s.phase t = .applying txn [] → ThreadEffect s (.unlock t)
      ({ s with lock := none }.to t (.closing txn (some .ok)))
  /-- The commit lock is released after an error. -/
  | unlockedFailed {t : ℕ} {txn : Txn} {rc : Err} : s.phase t = .failed txn rc →
      ThreadEffect s (.unlock t) ({ s with lock := none }.to t (.closing txn (some rc)))
  /-- The slot is released. -/
  | released {t : ℕ} {txn : Txn} {rc : Option Err} : s.phase t = .closing txn rc →
      ThreadEffect s (.release t)
        ({ s with world := s.world.withOracle (oracleRelease s.oracle txn.oracleSlot) }.to t
          (.closed rc))
  /-- A collector reads the clock. -/
  | clockRead {c : ℕ} : s.scan c = none → ThreadEffect s (.readClock c)
      { s with scan := Function.update s.scan c (some (s.clock, 0)) }
  /-- A collector reads a slot. -/
  | slotRead {c minTs i : ℕ} : s.scan c = some (minTs, i) → i < maxConcurrentTxn →
      ThreadEffect s (.readSlot c) { s with
        scan := Function.update s.scan c
          (some (if s.oracle.slots.getD i 0 ≠ 0 ∧ s.oracle.slots.getD i 0 < minTs
            then s.oracle.slots.getD i 0 else minTs, i + 1)) }
  /-- A collector collects. -/
  | collected {c minTs i : ℕ} : s.scan c = some (minTs, i) → maxConcurrentTxn ≤ i →
      ThreadEffect s (.collect c) { s with
        world := { s.world with db := { s.world.db with ht := (htGc s.ht minTs).2 } }
        scan := Function.update s.scan c none }

/-- Every step does one of these. -/
theorem threadStep_effect (s : Threads) (a : ThreadStep) : ThreadEffect s a (threadStep s a) := by
  cases a with
  | draw t readOnly =>
    rw [threadStep]
    split
    · rename_i hphase
      split
      · exact .refused hphase
      · exact .drawn hphase
    · exact .stay
  | claim t =>
    rw [threadStep]
    split
    · rename_i hphase
      split
      · split
        · exact .claimed hphase (by assumption) (by assumption)
        · exact .taken hphase
      · exact .unclaimed hphase (by omega)
    · exact .stay
  | put t key value =>
    rw [threadStep]
    split
    · exact .wrote (by assumption) (txnPut_collects _ _ _)
    · exact .stay
  | delete t key =>
    rw [threadStep]
    split
    · exact .wrote (by assumption) (txnDelete_collects _ _)
    · exact .stay
  | check t =>
    rw [threadStep]
    split
    · rename_i txn hphase
      split
      · exact .ended hphase
      · rename_i hwrites
        rw [not_or, Bool.not_eq_true] at hwrites
        split
        · exact .stay
        · rename_i hlock
          split
          · exact .locked hphase (by simpa using hlock) hwrites.1 hwrites.2 (by assumption)
          · exact .ended hphase
    · exact .stay
  | drawCommit t =>
    rw [threadStep]
    split
    · exact .drewCommit (by assumption)
    · exact .stay
  | append t =>
    rw [threadStep]
    split
    · rename_i hphase
      simp only
      split
      · exact .appended hphase (by assumption)
      · exact .appendFailed hphase (by assumption)
    · exact .stay
  | install t =>
    rw [threadStep]
    split
    · exact .installed (by assumption)
    · exact .stay
  | unlock t =>
    rw [threadStep]
    split
    · exact .unlocked (by assumption)
    · exact .unlockedFailed (by assumption)
    · exact .stay
  | abort t =>
    rw [threadStep]
    split
    · exact .ended (by assumption)
    · exact .stay
  | release t =>
    rw [threadStep]
    split
    · exact .released (by assumption)
    · exact .stay
  | readClock c =>
    rw [threadStep]
    split
    · exact .clockRead (by assumption)
    · exact .stay
  | readSlot c =>
    rw [threadStep]
    split
    · split
      · exact .slotRead (by assumption) (by assumption)
      · exact .stay
    · exact .stay
  | collect c =>
    rw [threadStep]
    split
    · split
      · exact .stay
      · exact .collected (by assumption) (by omega)
    · exact .stay

/-! ## Views -/

/-- The clock after a draw. -/
theorem Threads.clock_drawn {s : Threads} (h : s.clock + 1 < tsMax) :
    s.world.drawn.db.clock = s.clock + 1 := by
  have hlt : s.world.db.txnMgr.oracle.clock + 1 < 2 ^ 64 := by
    have hle : tsMax < 2 ^ 64 := by decide
    exact h.trans hle
  exact add64_eq hlt

/-- Logging does not involve the table. -/
theorem logEntry_ht (w : World) (e : WriteEntry) (commitTs : ℕ) :
    (logEntry w e commitTs).2.db.ht = w.db.ht := by
  unfold logEntry
  split <;> rfl

/-- Logging does not involve the transaction manager. -/
theorem logEntry_txnMgr (w : World) (e : WriteEntry) (commitTs : ℕ) :
    (logEntry w e commitTs).2.db.txnMgr = w.db.txnMgr := by
  unfold logEntry
  split <;> rfl

/-- A step moves the clock by at most one. -/
theorem threadStep_clock {s : Threads} (hclock : s.clock + 1 < tsMax) (a : ThreadStep) :
    s.clock ≤ (threadStep s a).clock ∧ (threadStep s a).clock ≤ s.clock + 1 := by
  have htick := Threads.clock_drawn hclock
  have heffect := threadStep_effect s a
  generalize threadStep s a = s' at heffect
  have hsame : s'.oracle.clock = s.oracle.clock → s.clock ≤ s'.clock ∧ s'.clock ≤ s.clock + 1 :=
    fun heq => by
      have heq' : s'.clock = s.clock := heq
      omega
  have hdrawn : s'.clock = s.world.drawn.db.clock → s.clock ≤ s'.clock ∧
      s'.clock ≤ s.clock + 1 := by
    omega
  cases heffect with
  | drawn => exact hdrawn rfl
  | drewCommit => exact hdrawn rfl
  | appended => exact hsame (congrArg (fun mgr => mgr.oracle.clock) (logEntry_txnMgr _ _ _))
  | appendFailed => exact hsame (congrArg (fun mgr => mgr.oracle.clock) (logEntry_txnMgr _ _ _))
  | installed => exact hsame (congrArg (fun mgr => mgr.oracle.clock) (applyEntry_txnMgr _ _ _))
  | released => exact hsame (clock_oracleRelease _ _)
  | _ => exact hsame rfl

/-- The phases after one transaction proceeded. -/
theorem Threads.to_phase (s : Threads) (t : ℕ) (p : Phase) (t' : ℕ) :
    (s.to t p).phase t' = if t' = t then p else s.phase t' := by
  unfold Threads.to
  simp only [Function.update_apply]

/-- The transitions of one transaction. -/
inductive Phase.Next : Phase → Phase → Prop
  /-- It may not write. -/
  | refused {rc : Err} : Next .idle (.closed (some rc))
  /-- It draws its timestamp. -/
  | drawn {readOnly : Bool} {beginTs : ℕ} : Next .idle (.claiming readOnly beginTs 0)
  /-- It tries the next slot. -/
  | taken {readOnly : Bool} {beginTs i : ℕ} :
      Next (.claiming readOnly beginTs i) (.claiming readOnly beginTs (i + 1))
  /-- It has begun. -/
  | begun {readOnly : Bool} {beginTs i : ℕ} {slot : Option ℕ} :
      Next (.claiming readOnly beginTs i) (.active (newTxn readOnly beginTs slot))
  /-- It writes. -/
  | wrote {txn txn' : Txn} : txn.Collects txn' → Next (.active txn) (.active txn')
  /-- It ends without a commit. -/
  | ended {txn : Txn} {rc : Option Err} : Next (.active txn) (.closing txn rc)
  /-- Its commit gets the lock. -/
  | locked {txn : Txn} : Next (.active txn) (.checked txn)
  /-- Its commit draws a timestamp. -/
  | drewCommit {txn : Txn} {commitTs : ℕ} :
      Next (.checked txn) (.applying { txn with commitTs } txn.writes)
  /-- An entry is logged. -/
  | appended {txn : Txn} {e : WriteEntry} {rest : List WriteEntry} :
      Next (.applying txn (e :: rest)) (.logged txn e rest)
  /-- An entry cannot be logged. -/
  | failed {txn : Txn} {e : WriteEntry} {rest : List WriteEntry} {rc : Err} :
      Next (.applying txn (e :: rest)) (.failed txn rc)
  /-- An entry is applied. -/
  | installed {txn : Txn} {e : WriteEntry} {rest : List WriteEntry} :
      Next (.logged txn e rest) (.applying txn rest)
  /-- All entries are applied. -/
  | unlocked {txn : Txn} : Next (.applying txn []) (.closing txn (some .ok))
  /-- The commit gives up. -/
  | unlockedFailed {txn : Txn} {rc : Err} : Next (.failed txn rc) (.closing txn (some rc))
  /-- It is over. -/
  | released {txn : Txn} {rc : Option Err} : Next (.closing txn rc) (.closed rc)

/-- The transition of the transaction that proceeds. -/
theorem Threads.next_to {s : Threads} {t : ℕ} {p q : Phase} (hphase : s.phase t = q)
    (hnext : q.Next p)
    (t' : ℕ) : (s.to t p).phase t' = s.phase t' ∨ (s.phase t').Next ((s.to t p).phase t') := by
  rw [Threads.to_phase]
  split
  · rename_i heq
    rw [heq, hphase]
    exact Or.inr hnext
  · exact Or.inl rfl

/-- Every transaction makes one of these transitions in a step, or none. -/
theorem ThreadEffect.next {s s' : Threads} {a : ThreadStep} (h : ThreadEffect s a s') (t : ℕ) :
    s'.phase t = s.phase t ∨ (s.phase t).Next (s'.phase t) := by
  cases h with
  | stay => exact Or.inl rfl
  | refused hphase => exact Threads.next_to hphase .refused t
  | drawn hphase => exact Threads.next_to (s := { s with world := _ }) hphase .drawn t
  | taken hphase => exact Threads.next_to hphase .taken t
  | claimed hphase _ _ => exact Threads.next_to (s := { s with world := _ }) hphase .begun t
  | unclaimed hphase _ => exact Threads.next_to hphase .begun t
  | wrote hphase hcollects => exact Threads.next_to hphase (.wrote hcollects) t
  | ended hphase => exact Threads.next_to hphase .ended t
  | locked hphase => exact Threads.next_to (s := { s with lock := _ }) hphase .locked t
  | drewCommit hphase =>
    exact Threads.next_to (s := { s with world := _, commits := _ }) hphase .drewCommit t
  | appended hphase _ => exact Threads.next_to (s := { s with world := _ }) hphase .appended t
  | appendFailed hphase _ => exact Threads.next_to (s := { s with world := _ }) hphase .failed t
  | installed hphase => exact Threads.next_to (s := { s with world := _ }) hphase .installed t
  | unlocked hphase => exact Threads.next_to (s := { s with lock := _ }) hphase .unlocked t
  | unlockedFailed hphase =>
    exact Threads.next_to (s := { s with lock := _ }) hphase .unlockedFailed t
  | released hphase => exact Threads.next_to (s := { s with world := _ }) hphase .released t
  | clockRead _ => exact Or.inl rfl
  | slotRead _ _ => exact Or.inl rfl
  | collected _ _ => exact Or.inl rfl

/-- Only the installation of a version and a collection change the table. -/
theorem ThreadEffect.ht {s s' : Threads} {a : ThreadStep} (h : ThreadEffect s a s') :
    s'.ht = s.ht ∨ (∃ t txn e rest, s.phase t = .logged txn e rest ∧
      s'.ht = htInsertVersion s.ht txn.commitTs e.key e.value) ∨ ∃ c, a = .collect c := by
  cases h with
  | installed hphase => exact Or.inr (Or.inl ⟨_, _, _, _, hphase, applyEntry_ht _ _ _⟩)
  | appended => exact Or.inl (logEntry_ht _ _ _)
  | appendFailed => exact Or.inl (logEntry_ht _ _ _)
  | collected => exact Or.inr (Or.inr ⟨_, rfl⟩)
  | _ => exact Or.inl rfl

/-- What holds of the transaction that proceeded and of the others holds of all. -/
theorem Threads.to_all {P : ℕ → Phase → Prop} {s : Threads} {t : ℕ} {p : Phase} (hp : P t p)
    (h : ∀ t', t' ≠ t → P t' (s.phase t')) (t' : ℕ) : P t' ((s.to t p).phase t') := by
  rw [Threads.to_phase]
  split
  · rename_i heq
    rw [heq]
    exact hp
  · exact h t' (by assumption)

/-- What a step of one transaction keeps of it, it keeps of all. -/
theorem Threads.to_view {β : Type} {f : Phase → β} {s : Threads} {t : ℕ} {p : Phase}
    (h : f p = f (s.phase t)) (t' : ℕ) : f ((s.to t p).phase t') = f (s.phase t') :=
  Threads.to_all (P := fun t' q => f q = f (s.phase t')) h (fun _ _ => rfl) t'

end FastKV
