import FastKV.ReplReconnect
import FastKV.SnapshotIsolation

/-!
# Reading on a replica

A replica inserts versions with the timestamps of the primary, while the transactions that read
on it draw theirs from its own clock. The clock is moved beyond every record that is applied,
but reads move it as well, so a record can arrive with a timestamp that an open transaction has
already reached; and a transaction can begin between two records of one commit. A transaction
that meets neither reads one state of the primary, between two commits, as long as it is open.
-/

namespace FastKV

open Lib

/-! ## The records of commits -/

/-- The commits of a primary, each with its timestamp and its writes, as it permits them. The
timestamps are below `bound`. -/
structure StreamValid (bound : ℕ) (stream : List (ℕ × List WriteEntry)) : Prop where
  /-- The timestamps. -/
  ts_lt : ∀ c ∈ stream, c.1 < bound
  /-- Keys and values are of permitted size. -/
  permitted : ∀ c ∈ stream, ∀ e ∈ c.2, e.Permitted

/-- The records of such commits can be decoded. -/
theorem StreamValid.record {bound : ℕ} {stream : List (ℕ × List WriteEntry)}
    (h : StreamValid bound stream) (hbound : bound < tsMax) {r : Record}
    (hr : r ∈ commitRecords stream) : r.Valid ∧ r.ts < bound := by
  obtain ⟨c, hc, hmem⟩ := List.mem_flatMap.mp hr
  obtain ⟨e, he, rfl⟩ := List.mem_map.mp hmem
  have hfit := h.permitted c hc e he
  have hlt := h.ts_lt c hc
  have hts : c.1 < 2 ^ 64 := by
    unfold tsMax at hbound
    omega
  exact ⟨⟨hts, hfit.1, hfit.2⟩, hlt⟩

/-! ## A replica with readers -/

/-- A replica with its open transactions. -/
structure ReplicaDb where
  /-- Database and transactions. -/
  session : Session
  /-- The number of records that have been applied. -/
  applied : ℕ

/-- What happens on the replica. -/
inductive ReplicaStep
  /-- The next record of the primary is applied; `beyond` is the memory behind the payload. -/
  | apply (beyond : Bytes)
  /-- A transaction that only reads begins. -/
  | begin
  /-- It reads a key. -/
  | get (i : ℕ) (key : Bytes)
  /-- It ends with `fastkv_txn_commit`. -/
  | commit (i : ℕ)
  /-- It ends with `fastkv_txn_abort`. -/
  | abort (i : ℕ)

/-- A call of a client of the replica. -/
def ReplicaDb.call (s : ReplicaDb) (c : Call) : ReplicaDb :=
  { s with session := s.session.after (.action (.call c)) }

/-- Execute a step; the records come from the transactions of the primary. -/
def replicaStep (stream : List (ℕ × List WriteEntry)) (s : ReplicaDb) : ReplicaStep → ReplicaDb
  | .apply beyond =>
    match (commitRecords stream)[s.applied]? with
    | none => s
    | some r =>
      let db := applyWalRecord beyond r.frame.encode s.session.world.db
      ⟨{ s.session with world := { s.session.world with db } }, s.applied + 1⟩
  | .begin => s.call (.begin true)
  | .get i key => s.call (.get i key)
  | .commit i => s.call (.commit i)
  | .abort i => s.call (.abort i)

/-- The replica right after it has been opened. -/
def ReplicaDb.start (w : World) : ReplicaDb := ⟨.start w, 0⟩

/-- Records are applied only while every open transaction is older than they are, and
transactions begin only between the commits of the primary. -/
def Uncrossed (stream : List (ℕ × List WriteEntry)) (s : ReplicaDb) : ReplicaStep → Prop
  | .apply _ => ∀ r, (commitRecords stream)[s.applied]? = some r →
      ∀ i txn, s.session.txn i = some txn → txn.beginTs < r.ts
  | .begin => ∃ k, s.applied = (commitRecords (stream.take k)).length
  | _ => True

/-! ## What a step does -/

/-- The transactions on the replica only read, and the replica has what the applied records
make of the map it started from. -/
structure ReplicaDb.Follows (stream : List (ℕ × List WriteEntry)) (base : Bytes → Slice)
    (s : ReplicaDb) : Prop where
  /-- Versions are older than the clock. -/
  bounded : s.session.world.db.ht.Bounded s.session.clock
  /-- The live versions. -/
  live : s.session.world.db.ht.live = updates base ((commitRecords stream).take s.applied)
  /-- Open transactions have not written anything. -/
  txns : ∀ i txn, s.session.txn i = some txn → txn.readOnly = true ∧ txn.state = .active ∧
    txn.writes = [] ∧ txn.beginTs < s.session.clock

/-- A step that closes a transaction or does nothing. -/
structure ReplicaDb.Rests (s s' : ReplicaDb) : Prop where
  /-- The table. -/
  ht : s'.session.world.db.ht = s.session.world.db.ht
  /-- The clock. -/
  clock : s'.session.clock = s.session.clock
  /-- The records. -/
  applied : s'.applied = s.applied
  /-- No transaction is opened or changed. -/
  txn : ∀ i txn, s'.session.txn i = some txn → s.session.txn i = some txn
  /-- The numbers given out. -/
  length : s'.session.txns.length = s.session.txns.length

section Steps

variable {stream : List (ℕ × List WriteEntry)} {base : Bytes → Slice} {s : ReplicaDb}

/-- Nothing happens. -/
theorem ReplicaDb.Rests.refl (s : ReplicaDb) : s.Rests s := ⟨rfl, rfl, rfl, fun _ _ h => h, rfl⟩

/-- Closing a transaction. -/
theorem ReplicaDb.rests_of_close {world : World} {i : ℕ}
    (hht : world.db.ht = s.session.world.db.ht) (hclock : world.db.clock = s.session.clock) :
    s.Rests ⟨⟨world, s.session.txns.set i none⟩, s.applied⟩ := by
  refine ⟨hht, hclock, rfl, fun j txn hopen => ?_, List.length_set⟩
  unfold Session.txn at hopen ⊢
  rw [List.getElem?_set] at hopen
  split at hopen
  · split at hopen <;> cases hopen
  · exact hopen

/-- A transaction begins. -/
theorem ReplicaDb.call_begin (s : ReplicaDb) : ∃ txn, txn.beginTs = s.session.clock ∧
    txn.readOnly = true ∧ txn.state = .active ∧ txn.writes = [] ∧
    (s.call (.begin true)).session.txns = s.session.txns ++ [some txn] ∧
    (s.call (.begin true)).session.world.db.ht = s.session.world.db.ht ∧
    (s.call (.begin true)).session.clock = add64 s.session.clock 1 := by
  have hbegin : txnBegin s.session.world.db true =
      .ok ((txnMgrBegin s.session.world.db.txnMgr true).1, { s.session.world.db with
        txnMgr := (txnMgrBegin s.session.world.db.txnMgr true).2 }) := rfl
  obtain ⟨hts, hstate, hwrites, hro, hht, -, hclock, -⟩ := txnBegin_spec hbegin
  exact ⟨_, hts, hro, hstate, hwrites, rfl, hht, hclock⟩

/-- A transaction ends, or reads. -/
theorem ReplicaDb.Follows.call_rests (h : s.Follows stream base) {c : Call}
    (hc : (∃ i key, c = .get i key) ∨ (∃ i, c = .commit i) ∨ ∃ i, c = .abort i) :
    s.Rests (s.call c) := by
  rcases hc with ⟨i, key, rfl⟩ | ⟨i, rfl⟩ | ⟨i, rfl⟩
  · have hsame : s.call (.get i key) = s := by
      simp only [ReplicaDb.call, Session.after, serve, step, callStep]
      split
      · rfl
      · split <;> rfl
    rw [hsame]
    exact .refl s
  · simp only [ReplicaDb.call, Session.after, serve, step, callStep]
    split
    · exact .refl s
    · rename_i txn hopen
      obtain ⟨hro, -, -, -⟩ := h.txns i txn hopen
      rcases txnCommit_cases s.session.world txn with ⟨-, mgr, hclock, heq⟩ | ⟨happlies, -⟩
      · simp only [Sys.commit, Session.sys, heq]
        exact ReplicaDb.rests_of_close rfl hclock
      · rw [happlies.readWrite] at hro
        cases hro
  · simp only [ReplicaDb.call, Session.after, serve, step, callStep]
    split
    · exact .refl s
    · rename_i txn hopen
      obtain ⟨hht, -, hclock, -⟩ := s.session.world.abort_db txn
      exact ReplicaDb.rests_of_close hht hclock

/-- A record is applied. -/
theorem replicaStep_apply {r : Record} (hr : r.Valid) (hts : r.ts < tsMax)
    (hget : (commitRecords stream)[s.applied]? = some r) (beyond : Bytes) :
    (replicaStep stream s (.apply beyond)).session.world.db.stores =
      replayRecord r s.session.world.db.stores ∧
    (replicaStep stream s (.apply beyond)).session.clock = max s.session.clock (r.ts + 1) ∧
    (replicaStep stream s (.apply beyond)).session.txns = s.session.txns ∧
    (replicaStep stream s (.apply beyond)).applied = s.applied + 1 := by
  obtain ⟨hstores, hclock⟩ := applyWalRecord_record hr beyond s.session.world.db
  have hnext : add64 r.ts 1 = r.ts + 1 := by
    unfold tsMax at hts
    exact Nat.mod_eq_of_lt (by omega)
  rw [hnext] at hclock
  have heq : replicaStep stream s (.apply beyond) =
      ⟨{ s.session with world := { s.session.world with
        db := applyWalRecord beyond r.frame.encode s.session.world.db } }, s.applied + 1⟩ := by
    simp only [replicaStep, hget]
  rw [heq]
  dsimp only [Session.clock]
  exact ⟨hstores, hclock, rfl, rfl⟩

/-- What a step can do: apply the next record, begin a transaction, or neither. -/
theorem ReplicaDb.Follows.step_cases (h : s.Follows stream base) {bound : ℕ}
    (hstream : StreamValid bound stream) (hbound : bound < tsMax) (a : ReplicaStep) :
    (∃ r beyond, a = .apply beyond ∧ (commitRecords stream)[s.applied]? = some r ∧ r.ts < bound ∧
      (replicaStep stream s a).session.world.db.stores =
        replayRecord r s.session.world.db.stores ∧
      (replicaStep stream s a).session.clock = max s.session.clock (r.ts + 1) ∧
      (replicaStep stream s a).session.txns = s.session.txns ∧
      (replicaStep stream s a).applied = s.applied + 1) ∨
    (a = .begin ∧ replicaStep stream s a = s.call (.begin true)) ∨
    s.Rests (replicaStep stream s a) := by
  cases a with
  | apply beyond =>
    cases hget : (commitRecords stream)[s.applied]? with
    | none =>
      have hsame : replicaStep stream s (.apply beyond) = s := by simp only [replicaStep, hget]
      rw [hsame]
      exact Or.inr (Or.inr (.refl s))
    | some r =>
      obtain ⟨hvalid, hts⟩ := hstream.record hbound (List.mem_of_getElem? hget)
      exact Or.inl ⟨r, beyond, rfl, rfl, hts,
        replicaStep_apply hvalid (hts.trans hbound) hget beyond⟩
  | begin => exact Or.inr (Or.inl ⟨rfl, rfl⟩)
  | get i key => exact Or.inr (Or.inr (h.call_rests (Or.inl ⟨i, key, rfl⟩)))
  | commit i => exact Or.inr (Or.inr (h.call_rests (Or.inr (Or.inl ⟨i, rfl⟩))))
  | abort i => exact Or.inr (Or.inr (h.call_rests (Or.inr (Or.inr ⟨i, rfl⟩))))

/-- Every step keeps the replica in line with the records. -/
theorem ReplicaDb.Follows.step (h : s.Follows stream base) {bound : ℕ}
    (hstream : StreamValid bound stream) (hbound : bound < tsMax)
    (hclock : s.session.clock + 1 < tsMax) (a : ReplicaStep) :
    (replicaStep stream s a).Follows stream base := by
  rcases h.step_cases hstream hbound a with
    ⟨r, beyond, -, hget, -, hstores, hnow, htxns, happlied⟩ | ⟨-, heq⟩ | hrests
  · refine ⟨?_, ?_, fun i txn hopen => ?_⟩
    · have hlater : s.session.world.db.stores.ht.Bounded (max s.session.clock (r.ts + 1)) :=
        Ht.Bounded.mono h.bounded (Nat.le_max_left _ _)
      show (replicaStep stream s a).session.world.db.stores.ht.Bounded _
      rw [hstores, hnow]
      exact hlater.replayRecord (lt_of_lt_of_le (Nat.lt_succ_self _) (Nat.le_max_right _ _))
    · show (replicaStep stream s a).session.world.db.stores.ht.live = _
      rw [hstores, live_replayRecord, happlied, List.take_add_one, hget, updates_append]
      show r.update s.session.world.db.ht.live = _
      rw [h.live]
      rfl
    · have hopen' : s.session.txn i = some txn := by
        unfold Session.txn at hopen ⊢
        rwa [htxns] at hopen
      obtain ⟨hro, hstate, hwrites, hts⟩ := h.txns i txn hopen'
      exact ⟨hro, hstate, hwrites, by
        rw [hnow]
        exact lt_of_lt_of_le hts (Nat.le_max_left _ _)⟩
  · obtain ⟨txn, hts, hro, hstate, hwrites, htxns, hht, hnext⟩ := s.call_begin
    rw [add64_eq (by unfold tsMax at hclock; omega)] at hnext
    rw [heq]
    refine ⟨?_, ?_, fun i txn' hopen => ?_⟩
    · rw [hht, hnext]
      exact h.bounded.mono (Nat.le_succ _)
    · rw [hht]
      exact h.live
    · rw [hnext]
      unfold Session.txn at hopen
      rw [htxns, List.getElem?_append] at hopen
      split at hopen
      · obtain ⟨hro', hstate', hwrites', hts'⟩ := h.txns i txn' hopen
        exact ⟨hro', hstate', hwrites', by omega⟩
      · have hmem := List.mem_of_getElem? (Option.join_eq_some_iff.mp hopen)
        cases List.mem_singleton.mp hmem
        exact ⟨hro, hstate, hwrites, by omega⟩
  · refine ⟨?_, ?_, fun i txn hopen => ?_⟩
    · rw [hrests.ht, hrests.clock]
      exact h.bounded
    · rw [hrests.ht, hrests.applied]
      exact h.live
    · rw [hrests.clock]
      exact h.txns i txn (hrests.txn i txn hopen)

/-! ## What a transaction sees -/

/-- As long as the transaction with the given number is open, it sees the given map. -/
structure ReplicaDb.Views (i : ℕ) (m : Bytes → Slice) (s : ReplicaDb) : Prop where
  /-- The number has been given out. -/
  lt : i < s.session.txns.length
  /-- What the transaction sees. -/
  visible : ∀ txn, s.session.txn i = some txn → ∀ key,
    s.session.world.db.ht.visible txn.beginTs key = m key

/-- A transaction that begins sees what is live. -/
theorem ReplicaDb.Follows.views_begin (h : s.Follows stream base)
    (hclock : s.session.clock < tsMax) :
    (s.call (.begin true)).Views s.session.txns.length s.session.world.db.ht.live := by
  obtain ⟨txn, hts, -, -, -, htxns, hht, -⟩ := s.call_begin
  refine ⟨by rw [htxns]; simp, fun txn' hopen key => ?_⟩
  unfold Session.txn at hopen
  rw [htxns, List.getElem?_concat_length] at hopen
  cases hopen
  rw [hht]
  apply readResult_inj
  rw [← htGet_eq_visible, hts, h.bounded.htGet_eq (Nat.le_refl _) hclock]

/-- It goes on seeing the same, if the records that are applied are newer. -/
theorem ReplicaDb.Views.step {i : ℕ} {m : Bytes → Slice} (hviews : s.Views i m)
    (h : s.Follows stream base) {bound : ℕ} (hstream : StreamValid bound stream)
    (hbound : bound < tsMax) (hclock : s.session.clock < tsMax) {a : ReplicaStep}
    (ha : Uncrossed stream s a) : (replicaStep stream s a).Views i m := by
  rcases h.step_cases hstream hbound a with
    ⟨r, beyond, rfl, hget, -, hstores, -, htxns, -⟩ | ⟨-, heq⟩ | hrests
  · refine ⟨by rw [htxns]; exact hviews.lt, fun txn hopen key => ?_⟩
    have hopen' : s.session.txn i = some txn := by
      unfold Session.txn at hopen ⊢
      rwa [htxns] at hopen
    have hlt := ha r hget i txn hopen'
    have hmax : txn.beginTs < tsMax := (h.txns i txn hopen').2.2.2.trans hclock
    show (replicaStep stream s (.apply beyond)).session.world.db.stores.ht.visible _ key = m key
    rw [hstores, ← hviews.visible txn hopen' key]
    unfold FastKV.replayRecord
    cases r.type with
    | put => exact visible_insert_later _ hlt hmax _ _ _
    | delete => exact visible_insert_later _ hlt hmax _ _ _
    | commit => rfl
    | begin => rfl
  · obtain ⟨txn, -, -, -, -, htxns, hht, -⟩ := s.call_begin
    rw [heq]
    refine ⟨?_, fun txn' hopen key => ?_⟩
    · rw [htxns, List.length_append]
      exact lt_of_lt_of_le hviews.lt (Nat.le_add_right _ _)
    · unfold Session.txn at hopen
      rw [htxns, List.getElem?_append_left hviews.lt] at hopen
      rw [hht]
      exact hviews.visible txn' hopen key
  · refine ⟨by rw [hrests.length]; exact hviews.lt, fun txn hopen key => ?_⟩
    rw [hrests.ht]
    exact hviews.visible txn (hrests.txn i txn hopen) key

/-- A step draws at most one timestamp beyond those of the primary. -/
theorem ReplicaDb.Follows.clock_step (h : s.Follows stream base) {bound : ℕ}
    (hstream : StreamValid bound stream) (hbound : bound < tsMax)
    (hclock : s.session.clock + 1 < tsMax) (a : ReplicaStep) :
    max (replicaStep stream s a).session.clock bound ≤ max s.session.clock bound + 1 := by
  rcases h.step_cases hstream hbound a with
    ⟨r, beyond, -, -, hts, -, hnow, -, -⟩ | ⟨-, heq⟩ | hrests
  · rw [hnow]
    omega
  · obtain ⟨txn, -, -, -, -, -, -, hnext⟩ := s.call_begin
    rw [add64_eq (by unfold tsMax at hclock; omega)] at hnext
    rw [heq, hnext]
    omega
  · rw [hrests.clock]
    exact Nat.le_succ _

end Steps

/-- What holds in every run whose steps are not crossed. -/
theorem ReplicaDb.Follows.run {stream : List (ℕ × List WriteEntry)} {base : Bytes → Slice}
    {s : ReplicaDb} (h : s.Follows stream base) {bound : ℕ} (hstream : StreamValid bound stream)
    {steps : List ReplicaStep} (hclock : max s.session.clock bound + steps.length < tsMax)
    (hsteps : Permitted (replicaStep stream) (Uncrossed stream) s steps) {I : ReplicaDb → Prop}
    (hstart : I s) (hstep : ∀ s a, s.Follows stream base → s.session.clock < tsMax →
      Uncrossed stream s a → I s → I (replicaStep stream s a)) :
    ((exec (replicaStep stream) s steps).Follows stream base ∧
      I (exec (replicaStep stream) s steps)) ∧
    max (exec (replicaStep stream) s steps).session.clock bound ≤
      max s.session.clock bound + steps.length := by
  have hbound : bound < tsMax := by omega
  refine exec_induction (P := Uncrossed stream) (I := fun s => s.Follows stream base ∧ I s)
    (fun s => max s.session.clock bound)
    (fun s a h hc => h.1.clock_step hstream hbound (by omega) a)
    (fun s a h hc ha => ⟨h.1.step hstream hbound (by omega) a, hstep s a h.1 (by omega) ha h.2⟩)
    steps ⟨h, hstart⟩ hclock hsteps

/-- The replica right after it has been opened. -/
theorem ReplicaDb.start_follows {opts : Opts} {fresh : Uuid} {disk : Disk} {w : World}
    (hintact : Intact opts disk.files) (hopen : fastkvOpen opts fresh disk = .ok w)
    (stream : List (ℕ × List WriteEntry)) : (ReplicaDb.start w).Follows stream w.db.ht.live := by
  refine ⟨(fastkvOpen_sound hintact hopen).bounded, rfl, fun i txn hopen => ?_⟩
  simp [ReplicaDb.start, Session.start, Session.txn] at hopen

/-- The records of the first commits. -/
theorem take_commitRecords (stream : List (ℕ × List WriteEntry)) (k : ℕ) :
    (commitRecords stream).take (commitRecords (stream.take k)).length =
      commitRecords (stream.take k) := by
  have hsplit : commitRecords stream =
      commitRecords (stream.take k) ++ commitRecords (stream.drop k) := by
    unfold commitRecords
    rw [← List.flatMap_append, List.take_append_drop]
  rw [hsplit]
  exact List.take_left

/-- What a transaction reads that begins after the first `k` commits. -/
theorem ReplicaDb.Follows.reads {stream : List (ℕ × List WriteEntry)} {base : Bytes → Slice}
    {s : ReplicaDb} (h : s.Follows stream base) {bound : ℕ} (hstream : StreamValid bound stream)
    {after : List ReplicaStep} (hclock : max s.session.clock bound + (after.length + 1) < tsMax)
    {k : ℕ} (hk : s.applied = (commitRecords (stream.take k)).length)
    (hafter : Permitted (replicaStep stream) (Uncrossed stream) (replicaStep stream s .begin) after)
    {s' : ReplicaDb} (hs' : s' = exec (replicaStep stream) (replicaStep stream s .begin) after)
    {txn : Txn} (htxn : s'.session.txn s.session.txns.length = some txn) (key : Bytes) :
    txnGet s'.session.world.db txn key = if maxKeyLen < key.length then .error .keysize
      else readResult (updates base (commitRecords (stream.take k)) key) := by
  have hbound : bound < tsMax := by omega
  have hnow : s.session.clock + 1 < tsMax := by omega
  have hnext := h.clock_step hstream hbound hnow .begin
  have hviews := h.views_begin (by omega)
  obtain ⟨⟨hfollows, hviews'⟩, -⟩ := (h.step hstream hbound hnow .begin).run hstream
    (by omega) hafter hviews fun s a h hc ha hI => hI.step h hstream hbound hc ha
  rw [← hs'] at hfollows hviews'
  obtain ⟨-, hstate, hwrites, -⟩ := hfollows.txns _ txn htxn
  rw [txnGet_unwritten (by rw [hwrites]; exact fun e he => by cases he),
    if_neg (not_not.mpr hstate), htGet_eq_visible, hviews'.visible txn htxn key, h.live, hk,
    take_commitRecords]

/-- Records of the primary are applied on a replica while transactions that only read begin,
read and end there, in any order, except that a record is not applied while a transaction is
open whose timestamp has reached that of the record, and that no transaction begins while a
commit of the primary is applied in part. Then for every transaction there is a number of
commits of the primary, determined when it begins, such that for as long as it is open it reads
what these commits, and no others, make of the map that the replica started from. -/
theorem replica_reads_consistent {opts : Opts} {fresh : Uuid} {disk : Disk} {w : World}
    (hintact : Intact opts disk.files) (hopen : fastkvOpen opts fresh disk = .ok w)
    {stream : List (ℕ × List WriteEntry)} {bound : ℕ} (hstream : StreamValid bound stream)
    (before : List ReplicaStep) :
    ∃ k, ∀ after : List ReplicaStep,
      max w.db.clock bound + (before ++ .begin :: after).length < tsMax →
      Permitted (replicaStep stream) (Uncrossed stream) (.start w) (before ++ .begin :: after) →
      ∀ txn, (exec (replicaStep stream) (.start w) (before ++ .begin :: after)).session.txn
          (exec (replicaStep stream) (.start w) before).session.txns.length = some txn →
        ∀ key, txnGet (exec (replicaStep stream) (.start w)
            (before ++ .begin :: after)).session.world.db txn key =
          if maxKeyLen < key.length then .error .keysize
          else readResult (updates w.db.ht.live (commitRecords (stream.take k)) key) := by
  have hstart := ReplicaDb.start_follows hintact hopen stream
  by_cases hwhole : ∃ k, (exec (replicaStep stream) (.start w) before).applied =
      (commitRecords (stream.take k)).length
  · obtain ⟨k, hk⟩ := hwhole
    refine ⟨k, fun after hclock hperm txn htxn key => ?_⟩
    rw [List.length_append, List.length_cons] at hclock
    obtain ⟨hbefore, -, hafter⟩ := (permitted_append before).mp hperm
    obtain ⟨⟨hfollows, -⟩, hle⟩ := hstart.run hstream
      (show max w.db.clock bound + before.length < tsMax by omega) hbefore
      (I := fun _ => True) trivial fun _ _ _ _ _ _ => trivial
    have hle' : max (exec (replicaStep stream) (.start w) before).session.clock bound ≤
        max w.db.clock bound + before.length := hle
    refine hfollows.reads hstream (by omega) hk hafter ?_ htxn key
    rw [exec_append, exec_cons]
  · refine ⟨0, fun after _ hperm => ?_⟩
    obtain ⟨-, hbegin, -⟩ := (permitted_append before).mp hperm
    exact absurd hbegin hwhole

/-- The first commit of a new primary: two keys. -/
def oneCommit : List (ℕ × List WriteEntry) := [(2, [⟨[1], some [10]⟩, ⟨[2], some [20]⟩])]

/-- It is as a primary permits it. -/
theorem oneCommit_valid : StreamValid 3 oneCommit := by
  refine ⟨fun c hc => ?_, fun c hc e he => ?_⟩
  · cases List.mem_singleton.mp hc
    decide
  · cases List.mem_singleton.mp hc
    rcases List.mem_pair.mp he with rfl | rfl <;>
      exact ⟨by decide, fun v hv => by rw [← Option.mem_some_iff.mp hv]; decide⟩

/-- A record is newer than the open transactions. -/
theorem uncrossed_of_all {stream : List (ℕ × List WriteEntry)} {s : ReplicaDb} {beyond : Bytes}
    (h : (commitRecords stream)[s.applied]?.all fun r => s.session.txns.all fun o =>
      o.all fun txn => decide (txn.beginTs < r.ts)) : Uncrossed stream s (.apply beyond) := by
  intro r hr i txn hopen
  rw [hr, Option.all_some, List.all_eq_true] at h
  have hmem := List.mem_of_getElem? (Option.join_eq_some_iff.mp hopen)
  have hlt := h _ hmem
  rw [Option.all_some] at hlt
  exact of_decide_eq_true hlt

/-- A transaction that begins before the commit goes on reading what was there. -/
theorem replica_reads_before_commit : ∃ txn txn',
    (exec (replicaStep oneCommit) (.start newWorld) [.begin]).session.txn 0 = some txn ∧
    (exec (replicaStep oneCommit) (.start newWorld)
      [.begin, .apply [], .apply []]).session.txn 0 = some txn' ∧
    ∀ key, txnGet (exec (replicaStep oneCommit) (.start newWorld)
        [.begin, .apply [], .apply []]).session.world.db txn' key =
      txnGet (exec (replicaStep oneCommit) (.start newWorld)
        [.begin]).session.world.db txn key := by
  obtain ⟨k, hreads⟩ := replica_reads_consistent (intact_empty oneBucket) newWorld_opened
    oneCommit_valid []
  have hbegin : Uncrossed oneCommit (.start newWorld) .begin := ⟨0, rfl⟩
  have hfirst : Uncrossed oneCommit (exec (replicaStep oneCommit) (.start newWorld) [.begin])
      (.apply []) := uncrossed_of_all (by decide +kernel)
  have hsecond : Uncrossed oneCommit (exec (replicaStep oneCommit) (.start newWorld)
      [.begin, .apply []]) (.apply []) := uncrossed_of_all (by decide +kernel)
  have hopen : ((exec (replicaStep oneCommit) (.start newWorld)
      [.begin]).session.txn 0).isSome := by decide +kernel
  have hopen' : ((exec (replicaStep oneCommit) (.start newWorld)
      [.begin, .apply [], .apply []]).session.txn 0).isSome := by decide +kernel
  obtain ⟨txn, htxn⟩ := Option.isSome_iff_exists.mp hopen
  obtain ⟨txn', htxn'⟩ := Option.isSome_iff_exists.mp hopen'
  refine ⟨txn, txn', htxn, htxn', fun key => ?_⟩
  exact (hreads [.apply [], .apply []] (by decide +kernel) ⟨hbegin, hfirst, hsecond, trivial⟩ txn'
    htxn' key).trans (hreads [] (by decide +kernel) ⟨hbegin, trivial⟩ txn htxn key).symm

/-- The second transaction on a new replica has the timestamp of the first commit of a new
primary. When the first record arrives it sees one of the two writes, which was not there
before. -/
theorem replica_read_changes : ¬ ∀ (stream : List (ℕ × List WriteEntry)) (bound : ℕ),
    StreamValid bound stream → ∀ (before after : List ReplicaStep) (i : ℕ) (txn txn' : Txn),
      (exec (replicaStep stream) (.start newWorld) before).session.txn i = some txn →
      (exec (replicaStep stream) (.start newWorld) (before ++ after)).session.txn i = some txn' →
      ∀ key, txnGet (exec (replicaStep stream) (.start newWorld) before).session.world.db txn key =
        txnGet (exec (replicaStep stream) (.start newWorld)
          (before ++ after)).session.world.db txn' key := by
  intro hclaim
  have hbefore : ((exec (replicaStep oneCommit) (.start newWorld) [.begin, .begin]).session.txn
      1).map (fun txn => (txnGet (exec (replicaStep oneCommit) (.start newWorld)
        [.begin, .begin]).session.world.db txn [1]).toOption) = some none := by decide +kernel
  have hafter : ((exec (replicaStep oneCommit) (.start newWorld)
      ([.begin, .begin] ++ [.apply []])).session.txn 1).map (fun txn =>
        (txnGet (exec (replicaStep oneCommit) (.start newWorld)
          ([.begin, .begin] ++ [.apply []])).session.world.db txn [1]).toOption) =
      some (some [10]) := by decide +kernel
  obtain ⟨txn, htxn, hread⟩ := Option.map_eq_some_iff.mp hbefore
  obtain ⟨txn', htxn', hread'⟩ := Option.map_eq_some_iff.mp hafter
  rw [hclaim oneCommit 3 oneCommit_valid [.begin, .begin] [.apply []] 1 txn txn' htxn htxn' [1],
    hread'] at hread
  cases hread

end FastKV
