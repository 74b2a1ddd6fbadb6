import FastKV.Soundness

/-!
# Reachable databases

Opening a directory whose snapshot is intact gives a table that is older than the clock, and
every operation keeps it so. Timestamps are 64-bit numbers, and nothing in the engine keeps
the clock from running into the values with a special meaning; a database is called
reachable as long as that has not happened.
-/

namespace FastKV

/-! ## Opening -/

/-- Loading snapshot entries keeps what insertions at the timestamp of the snapshot keep. -/
theorem loadEntries_induction {P : Ht → Prop} {ts : ℕ}
    (hinsert : ∀ ht key value, P ht → P (htInsertVersion ht ts key value)) (numKeys : ℕ) :
    ∀ (bs : Bytes) (dataCrc : UInt32) (s : Stores), P s.ht →
      P (loadEntries ts numKeys bs dataCrc s).2.ht := by
  induction numKeys with
  | zero => exact fun _ _ _ h => h
  | succ numKeys ih =>
    intro bs dataCrc s h
    unfold loadEntries
    split
    · exact h
    · exact ih _ _ _ (hinsert _ _ _ h)

/-- A snapshot that loads leaves the table as it was or filled with its entries. -/
theorem snapshotLoad_cases {files : Files} {s s' : Stores} {ts : ℕ}
    (h : snapshotLoad files s = (.ok, s', ts)) :
    s' = s ∨ ∃ numKeys bs dataCrc, s' = (loadEntries ts numKeys bs dataCrc s).2 := by
  unfold snapshotLoad at h
  split at h
  · left
    simp only [Prod.mk.injEq] at h
    exact h.2.1.symm
  · split at h
    · cases h
    · unfold loadFile at h
      split at h
      · cases h
      · split at h
        · cases h
        · rename_i header bs _
          split at h
          · cases h
          · split at h
            · cases h
            · rename_i hload
              split at h
              · simp only [Prod.mk.injEq, true_and] at h
                obtain ⟨rfl, rfl⟩ := h
                exact Or.inr ⟨header.numKeys, bs, 0, by rw [hload]⟩
              · cases h

/-- Applying logged records keeps what insertions at their timestamps keep. -/
theorem foldl_replayRecord_induction {P : Ht → Prop} (rs : List Record) :
    (∀ r ∈ rs, ∀ ht key value, P ht → P (htInsertVersion ht r.ts key value)) →
    ∀ s : Stores, P s.ht → P (rs.foldl (fun s r => replayRecord r s) s).ht := by
  induction rs with
  | nil => exact fun _ s h => h
  | cons r rs ih =>
    intro hinsert s h
    refine ih (fun r' hr' => hinsert r' (by simp [hr'])) (replayRecord r s) ?_
    unfold replayRecord
    split
    · exact hinsert r (by simp) _ _ _ h
    · exact hinsert r (by simp) _ _ _ h
    · exact h

/-- A directory that opens without loss: its snapshot is read to the end and no timestamp
in it has a special meaning. -/
structure Intact (opts : Opts) (files : Files) : Prop where
  /-- The snapshot loads, if there is one. -/
  snapshot : (snapshotLoad files opts.stores).1 = .ok
  /-- Its timestamp is an ordinary one. -/
  snapTs_lt : (snapshotLoad files opts.stores).2.2 < tsMax
  /-- The timestamps in the log are ordinary ones. -/
  walMaxTs_lt : (walReplay (snapshotLoad files opts.stores).2.2 walReplayCb files
    (snapshotLoad files opts.stores).2.1 0).2.2 < tsMax

/-- The clock after recovery. -/
theorem Opts.assemble_clock (opts : Opts) (s : Stores) {snapTs walMaxTs : ℕ}
    (hsnap : snapTs < tsMax) (hmax : walMaxTs < tsMax) (wal : Option Wal) :
    snapTs < (opts.assemble s snapTs walMaxTs wal).clock ∧
      walMaxTs < (opts.assemble s snapTs walMaxTs wal).clock ∧
      (opts.assemble s snapTs walMaxTs wal).clock ≤ tsMax := by
  unfold tsMax at hsnap hmax
  have hone : txnMgrInit.oracle.clock = 1 := rfl
  simp only [Opts.assemble, Db.clock, clock_oracleAdvance, hone, tsMax,
    add64_eq (show snapTs + 1 < 2 ^ 64 by omega), add64_eq (show walMaxTs + 1 < 2 ^ 64 by omega)]
  omega

/-- A new table is bounded. -/
theorem Opts.stores_bounded (opts : Opts) (clock : ℕ) : opts.stores.ht.Bounded clock := by
  intro key v hv
  rw [Opts.stores, versions_htCreate] at hv
  cases hv

/-- A new table has no live versions. -/
theorem Opts.stores_oneLive (opts : Opts) : opts.stores.ht.OneLive := by
  intro key
  rw [Opts.stores, versions_htCreate]
  exact Nat.zero_le _

/-- A new table has no values. -/
theorem Opts.stores_noEmpty (opts : Opts) : opts.stores.ht.NoEmpty := by
  intro key v hv
  rw [Opts.stores, versions_htCreate] at hv
  cases hv

/-- What opening a directory returns. -/
theorem fastkvOpen_cases {opts : Opts} {fresh : Uuid} {disk : Disk} {w : World}
    (h : fastkvOpen opts fresh disk = .ok w) :
    ∃ s snapTs walMaxTs wal rc, snapshotLoad disk.files opts.stores = (rc, s, snapTs) ∧
      w.db = opts.assemble ((replayed snapTs disk.files).foldl (fun s r => replayRecord r s) s)
        snapTs walMaxTs wal ∧
      (∀ r ∈ replayed snapTs disk.files, r.ts ≤ walMaxTs) ∧
      walMaxTs = (walReplay snapTs walReplayCb disk.files s 0).2.2 := by
  rcases hload : snapshotLoad disk.files opts.stores with ⟨rc, s, snapTs⟩
  obtain ⟨maxTs, hreplay, hmax⟩ := walReplay_eq snapTs replayRecord disk.files s 0
  have hcb : walReplay snapTs walReplayCb disk.files s 0 = (.ok,
      (replayed snapTs disk.files).foldl (fun s r => replayRecord r s) s, maxTs) := hreplay
  unfold fastkvOpen at h
  simp only [hload, hcb, ne_eq, not_true_eq_false, if_false] at h
  refine ⟨s, snapTs, maxTs, ?_⟩
  rw [hcb]
  split at h
  · cases h
  · split at h
    · cases h
      exact ⟨none, rc, rfl, rfl, hmax, rfl⟩
    · split at h
      · rename_i log _
        cases h
        exact ⟨some log.wal, rc, rfl, rfl, hmax, rfl⟩
      · cases h

/-- What opening an intact directory returns: the snapshot loads, and all timestamps are
ordinary. -/
theorem Intact.open_cases {opts : Opts} {fresh : Uuid} {disk : Disk} {w : World}
    (hintact : Intact opts disk.files) (h : fastkvOpen opts fresh disk = .ok w) :
    ∃ s snapTs walMaxTs wal, snapshotLoad disk.files opts.stores = (.ok, s, snapTs) ∧
      w.db = opts.assemble ((replayed snapTs disk.files).foldl (fun s r => replayRecord r s) s)
        snapTs walMaxTs wal ∧
      (∀ r ∈ replayed snapTs disk.files, r.ts ≤ walMaxTs) ∧
      snapTs < tsMax ∧ walMaxTs < tsMax := by
  obtain ⟨hsnap, hsnapTs, hwalTs⟩ := hintact
  obtain ⟨s, snapTs, walMaxTs, wal, rc, hload, hdb, hmax, hwal⟩ := fastkvOpen_cases h
  rw [hload] at hsnap hsnapTs hwalTs
  simp only at hsnap hsnapTs hwalTs
  rw [← hwal] at hwalTs
  rw [hsnap] at hload
  exact ⟨s, snapTs, walMaxTs, wal, hload, hdb, hmax, hsnapTs, hwalTs⟩

/-- What insertions at timestamps before the clock keep holds for the table after opening an
intact directory. -/
theorem fastkvOpen_induction {P : Ht → Prop} {opts : Opts} {fresh : Uuid} {disk : Disk} {w : World}
    (hintact : Intact opts disk.files) (h : fastkvOpen opts fresh disk = .ok w)
    (hstart : P opts.stores.ht) (hinsert : ∀ ht commitTs key value, commitTs < w.db.clock →
      commitTs < tsMax → P ht → P (htInsertVersion ht commitTs key value)) : P w.db.ht := by
  obtain ⟨s, snapTs, walMaxTs, wal, hload, hdb, hmax, hsnapTs, hwalTs⟩ := hintact.open_cases h
  obtain ⟨hlt, hlt', -⟩ := opts.assemble_clock ((replayed snapTs disk.files).foldl
    (fun s r => replayRecord r s) s) hsnapTs hwalTs wal
  rw [← hdb] at hlt hlt'
  have hloaded : P s.ht := by
    rcases snapshotLoad_cases hload with rfl | ⟨numKeys, bs, dataCrc, rfl⟩
    · exact hstart
    · exact loadEntries_induction (fun ht key value => hinsert ht snapTs key value hlt hsnapTs)
        numKeys bs dataCrc _ hstart
  rw [hdb]
  refine foldl_replayRecord_induction _ (fun r hr ht key value => ?_) s hloaded
  have hle := hmax r hr
  exact hinsert ht r.ts key value (by omega) (by omega)

/-- The clock after opening an intact directory is in range. -/
theorem fastkvOpen_clock_le {opts : Opts} {fresh : Uuid} {disk : Disk} {w : World}
    (hintact : Intact opts disk.files) (h : fastkvOpen opts fresh disk = .ok w) :
    w.db.clock ≤ tsMax := by
  obtain ⟨s, snapTs, walMaxTs, wal, -, hdb, -, hsnapTs, hwalTs⟩ := hintact.open_cases h
  rw [hdb]
  exact (opts.assemble_clock _ hsnapTs hwalTs wal).2.2

/-- Opening an intact directory gives a table older than the clock, in which no key has two
live versions and no value is empty. -/
theorem fastkvOpen_invariant {opts : Opts} {fresh : Uuid} {disk : Disk} {w : World}
    (hintact : Intact opts disk.files) (h : fastkvOpen opts fresh disk = .ok w) :
    w.db.ht.Bounded w.db.clock ∧ w.db.ht.OneLive ∧ w.db.ht.NoEmpty :=
  ⟨fastkvOpen_induction (P := fun ht => ht.Bounded w.db.clock) hintact h (opts.stores_bounded _)
      fun _ _ key value hlt _ hb => hb.insert hlt key value,
    fastkvOpen_induction (P := Ht.OneLive) hintact h opts.stores_oneLive
      fun _ _ key value _ hlt ho => ho.insert (ne_of_lt hlt) key value,
    fastkvOpen_induction (P := Ht.NoEmpty) hintact h opts.stores_noEmpty
      fun _ commitTs key value _ _ hne => hne.insert commitTs key value⟩

/-! ## Operations -/

/-- The databases that the engine can hold between two calls, as long as the clock stays
below the timestamps with a special meaning. Transactions are arbitrary here. -/
inductive World.Reachable : World → Prop
  /-- `fastkv_open`. -/
  | opened {opts : Opts} {fresh : Uuid} {disk : Disk} {w : World} :
      Intact opts disk.files → fastkvOpen opts fresh disk = .ok w → Reachable w
  /-- `fastkv_txn_begin`. -/
  | begin {w : World} {readOnly : Bool} {txn : Txn} {db : Db} : Reachable w →
      w.db.clock + 1 < tsMax → txnBegin w.db readOnly = .ok (txn, db) → Reachable { w with db }
  /-- `fastkv_txn_commit`. -/
  | commit {w : World} (txn : Txn) : Reachable w → w.db.clock + 1 < tsMax →
      Reachable (txnCommit w txn).2.1
  /-- `fastkv_txn_abort`. -/
  | abort {w : World} (txn : Txn) : Reachable w → Reachable (w.abort txn).1
  /-- `fastkv_ttl_set`, the second half of `fastkv_put_ttl`. -/
  | ttl {w : World} (ttl : Ttl) : Reachable w → Reachable { w with db := { w.db with ttl } }
  /-- Creating and dropping secondary indexes. -/
  | indexes {w : World} (indexes : List Index) : Reachable w →
      Reachable { w with db := { w.db with indexes } }
  /-- `fastkv_wal_sync` and other operations on the log alone. -/
  | log {w : World} (wal : Option Wal) (disk : Disk) : Reachable w →
      Reachable ⟨{ w.db with wal }, disk⟩
  /-- `fastkv_checkpoint`. -/
  | checkpoint {w : World} (snapId segId : Uuid) {now : ℕ} : Reachable w →
      w.db.clock + 2 * (expiredKeys w.db.ttl now).length < tsMax →
      Reachable (fastkvCheckpoint w snapId segId now).2

/-- In a reachable database the versions are older than the clock and no key has two live
ones. -/
theorem World.Reachable.invariant {w : World} (h : w.Reachable) :
    w.db.ht.Bounded w.db.clock ∧ w.db.ht.OneLive := by
  have keep {n : ℕ} {db db' : Db} (he : db.Evolves n db')
      (ih : db.ht.Bounded db.clock ∧ db.ht.OneLive) : db'.ht.Bounded db'.clock ∧ db'.ht.OneLive :=
    ⟨he.bounded ih.1, he.oneLive ih.2⟩
  induction h with
  | opened hintact hopen =>
    obtain ⟨hb, ho, -⟩ := fastkvOpen_invariant hintact hopen
    exact ⟨hb, ho⟩
  | begin _ hclock hbegin ih => exact keep (txnBegin_evolves hclock hbegin) ih
  | commit txn _ hclock ih => exact keep (txnCommit_evolves hclock txn) ih
  | abort txn _ ih => exact keep (World.abort_evolves (n := 0) _ txn) ih
  | ttl | indexes | log => assumption
  | checkpoint snapId segId _ hclock ih =>
    exact keep (fastkvCheckpoint_evolves hclock snapId segId) ih

/-- `fastkv_put` and `fastkv_delete` lead from reachable databases to reachable ones. -/
theorem World.Reachable.singleWrite {w : World} (h : w.Reachable)
    (hclock : w.db.clock + 2 < tsMax) (write : Txn → Err × Txn) :
    (singleWrite w write).2.Reachable := by
  unfold FastKV.singleWrite
  split
  · exact h
  · rename_i txn db hbegin
    have hopen : World.Reachable { w with db } := .begin h (by omega) hbegin
    have hle := (txnBegin_evolves (by omega) hbegin).clock_le_add
    simp only
    split
    · exact .commit _ hopen (by show db.clock + 1 < tsMax; omega)
    · exact .abort _ hopen

/-! ## A new database -/

/-- A database with one bucket in an empty directory. -/
def newWorld : World where
  db := oneBucket.assemble oneBucket.stores 0 0
    (some ⟨some (segName firstId.hex), false, 0, 0, firstId.hex, [], false, []⟩)
  disk := ⟨(∅ : Files).insert (segName firstId.hex) [], [], [.create (segName firstId.hex)]⟩

/-- It is what opening an empty directory returns. -/
theorem newWorld_opened : fastkvOpen oneBucket firstId ⟨∅, [], []⟩ = .ok newWorld := rfl

/-- An empty directory is intact. -/
theorem intact_empty (opts : Opts) : Intact opts ∅ :=
  ⟨rfl, (by decide : 0 < tsMax), (by decide : 0 < tsMax)⟩

/-- The new database is reachable. -/
theorem newWorld_reachable : newWorld.Reachable := .opened (intact_empty oneBucket) newWorld_opened

end FastKV
