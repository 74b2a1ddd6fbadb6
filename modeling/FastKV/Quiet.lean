import FastKV.Runs

/-!
# When no call fails

In a directory whose calls all succeed, commits that pass the conflict check apply their
writes, checkpoints complete, and the log stays open.
-/

namespace FastKV

open Lib

/-- The log, if there is one, works. -/
def World.Working (w : World) : Prop := ∀ wal, w.db.wal = some wal → Log.Working ⟨wal, w.disk⟩

/-- Logging in a working log succeeds. -/
theorem logEntry_working {w : World} (h : w.Working) (e : WriteEntry) (commitTs : ℕ) :
    (logEntry w e commitTs).1 = .ok ∧ (logEntry w e commitTs).2.Working := by
  unfold logEntry
  cases hwal : w.db.wal with
  | none => exact ⟨rfl, h⟩
  | some wal =>
    obtain ⟨hok, hworking⟩ := walAppend_working (h wal hwal) (e.record commitTs)
    refine ⟨hok, fun wal' hwal' => ?_⟩
    cases hwal'
    exact hworking

/-- Applying an entry does not involve the log. -/
theorem applyEntry_working {w : World} (h : w.Working) (e : WriteEntry) (commitTs : ℕ) :
    World.Working { w with db := applyEntry w.db e commitTs } := by
  have hwal : (applyEntry w.db e commitTs).wal = w.db.wal := by
    unfold applyEntry
    cases e.value <;> rfl
  intro wal hsome
  exact h wal (hwal.symm.trans hsome)

/-- A write set is logged and applied. -/
theorem dbApplyWriteSet_working (commitTs : ℕ) (es : List WriteEntry) : ∀ w : World, w.Working →
    (dbApplyWriteSet commitTs es w).1 = .ok ∧ (dbApplyWriteSet commitTs es w).2.Working := by
  induction es with
  | nil => exact fun w h => ⟨rfl, h⟩
  | cons e es ih =>
    intro w h
    obtain ⟨hok, hworking⟩ := logEntry_working h e commitTs
    unfold dbApplyWriteSet
    simp only [hok, if_true]
    exact ih _ (applyEntry_working hworking e commitTs)

/-- The table after a commit that is logged. -/
theorem ht_dbApplyWriteSet {w : World} (h : w.Working) (es : List WriteEntry) :
    (dbApplyWriteSet w.db.clock es w.drawn).2.db.ht = insertEntries w.db.clock es w.db.ht := by
  obtain ⟨hok, -⟩ := dbApplyWriteSet_working w.db.clock es w.drawn h
  obtain ⟨k, wal, hdb, hall⟩ := dbApplyWriteSet_cases w.db.clock es w.drawn
  rw [hdb, hall hok]
  exact applyEntries_ht _ _ _

/-- A snapshot is written. -/
theorem snapshotWrite_ok {d : Disk} (h : d.Quiet) (ht : Ht) (ts : ℕ) (id : Uuid) :
    (snapshotWrite ht ts id d).1 = .ok ∧ (snapshotWrite ht ts id d).2.Quiet := by
  have hflush : ∀ sw : SnapWriter, sw.err = .ok ∧ sw.disk.Quiet →
      (snapFlush sw).err = .ok ∧ (snapFlush sw).err = .ok ∧ (snapFlush sw).disk.Quiet := by
    rintro sw ⟨herr, hquiet⟩
    unfold snapFlush
    split
    · exact ⟨herr, herr, hquiet⟩
    · obtain ⟨heq, hq⟩ := hquiet.pwrite sw.name sw.buf sw.offset
      rw [heq] at hq
      simp only [heq, if_true]
      exact ⟨trivial, trivial, hq⟩
  have hfields : ∀ (fields : List Bytes) (sw : SnapWriter), sw.err = .ok ∧ sw.disk.Quiet →
      (fields.foldl snapWrite sw).err = .ok ∧ (fields.foldl snapWrite sw).disk.Quiet := by
    intro fields
    induction fields with
    | nil => exact fun sw h => h
    | cons field fields ih =>
      intro sw h
      have hwrite : snapWrite sw field = (snapBuffer.write field.length field sw).2 :=
        if_neg (by simp [h.1])
      rw [List.foldl_cons, hwrite]
      exact ih _ (Buffer.write_ok (B := snapBuffer) (fun _ _ h => h) hflush field.length
        field sw h).2
  obtain ⟨hopen, hquiet⟩ := h.call (.create (snapTmpName id.hex))
  rw [hopen] at hquiet
  obtain ⟨herr, -, hquiet'⟩ := hflush _ (hfields (snapshotFields ts ht) ⟨snapTmpName id.hex, [], 0,
    .ok, { d.perform (.create (snapTmpName id.hex)) with outcomes := d.outcomes.tail }⟩
    ⟨rfl, hquiet⟩)
  obtain ⟨hsync, hquiet₂⟩ := hquiet'.sync
  rw [hsync] at hquiet₂
  obtain ⟨hrename, hquiet₃⟩ := hquiet₂.call (.rename (snapTmpName id.hex) (snapName id.hex))
  rw [hrename] at hquiet₃
  unfold snapshotWrite ioOpen ioRename
  simp only [hopen, ne_eq, not_true_eq_false, if_false, herr, if_true, hsync, hrename]
  exact ⟨trivial, hquiet₃⟩

/-- Trimming the log leaves the directory quiet. -/
theorem walTrim_quiet {d : Disk} (h : d.Quiet) (keepFrom : Name) : (walTrim keepFrom d).Quiet :=
  (foldl_ioRemove_quiet segName _ d h).2

/-- Trimming the snapshots leaves the directory quiet. -/
theorem snapshotTrim_quiet {d : Disk} (h : d.Quiet) (keep : Name) : (snapshotTrim keep d).Quiet :=
  (foldl_ioRemove_quiet (fun n => n) _ d h).2

/-- The three calls of a checkpoint that can fail, when they succeed. -/
theorem fastkvCheckpoint_of_ok {w : World} {wal : Wal} {log log' : Log} {disk : Disk}
    {snapId segId : Uuid} (hwal : w.db.wal = some wal)
    (hsync : walSync ⟨wal, w.disk⟩ = (.ok, log))
    (hsnap : snapshotWrite w.db.ht w.db.clock snapId log.disk = (.ok, disk))
    (hrotate : walRotate segId ⟨log.wal, disk⟩ = (.ok, log')) (now : ℕ) :
    fastkvCheckpoint w snapId segId now = (.ok, checkpointMemory
      ⟨{ w.db with wal := some log'.wal },
        snapshotTrim snapId.hex (walTrim log.wal.segmentId log'.disk)⟩ now) := by
  have hsnap' : snapshotWrite w.db.ht (oracleNow w.db.txnMgr.oracle) snapId log.disk =
    (.ok, disk) :=
    hsnap
  unfold fastkvCheckpoint
  simp only [hwal, hsync, hsnap', hrotate, ne_eq, not_true_eq_false, if_false]

/-- On a disk that works they succeed. -/
theorem World.Working.checkpoint_calls {w : World} (h : w.Working) {wal : Wal}
    (hwal : w.db.wal = some wal) (snapId segId : Uuid) : ∃ log disk log',
    walSync ⟨wal, w.disk⟩ = (.ok, log) ∧
      snapshotWrite w.db.ht w.db.clock snapId log.disk = (.ok, disk) ∧
      walRotate segId ⟨log.wal, disk⟩ = (.ok, log') ∧ log'.Working := by
  obtain ⟨hsync, hworking⟩ := flushBuf_working (h wal hwal) true
  rcases hlog : walSync ⟨wal, w.disk⟩ with ⟨rc, log⟩
  rw [show flushBuf true ⟨wal, w.disk⟩ = (rc, log) from hlog] at hsync hworking
  obtain ⟨hsnap, hquiet⟩ := snapshotWrite_ok hworking.quiet w.db.ht w.db.clock snapId
  rcases hsnapshot : snapshotWrite w.db.ht w.db.clock snapId log.disk with ⟨rc', disk⟩
  rw [hsnapshot] at hsnap hquiet
  have hready : Log.Working ⟨log.wal, disk⟩ := ⟨hworking.io, hquiet⟩
  obtain ⟨hrotate, hrotated⟩ := walRotate_working hready segId
  cases hsync
  cases hsnap
  exact ⟨log, disk, _, rfl, hsnapshot, Prod.ext hrotate rfl, hrotated⟩

/-- Without expiry times the last steps of a checkpoint collect garbage. -/
theorem checkpointMemory_of_init {w : World} (httl : w.db.ttl = ttlInit) (now : ℕ) :
    checkpointMemory w now = { w.gc with
      db := { w.gc.db with statSnapshotCount := add64 w.db.statSnapshotCount 1 } } := by
  rw [checkpointMemory, ttlExpire_of_init httl]
  rfl

/-- They leave the log and the directory alone. -/
theorem checkpointMemory_log {w : World} (httl : w.db.ttl = ttlInit) (now : ℕ) :
    (checkpointMemory w now).db.wal = w.db.wal ∧ (checkpointMemory w now).disk = w.disk := by
  rw [checkpointMemory_of_init httl]
  exact ⟨rfl, rfl⟩

/-- A checkpoint completes, and the log works afterwards. -/
theorem fastkvCheckpoint_working {w : World} (h : w.Working) (httl : w.db.ttl = ttlInit)
    (snapId segId : Uuid) (now : ℕ) :
    (fastkvCheckpoint w snapId segId now).1 = .ok ∧
      (fastkvCheckpoint w snapId segId now).2.Working := by
  cases hwal : w.db.wal with
  | none =>
    unfold fastkvCheckpoint
    simp only [hwal, true_and]
    exact h
  | some wal =>
    obtain ⟨log, disk, log', hsync, hsnap, hrotate, hworking⟩ :=
      h.checkpoint_calls hwal snapId segId
    rw [fastkvCheckpoint_of_ok hwal hsync hsnap hrotate]
    refine ⟨rfl, fun wal' hwal' => ?_⟩
    obtain ⟨hsame, hdisk⟩ := checkpointMemory_log (w := ⟨{ w.db with wal := some log'.wal },
      snapshotTrim snapId.hex (walTrim log.wal.segmentId log'.disk)⟩) httl now
    simp only at hwal' ⊢
    rw [hsame] at hwal'
    rw [hdisk]
    cases hwal'
    exact ⟨hworking.io, snapshotTrim_quiet (walTrim_quiet hworking.quiet _) _⟩

/-- Opening a database for writing opens its log. -/
theorem fastkvOpen_log {opts : Opts} {fresh : Uuid} {disk : Disk} {w : World} (hquiet : disk.Quiet)
    (h : fastkvOpen opts fresh disk = .ok w) (hro : opts.readOnly = false) :
    ∃ log, walOpen opts.syncWrites fresh disk = (.ok, some log) ∧ w.db.wal = some log.wal ∧
      w.disk = log.disk ∧ log.disk.Quiet := by
  obtain ⟨log, hopen, hq⟩ := walOpen_quiet hquiet opts.syncWrites fresh
  refine ⟨log, hopen, ?_⟩
  unfold fastkvOpen at h
  simp only [hopen, hro, Bool.false_eq_true, if_false] at h
  split at h
  · cases h
  · split at h
    · cases h
    · cases h
      exact ⟨rfl, rfl, hq⟩

/-- A database that is opened in a quiet directory has a log that works. -/
theorem fastkvOpen_working {opts : Opts} {fresh : Uuid} {disk : Disk} {w : World}
    (hquiet : disk.Quiet) (h : fastkvOpen opts fresh disk = .ok w) : w.Working := by
  intro wal hwal
  cases hro : opts.readOnly with
  | true =>
    unfold fastkvOpen at h
    simp only [hro, if_true] at h
    split at h
    · cases h
    · split at h
      · cases h
      · cases h
        cases hwal
  | false =>
    obtain ⟨log, hopen, hwal', hdisk, hq⟩ := fastkvOpen_log hquiet h hro
    obtain ⟨-, -, hatt, -, -, -⟩ := walOpen_spec hopen
    rw [hwal'] at hwal
    cases hwal
    rw [hdisk]
    exact hatt.working hq

/-- A step keeps the log working. -/
theorem Sys.Sound.step_working {s : Sys} (h : s.Sound) (hworking : s.world.Working) (a : Action) :
    (FastKV.step s a).2.world.Working := by
  have heffect := step_effect (fun i txn hopen => (h.txns i txn hopen).readOnly) a
  generalize FastKV.step s a = r at heffect
  cases heffect with
  | manager mgr hmgr hworld hhistory =>
    rw [hworld]
    exact hworking
  | @applied i txn _ mgr hopen happlies hrc hmgr hworld hhistory =>
    rw [hworld]
    exact (dbApplyWriteSet_working s.clock txn.writes s.world.drawn hworking).2
  | collected hworld hhistory =>
    rw [hworld]
    exact hworking
  | @checkpointed snapId segId now _ hrc hworld hhistory =>
    rw [hworld]
    exact (fastkvCheckpoint_working hworking h.ttl snapId segId now).2

end FastKV
