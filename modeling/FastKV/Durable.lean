import FastKV.Checkpoint
import FastKV.History

/-!
# Runs across restarts

A database is created, used, and opened again after its process has ended, any number of
times. What its directory holds at any time follows from the history of commits and
checkpoints: the newest snapshot is the one of the last checkpoint, and the records that are
newer than it are those of the commits since then. This needs that no commit is stamped with
the timestamp of a checkpoint.
-/

namespace FastKV

open Lib

/-! ## Maps whose entries fit a snapshot -/

/-- All keys and values have lengths that a snapshot can store. -/
def FitsMap (m : Bytes → Slice) : Prop := ∀ key value, m key = some value → FitsEntry (key, value)

/-- A copied slice is as long as the original. -/
theorem length_sliceDup {value : Slice} {v : Bytes} (h : sliceDup value = some v) :
    value = some v := by
  rcases value with - | (- | ⟨b, bs⟩) <;> simp_all [sliceDup]

/-- Records of permitted size keep the map small enough. -/
theorem FitsMap.updates {m : Bytes → Slice} (h : FitsMap m) {rs : List Record}
    (hrs : ∀ r ∈ rs, r.Valid) : FitsMap (updates m rs) := by
  induction rs generalizing m with
  | nil => exact h
  | cons r rs ih =>
    refine ih (m := r.update m) (fun key value hvalue => ?_) fun r' hr' => hrs r' (by simp [hr'])
    obtain ⟨-, hkey, hval⟩ := hrs r (by simp)
    unfold Record.update at hvalue
    cases htype : r.type with
    | put =>
      simp only [htype, Function.update_apply] at hvalue
      split at hvalue
      · rename_i heq
        have hv := hval value (length_sliceDup hvalue)
        unfold maxKeyLen at hkey
        unfold maxValLen at hv
        rw [heq]
        exact ⟨by show r.key.length < _; omega, by show value.length < _; omega⟩
      · exact h key value hvalue
    | delete =>
      simp only [htype, Function.update_apply] at hvalue
      split at hvalue
      · cases hvalue
      · exact h key value hvalue
    | commit =>
      simp only [htype] at hvalue
      exact h key value hvalue
    | begin =>
      simp only [htype] at hvalue
      exact h key value hvalue

/-- What a snapshot stores fits. -/
theorem fitsMap_loaded {files : Files} {snap : Option Snap} (h : NewestSnap files snap)
    (opts : Opts) : FitsMap (loaded opts.stores snap).ht.live := by
  intro key value hvalue
  cases snap with
  | none =>
    rw [loaded, (opts.stores_empty key).1] at hvalue
    cases hvalue
  | some snap =>
    rw [loaded, live_foldl_loadEntry] at hvalue
    split at hvalue
    · rename_i value' hfind
      obtain ⟨e, he, hval⟩ := Option.map_eq_some_iff.mp hfind
      have hkey : e.1 = key := by simpa using List.find?_some he
      have hfits := Snap.In.fits h e (List.mem_reverse.mp (List.mem_of_find?_eq_some he))
      cases length_sliceDup hvalue
      rw [← hkey, ← hval]
      exact hfits
    · rw [(opts.stores_empty key).1] at hvalue
      cases hvalue

/-- The map after a commit. -/
theorem live_insertEntries_eq (commitTs : ℕ) (es : List WriteEntry) : ∀ ht : Ht,
    (insertEntries commitTs es ht).live =
      updates ht.live (es.map fun e => e.record commitTs) := by
  induction es with
  | nil => exact fun _ => rfl
  | cons e es ih =>
    intro ht
    have hrest := ih (htInsertVersion ht commitTs e.key e.value)
    refine hrest.trans ?_
    rw [live_htInsertVersion_eq, List.map_cons]
    obtain ⟨key, value⟩ := e
    cases value <;> rfl

/-! ## The invariant -/

/-- The files of the directory once the log is synced. -/
def Sys.syncedFiles (s : Sys) : Files :=
  match s.world.db.wal with
  | some wal => (walSync ⟨wal, s.world.disk⟩).2.disk.files
  | none => s.world.disk.files

/-- The states of a database over its whole life, in runs whose actions meet a condition and
that are short enough for the clock. -/
inductive Served (P : Sys → Action → Prop) : Sys → Prop
  /-- A database in an empty directory. -/
  | created {opts : Opts} {fresh : Uuid} {w : World} : opts.readOnly = false →
      fastkvOpen opts fresh ⟨∅, [], []⟩ = .ok w → Served P (Sys.start w)
  /-- An action. -/
  | stepped {s : Sys} (a : Action) : Served P s → s.clock + 1 < tsMax → P s a →
      Served P (step s a).2
  /-- The process ends after the log is synced, and the directory is opened again. -/
  | reopened {s : Sys} {opts : Opts} {fresh : Uuid} {w : World} : Served P s →
      opts.readOnly = false → fastkvOpen opts fresh ⟨s.syncedFiles, [], []⟩ = .ok w →
      Served P ⟨w, [], s.history⟩

/-- No commit is stamped with the timestamp of a checkpoint: after a checkpoint a transaction
begins before the next one commits. Identifiers for new files are larger than those in the
directory. -/
def AfterCheckpoint (s : Sys) : Action → Prop
  | .call (.commit i) => ∀ txn, s.txn i = some txn → Applies s.world txn →
    ∀ ts id, .checkpoint ts id ∈ s.history → ts < s.clock
  | .checkpoint snapId segId _ => NamesGrow s.world.disk.files snapId segId
  | _ => True

/-- A database in good order, and what its directory holds. -/
structure Durable (s : Sys) (wal : Wal) (snap : Option Snap) (older : List (Uuid × List Record))
    (id : Uuid) (cur : List Record) : Prop where
  /-- The general invariant. -/
  sound : s.Sound
  /-- The history is in order. -/
  chronicle : Chronicle s.clock s.history
  /-- The clock is in range. -/
  clock_le : s.clock ≤ tsMax
  /-- The log is open. -/
  wal_eq : s.world.db.wal = some wal
  /-- The records in the log. -/
  holds : Log.Holds ⟨wal, s.world.disk⟩ older id cur
  /-- No call will fail. -/
  quiet : s.world.disk.Quiet
  /-- The newest snapshot. -/
  snapshot : NewestSnap s.world.disk.files snap
  /-- Logged records are older than the clock and describe writes. -/
  stamps : ∀ r ∈ older.flatMap Prod.snd ++ cur,
    r.ts < s.clock ∧ (r.type = .put ∨ r.type = .delete)
  /-- Snapshot and newer records are those of the history. -/
  followed_eq : followed s.history = (snap.map fun sn => (sn.ts, sn.id),
    (older.flatMap Prod.snd ++ cur).filter (Record.wanted (snapTs snap)))
  /-- The table can be written to a snapshot. -/
  fits : FitsMap s.world.db.ht.live

/-! ## Opening -/

/-- A directory in good order is opened in good order. -/
theorem Durable.opened {opts : Opts} {fresh : Uuid} {files : Files} {w : World}
    {snap : Option Snap} {segs older : List (Uuid × List Record)} {id : Uuid} {cur : List Record}
    {clock : ℕ} {history : List Event} (hro : opts.readOnly = false)
    (hopen : fastkvOpen opts fresh ⟨files, [], []⟩ = .ok w) (hsnap : NewestSnap files snap)
    (hlog : SegmentLog files segs) (hsegs : segs.flatMap Prod.snd = older.flatMap Prod.snd ++ cur)
    (hstamps : ∀ r ∈ older.flatMap Prod.snd ++ cur,
      r.ts < tsMax ∧ (r.type = .put ∨ r.type = .delete))
    (hholds : ∀ log, walOpen opts.syncWrites fresh ⟨files, [], []⟩ = (.ok, some log) →
      log.Holds older id cur)
    (hchronicle : Chronicle clock history)
    (hfollowed : followed history = (snap.map fun sn => (sn.ts, sn.id),
      (older.flatMap Prod.snd ++ cur).filter (Record.wanted (snapTs snap)))) :
    ∃ wal, Durable ⟨w, [], history⟩ wal snap older id cur := by
  rw [← hsegs] at hstamps
  have hts : ∀ r ∈ segs.flatMap Prod.snd, r.ts < tsMax := fun r hr => (hstamps r hr).1
  have hintact := hlog.intact hsnap hts opts
  have hsound := Sys.Sound.start hintact hopen
  obtain ⟨log, hwalOpen, hwal, hdisk, hquiet⟩ := fastkvOpen_log (fun o ho => by cases ho) hopen hro
  obtain ⟨-, -, -, -, -, hfiles⟩ := walOpen_spec hwalOpen
  have hlogHolds := hholds log hwalOpen
  obtain ⟨hclock, -, hnewer⟩ := hlog.clock_open hsnap (Nat.le_refl _) hsnap.ts_lt hts hopen
  refine ⟨log.wal, ⟨hsound.bounded, hsound.oneLive, hsound.noEmpty, hsound.ttl, hsound.txns⟩, ?_,
    fastkvOpen_clock_le hintact hopen, hwal, ?_, ?_, ?_, ?_, hfollowed, ?_⟩
  · refine hchronicle.reopen ?_ ?_
    · rw [hfollowed]
      cases snap with
      | none => simp
      | some sn =>
        rintro last hlast
        cases hlast
        exact hclock
    · rw [hfollowed, ← hsegs]
      exact hnewer
  · rw [show w.disk = log.disk from hdisk]
    exact hlogHolds
  · rw [show w.disk = log.disk from hdisk]
    exact hquiet
  · show NewestSnap w.disk.files snap
    rw [hdisk, hfiles, hlogHolds.segment]
    refine hsnap.of_lookup fun n hn => lookup_create_ne _ ?_
    rintro rfl
    exact hn (matchName_snap_segName id)
  · rw [← hsegs]
    refine fun r hr => ⟨?_, (hstamps r hr).2⟩
    by_cases hle : r.ts ≤ snapTs snap
    · exact hle.trans_lt hclock
    · refine hnewer r (List.mem_filter.mpr ⟨hr, ?_⟩)
      have htype := (hstamps r hr).2
      simp [Record.wanted, htype, not_le.mp hle]
  · show FitsMap w.db.ht.live
    rw [hlog.live_open hsnap rfl hopen]
    refine (fitsMap_loaded hsnap opts).updates fun r hr => ?_
    obtain ⟨seg, hseg, hmem⟩ := List.mem_flatMap.mp (List.mem_of_mem_filter hr)
    exact (hlog.holds seg hseg).valid r hmem

/-- A new database is in good order. -/
theorem Durable.created {opts : Opts} {fresh : Uuid} {w : World} (hro : opts.readOnly = false)
    (hopen : fastkvOpen opts fresh ⟨∅, [], []⟩ = .ok w) :
    ∃ wal, Durable (Sys.start w) wal none [] fresh [] := by
  have hchronicle : Chronicle 0 [] := ⟨by simp, by simp, by simp⟩
  exact Durable.opened hro hopen NewestSnap.empty SegmentLog.empty rfl (by simp)
    (fun log hlog => walOpen_holds hlog) hchronicle rfl

section Durable

variable {s s' : Sys} {wal : Wal} {snap : Option Snap} {older : List (Uuid × List Record)}
  {id : Uuid} {cur : List Record}

/-- The log can be synced, and then the directory holds all records and the same snapshot. -/
theorem Durable.synced (h : Durable s wal snap older id cur) :
    ∃ log, walSync ⟨wal, s.world.disk⟩ = (.ok, log) ∧ s.syncedFiles = log.disk.files ∧
      log.Holds older id cur ∧ log.wal.buf = [] ∧ log.disk.Quiet ∧
      NewestSnap log.disk.files snap ∧
      ∀ n, (log.disk.files.lookup n).isSome = (s.world.disk.files.lookup n).isSome := by
  obtain ⟨hholds, hempty⟩ := h.holds.flush true
  obtain ⟨hatt, -⟩ := flushBuf_spec h.holds.attached true
  obtain ⟨hok, hworking⟩ := flushBuf_working (h.holds.attached.working h.quiet) true
  have hfiles : s.syncedFiles = (flushBuf true ⟨wal, s.world.disk⟩).2.disk.files := by
    unfold Sys.syncedFiles
    rw [h.wal_eq]
    rfl
  refine ⟨(flushBuf true ⟨wal, s.world.disk⟩).2, Prod.ext hok rfl, hfiles, hholds, hempty hok,
    hworking.quiet, ?_, fun n => ?_⟩
  · refine h.snapshot.of_lookup fun n hn => hatt.others n ?_
    rintro rfl
    exact hn (matchName_snap_segName id)
  · by_cases hn : n = segName id.hex
    · obtain ⟨stored, m, hfile, -⟩ := hatt.file
      obtain ⟨stored', m', hfile', -⟩ := h.holds.attached.file
      rw [hn, hfile, hfile']
      rfl
    · rw [hatt.others n hn]

/-- The database is in good order after a restart. -/
theorem Durable.reopened (h : Durable s wal snap older id cur) {opts : Opts} {fresh : Uuid}
    {w : World} (hro : opts.readOnly = false)
    (hopen : fastkvOpen opts fresh ⟨s.syncedFiles, [], []⟩ = .ok w) :
    ∃ wal', Durable ⟨w, [], s.history⟩ wal' snap older id cur := by
  obtain ⟨log, -, hfiles, hholds, hbuf, -, hsnap, -⟩ := h.synced
  rw [hfiles] at hopen
  have hlog := hholds.segmentLog hbuf
  refine Durable.opened hro hopen hsnap hlog (by simp) (fun r hr => ?_)
    (fun log' hlog' => hholds.opened hbuf (d := ⟨log.disk.files, [], []⟩) rfl hlog') h.chronicle
    h.followed_eq
  obtain ⟨hts, htype⟩ := h.stamps r hr
  exact ⟨hts.trans_le h.clock_le, htype⟩

/-! ## Steps -/

/-- A step that leaves the log and the map alone. -/
theorem Durable.unlogged (h : Durable s wal snap older id cur) (hsound : s'.Sound)
    (hclock : s.clock ≤ s'.clock) (hmax : s'.clock ≤ tsMax) (hhistory : s'.history = s.history)
    (hwal : s'.world.db.wal = s.world.db.wal) (hdisk : s'.world.disk = s.world.disk)
    (hlive : s'.world.db.ht.live = s.world.db.ht.live) : Durable s' wal snap older id cur where
  sound := hsound
  chronicle := by
    rw [hhistory]
    exact h.chronicle.mono hclock
  clock_le := hmax
  wal_eq := hwal.trans h.wal_eq
  holds := by
    rw [hdisk]
    exact h.holds
  quiet := by
    rw [hdisk]
    exact h.quiet
  snapshot := by
    rw [hdisk]
    exact h.snapshot
  stamps r hr := ⟨(h.stamps r hr).1.trans_le hclock, (h.stamps r hr).2⟩
  followed_eq := by
    rw [hhistory]
    exact h.followed_eq
  fits := by
    rw [hlive]
    exact h.fits

/-- The records of an open transaction are valid. -/
theorem Txn.Ok.records_valid {clock : ℕ} {txn : Txn} (h : txn.Ok clock) {ts : ℕ}
    (hts : ts < 2 ^ 64) :
    ∀ r ∈ txn.writes.map (fun e => e.record ts), r.Valid := by
  intro r hr
  obtain ⟨e, he, rfl⟩ := List.mem_map.mp hr
  exact ⟨hts, (h.permitted e he).1, (h.permitted e he).2⟩

/-- The log works. -/
theorem Durable.working (h : Durable s wal snap older id cur) : s.world.Working := by
  intro wal' hwal'
  rw [h.wal_eq] at hwal'
  cases hwal'
  exact h.holds.attached.working h.quiet

/-- The map after a commit. -/
theorem Durable.live_applied (h : Durable s wal snap older id cur) {writes : List WriteEntry}
    {mgr : TxnMgr}
    (hworld : s'.world = (dbApplyWriteSet s.clock writes s.world.drawn).2.withMgr mgr) :
    s'.world.db.ht.live =
      updates s.world.db.ht.live (writes.map fun e => e.record s.clock) := by
  rw [hworld, ← live_insertEntries_eq]
  exact congrArg Ht.live (ht_dbApplyWriteSet h.working writes)

/-- A commit adds its records. -/
theorem Durable.applied (h : Durable s wal snap older id cur) (hclock : s.clock + 1 < tsMax)
    {txn : Txn} (hok : txn.Ok s.clock) (hwrites : txn.writes ≠ [])
    (hcut : ∀ ts id, .checkpoint ts id ∈ s.history → ts < s.clock) (hsound : s'.Sound)
    {mgr : TxnMgr}
    (hmgr : mgr.oracle.clock = (dbApplyWriteSet s.clock txn.writes s.world.drawn).2.db.clock)
    (hworld : s'.world = (dbApplyWriteSet s.clock txn.writes s.world.drawn).2.withMgr mgr)
    (hhistory : s'.history = s.history ++
      if (dbApplyWriteSet s.clock txn.writes s.world.drawn).1 = .ok then
        [.commit s.clock txn.writes] else []) :
    ∃ wal', Durable s' wal' snap older id (cur ++ txn.writes.map fun e => e.record s.clock) := by
  generalize hrecs : txn.writes.map (fun e => e.record s.clock) = recs
  have hvalid : ∀ r ∈ recs, r.Valid := by
    rw [← hrecs]
    exact hok.records_valid (by unfold tsMax at hclock; omega)
  have hkinds : ∀ r ∈ recs, r.ts = s.clock ∧ (r.type = .put ∨ r.type = .delete) := by
    rw [← hrecs]
    intro r hr
    obtain ⟨e, -, rfl⟩ := List.mem_map.mp hr
    refine ⟨rfl, ?_⟩
    cases hv : e.value <;> simp [WriteEntry.record, hv]
  have hlive : s'.world.db.ht.live = updates s.world.db.ht.live recs := by
    rw [← hrecs]
    exact h.live_applied hworld
  -- the log accepts the records
  obtain ⟨hrc, hworking⟩ := appendAll_working recs _ (h.holds.attached.working h.quiet)
  obtain ⟨hholds, hquiet⟩ := Log.Holds.appendAll recs h.holds h.quiet hvalid
  obtain ⟨hatt, -, -⟩ := appendAll_spec _ (segName id.hex) recs _ h.holds.attached
    h.holds.le_cap hrc
  have happly := dbApplyWriteSet_of_ok txn.writes s.world.drawn h.wal_eq (by rw [hrecs]; exact hrc)
  rw [hrecs] at happly
  rw [show s.world.drawn.disk = s.world.disk from rfl] at happly
  generalize FastKV.appendAll recs ⟨wal, s.world.disk⟩ = r at hrc hworking hholds hquiet hatt happly
  rw [happly] at hmgr hworld hhistory
  simp only [if_true] at hhistory
  have hnext : s'.clock = s.clock + 1 := by
    have hdrawn : s.world.drawn.db.clock = s.clock + 1 := World.drawn_clock hclock
    rw [← hdrawn, Sys.clock, hworld]
    show mgr.oracle.clock = _
    rw [hmgr]
    simp only [Db.clock, applyEntries_txnMgr]
  have hsnapTs : snapTs snap < s.clock := by
    cases hsn : snap with
    | none => exact Nat.zero_lt_of_lt hok.begun
    | some sn =>
      refine hcut sn.ts sn.id (mem_of_followed ?_)
      rw [h.followed_eq, hsn]
      rfl
  refine ⟨r.2.wal, hsound, ?_, by omega, ?_, ?_, ?_, ?_, ?_, ?_, ?_⟩
  · rw [hhistory]
    exact h.chronicle.commit hcut hwrites (by omega)
  · rw [hworld]
    rfl
  · rw [hworld]
    exact hholds
  · rw [hworld]
    exact hquiet
  · rw [hworld]
    refine h.snapshot.of_lookup fun n hn => hatt.others n ?_
    rintro rfl
    exact hn (matchName_snap_segName id)
  · intro r' hr'
    rw [← List.append_assoc] at hr'
    rcases List.mem_append.mp hr' with hold | hnew
    · exact ⟨by have := (h.stamps r' hold).1; omega, (h.stamps r' hold).2⟩
    · exact ⟨by rw [(hkinds r' hnew).1]; omega, (hkinds r' hnew).2⟩
  · have hwanted : recs.filter (Record.wanted (snapTs snap)) = recs := by
      refine List.filter_eq_self.mpr fun r' hr' => ?_
      obtain ⟨hts, htype⟩ := hkinds r' hr'
      simp [Record.wanted, hts, htype, hsnapTs]
    have hsplit : (older.flatMap Prod.snd ++ (cur ++ recs)).filter (Record.wanted (snapTs snap)) =
        (older.flatMap Prod.snd ++ cur).filter (Record.wanted (snapTs snap)) ++ recs := by
      rw [← List.append_assoc, List.filter_append _ recs, hwanted]
    rw [hhistory, followed_append, h.followed_eq, hsplit, ← hrecs]
    rfl
  · rw [hlive]
    exact h.fits.updates hvalid

/-- The table can be written to a snapshot. -/
theorem Durable.fitsEntries (h : Durable s wal snap older id cur) :
    ∀ e ∈ snapEntries s.world.db.ht, FitsEntry e := fun e he =>
  h.fits e.1 e.2 (h.sound.oneLive.live_of_mem_snapEntries he)

/-- What a checkpoint does to the directory and to the engine. -/
theorem Durable.checkpoint_ok (h : Durable s wal snap older id cur) (hclock : s.clock < tsMax)
    {snapId segId : Uuid} (hnames : NamesGrow s.world.disk.files snapId segId) (now : ℕ) :
    ∃ log wal' n, walSync ⟨wal, s.world.disk⟩ = (.ok, log) ∧
      (fastkvCheckpoint s.world snapId segId now).1 = .ok ∧
      (fastkvCheckpoint s.world snapId segId now).2.db =
        { s.world.gc.db with wal := some wal', statSnapshotCount := n } ∧
      CheckpointedLog s.world.db.ht s.clock snapId segId log id cur
        ⟨wal', (fastkvCheckpoint s.world snapId segId now).2.disk⟩ := by
  obtain ⟨log, hsync, -, hholds, hbuf, hquiet, hsnap, hsame⟩ := h.synced
  have hnames' : NamesGrow log.disk.files snapId segId := by
    have hmem : ∀ n ∈ log.disk.files, n ∈ s.world.disk.files := fun n hn => by
      rw [← AList.lookup_isSome, hsame] at hn
      exact AList.lookup_isSome.mp hn
    exact ⟨fun i hi => hnames.segments i (hmem _ hi), fun n hn => hnames.snapshots n (hmem n hn)⟩
  obtain ⟨disk, log', hwrite, hrotate, hdone⟩ := hholds.checkpoint hbuf hquiet hsnap hnames'
    h.fitsEntries hclock
  have heq := fastkvCheckpoint_of_ok h.wal_eq hsync hwrite hrotate now
  rw [hholds.segment] at heq
  have hmemory := checkpointMemory_of_init (w := ⟨{ s.world.db with wal := some log'.wal },
    snapshotTrim snapId.hex (walTrim id.hex log'.disk)⟩) h.sound.ttl now
  rw [hmemory] at heq
  refine ⟨log, log'.wal, add64 s.world.db.statSnapshotCount 1, hsync, ?_, ?_, ?_⟩
  · rw [heq]
  · rw [heq]
    rfl
  · rw [heq]
    exact hdone

/-- The garbage collection of the engine does not change the map. -/
theorem Sys.Sound.live_gc (h : s.Sound) (hclock : s.clock < tsMax) :
    s.world.gc.db.ht.live = s.world.db.ht.live := by
  have hle := oracleMinActive_le s.world.db.txnMgr.oracle
  have hsame : s.world.db.txnMgr.oracle.clock = s.clock := rfl
  funext key
  exact live_htGc h.oneLive (by omega) key

/-- A checkpoint makes its snapshot the newest one and starts a new segment. -/
theorem Durable.checkpointed (h : Durable s wal snap older id cur) (hclock : s.clock < tsMax)
    {snapId segId : Uuid} (hnames : NamesGrow s.world.disk.files snapId segId) {now : ℕ}
    (hsound : s'.Sound) (hworld : s'.world = (fastkvCheckpoint s.world snapId segId now).2)
    (hhistory : s'.history = s.history ++
      if (fastkvCheckpoint s.world snapId segId now).1 = .ok ∧ s.world.db.wal.isSome then
        [.checkpoint s.clock snapId] else []) :
    ∃ wal', Durable s' wal' (some ⟨snapId, s.clock, s.world.db.ht⟩) [(id, cur)] segId [] := by
  obtain ⟨log, wal', n, -, hrc, hdb, hdone⟩ := h.checkpoint_ok hclock hnames now
  rw [← hworld] at hdb hdone
  rw [if_pos ⟨hrc, by rw [h.wal_eq]; rfl⟩] at hhistory
  have hsame : s'.clock = s.clock := by
    rw [Sys.clock, hdb]
    rfl
  have hstamps : ∀ r ∈ cur, r.ts < s.clock ∧ (r.type = .put ∨ r.type = .delete) := fun r hr =>
    h.stamps r (List.mem_append_right _ hr)
  refine ⟨wal', hsound, ?_, by omega, by rw [hdb], hdone.holds, hdone.quiet, hdone.snapshot,
    ?_, ?_, ?_⟩
  · rw [hsame, hhistory]
    exact h.chronicle.checkpoint snapId
  · rw [hsame]
    simpa using hstamps
  · have hnone : cur.filter (Record.wanted s.clock) = [] := by
      refine List.filter_eq_nil_iff.mpr fun r hr => ?_
      have hlt := (hstamps r hr).1
      simp [Record.wanted, show ¬ s.clock < r.ts by omega]
    rw [hhistory, followed_append]
    simp [Event.follow, snapTs, hnone]
  · rw [hdb]
    show FitsMap s.world.gc.db.ht.live
    rw [h.sound.live_gc hclock]
    exact h.fits

/-- How an action changes the map and the newest snapshot: it updates the map by the records
that it logs, or makes the map the new snapshot. -/
def Advances (s s' : Sys) (snap snap' : Option Snap) (a : Action) : Prop :=
  (snap' = snap ∧ ∃ rs, s'.world.db.ht.live = updates s.world.db.ht.live rs ∧
    (followed s'.history).2 = (followed s.history).2 ++ rs) ∨
  ∃ snapId segId now, a = .checkpoint snapId segId now ∧
    snap' = some ⟨snapId, s.clock, s.world.db.ht⟩ ∧
    s'.world.db.ht.live = s.world.db.ht.live ∧ (followed s'.history).2 = []

/-- A permitted action keeps the database in good order. -/
theorem Durable.step {a : Action} (h : Durable s wal snap older id cur)
    (hclock : s.clock + 1 < tsMax) (ha : AfterCheckpoint s a) :
    ∃ wal' snap' older' id' cur', Durable (FastKV.step s a).2 wal' snap' older' id' cur' ∧
      Advances s (FastKV.step s a).2 snap snap' a := by
  obtain ⟨hsound, hle, hmax⟩ := h.sound.step hclock a
  have heffect := step_effect (fun i txn hopen => (h.sound.txns i txn hopen).readOnly) a
  generalize FastKV.step s a = r at heffect hsound hle hmax
  have hkept : r.2.history = s.history → r.2.world.db.wal = s.world.db.wal →
      r.2.world.disk = s.world.disk → r.2.world.db.ht.live = s.world.db.ht.live →
      ∃ wal' snap' older' id' cur', Durable r.2 wal' snap' older' id' cur' ∧
        Advances s r.2 snap snap' a := fun hhistory hwal hdisk hlive =>
    ⟨_, _, _, _, _, h.unlogged hsound hle (by omega) hhistory hwal hdisk hlive,
      Or.inl ⟨rfl, [], hlive, by simp [hhistory]⟩⟩
  cases heffect with
  | manager mgr hmgr hworld hhistory =>
    refine hkept hhistory ?_ ?_ ?_
    all_goals
      rw [hworld]
      rfl
  | @applied i txn _ mgr hopen happlies hrc hmgr hworld hhistory =>
    obtain ⟨wal', h'⟩ := h.applied hclock (h.sound.txns i txn hopen) happlies.writes
      (ha txn hopen happlies) hsound hmgr hworld hhistory
    obtain ⟨hok, -⟩ := dbApplyWriteSet_working s.clock txn.writes s.world.drawn h.working
    refine ⟨_, _, _, _, _, h', Or.inl ⟨rfl, _, h.live_applied hworld, ?_⟩⟩
    rw [hhistory, if_pos hok, followed_append]
    rfl
  | collected hworld hhistory =>
    refine hkept hhistory ?_ ?_ ?_
    · rw [hworld]
      rfl
    · rw [hworld]
      rfl
    · rw [hworld]
      exact h.sound.live_gc (by omega)
  | @checkpointed snapId segId now _ hrc hworld hhistory =>
    obtain ⟨wal', h'⟩ := h.checkpointed (by omega) ha hsound hworld hhistory
    obtain ⟨log, wal₁, n, -, -, hdb, -⟩ := h.checkpoint_ok (by omega) ha now
    refine ⟨_, _, _, _, _, h', Or.inr ⟨snapId, segId, now, rfl, rfl, ?_, ?_⟩⟩
    · rw [hworld, hdb]
      exact h.sound.live_gc (by omega)
    · rw [h'.followed_eq]
      exact List.filter_eq_nil_iff.mpr fun r hr => by
        have hlt := (h.stamps r (List.mem_append_right _ (by simpa using hr))).1
        simp [Record.wanted, snapTs, show ¬ s.clock < r.ts by omega]

end Durable

/-- A database is in good order all its life. -/
theorem Served.durable {P : Sys → Action → Prop} (hP : ∀ s a, P s a → AfterCheckpoint s a) {s : Sys}
    (h : Served P s) : ∃ wal snap older id cur, Durable s wal snap older id cur := by
  induction h with
  | created hro hopen =>
    obtain ⟨wal, h⟩ := Durable.created hro hopen
    exact ⟨_, _, _, _, _, h⟩
  | stepped a _ hclock ha ih =>
    obtain ⟨wal, snap, older, id, cur, h⟩ := ih
    obtain ⟨wal', snap', older', id', cur', h', -⟩ := h.step hclock (hP _ a ha)
    exact ⟨_, _, _, _, _, h'⟩
  | reopened _ hro hopen ih =>
    obtain ⟨wal, snap, older, id, cur, h⟩ := ih
    obtain ⟨wal', h'⟩ := h.reopened hro hopen
    exact ⟨_, _, _, _, _, h'⟩

/-- Permitted runs lead from states of the database to states of the database. -/
theorem Served.run {P : Sys → Action → Prop} (hP : ∀ s a, P s a → AfterCheckpoint s a)
    (actions : List Action) : ∀ {s : Sys}, Served P s → s.clock + actions.length < tsMax →
      Always P s actions → Served P (FastKV.run s actions) := by
  induction actions with
  | nil => exact fun h _ _ => h
  | cons a as ih =>
    intro s h hclock ha
    rw [List.length_cons] at hclock
    obtain ⟨wal, snap, older, id, cur, hdurable⟩ := h.durable hP
    obtain ⟨-, -, hle⟩ := hdurable.sound.step (by omega) a
    exact ih (s := (FastKV.step s a).2) (.stepped a h (by omega) ha.1) (by omega) ha.2

end FastKV
