import FastKV.ThreadLog

/-!
# Checkpoints beside commits

A checkpoint does not take the commit lock. It syncs the log, reads the clock, counts what it
will export bucket by bucket, writes a file bucket by bucket, and then starts a new segment
and removes what is older; commits and collectors of other threads take their steps in
between. A bucket is visited in one step. Two things can go wrong. If an entry is
installed between the two visits to its bucket, the file does not match its own header. If
the timestamp of a commit is not later than that of the checkpoint and an entry is
installed after its bucket was visited, the entry is neither in the file nor replayed.
Otherwise the file and the log together have all commits. The expiry and the collection at
the end of a checkpoint are transactions and a collector like those of other threads.
-/

namespace FastKV

open Lib

/-! ## The steps of a checkpoint -/

/-- Where a checkpoint stands. -/
inductive Stage
  /-- There is no checkpoint. -/
  | idle
  /-- The log is synced. -/
  | synced
  /-- The first pass of `fastkv_snapshot_write` visits this bucket next. -/
  | counting (ts next numKeys : ℕ) (dataCrc : UInt32)
  /-- The second pass visits this bucket next; buffer, offset and error of the writer. -/
  | writing (ts : ℕ) (id : Uuid) (next : ℕ) (buf : Bytes) (offset : ℕ) (err : Err)
  /-- The snapshot has its name. -/
  | written (ts : ℕ) (id : Uuid)
  /-- The log has a new segment. -/
  | rotated (ts : ℕ) (id : Uuid) (oldSeg : Name)
  /-- Older segments are removed. -/
  | trimmed (ts : ℕ) (id : Uuid)
  /-- Older snapshots are removed. -/
  | done (ts : ℕ) (id : Uuid)
  /-- A call has failed. -/
  | failed (rc : Err)

/-- The timestamp of the snapshot, once it has its name. -/
def Stage.saved : Stage → Option ℕ
  | .written ts _ | .rotated ts _ _ | .trimmed ts _ | .done ts _ => some ts
  | _ => none

/-- Threads beside a checkpoint. -/
structure Checkpointing where
  /-- The threads. -/
  threads : Threads
  /-- The checkpoint. -/
  stage : Stage

/-- A database without a checkpoint. -/
def Checkpointing.start (w : World) : Checkpointing := ⟨.start w, .idle⟩

/-- Replace the log and the directory. -/
def Threads.withLog (s : Threads) (log : Log) : Threads :=
  { s with world := ⟨{ s.world.db with wal := some log.wal }, log.disk⟩ }

/-- Replace the directory. -/
def Threads.withDisk (s : Threads) (disk : Disk) : Threads :=
  { s with world := { s.world with disk } }

/-- A step of another thread or of a checkpoint. -/
inductive CheckpointStep
  /-- A step of another thread. -/
  | thread (a : ThreadStep)
  /-- `fastkv_wal_sync`. -/
  | sync
  /-- `fastkv_oracle_now`. -/
  | readTs
  /-- Visit the next bucket in the first pass. -/
  | count
  /-- Create the temporary file and write the header. -/
  | create (id : Uuid)
  /-- Visit the next bucket in the second pass. -/
  | write
  /-- Flush, sync and rename the file. -/
  | rename
  /-- `fastkv_wal_current_segment` and `fastkv_wal_rotate`. -/
  | rotate (id : Uuid)
  /-- `fastkv_wal_trim`. -/
  | trimLog
  /-- `fastkv_snapshot_trim`. -/
  | trimSnapshots

/-- The first lines of the second pass: the temporary file and its header. -/
def snapCreate (ts numKeys : ℕ) (dataCrc : UInt32) (id : Uuid) (disk : Disk) : Err × SnapWriter :=
  let tmp := snapTmpName id.hex
  let (rc, disk) := ioOpen disk tmp
  if rc ≠ .ok then (rc, ⟨tmp, [], 0, rc, disk⟩)
  else (.ok, (headerFields ts numKeys dataCrc).foldl snapWrite ⟨tmp, [], 0, .ok, disk⟩)

/-- The last lines of `fastkv_snapshot_write`. -/
def snapClose (sw : SnapWriter) (id : Uuid) : Err × Disk :=
  let tmp := snapTmpName id.hex
  let sw := snapFlush sw
  let (err, disk) := if sw.err = .ok then ioSync sw.disk else (sw.err, sw.disk)
  if err ≠ .ok then (err, (ioRemove disk tmp).2)
  else
    let (rc, disk) := ioRename disk tmp (snapName id.hex)
    if rc ≠ .ok then (.io, (ioRemove disk tmp).2) else (.ok, disk)

/-- `fastkv_snapshot_write` without interruption. -/
theorem snapshotWrite_eq (ht : Ht) (ts : ℕ) (id : Uuid) (disk : Disk) :
    snapshotWrite ht ts id disk =
      let (rc, sw) := snapCreate ts (snapEntries ht).length (entriesCrc (snapEntries ht)) id disk
      if rc ≠ .ok then (rc, sw.disk)
      else snapClose (((snapEntries ht).flatMap entryFields).foldl snapWrite sw) id := by
  unfold snapshotWrite snapCreate snapClose
  by_cases hrc : (ioOpen disk (snapTmpName id.hex)).1 = .ok
  · simp only [hrc, ne_eq, not_true_eq_false, if_false, snapshotFields, List.foldl_append]
  · simp only [ne_eq, hrc, not_false_eq_true, if_true]

/-- The writer of the second pass between two visits. -/
def SnapWriter.stage (sw : SnapWriter) (ts : ℕ) (id : Uuid) (next : ℕ) : Stage :=
  .writing ts id next sw.buf sw.offset sw.err

/-- Execute a step. A step for which the checkpoint is not ready changes nothing. -/
def checkpointStep (s : Checkpointing) : CheckpointStep → Checkpointing
  | .thread a => { s with threads := threadStep s.threads a }
  | .sync =>
    match s.stage, s.threads.world.db.wal with
    | .idle, some wal | .done _ _, some wal | .failed _, some wal =>
      let (rc, log) := walSync ⟨wal, s.threads.world.disk⟩
      ⟨s.threads.withLog log, if rc = .ok then .synced else .failed rc⟩
    | _, _ => s
  | .readTs =>
    match s.stage with
    | .synced => { s with stage := .counting (oracleNow s.threads.oracle) 0 0 0 }
    | _ => s
  | .count =>
    match s.stage with
    | .counting ts next numKeys dataCrc =>
      match s.threads.ht.buckets[next]? with
      | none => s
      | some chain =>
        match bucketEntry chain with
        | none => { s with stage := .counting ts (next + 1) numKeys dataCrc }
        | some entry =>
          { s with
            stage := .counting ts (next + 1) (numKeys + 1)
              ((entryFields entry).foldl crc32c dataCrc) }
    | _ => s
  | .create id =>
    match s.stage with
    | .counting ts next numKeys dataCrc =>
      if next < s.threads.ht.capacity then s
      else
        let (rc, sw) := snapCreate ts numKeys dataCrc id s.threads.world.disk
        ⟨s.threads.withDisk sw.disk, if rc = .ok then sw.stage ts id 0 else .failed rc⟩
    | _ => s
  | .write =>
    match s.stage with
    | .writing ts id next buf offset err =>
      match s.threads.ht.buckets[next]? with
      | none => s
      | some chain =>
        match bucketEntry chain with
        | none => { s with stage := .writing ts id (next + 1) buf offset err }
        | some entry =>
          let sw := (entryFields entry).foldl snapWrite
            ⟨snapTmpName id.hex, buf, offset, err, s.threads.world.disk⟩
          ⟨s.threads.withDisk sw.disk, sw.stage ts id (next + 1)⟩
    | _ => s
  | .rename =>
    match s.stage with
    | .writing ts id next buf offset err =>
      if next < s.threads.ht.capacity then s
      else
        let (rc, disk) := snapClose ⟨snapTmpName id.hex, buf, offset, err, s.threads.world.disk⟩ id
        ⟨s.threads.withDisk disk, if rc = .ok then .written ts id else .failed rc⟩
    | _ => s
  | .rotate fresh =>
    match s.stage, s.threads.world.db.wal with
    | .written ts id, some wal =>
      let (rc, log) := walRotate fresh ⟨wal, s.threads.world.disk⟩
      ⟨s.threads.withLog log, if rc = .ok then .rotated ts id wal.segmentId else .failed rc⟩
    | _, _ => s
  | .trimLog =>
    match s.stage with
    | .rotated ts id oldSeg =>
      ⟨s.threads.withDisk (walTrim oldSeg s.threads.world.disk), .trimmed ts id⟩
    | _ => s
  | .trimSnapshots =>
    match s.stage with
    | .trimmed ts id =>
      ⟨s.threads.withDisk (snapshotTrim id.hex s.threads.world.disk), .done ts id⟩
    | _ => s

/-- The files of the directory once the log is synced. -/
def Threads.syncedFiles (s : Threads) : Files := (Sys.start s.world).syncedFiles

/-! ## A checkpoint alone -/

/-- What the first `n` buckets export. -/
def visited (seen : Ht) (n : ℕ) : List (Bytes × Bytes) :=
  (seen.buckets.take n).filterMap bucketEntry

/-- One more bucket. -/
theorem visited_succ {seen : Ht} {n : ℕ} {chain : List Version}
    (h : seen.buckets[n]? = some chain) :
    visited seen (n + 1) = visited seen n ++ (bucketEntry chain).toList := by
  rw [visited, List.take_add_one, h, Option.toList_some, List.filterMap_append]
  cases hentry : bucketEntry chain with
  | none => rw [List.filterMap_cons_none hentry]; rfl
  | some entry => rw [List.filterMap_cons_some hentry]; rfl

/-- All buckets. -/
theorem visited_capacity {seen : Ht} {n : ℕ} (h : seen.capacity ≤ n) :
    visited seen n = snapEntries seen := by
  rw [visited, List.take_of_length_le h]
  rfl

/-- The checksum with one more entry. -/
theorem entriesCrc_append (entries : List (Bytes × Bytes)) (entry : Bytes × Bytes) :
    entriesCrc (entries ++ [entry]) = (entryFields entry).foldl crc32c (entriesCrc entries) := by
  simp [entriesCrc, List.foldl_append]

/-- The steps of a checkpoint of a table with this capacity. -/
def checkpointAlone (capacity : ℕ) (snapId segId : Uuid) : List CheckpointStep :=
  [.sync, .readTs] ++ List.replicate capacity .count ++ [.create snapId] ++
    List.replicate capacity .write ++ [.rename, .rotate segId, .trimLog, .trimSnapshots]

/-- The first pass. -/
theorem exec_count (s : Threads) (ts : ℕ) {n : ℕ} (hn : n ≤ s.ht.capacity) :
    exec checkpointStep ⟨s, .counting ts 0 0 0⟩ (List.replicate n .count) =
      ⟨s, .counting ts n (visited s.ht n).length (entriesCrc (visited s.ht n))⟩ := by
  induction n with
  | zero => rfl
  | succ n ih =>
    have hchain : s.ht.buckets[n]? = some (s.ht.buckets.get ⟨n, hn⟩) := List.getElem?_eq_getElem hn
    rw [List.replicate_succ', exec_append, ih (Nat.le_of_succ_le hn), visited_succ hchain]
    simp only [exec, List.foldl_cons, List.foldl_nil, checkpointStep, hchain]
    cases bucketEntry (s.ht.buckets.get ⟨n, hn⟩) with
    | none => simp
    | some entry => simp [entriesCrc_append]

/-- A write does not change the file that is written to. -/
theorem foldl_snapWrite_name (fields : List Bytes) : ∀ sw : SnapWriter,
    (fields.foldl snapWrite sw).name = sw.name := by
  induction fields with
  | nil => exact fun sw => rfl
  | cons field fields ih =>
    intro sw
    rw [List.foldl_cons, ih]
    unfold snapWrite
    split
    · rfl
    · refine Buffer.write_keeps (P := fun sw' : SnapWriter => sw'.name = sw.name) (fun d sw' h => h)
        (fun sw' h => ?_) _ field sw rfl
      show (snapFlush sw').name = sw.name
      unfold snapFlush
      split
      · exact h
      · dsimp only
        split <;> exact h

/-- The second pass. -/
theorem exec_write (s : Threads) (ts : ℕ) {id : Uuid} {sw : SnapWriter}
    (hname : sw.name = snapTmpName id.hex) {n : ℕ} (hn : n ≤ s.ht.capacity) :
    exec checkpointStep ⟨s.withDisk sw.disk, sw.stage ts id 0⟩ (List.replicate n .write) =
      ⟨s.withDisk (((visited s.ht n).flatMap entryFields).foldl snapWrite sw).disk,
        (((visited s.ht n).flatMap entryFields).foldl snapWrite sw).stage ts id n⟩ := by
  induction n with
  | zero => rfl
  | succ n ih =>
    have hchain : s.ht.buckets[n]? = some (s.ht.buckets.get ⟨n, hn⟩) := List.getElem?_eq_getElem hn
    rw [List.replicate_succ', exec_append, ih (Nat.le_of_succ_le hn), visited_succ hchain]
    have hname' := (foldl_snapWrite_name ((visited s.ht n).flatMap entryFields) sw).trans hname
    generalize hsw : ((visited s.ht n).flatMap entryFields).foldl snapWrite sw = sw' at hname'
    have hself : (⟨snapTmpName id.hex, sw'.buf, sw'.offset, sw'.err, sw'.disk⟩ : SnapWriter) =
        sw' := by
      rw [← hname']
    have hchain' : (s.withDisk sw'.disk).ht.buckets[n]? = some (s.ht.buckets.get ⟨n, hn⟩) := hchain
    simp only [exec, List.foldl_cons, List.foldl_nil, checkpointStep, SnapWriter.stage, hchain']
    cases bucketEntry (s.ht.buckets.get ⟨n, hn⟩) with
    | none =>
      rw [Option.toList_none, List.append_nil, hsw]
    | some entry =>
      rw [Option.toList_some, List.flatMap_append, List.flatMap_singleton, List.foldl_append, hsw]
      show (⟨s.withDisk ((entryFields entry).foldl snapWrite
        ⟨snapTmpName id.hex, sw'.buf, sw'.offset, sw'.err, sw'.disk⟩).disk, _⟩ : Checkpointing) = _
      rw [show (s.withDisk sw'.disk).world.disk = sw'.disk from rfl, hself]

/-- The steps after the second pass. -/
theorem exec_finish {s : Threads} {ts next : ℕ} {snapId segId : Uuid} {sw : SnapWriter}
    {disk : Disk}
    {wal : Wal} {log : Log} (hname : sw.name = snapTmpName snapId.hex) (hall : s.ht.capacity ≤ next)
    (hclose : snapClose sw snapId = (.ok, disk)) (hwal : s.world.db.wal = some wal)
    (hrotate : walRotate segId ⟨wal, disk⟩ = (.ok, log)) :
    exec checkpointStep ⟨s.withDisk sw.disk, sw.stage ts snapId next⟩
        [.rename, .rotate segId, .trimLog, .trimSnapshots] =
      ⟨s.withLog ⟨log.wal, snapshotTrim snapId.hex (walTrim wal.segmentId log.disk)⟩,
        .done ts snapId⟩ := by
  have hself : (⟨snapTmpName snapId.hex, sw.buf, sw.offset, sw.err, sw.disk⟩ : SnapWriter) =
      sw := by
    rw [← hname]
  have hrenamed : checkpointStep ⟨s.withDisk sw.disk, sw.stage ts snapId next⟩ .rename =
      ⟨s.withDisk disk, .written ts snapId⟩ := by
    have hlt : ¬ next < (s.withDisk sw.disk).ht.capacity := not_lt.mpr hall
    simp only [checkpointStep, SnapWriter.stage, if_neg hlt]
    rw [show (s.withDisk sw.disk).world.disk = sw.disk from rfl, hself, hclose]
    rfl
  have hrotated : checkpointStep ⟨s.withDisk disk, .written ts snapId⟩ (.rotate segId) =
      ⟨s.withLog log, .rotated ts snapId wal.segmentId⟩ := by
    have hwal' : (s.withDisk disk).world.db.wal = some wal := hwal
    simp only [checkpointStep, hwal']
    rw [show (s.withDisk disk).world.disk = disk from rfl, hrotate]
    rfl
  simp only [exec, List.foldl_cons, List.foldl_nil, hrenamed, hrotated]
  rfl

/-- Without interruption the steps are those of `fastkv_checkpoint` up to the last ones, in
memory. -/
theorem exec_checkpointAlone {w : World} (h : w.Working) {wal : Wal} (hwal : w.db.wal = some wal)
    (snapId segId : Uuid) (now : ℕ) :
    ∃ w', exec checkpointStep (Checkpointing.start w)
        (checkpointAlone w.db.ht.capacity snapId segId) =
          ⟨Threads.start w', .done w.db.clock snapId⟩ ∧
      fastkvCheckpoint w snapId segId now = (.ok, checkpointMemory w' now) := by
  obtain ⟨log, disk, log', hlog, hsnapshot, hrotated, -⟩ := h.checkpoint_calls hwal snapId segId
  refine ⟨_, ?_, fastkvCheckpoint_of_ok hwal hlog hsnapshot hrotated now⟩
  -- the parts of the snapshot
  rw [snapshotWrite_eq] at hsnapshot
  rcases hcreate : snapCreate w.db.clock (snapEntries w.db.ht).length
    (entriesCrc (snapEntries w.db.ht))
    snapId log.disk with ⟨rc, sw⟩
  rw [hcreate] at hsnapshot
  obtain rfl : rc = .ok := by
    by_contra hne
    have hrc : rc = .ok := by
      simp only [ne_eq, hne, not_false_eq_true, if_true] at hsnapshot
      exact congrArg Prod.fst hsnapshot
    exact hne hrc
  have hname : sw.name = snapTmpName snapId.hex := by
    rw [← show (snapCreate w.db.clock (snapEntries w.db.ht).length
      (entriesCrc (snapEntries w.db.ht))
      snapId log.disk).2 = sw by rw [hcreate]]
    unfold snapCreate
    dsimp only
    split
    · rfl
    · exact foldl_snapWrite_name _ _
  simp only [ne_eq, not_true_eq_false, if_false] at hsnapshot
  generalize hs : (Threads.start w).withLog log = s
  have hht : s.ht = w.db.ht := by
    rw [← hs]
    rfl
  have hdisk : s.world.disk = log.disk := by
    rw [← hs]
    rfl
  have hbegin : exec checkpointStep (Checkpointing.start w) [.sync, .readTs] =
      ⟨s, .counting w.db.clock 0 0 0⟩ := by
    simp only [exec, List.foldl_cons, List.foldl_nil, checkpointStep, Checkpointing.start,
      show (Threads.start w).world = w from rfl, hwal, hlog, if_true, hs]
    rw [← hs]
    rfl
  have hcreated : exec checkpointStep ⟨s, .counting w.db.clock s.ht.capacity
      (visited s.ht s.ht.capacity).length (entriesCrc (visited s.ht s.ht.capacity))⟩
      [.create snapId] =
      ⟨s.withDisk sw.disk, sw.stage w.db.clock snapId 0⟩ := by
    simp only [exec, List.foldl_cons, List.foldl_nil, checkpointStep, lt_irrefl, if_false,
      visited_capacity (Nat.le_refl _), hht, hdisk, hcreate, if_true]
  rw [← hht, checkpointAlone, exec_append, exec_append, exec_append, exec_append, hbegin,
    exec_count s _ (Nat.le_refl _), hcreated, exec_write s _ hname (Nat.le_refl _),
    visited_capacity (Nat.le_refl _), hht]
  have hwal' : s.world.db.wal = some log.wal := by
    rw [← hs]
    rfl
  rw [exec_finish ((foldl_snapWrite_name _ sw).trans hname) (by rw [hht]) hsnapshot hwal'
    hrotated, ← hs]
  rfl

/-! ## Schedules -/

/-- A change that is made now to a bucket, by a commit with this timestamp, is missed by the
checkpoint: the bucket is between its two visits, or it was visited and the change is not
replayed. -/
def Stage.Misses (bucket commitTs : ℕ) : Stage → Prop
  | .counting _ next _ _ => bucket < next
  | .writing ts _ next _ _ _ => next ≤ bucket ∨ commitTs ≤ ts
  | .written ts _ | .rotated ts _ _ | .trimmed ts _ | .done ts _ => commitTs ≤ ts
  | .idle | .synced | .failed _ => False

instance (bucket commitTs : ℕ) : (stage : Stage) → Decidable (stage.Misses bucket commitTs)
  | .counting _ next _ _ => inferInstanceAs (Decidable (bucket < next))
  | .writing ts _ next _ _ _ => inferInstanceAs (Decidable (next ≤ bucket ∨ commitTs ≤ ts))
  | .written ts _ | .rotated ts _ _ | .trimmed ts _ | .done ts _ =>
    inferInstanceAs (Decidable (commitTs ≤ ts))
  | .idle | .synced | .failed _ => inferInstanceAs (Decidable False)

/-- An entry that the checkpoint misses leaves the value of its key as it is. Keys are alone in
their buckets, and identifiers for new files are larger than those in the directory. -/
def InstallsApart (s : Checkpointing) : CheckpointStep → Prop
  | .thread (.install t) => ∀ txn e rest, s.threads.phase t = .logged txn e rest →
    (∀ v ∈ s.threads.ht.chain e.key, v.key = e.key) ∧
      (s.stage.Misses (bucketIdx s.threads.ht e.key) txn.commitTs →
        s.threads.ht.live e.key = sliceDup e.value)
  | .create id => ∀ n ∈ s.threads.world.disk.files, ∀ id', IsSnap id' n → id' < id
  | .rotate id => ∀ id' : Uuid, segName id'.hex ∈ s.threads.world.disk.files → id' < id
  | _ => True

/-! ## The directory -/

/-- A bucket that is copied next does not matter. -/
theorem Ht.Copied.visited {seen ht seen' : Ht} {n : ℕ} (h : seen.Copied ht n seen') :
    visited seen' n = FastKV.visited seen n := by
  have htake : seen'.buckets.take n = seen.buckets.take n := by
    refine List.ext_getElem? fun b => ?_
    rw [List.getElem?_take, List.getElem?_take]
    split
    · exact h.others b (by omega)
    · rfl
  rw [FastKV.visited, htake]
  rfl

/-- Files that are not segments are the same. -/
def SameFiles (d d' : Disk) : Prop :=
  ∀ n, matchName walPfx walSfx n = none → d'.files.lookup n = d.files.lookup n

/-- All snapshots have identifiers. -/
def NamedSnaps (files : Files) : Prop :=
  ∀ n ∈ files, matchName snapPfx snapSfx n = none ∨ ∃ id, IsSnap id n

/-- A snapshot that is being written: header and visited buckets are in the file or the
buffer. -/
structure SnapWriter.Writes (sw : SnapWriter) (ts : ℕ) (id : Uuid) (next : ℕ) (seen : Ht) :
    Prop where
  /-- The temporary file is open. -/
  attached : sw.Attached sw.disk (snapTmpName id.hex)
  /-- The buffer does not overflow. -/
  le_cap : sw.buf.length ≤ snapBufCap
  /-- What was written. -/
  stream : sw.stream (snapTmpName id.hex) =
    (headerFields ts (snapEntries seen).length (entriesCrc (snapEntries seen)) ++
      (visited seen next).flatMap entryFields).flatten
  /-- Other snapshots are older. -/
  newest : ∀ n ∈ sw.disk.files, ∀ id', IsSnap id' n → n = snapTmpName id.hex ∨ id' < id

section Directory

variable {d d' : Disk}

/-- A file that is not a segment is there before and after. -/
theorem SameFiles.mem (h : SameFiles d d') {n : Name} (hn : matchName walPfx walSfx n = none)
    (hmem : n ∈ d'.files) : n ∈ d.files := by
  rw [← AList.lookup_isSome, h n hn] at hmem
  exact AList.lookup_isSome.mp hmem

/-- Snapshots keep their names. -/
theorem NamedSnaps.of_same (h : NamedSnaps d.files) (hsame : SameFiles d d') :
    NamedSnaps d'.files := by
  intro n hn
  rcases matchName_exclusive n with hwal | hsnap
  · exact h n (hsame.mem hwal hn)
  · exact Or.inl hsnap

/-- A snapshot stays. -/
theorem Snap.In.of_same {snap : Snap} (h : snap.In d.files) (hsame : SameFiles d d') :
    snap.In d'.files := by
  have hnewest : NewestSnap d.files (some snap) := h
  exact hnewest.of_lookup fun n hn => hsame n ((matchName_exclusive n).resolve_right hn)

/-- A snapshot that is being written stays so. -/
theorem SnapWriter.Writes.of_same {sw : SnapWriter} {ts next : ℕ} {id : Uuid} {seen : Ht}
    (h : sw.Writes ts id next seen) (hsame : SameFiles sw.disk d') (hquiet : d'.Quiet) :
    SnapWriter.Writes { sw with disk := d' } ts id next seen := by
  have htmp := hsame _ (isSnap_snapTmpName id).matchName_wal
  obtain ⟨stored, hfile, hlen⟩ := h.attached.file
  refine ⟨⟨h.attached.name_eq, h.attached.err, hquiet, ⟨stored, htmp.trans hfile, hlen⟩, [],
    .refl _,
    by simp⟩, h.le_cap, ?_, fun n hn id' hid => h.newest n (hsame.mem hid.matchName_wal hn) id' hid⟩
  rw [← h.stream, SnapWriter.stream, SnapWriter.stream, htmp]

/-- More fields are written. -/
theorem SnapWriter.Attached.fields {sw : SnapWriter} {name : Name} (h : sw.Attached d name)
    (hcap : sw.buf.length ≤ snapBufCap) (fields : List Bytes) :
    (fields.foldl snapWrite sw).Attached (fields.foldl snapWrite sw).disk name ∧
      (fields.foldl snapWrite sw).stream name = sw.stream name ++ fields.flatten ∧
      (fields.foldl snapWrite sw).buf.length ≤ snapBufCap ∧
      ∀ n, n ≠ name → (fields.foldl snapWrite sw).disk.files.lookup n = d.files.lookup n := by
  obtain ⟨hatt, hstream, hcap'⟩ := foldl_snapWrite d name fields sw h hcap
  obtain ⟨ops, hdid, hops⟩ := hatt.did
  refine ⟨⟨hatt.name_eq, hatt.err, hatt.quiet, hatt.file, [], .refl _, by simp⟩, hstream, hcap',
    fun n hn => ?_⟩
  rw [hdid.files]
  exact lookup_foldl_pwrite_ne hops hn _

end Directory

/-! ## The invariant -/

/-- The log and the table while a checkpoint is under way. The records in segments that will be
removed are not newer than the snapshot. -/
def Stage.Kept (s : Threads) (older : List (Uuid × List Record)) (cur : List Record) : Stage → Prop
  | .idle | .synced | .failed _ => True
  | .counting ts next numKeys dataCrc =>
    ts < tsMax ∧ next ≤ s.ht.capacity ∧ (∀ r ∈ older.flatMap Prod.snd, r.ts ≤ ts) ∧
      ∃ seen, Cut s.ht s.pending (older.flatMap Prod.snd ++ cur) ts next 0 seen ∧
        numKeys = (visited seen next).length ∧ dataCrc = entriesCrc (visited seen next)
  | .writing ts id next buf offset err =>
    ts < tsMax ∧ (∀ r ∈ older.flatMap Prod.snd, r.ts ≤ ts) ∧
      ∃ seen, Cut s.ht s.pending (older.flatMap Prod.snd ++ cur) ts s.ht.capacity next seen ∧
        SnapWriter.Writes ⟨snapTmpName id.hex, buf, offset, err, s.world.disk⟩ ts id next seen
  | .written ts id =>
    (∀ r ∈ older.flatMap Prod.snd, r.ts ≤ ts) ∧
      ∃ seen, Cut s.ht s.pending (older.flatMap Prod.snd ++ cur) ts s.ht.capacity
      s.ht.capacity seen ∧
        (⟨id, ts, seen⟩ : Snap).In s.world.disk.files
  | .rotated ts id oldSeg =>
    (∃ oldest oldId oldCur, older = oldest ++ [(oldId, oldCur)] ∧ oldSeg = Uuid.hex oldId ∧
      ∀ r ∈ oldest.flatMap Prod.snd, r.ts ≤ ts) ∧
      ∃ seen, Cut s.ht s.pending (older.flatMap Prod.snd ++ cur) ts s.ht.capacity
      s.ht.capacity seen ∧
        (⟨id, ts, seen⟩ : Snap).In s.world.disk.files
  | .trimmed ts id | .done ts id =>
    ∃ seen, Cut s.ht s.pending (older.flatMap Prod.snd ++ cur) ts s.ht.capacity s.ht.capacity seen ∧
      (⟨id, ts, seen⟩ : Snap).In s.world.disk.files

/-- A database in service beside a checkpoint. -/
structure Checkpointing.Keeps (base : Bytes → Slice) (s : Checkpointing) (wal : Wal)
    (older : List (Uuid × List Record)) (id : Uuid) (cur : List Record) : Prop where
  /-- The threads are in order. -/
  serving : s.threads.Serving base wal older id cur
  /-- Snapshots have identifiers. -/
  named : NamedSnaps s.threads.world.disk.files
  /-- The checkpoint is in order. -/
  kept : s.stage.Kept s.threads older cur

section Threads

variable {base : Bytes → Slice} {s s' : Threads} {wal : Wal} {older : List (Uuid × List Record)}
  {id : Uuid} {cur cur' : List Record} {a : ThreadStep}

/-- A step of a thread keeps the number of buckets. -/
theorem Moved.capacity (h : Moved s cur a s' cur') : s'.ht.capacity = s.ht.capacity := by
  cases h with
  | neither _ _ hcap _ _ => exact hcap
  | logged _ _ hht _ => rw [hht]
  | installed _ _ _ _ hht => rw [hht, capacity_htInsertVersion]

/-- It changes no file but segments. -/
theorem Moved.sameFiles (h : Moved s cur a s' cur') : SameFiles s.world.disk s'.world.disk := by
  cases h with
  | neither hdisk _ _ _ _ => exact fun n _ => by rw [hdisk]
  | logged _ _ _ hothers => exact hothers
  | installed _ _ _ hdisk _ => exact fun n _ => by rw [hdisk]

/-- It keeps the cut, unless it installs an entry that the checkpoint misses. -/
theorem Moved.cut (h : Moved s cur a s' cur') (hserving : s.Serving base wal older id cur)
    (hclock : s.clock < tsMax) {ts counted written : ℕ} {seen : Ht}
    (hcut : Cut s.ht s.pending (older.flatMap Prod.snd ++ cur) ts counted written seen)
    (hp : ∀ t txn e rest, a = .install t → s.phase t = .logged txn e rest →
      (∀ v ∈ s.ht.chain e.key, v.key = e.key) ∧ (bucketIdx s.ht e.key < counted →
        txn.commitTs ≤ ts ∨ written ≤ bucketIdx s.ht e.key → s.ht.live e.key = sliceDup e.value)) :
    Cut s'.ht s'.pending (older.flatMap Prod.snd ++ cur') ts counted written seen := by
  cases h with
  | neither _ hpending hcap hlive hentry =>
    rw [hpending]
    exact hcut.frame hcap hlive hentry
  | logged hnone hpending hht _ =>
    rw [hnone] at hcut
    rw [hpending, hht, ← List.append_assoc]
    exact hcut.append _ _
  | @installed t _ txn e rest hphase hpending hnone _ hht =>
    obtain ⟨hvalid, hts, hlast⟩ := hserving.rests t (e.record txn.commitTs)
      (by rw [hphase]; exact List.mem_cons_self)
    have hts' : txn.commitTs < s.clock := hts
    obtain ⟨halone, hkept⟩ := hp t txn e rest rfl hphase
    rw [hpending] at hcut
    rw [hnone, hht]
    exact hcut.install hserving.exports.oneLive (by omega) halone hlast hkept

/-- It keeps what is known of the checkpoint. -/
theorem Moved.kept (h : Moved s cur a s' cur') (hserving : s.Serving base wal older id cur)
    (hclock : s.clock < tsMax) (hquiet : s'.world.disk.Quiet) {stage : Stage}
    (hkept : stage.Kept s older cur) (hp : InstallsApart ⟨s, stage⟩ (.thread a)) :
    stage.Kept s' older cur' := by
  have hmiss : ∀ {ts counted written : ℕ}, (∀ bucket commitTs, bucket < counted →
      commitTs ≤ ts ∨ written ≤ bucket → stage.Misses bucket commitTs) →
      ∀ t txn e rest, a = .install t → s.phase t = .logged txn e rest →
        (∀ v ∈ s.ht.chain e.key, v.key = e.key) ∧ (bucketIdx s.ht e.key < counted →
          txn.commitTs ≤ ts ∨ written ≤ bucketIdx s.ht e.key → s.ht.live e.key =
            sliceDup e.value) := by
    rintro ts counted written hmisses t txn e rest rfl hphase
    obtain ⟨halone, hvalue⟩ := hp txn e rest hphase
    exact ⟨halone, fun hlt hor => hvalue (hmisses _ _ hlt hor)⟩
  -- behind both passes only the timestamp matters
  have hpassed : ∀ {ts : ℕ} {id : Uuid}, (∀ bucket commitTs, commitTs ≤ ts →
      stage.Misses bucket commitTs) → (∃ seen, Cut s.ht s.pending (older.flatMap Prod.snd ++ cur) ts
        s.ht.capacity s.ht.capacity seen ∧ (⟨id, ts, seen⟩ : Snap).In s.world.disk.files) →
      ∃ seen, Cut s'.ht s'.pending (older.flatMap Prod.snd ++ cur') ts
        s'.ht.capacity s'.ht.capacity seen ∧ (⟨id, ts, seen⟩ : Snap).In s'.world.disk.files := by
    rintro ts id hmisses ⟨seen, hcut, hin⟩
    refine ⟨seen, ?_, hin.of_same h.sameFiles⟩
    rw [h.capacity]
    refine h.cut hserving hclock hcut (hmiss fun bucket commitTs hlt hor => ?_)
    exact hmisses bucket commitTs (hor.resolve_right (by omega))
  cases stage with
  | idle => exact trivial
  | synced => exact trivial
  | failed rc => exact trivial
  | counting ts next numKeys dataCrc =>
    obtain ⟨hts, hle, holder, seen, hcut, hcount⟩ := hkept
    exact ⟨hts, hle.trans_eq h.capacity.symm, holder, seen,
      h.cut hserving hclock hcut (hmiss fun bucket commitTs hlt _ => hlt), hcount⟩
  | writing ts id next buf offset err =>
    obtain ⟨hts, holder, seen, hcut, hwrites⟩ := hkept
    refine ⟨hts, holder, seen, ?_, hwrites.of_same h.sameFiles hquiet⟩
    rw [h.capacity]
    exact h.cut hserving hclock hcut (hmiss fun bucket commitTs _ hor => hor.symm)
  | written ts id => exact ⟨hkept.1, hpassed (fun _ _ hle => hle) hkept.2⟩
  | rotated ts id oldSeg => exact ⟨hkept.1, hpassed (fun _ _ hle => hle) hkept.2⟩
  | trimmed ts id => exact hpassed (fun _ _ hle => hle) hkept
  | done ts id => exact hpassed (fun _ _ hle => hle) hkept

end Threads

/-! ## Steps of the checkpoint -/

section Checkpoint

variable {base : Bytes → Slice} {s : Threads} {wal : Wal} {older older' : List (Uuid × List Record)}
  {id id' : Uuid} {cur cur' : List Record}

/-- A step that concerns only the log and the directory. -/
theorem Threads.Serving.relog (h : s.Serving base wal older id cur) {world : World} {wal' : Wal}
    (hdb : world.db = { s.world.db with wal := some wal' })
    (hholds : Log.Holds ⟨wal', world.disk⟩ older' id' cur') (hquiet : world.disk.Quiet)
    (hrecords : ∀ r ∈ older'.flatMap Prod.snd ++ cur', r ∈ older.flatMap Prod.snd ++ cur) :
    Threads.Serving base { s with world } wal' older' id' cur' := by
  have hclock : ({ s with world } : Threads).clock = s.clock := by
    show world.db.clock = _
    rw [hdb]
    rfl
  have hht : ({ s with world } : Threads).ht = s.ht := by
    show world.db.ht = _
    rw [hdb]
    rfl
  refine ⟨by rw [hdb], hholds, hquiet, fun r hr => ?_, ?_, h.fair, h.holder, h.permitted,
    fun t r hr => ?_, fun c minTs i hscan => ?_, ?_⟩
  · rw [hclock]
    exact h.stamps r (hrecords r hr)
  · rw [hht]
    exact h.exports
  · obtain ⟨hvalid, hlt, hall⟩ := h.rests t r hr
    refine ⟨hvalid, ?_, fun r' hr' => hall r' (hrecords r' hr')⟩
    rw [hclock]
    exact hlt
  · rw [hclock]
    exact h.scans c minTs i hscan
  · rw [hht]
    exact h.commits

/-- A step that concerns only files that are not segments. -/
theorem Threads.Serving.withDisk (h : s.Serving base wal older id cur) {d : Disk} (hquiet : d.Quiet)
    (hsame : ∀ n, matchName walPfx walSfx n ≠ none →
      d.files.lookup n = s.world.disk.files.lookup n) :
    (s.withDisk d).Serving base wal older id cur := by
  refine h.relog ?_ (h.holds.of_segments hsame) hquiet fun r hr => hr
  show s.world.db = _
  rw [← h.wal_eq]

/-- The log is synced. -/
theorem Threads.Serving.sync (h : s.Serving base wal older id cur) :
    (walSync ⟨wal, s.world.disk⟩).1 = .ok ∧
      (s.withLog (walSync ⟨wal, s.world.disk⟩).2).Serving base
        (walSync ⟨wal, s.world.disk⟩).2.wal older id cur ∧
      SameFiles s.world.disk (walSync ⟨wal, s.world.disk⟩).2.disk := by
  obtain ⟨hholds, -⟩ := h.holds.flush true
  obtain ⟨hatt, -⟩ := flushBuf_spec h.holds.attached true
  obtain ⟨hok, hworking⟩ := flushBuf_working (h.holds.attached.working h.quiet) true
  refine ⟨hok, h.relog rfl hholds hworking.quiet fun r hr => hr, fun n hn => hatt.others n ?_⟩
  rintro rfl
  rw [matchName_segName] at hn
  cases hn

/-- A new segment is started. -/
theorem Threads.Serving.rotate (h : s.Serving base wal older id cur) {fresh : Uuid}
    (hfresh : id < fresh) :
    (walRotate fresh ⟨wal, s.world.disk⟩).1 = .ok ∧
      (s.withLog (walRotate fresh ⟨wal, s.world.disk⟩).2).Serving base
        (walRotate fresh ⟨wal, s.world.disk⟩).2.wal (older ++ [(id, cur)]) fresh [] ∧
      SameFiles s.world.disk (walRotate fresh ⟨wal, s.world.disk⟩).2.disk := by
  obtain ⟨hok, hholds, hquiet⟩ := h.holds.rotate_quiet h.quiet hfresh
  refine ⟨hok, h.relog rfl hholds hquiet fun r hr => by simpa using hr, fun n hn => ?_⟩
  have hne : ∀ i : Uuid, n ≠ segName i.hex := by
    rintro i rfl
    rw [matchName_segName] at hn
    cases hn
  obtain ⟨hatt, -⟩ := flushBuf_spec h.holds.attached true
  obtain ⟨-, hworking⟩ := flushBuf_working (h.holds.attached.working h.quiet) true
  obtain ⟨hopen, -⟩ := hworking.quiet.call (.create (segName fresh.hex))
  unfold walRotate ioOpen
  simp only [hopen, if_true]
  exact (lookup_create_ne _ (hne fresh)).trans (hatt.others n (hne id))

/-- Older segments are removed. -/
theorem Threads.Serving.trim {oldId : Uuid} {oldCur : List Record}
    (h : s.Serving base wal (older ++ [(oldId, oldCur)]) id cur) :
    (s.withDisk (walTrim oldId.hex s.world.disk)).Serving base wal [(oldId, oldCur)] id cur ∧
      SameFiles s.world.disk (walTrim oldId.hex s.world.disk) := by
  have hdid := h.holds.walTrim_did h.quiet
  refine ⟨h.relog ?_ (h.holds.trim hdid.files) (walTrim_quiet h.quiet oldId.hex) fun r hr => ?_,
    fun n hn => ?_⟩
  · show s.world.db = _
    rw [← h.wal_eq]
  · rw [List.flatMap_append, List.append_assoc]
    exact List.mem_append_right _ hr
  · rw [hdid.files, lookup_foldl_remove, if_neg]
    intro hmem
    obtain ⟨seg, -, heq⟩ := List.mem_map.mp hmem
    rw [← heq, matchName_segName] at hn
    cases hn

/-- The clock is read. -/
theorem Threads.Serving.readTs (h : s.Serving base wal older id cur) (hclock : s.clock < tsMax) :
    (Stage.counting (oracleNow s.oracle) 0 0 0).Kept s older cur := by
  have hpending : ∀ r ∈ s.pending, r.ts ≤ s.clock := by
    intro r hr
    obtain ⟨t, ht⟩ := Threads.pending_subset_rest hr
    exact (h.rests t r ht).2.1.le
  obtain ⟨seen, hcut⟩ := Cut.start s.ht (fun r hr => (h.stamps r hr).le) hpending
  exact ⟨hclock, Nat.zero_le _, fun r hr => (h.stamps r (List.mem_append_left _ hr)).le, seen,
    hcut, rfl,
    rfl⟩

/-- A bucket is counted. -/
theorem Threads.Serving.count (h : s.Serving base wal older id cur) {ts next numKeys : ℕ}
    {dataCrc : UInt32} (hkept : (Stage.counting ts next numKeys dataCrc).Kept s older cur)
    {chain : List Version} (hchain : s.ht.buckets[next]? = some chain) :
    (match bucketEntry chain with
      | none => Stage.counting ts (next + 1) numKeys dataCrc
      | some entry => .counting ts (next + 1) (numKeys + 1)
        ((entryFields entry).foldl crc32c dataCrc)).Kept s older cur := by
  obtain ⟨hts, -, holder, seen, hcut, hnum, hcrc⟩ := hkept
  have hlt : next < s.ht.capacity := (List.getElem?_eq_some_iff.mp hchain).1
  obtain ⟨seen', hcopied, hcut'⟩ := hcut.count h.exports hlt
  have hvisited := visited_succ (hcopied.copied.trans hchain)
  rw [hcopied.visited] at hvisited
  cases hentry : bucketEntry chain with
  | none =>
    rw [hentry, Option.toList_none, List.append_nil] at hvisited
    refine ⟨hts, hlt, holder, seen', hcut', ?_, ?_⟩
    · rw [hvisited]
      exact hnum
    · rw [hvisited]
      exact hcrc
  | some entry =>
    rw [hentry, Option.toList_some] at hvisited
    refine ⟨hts, hlt, holder, seen', hcut', ?_, ?_⟩
    · rw [hvisited, List.length_append, hnum]
      rfl
    · rw [hvisited, entriesCrc_append, hcrc]

/-- The stage of a snapshot that is being written. -/
theorem SnapWriter.Writes.kept {sw : SnapWriter} {ts next : ℕ} {snapId : Uuid} {seen : Ht}
    (h : sw.Writes ts snapId next seen) (hts : ts < tsMax) (holder : ∀ r ∈ older.flatMap Prod.snd,
      r.ts ≤ ts)
    (hcut : Cut s.ht s.pending (older.flatMap Prod.snd ++ cur) ts s.ht.capacity next seen) :
    (sw.stage ts snapId next).Kept (s.withDisk sw.disk) older cur := by
  refine ⟨hts, holder, seen, hcut, ?_⟩
  have hself : (⟨snapTmpName snapId.hex, sw.buf, sw.offset, sw.err, sw.disk⟩ : SnapWriter) =
      sw := by
    rw [← h.attached.name_eq]
  show SnapWriter.Writes ⟨snapTmpName snapId.hex, sw.buf, sw.offset, sw.err, sw.disk⟩ ts snapId
    next seen
  rw [hself]
  exact h

/-- Only the temporary file is written. -/
theorem Threads.Serving.tmp (h : s.Serving base wal older id cur)
    (hnamed : NamedSnaps s.world.disk.files) {d : Disk} (hquiet : d.Quiet) {snapId : Uuid}
    (hothers : ∀ n, n ≠ snapTmpName snapId.hex → d.files.lookup n = s.world.disk.files.lookup n) :
    (s.withDisk d).Serving base wal older id cur ∧ NamedSnaps d.files := by
  refine ⟨h.withDisk hquiet fun n hn => hothers n ?_, fun n hn => ?_⟩
  · rintro rfl
    exact hn (isSnap_snapTmpName snapId).matchName_wal
  · by_cases htmp : n = snapTmpName snapId.hex
    · rw [htmp]
      exact Or.inr ⟨snapId, isSnap_snapTmpName snapId⟩
    · rw [← AList.lookup_isSome, hothers n htmp, AList.lookup_isSome] at hn
      exact hnamed n hn

/-- The temporary file is created and the header is written. -/
theorem Threads.Serving.create (h : s.Serving base wal older id cur)
    (hnamed : NamedSnaps s.world.disk.files) {ts next numKeys : ℕ} {dataCrc : UInt32}
    (hkept : (Stage.counting ts next numKeys dataCrc).Kept s older cur)
    (hall : s.ht.capacity ≤ next)
    {snapId : Uuid} (hnew : ∀ n ∈ s.world.disk.files, ∀ id', IsSnap id' n → id' < snapId) :
    ∃ sw, snapCreate ts numKeys dataCrc snapId s.world.disk = (.ok, sw) ∧
      Checkpointing.Keeps base ⟨s.withDisk sw.disk, sw.stage ts snapId 0⟩ wal older id cur := by
  obtain ⟨hts, hle, holder, seen, hcut, hnum, hcrc⟩ := hkept
  obtain ⟨hopen, hquiet⟩ := h.quiet.call (.create (snapTmpName snapId.hex))
  have htmp : snapTmpName snapId.hex ∉ s.world.disk.files := fun hmem =>
    absurd (hnew _ hmem snapId (isSnap_snapTmpName snapId)) (lt_irrefl _)
  rw [hopen] at hquiet
  generalize hd : ({ s.world.disk.perform (.create (snapTmpName snapId.hex)) with
    outcomes := s.world.disk.outcomes.tail } : Disk) = disk at hopen hquiet
  have hfiles : disk.files = applyOp s.world.disk.files (.create (snapTmpName snapId.hex)) := by
    rw [← hd]
    rfl
  have hfile : disk.files.lookup (snapTmpName snapId.hex) = some [] := by
    rw [hfiles, lookup_create, AList.lookup_eq_none.mpr htmp]
    rfl
  have hstart : SnapWriter.Attached disk (snapTmpName snapId.hex)
      ⟨snapTmpName snapId.hex, [], 0, .ok, disk⟩ := ⟨rfl, rfl, hquiet, ⟨[], hfile, rfl⟩, [],
        .refl _, by simp⟩
  obtain ⟨hatt, hstream, hcap, hothers⟩ := hstart.fields (Nat.zero_le _)
    (headerFields ts numKeys dataCrc)
  generalize hsw : (headerFields ts numKeys dataCrc).foldl snapWrite
    ⟨snapTmpName snapId.hex, [], 0, .ok, disk⟩ = sw at hatt hstream hcap hothers
  have hlookup : ∀ n, n ≠ snapTmpName snapId.hex →
      sw.disk.files.lookup n = s.world.disk.files.lookup n := by
    intro n hn
    rw [hothers n hn, hfiles, lookup_create_ne _ hn]
  -- the header counts what all buckets export
  obtain rfl : next = s.ht.capacity := by omega
  rw [visited_capacity hcut.capacity.le] at hnum hcrc
  obtain ⟨hserving, hnamed'⟩ := h.tmp hnamed hatt.quiet hlookup
  have hwrites : sw.Writes ts snapId 0 seen := by
    refine ⟨hatt, hcap, ?_, fun n hn id' hid => ?_⟩
    · rw [hstream, SnapWriter.stream, hfile, hnum, hcrc]
      simp [visited]
    · by_cases hn' : n = snapTmpName snapId.hex
      · exact Or.inl hn'
      · rw [← AList.lookup_isSome, hlookup n hn', AList.lookup_isSome] at hn
        exact Or.inr (hnew n hn id' hid)
  have hcreate : snapCreate ts numKeys dataCrc snapId s.world.disk = (.ok, sw) := by
    unfold snapCreate ioOpen
    simp only [hopen, ne_eq, not_true_eq_false, if_false, hsw]
  exact ⟨sw, hcreate, hserving, hnamed', hwrites.kept hts holder hcut⟩

/-- A bucket is written. -/
theorem Threads.Serving.write (h : s.Serving base wal older id cur)
    (hnamed : NamedSnaps s.world.disk.files)
    {ts next offset : ℕ} {snapId : Uuid} {buf : Bytes} {err : Err}
    (hkept : (Stage.writing ts snapId next buf offset err).Kept s older cur) {chain : List Version}
    (hchain : s.ht.buckets[next]? = some chain) :
    Checkpointing.Keeps base (match bucketEntry chain with
      | none => ⟨s, .writing ts snapId (next + 1) buf offset err⟩
      | some entry =>
        ⟨s.withDisk ((entryFields entry).foldl snapWrite
            ⟨snapTmpName snapId.hex, buf, offset, err, s.world.disk⟩).disk,
          ((entryFields entry).foldl snapWrite
            ⟨snapTmpName snapId.hex, buf, offset, err, s.world.disk⟩).stage ts snapId (next + 1)⟩)
      wal older id cur := by
  obtain ⟨hts, holder, seen, hcut, hwrites⟩ := hkept
  have hlt : next < s.ht.capacity := (List.getElem?_eq_some_iff.mp hchain).1
  -- the bucket exports what was counted
  have hsame := hcut.same next (Nat.le_refl _) hlt
  rw [hchain, Option.map_some] at hsame
  obtain ⟨chain', hchain', hentry'⟩ := Option.map_eq_some_iff.mp hsame.symm
  have hvisited := visited_succ hchain'
  rw [hentry'] at hvisited
  cases hentry : bucketEntry chain with
  | none =>
    rw [hentry, Option.toList_none, List.append_nil] at hvisited
    refine ⟨h, hnamed, hts, holder, seen, hcut.write, hwrites.attached, hwrites.le_cap, ?_,
      hwrites.newest⟩
    rw [hvisited]
    exact hwrites.stream
  | some entry =>
    rw [hentry, Option.toList_some] at hvisited
    dsimp only
    obtain ⟨hatt, hstream, hcap, hothers⟩ := hwrites.attached.fields hwrites.le_cap
      (entryFields entry)
    generalize (entryFields entry).foldl snapWrite
      ⟨snapTmpName snapId.hex, buf, offset, err, s.world.disk⟩ = sw at hatt hstream hcap hothers
    obtain ⟨hserving, hnamed'⟩ := h.tmp hnamed hatt.quiet hothers
    have hwrites' : sw.Writes ts snapId (next + 1) seen := by
      refine ⟨hatt, hcap, ?_, fun n hn id' hid => ?_⟩
      · rw [hstream, hwrites.stream, hvisited]
        simp
      · by_cases hn' : n = snapTmpName snapId.hex
        · exact Or.inl hn'
        · rw [← AList.lookup_isSome, hothers n hn', AList.lookup_isSome] at hn
          exact hwrites.newest n hn id' hid
    exact ⟨hserving, hnamed', hwrites'.kept hts holder hcut.write⟩

/-- The snapshot gets its name. -/
theorem Threads.Serving.rename (h : s.Serving base wal older id cur)
    (hnamed : NamedSnaps s.world.disk.files)
    {ts next offset : ℕ} {snapId : Uuid} {buf : Bytes} {err : Err}
    (hkept : (Stage.writing ts snapId next buf offset err).Kept s older cur)
    (hall : s.ht.capacity ≤ next) :
    ∃ disk, snapClose ⟨snapTmpName snapId.hex, buf, offset, err, s.world.disk⟩ snapId =
      (.ok, disk) ∧
      Checkpointing.Keeps base ⟨s.withDisk disk, .written ts snapId⟩ wal older id cur := by
  obtain ⟨hts, holder, seen, hcut, hwrites⟩ := hkept
  obtain ⟨hatt, hstream, hbuf⟩ := snapFlush_spec hwrites.attached
  rw [hwrites.stream] at hstream
  generalize hsw : snapFlush ⟨snapTmpName snapId.hex, buf, offset, err, s.world.disk⟩ = sw
    at hatt hstream hbuf
  obtain ⟨hsync, hquiet⟩ := hatt.quiet.sync
  rw [hsync] at hquiet
  obtain ⟨hrename, hquiet'⟩ := hquiet.call (.rename (snapTmpName snapId.hex) (snapName snapId.hex))
  rw [hrename] at hquiet'
  -- the file is complete
  have hfile : sw.disk.files.lookup (snapTmpName snapId.hex) = some (snapshotBytes ts seen) := by
    obtain ⟨stored, hstored, -⟩ := hatt.file
    rw [visited_capacity (hcut.capacity.le.trans hall), SnapWriter.stream, hstored, hbuf,
      Option.getD_some, List.append_nil] at hstream
    rw [hstored, hstream]
    rfl
  have hlookup : ∀ n, (applyOp sw.disk.files (.rename (snapTmpName snapId.hex)
      (snapName snapId.hex))).lookup n =
        if n = snapName snapId.hex then some (snapshotBytes ts seen)
        else if n = snapTmpName snapId.hex then none else s.world.disk.files.lookup n := by
    intro n
    rw [lookup_rename hfile]
    split
    · rfl
    · split
      · rfl
      · rename_i htmp
        obtain ⟨ops, hdid, hops⟩ := hatt.did
        rw [hdid.files]
        exact lookup_foldl_pwrite_ne hops htmp _
  have hin : (⟨snapId, ts, seen⟩ : Snap).In (applyOp sw.disk.files
      (.rename (snapTmpName snapId.hex) (snapName snapId.hex))) := by
    refine ⟨by rw [hlookup, if_pos rfl], fun n hn => ?_, fun e he => ?_, hts⟩
    · rw [← AList.lookup_isSome, hlookup] at hn
      split at hn
      · exact Or.inr (Or.inl (by assumption))
      · split at hn
        · cases hn
        · rename_i htmp
          rw [AList.lookup_isSome] at hn
          refine (hnamed n hn).imp_right ?_
          rintro ⟨id', hid⟩
          exact Or.inr ⟨id', (hwrites.newest n hn id' hid).resolve_left htmp, hid⟩
    · exact hcut.exports.fits e.1 e.2 (hcut.exports.oneLive.live_of_mem_snapEntries he)
  refine ⟨_, ?_, h.withDisk hquiet' fun n hn => ?_, fun n hn => ?_, holder, seen, ?_, hin⟩
  · unfold snapClose ioRename
    simp only [hsw, hatt.err, hsync, hrename, if_true, ne_eq, not_true_eq_false, if_false]
  · show (applyOp sw.disk.files _).lookup n = _
    rw [hlookup, if_neg, if_neg]
    · rintro rfl
      exact hn (isSnap_snapTmpName snapId).matchName_wal
    · rintro rfl
      exact hn (isSnap_snapName snapId).matchName_wal
  · rcases hin.newest n hn with hnone | rfl | ⟨id', -, hid⟩
    · exact Or.inl hnone
    · exact Or.inr ⟨snapId, isSnap_snapName snapId⟩
    · exact Or.inr ⟨id', hid⟩
  · exact ⟨hcut.capacity, hcut.exports, hcut.applied, fun b hb hlt => absurd hlt (not_lt.mpr hb),
      hcut.replays⟩

/-- Other snapshots are removed. -/
theorem Threads.Serving.trimSnapshots (h : s.Serving base wal older id cur)
    (hnamed : NamedSnaps s.world.disk.files) {ts : ℕ} {snapId : Uuid}
    (hkept : (Stage.trimmed ts snapId).Kept s older cur) :
    Checkpointing.Keeps base
      ⟨s.withDisk (snapshotTrim snapId.hex s.world.disk), .done ts snapId⟩ wal older id cur := by
  obtain ⟨seen, hcut, hin⟩ := hkept
  obtain ⟨names, hnames, hdid⟩ := snapshotTrim_did h.quiet snapId
  have hremoved := lookup_foldl_remove names
  refine ⟨h.withDisk (snapshotTrim_quiet h.quiet snapId.hex) fun n hn => ?_, fun n hn => ?_, seen,
    hcut, ?_⟩
  · rw [hdid.files, hremoved, if_neg]
    intro hmem
    exact hn ((matchName_exclusive n).resolve_right (hnames n hmem).1)
  · have hmem : n ∈ (snapshotTrim snapId.hex s.world.disk).files := hn
    rw [← AList.lookup_isSome, hdid.files, hremoved] at hmem
    split at hmem
    · cases hmem
    · exact hnamed n (AList.lookup_isSome.mp hmem)
  · show (⟨snapId, ts, seen⟩ : Snap).In (snapshotTrim snapId.hex s.world.disk).files
    rw [hdid.files]
    exact hin.removeAll names fun n hn => (hnames n hn).2

end Checkpoint

/-! ## Runs -/

section Run

variable {base : Bytes → Slice} {s : Checkpointing} {wal : Wal} {older : List (Uuid × List Record)}
  {id : Uuid} {cur : List Record}

/-- The log is synced at the beginning of a checkpoint. -/
theorem Checkpointing.Keeps.sync (h : s.Keeps base wal older id cur) :
    ∃ wal', (checkpointStep s .sync).Keeps base wal' older id cur := by
  obtain ⟨hok, hserving, hsame⟩ := h.serving.sync
  have hsynced : Checkpointing.Keeps base
      ⟨s.threads.withLog (walSync ⟨wal, s.threads.world.disk⟩).2, .synced⟩ _ older id cur :=
    ⟨hserving, h.named.of_same hsame, trivial⟩
  obtain ⟨threads, stage⟩ := s
  have hwal : threads.world.db.wal = some wal := h.serving.wal_eq
  cases stage with
  | idle =>
    simp only [checkpointStep, hwal, hok, if_true]
    exact ⟨_, hsynced⟩
  | done ts snapId =>
    simp only [checkpointStep, hwal, hok, if_true]
    exact ⟨_, hsynced⟩
  | failed rc =>
    simp only [checkpointStep, hwal, hok, if_true]
    exact ⟨_, hsynced⟩
  | _ => exact ⟨wal, h⟩

/-- A new segment is started. -/
theorem Checkpointing.Keeps.rotate (h : s.Keeps base wal older id cur) {fresh : Uuid}
    (hp : InstallsApart s (.rotate fresh)) :
    ∃ wal' older' id' cur', (checkpointStep s (.rotate fresh)).Keeps base wal' older' id' cur' := by
  have hfresh : id < fresh := hp id (h.serving.holds.dir.present id (by simp))
  obtain ⟨hok, hserving, hsame⟩ := h.serving.rotate hfresh
  obtain ⟨threads, stage⟩ := s
  have hwal : threads.world.db.wal = some wal := h.serving.wal_eq
  cases stage with
  | written ts snapId =>
    obtain ⟨holder, seen, hcut, hin⟩ := h.kept
    simp only [checkpointStep, hwal, hok, if_true]
    refine ⟨_, _, _, _, hserving, h.named.of_same hsame,
      ⟨older, id, cur, rfl, h.serving.holds.segment, holder⟩, seen, ?_, hin.of_same hsame⟩
    rw [List.flatMap_append, List.flatMap_singleton, List.append_nil]
    exact hcut
  | _ => exact ⟨wal, older, id, cur, h⟩

/-- Older segments are removed. -/
theorem Checkpointing.Keeps.trimLog (h : s.Keeps base wal older id cur) :
    ∃ older', (checkpointStep s .trimLog).Keeps base wal older' id cur := by
  obtain ⟨threads, stage⟩ := s
  cases stage with
  | rotated ts snapId oldSeg =>
    obtain ⟨⟨oldest, oldId, oldCur, rfl, rfl, holdest⟩, seen, hcut, hin⟩ := h.kept
    obtain ⟨hserving, hsame⟩ := h.serving.trim
    refine ⟨_, hserving, h.named.of_same hsame, seen, hcut.trim ?_, hin.of_same hsame⟩
    have hnone : (oldest.flatMap Prod.snd).filter (Record.wanted ts) = [] := by
      refine List.filter_eq_nil_iff.mpr fun r hr => ?_
      simp [Record.wanted, not_lt.mpr (holdest r hr)]
    rw [List.flatMap_append, List.append_assoc, List.filter_append (oldest.flatMap Prod.snd), hnone,
      List.nil_append]
  | _ => exact ⟨older, h⟩

/-- Every step keeps the database in service. -/
theorem Checkpointing.Keeps.step (h : s.Keeps base wal older id cur)
    (hclock : s.threads.clock + 1 < tsMax) {a : CheckpointStep} (hp : InstallsApart s a) :
    ∃ wal' older' id' cur', (checkpointStep s a).Keeps base wal' older' id' cur' := by
  cases a with
  | thread a =>
    have hkeys : KeysApart s.threads a := by
      cases a with
      | install t => exact fun txn e rest hphase => (hp txn e rest hphase).1
      | _ => exact trivial
    obtain ⟨wal', cur', hserving, hmoved⟩ := h.serving.step hclock hkeys
    exact ⟨wal', older, id, cur', hserving, h.named.of_same hmoved.sameFiles,
      hmoved.kept h.serving (by omega) hserving.quiet h.kept hp⟩
  | sync =>
    obtain ⟨wal', h'⟩ := h.sync
    exact ⟨wal', older, id, cur, h'⟩
  | readTs =>
    refine ⟨wal, older, id, cur, ?_⟩
    obtain ⟨threads, stage⟩ := s
    cases stage with
    | synced => exact ⟨h.serving, h.named, h.serving.readTs (Nat.lt_of_succ_lt hclock)⟩
    | _ => exact h
  | count =>
    refine ⟨wal, older, id, cur, ?_⟩
    obtain ⟨threads, stage⟩ := s
    cases stage with
    | counting ts next numKeys dataCrc =>
      cases hchain : threads.ht.buckets[next]? with
      | none =>
        simp only [checkpointStep, hchain]
        exact h
      | some chain =>
        have hcount := h.serving.count h.kept hchain
        simp only [checkpointStep, hchain]
        cases hentry : bucketEntry chain with
        | none =>
          rw [hentry] at hcount
          exact ⟨h.serving, h.named, hcount⟩
        | some entry =>
          rw [hentry] at hcount
          exact ⟨h.serving, h.named, hcount⟩
    | _ => exact h
  | create snapId =>
    refine ⟨wal, older, id, cur, ?_⟩
    obtain ⟨threads, stage⟩ := s
    cases stage with
    | counting ts next numKeys dataCrc =>
      simp only [checkpointStep]
      split
      · exact h
      · rename_i hall
        obtain ⟨sw, hcreate, hkeeps⟩ := h.serving.create h.named h.kept (not_lt.mp hall) hp
        simp only [hcreate, if_true]
        exact hkeeps
    | _ => exact h
  | write =>
    refine ⟨wal, older, id, cur, ?_⟩
    obtain ⟨threads, stage⟩ := s
    cases stage with
    | writing ts snapId next buf offset err =>
      cases hchain : threads.ht.buckets[next]? with
      | none =>
        simp only [checkpointStep, hchain]
        exact h
      | some chain =>
        have hwrite := h.serving.write h.named h.kept hchain
        simp only [checkpointStep, hchain]
        exact hwrite
    | _ => exact h
  | rename =>
    refine ⟨wal, older, id, cur, ?_⟩
    obtain ⟨threads, stage⟩ := s
    cases stage with
    | writing ts snapId next buf offset err =>
      simp only [checkpointStep]
      split
      · exact h
      · rename_i hall
        obtain ⟨disk, hclose, hkeeps⟩ := h.serving.rename h.named h.kept (not_lt.mp hall)
        simp only [hclose, if_true]
        exact hkeeps
    | _ => exact h
  | rotate fresh => exact h.rotate hp
  | trimLog =>
    obtain ⟨older', h'⟩ := h.trimLog
    exact ⟨wal, older', id, cur, h'⟩
  | trimSnapshots =>
    refine ⟨wal, older, id, cur, ?_⟩
    obtain ⟨threads, stage⟩ := s
    cases stage with
    | trimmed ts snapId => exact h.serving.trimSnapshots h.named h.kept
    | _ => exact h

/-- The steps of the checkpoint do not involve the oracle. -/
theorem checkpointStep_oracle (s : Checkpointing) {a : CheckpointStep} (h : ∀ a', a ≠ .thread a') :
    (checkpointStep s a).threads.oracle = s.threads.oracle := by
  cases a with
  | thread a' => exact absurd rfl (h a')
  | sync =>
    rw [checkpointStep]
    split <;> rfl
  | readTs =>
    rw [checkpointStep]
    split <;> rfl
  | count =>
    rw [checkpointStep]
    split
    · split
      · rfl
      · split <;> rfl
    · rfl
  | create id =>
    rw [checkpointStep]
    split
    · split <;> rfl
    · rfl
  | write =>
    rw [checkpointStep]
    split
    · split
      · rfl
      · split <;> rfl
    · rfl
  | rename =>
    rw [checkpointStep]
    split
    · split <;> rfl
    · rfl
  | rotate fresh =>
    rw [checkpointStep]
    split <;> rfl
  | trimLog =>
    rw [checkpointStep]
    split <;> rfl
  | trimSnapshots =>
    rw [checkpointStep]
    split <;> rfl

/-- A step moves the clock by at most one. -/
theorem checkpointStep_clock (hclock : s.threads.clock + 1 < tsMax) (a : CheckpointStep) :
    (checkpointStep s a).threads.clock ≤ s.threads.clock + 1 := by
  by_cases hthread : ∃ a', a = .thread a'
  · obtain ⟨a', rfl⟩ := hthread
    exact (threadStep_clock hclock a').2
  · have horacle := checkpointStep_oracle s fun a' heq => hthread ⟨a', heq⟩
    have hsame : (checkpointStep s a).threads.clock = s.threads.clock :=
      congrArg Oracle.clock horacle
    omega

/-- A database that was used by one thread at a time. -/
theorem Durable.keeps {s : Sys} {snap : Option Snap} (h : Durable s wal snap older id cur)
    (hkeys : s.world.db.ht.OneKey) :
    (Checkpointing.start s.world).Keeps s.world.db.ht.live wal older id cur := by
  refine ⟨⟨h.wal_eq, h.holds, h.quiet, fun r hr => (h.stamps r hr).1,
    ⟨h.sound.oneLive, h.sound.noEmpty, hkeys, h.fits⟩, fun t => trivial, fun t ht => (nomatch ht),
    fun t txn htxn => (nomatch htxn), fun t r hr => (nomatch hr), fun c minTs i hscan =>
    (nomatch hscan), ⟨[], rfl, rfl⟩⟩, fun n hn => ?_, trivial⟩
  have hsnap := h.snapshot
  cases snap with
  | none => exact Or.inl (hsnap n hn)
  | some snap =>
    rcases Snap.In.newest hsnap n hn with hnone | rfl | ⟨id', -, hid⟩
    · exact Or.inl hnone
    · exact Or.inr ⟨snap.id, isSnap_snapName snap.id⟩
    · exact Or.inr ⟨id', hid⟩

/-- What is logged and not applied, or none of it, is the beginning of what is left to apply. -/
theorem Threads.pending_rest (s : Threads) (p : Record → Bool) :
    ∃ left, s.rest = s.pending.filter p ++ left := by
  cases hlock : s.lock with
  | none =>
    refine ⟨[], ?_⟩
    rw [Threads.rest, Threads.pending, hlock]
    rfl
  | some t =>
    rw [Threads.rest_eq hlock, Threads.pending_eq hlock]
    cases s.phase t with
    | logged txn e rest =>
      by_cases hp : p (e.record txn.commitTs) = true
      · exact ⟨_, by rw [Phase.pending, List.filter_cons_of_pos hp]; rfl⟩
      · exact ⟨_, by rw [Phase.pending, List.filter_cons_of_neg hp]; rfl⟩
    | _ => exact ⟨_, rfl⟩

/-- Once the snapshot has its name, it is in the directory and complete. -/
theorem Checkpointing.Keeps.saved (h : s.Keeps base wal older id cur) {ts : ℕ}
    (hsaved : s.stage.saved = some ts) :
    ∃ snapId seen, Cut s.threads.ht s.threads.pending (older.flatMap Prod.snd ++ cur) ts
      s.threads.ht.capacity s.threads.ht.capacity seen ∧
      (⟨snapId, ts, seen⟩ : Snap).In s.threads.world.disk.files := by
  have hkept := h.kept
  cases hstage : s.stage with
  | written ts' snapId =>
    rw [hstage] at hsaved hkept
    cases hsaved
    exact ⟨snapId, hkept.2⟩
  | rotated ts' snapId oldSeg =>
    rw [hstage] at hsaved hkept
    cases hsaved
    exact ⟨snapId, hkept.2⟩
  | trimmed ts' snapId =>
    rw [hstage] at hsaved hkept
    cases hsaved
    exact ⟨snapId, hkept⟩
  | done ts' snapId =>
    rw [hstage] at hsaved hkept
    cases hsaved
    exact ⟨snapId, hkept⟩
  | _ =>
    rw [hstage] at hsaved
    cases hsaved

/-- After a sync, a replay delivers the records of the log, and snapshots are still there. -/
theorem Threads.Serving.delivered_synced {s : Threads} (h : s.Serving base wal older id cur)
    (ts : ℕ) :
    (delivered ts s.syncedFiles).map Record.content =
      ((older.flatMap Prod.snd ++ cur).filter (Record.wanted ts)).map Record.content ∧
    ∀ sn : Snap, sn.In s.world.disk.files → sn.In s.syncedFiles := by
  obtain ⟨hok, hserving, hsame⟩ := h.sync
  have hfiles : s.syncedFiles = (walSync ⟨wal, s.world.disk⟩).2.disk.files := by
    unfold Threads.syncedFiles Sys.syncedFiles
    rw [show (Sys.start s.world).world.db.wal = some wal from h.wal_eq]
    rfl
  rw [hfiles]
  have hlog := hserving.holds.segmentLog ((h.holds.flush true).2 hok)
  refine ⟨?_, fun sn hin => hin.of_same hsame⟩
  rw [show older.flatMap Prod.snd ++ cur = (older ++ [(id, cur)]).flatMap Prod.snd by simp]
  exact hlog.delivered_content ts

/-- Loading the snapshot and replaying the log gives the commits. -/
theorem Checkpointing.Keeps.recovers (h : s.Keeps base wal older id cur) {ts : ℕ}
    (hsaved : s.stage.saved = some ts) (opts : Opts) :
    ∃ loaded recovered maxTs done left,
      snapshotLoad s.threads.syncedFiles opts.stores = (.ok, loaded, ts) ∧
      walReplay ts walReplayCb s.threads.syncedFiles loaded 0 = (.ok, recovered, maxTs) ∧
      recovered.ht.live = updates base done ∧
      commitRecords s.threads.commits = done ++ left ∧ left <:+ s.threads.rest := by
  obtain ⟨snapId, seen, hcut, hin⟩ := h.saved hsaved
  obtain ⟨hcontent, hsnaps⟩ := h.serving.delivered_synced ts
  have hnewest : NewestSnap s.threads.syncedFiles (some ⟨snapId, ts, seen⟩) := hsnaps _ hin
  have hload := hnewest.load opts.stores
  have hreplay := walReplay_of_content hcontent (loaded opts.stores (some ⟨snapId, ts, seen⟩))
  obtain ⟨maxTs, hrc, -⟩ := walReplay_eq ts replayRecord s.threads.syncedFiles
    (loaded opts.stores (some ⟨snapId, ts, seen⟩)) 0
  have hcb : walReplay ts walReplayCb s.threads.syncedFiles
    (loaded opts.stores (some ⟨snapId, ts, seen⟩)) 0 = _ := hrc
  rw [hcb] at hreplay
  -- the recovered map
  have hseen : (loaded opts.stores (some ⟨snapId, ts, seen⟩)).ht.live = seen.live :=
    funext fun key =>
    ((hcut.exports.oneKey.exportable hcut.exports.oneLive).load hcut.exports.oneLive
      hcut.exports.noEmpty
      opts ts key).1
  obtain ⟨done, hdone, hlive⟩ := h.serving.commits
  obtain ⟨left, hleft⟩ := s.threads.pending_rest (Record.wanted ts)
  refine ⟨_, _, maxTs, done ++ s.threads.pending.filter (Record.wanted ts), left, hload, hcb,
    ?_, ?_, ?_⟩
  · show ((replayed ts s.threads.syncedFiles).foldl (fun s r => replayRecord r s)
      (loaded opts.stores (some ⟨snapId, ts, seen⟩))).ht.live = _
    rw [show (replayed ts s.threads.syncedFiles).foldl (fun s r => replayRecord r s)
      (loaded opts.stores (some ⟨snapId, ts, seen⟩)) = _ from hreplay,
      live_foldl_replayRecord, hseen, updates_append, ← hlive]
    exact funext fun key => hcut.replays key (bucketIdx_lt s.threads.ht key)
  · rw [hdone, hleft, List.append_assoc]
  · rw [hleft]
    exact List.suffix_append _ _

end Run

/-- A database has been used by one thread at a time, and then any number of transactions and
collectors run beside checkpoints, step by step. Keys are alone in their buckets. Whenever an
entry is installed in a bucket between the two visits of a checkpoint to it, or after the
first visit by a commit whose timestamp is not later than that of the checkpoint, it leaves the
value of its key as it is. Then the snapshot of a checkpoint loads as soon as it has its name
and from then on, and replaying the log gives the map of all commits, but for entries that
the running commit has not applied yet. -/
theorem checkpoint_keeps_commits {s₀ : Sys} (hserved : Served AfterCheckpoint s₀)
    (hkeys : s₀.world.db.ht.OneKey) (steps : List CheckpointStep)
    (hclock : s₀.clock + steps.length < tsMax)
    (hapart : Permitted checkpointStep InstallsApart (Checkpointing.start s₀.world) steps)
    {s : Checkpointing} (hs : s = exec checkpointStep (Checkpointing.start s₀.world) steps) {ts : ℕ}
    (hsaved : s.stage.saved = some ts) (opts : Opts) :
    ∃ loaded recovered maxTs done left,
      snapshotLoad s.threads.syncedFiles opts.stores = (.ok, loaded, ts) ∧
      walReplay ts walReplayCb s.threads.syncedFiles loaded 0 = (.ok, recovered, maxTs) ∧
      recovered.ht.live = updates s₀.world.db.ht.live done ∧
      commitRecords s.threads.commits = done ++ left ∧ left <:+ s.threads.rest := by
  obtain ⟨wal, snap, older, id, cur, hdurable⟩ := hserved.durable fun _ _ ha => ha
  obtain ⟨⟨wal', older', id', cur', hkeeps⟩, -⟩ := exec_induction
    (I := fun s => ∃ wal older id cur, s.Keeps s₀.world.db.ht.live wal older id cur)
    (fun s => s.threads.clock) (fun s a _ hlt => checkpointStep_clock hlt a)
    (fun s a ⟨wal, older, id, cur, h⟩ hlt hp => h.step hlt hp) steps
    ⟨wal, older, id, cur, hdurable.keeps hkeys⟩ hclock hapart
  rw [← hs] at hkeeps
  exact hkeeps.recovers hsaved opts

/-! ## Three schedules -/

/-- A commit, and a second one that logs its entry between the two visits of a checkpoint. -/
def logsBetween : List CheckpointStep :=
  (commitOf 0 [1] [10]).map .thread ++ [.sync, .readTs, .count] ++
    [ThreadStep.draw 1 false, .claim 1, .put 1 [1] (some [20]), .check 1, .drawCommit 1,
      .append 1].map .thread ++
    [.create secondId, .write]

/-- The entry is installed before the file has its name. -/
def installsAfter : List CheckpointStep :=
  [.thread (.install 1), .thread (.unlock 1), .rename, .rotate thirdId, .trimLog, .trimSnapshots]

/-- The condition on an entry that is known. -/
theorem InstallsApart.of_phase {s : Checkpointing} {t : ℕ} {txn : Txn} {e : WriteEntry}
    {rest : List WriteEntry} (hphase : s.threads.phase t = .logged txn e rest)
    (h : (∀ v ∈ s.threads.ht.chain e.key, v.key = e.key) ∧
      (s.stage.Misses (bucketIdx s.threads.ht e.key) txn.commitTs →
        s.threads.ht.live e.key = sliceDup e.value)) : InstallsApart s (.thread (.install t)) := by
  intro txn' e' rest' hphase'
  rw [hphase] at hphase'
  cases hphase'
  exact h

/-- The schedule meets the condition. -/
theorem logsBetween_apart : Permitted checkpointStep InstallsApart (Checkpointing.start newWorld)
    (logsBetween ++ installsAfter) := by
  have hfirst : InstallsApart (exec checkpointStep (Checkpointing.start newWorld)
    (logsBetween.take 7))
      (.thread (.install 0)) := by
    have hphase : (exec checkpointStep (Checkpointing.start newWorld)
      (logsBetween.take 7)).threads.phase 0 =
        .logged { newTxn false 1 (some 0) with
          commitTs := 2, writes := [⟨[1], some [10]⟩], writeCount := 1 } ⟨[1], some [10]⟩ [] := by
      decide +kernel
    exact .of_phase hphase (by decide +kernel)
  have hsecond : InstallsApart (exec checkpointStep (Checkpointing.start newWorld) logsBetween)
      (.thread (.install 1)) := by
    have hphase : (exec checkpointStep (Checkpointing.start newWorld) logsBetween).threads.phase 1 =
        .logged { newTxn false 3 (some 0) with
          commitTs := 4, writes := [⟨[1], some [20]⟩], writeCount := 1 } ⟨[1], some [20]⟩ [] := by
      decide +kernel
    exact .of_phase hphase (by decide +kernel)
  have hcreate : NamesGrow (exec checkpointStep (Checkpointing.start newWorld)
      (logsBetween.take 19)).threads.world.disk.files secondId secondId :=
    .of_keys [firstId] (by decide +kernel) (by decide)
  have hrotate : NamesGrow (exec checkpointStep (Checkpointing.start newWorld)
      (logsBetween ++ installsAfter.take 3)).threads.world.disk.files thirdId thirdId :=
    .of_keys [firstId, secondId] (by decide +kernel) (by decide)
  exact ⟨trivial, trivial, trivial, trivial, trivial, trivial, trivial, hfirst, trivial, trivial,
    trivial,
    trivial, trivial, trivial, trivial, trivial, trivial, trivial, trivial, hcreate.snapshots,
    trivial, hsecond, trivial, trivial, hrotate.segments, trivial, trivial, trivial⟩

/-- The snapshot has the first value, and the log has the second. -/
theorem checkpoint_keeps_commits_overlapping : ∃ loaded recovered maxTs,
    snapshotLoad (exec checkpointStep (Checkpointing.start newWorld)
      (logsBetween ++ installsAfter)).threads.syncedFiles oneBucket.stores = (.ok, loaded, 3) ∧
    loaded.ht.live [1] = some [10] ∧
    walReplay 3 walReplayCb (exec checkpointStep (Checkpointing.start newWorld)
      (logsBetween ++ installsAfter)).threads.syncedFiles loaded 0 = (.ok, recovered, maxTs) ∧
    recovered.ht.live [1] = some [20] := by
  have hkeys : newWorld.db.ht.OneKey := by
    intro chain hchain v hv
    rw [List.eq_of_mem_replicate hchain] at hv
    cases hv
  have hsaved : (exec checkpointStep (Checkpointing.start newWorld)
      (logsBetween ++ installsAfter)).stage.saved = some 3 := by decide +kernel
  have hrest : (exec checkpointStep (Checkpointing.start newWorld)
      (logsBetween ++ installsAfter)).threads.rest = [] := by decide +kernel
  obtain ⟨loaded, recovered, maxTs, done, left, hload, hreplay, hlive, hcommits, hleft⟩ :=
    checkpoint_keeps_commits (.created rfl newWorld_opened) hkeys (logsBetween ++ installsAfter)
      (by decide +kernel) logsBetween_apart
      (s := exec checkpointStep (Checkpointing.start newWorld) (logsBetween ++ installsAfter))
      rfl hsaved
      oneBucket
  rw [hrest] at hleft
  rw [List.suffix_nil.mp hleft, List.append_nil] at hcommits
  refine ⟨loaded, recovered, maxTs, hload, ?_, hreplay, ?_⟩
  · rw [show loaded = (snapshotLoad (exec checkpointStep (Checkpointing.start newWorld)
      (logsBetween ++ installsAfter)).threads.syncedFiles oneBucket.stores).2.1 by rw [hload]]
    decide +kernel
  · rw [hlive, ← hcommits]
    decide +kernel

/-- A commit draws its timestamp and installs its entry after the snapshot has its name. -/
def installsLate : List CheckpointStep :=
  [ThreadStep.draw 0 false, .claim 0, .put 0 [1] (some [10]), .check 0,
    .drawCommit 0].map .thread ++
  [.sync, .readTs, .count, .create secondId, .write, .rename] ++
  [ThreadStep.append 0, .install 0, .unlock 0].map .thread ++
  [.rotate thirdId, .trimLog, .trimSnapshots]

/-- A commit between the two visits. -/
def installsBetween : List CheckpointStep :=
  (commitOf 0 [1] [10]).map .thread ++ [.sync, .readTs, .count] ++
  (commitOf 1 [1] [20]).map .thread ++
  [.create secondId, .write, .rename, .rotate thirdId, .trimLog, .trimSnapshots]

/-- In the first schedule the commit returns without an error, and its entry is neither in the
snapshot nor replayed. In the second the snapshot does not load. -/
theorem commit_beside_checkpoint_is_lost :
    ((exec checkpointStep (Checkpointing.start newWorld) installsLate).stage.saved = some 3 ∧
      (exec checkpointStep (Checkpointing.start newWorld) installsLate).threads.phase 0 =
        .closing { newTxn false 1 (some 0) with
          commitTs := 2, writes := [⟨[1], some [10]⟩], writeCount := 1 } (some .ok) ∧
      (snapshotLoad (exec checkpointStep (Checkpointing.start newWorld)
        installsLate).threads.syncedFiles
        oneBucket.stores).1 = .ok ∧
      (walReplay 3 walReplayCb
        (exec checkpointStep (Checkpointing.start newWorld) installsLate).threads.syncedFiles
        (snapshotLoad (exec checkpointStep (Checkpointing.start newWorld)
          installsLate).threads.syncedFiles
          oneBucket.stores).2.1 0).2.1.ht.live [1] = none) ∧
    (exec checkpointStep (Checkpointing.start newWorld) installsBetween).stage.saved = some 3 ∧
      (snapshotLoad (exec checkpointStep (Checkpointing.start newWorld)
        installsBetween).threads.syncedFiles oneBucket.stores).1 = .corrupt := by
  decide +kernel

end FastKV
