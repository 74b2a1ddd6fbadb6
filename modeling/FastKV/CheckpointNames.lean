import FastKV.Checkpoint
import FastKV.Soundness

/-!
# The files after a checkpoint

Which files there are once a checkpoint has succeeded, whatever the names it was given and
whichever of the removals fail. Writing to files does not change which there are, so the only
steps that matter are the renaming of the snapshot, the opening of the new segment and the two
trims, each of which removes names below a bound.
-/

namespace FastKV

open Lib

/-! ## Writing keeps the names -/

/-- The same files. -/
def Disk.SameNames (d d' : Disk) : Prop := ∀ n, n ∈ d'.files ↔ n ∈ d.files

/-- The same files and the same current segment. -/
structure Log.SameFiles (s s' : Log) : Prop where
  /-- The current segment. -/
  segment : s'.wal.segmentId = s.wal.segmentId
  /-- The files. -/
  names : s.disk.SameNames s'.disk

/-- The same files and the same current segment, if there is a log. -/
structure World.SameFiles (w w' : World) : Prop where
  /-- The current segment. -/
  segment : w'.db.wal.map Wal.segmentId = w.db.wal.map Wal.segmentId
  /-- The files. -/
  names : w.disk.SameNames w'.disk

/-- Directories have the names they have. -/
theorem Disk.SameNames.refl (d : Disk) : d.SameNames d := fun _ => Iff.rfl

/-- One after the other. -/
theorem Disk.SameNames.trans {d d' d'' : Disk} (h : d.SameNames d') (h' : d'.SameNames d'') :
    d.SameNames d'' := fun n => (h' n).trans (h n)

/-- Nothing has happened. -/
theorem Log.SameFiles.refl (s : Log) : s.SameFiles s := ⟨rfl, .refl _⟩

/-- One after the other. -/
theorem Log.SameFiles.trans {s s' s'' : Log} (h : s.SameFiles s') (h' : s'.SameFiles s'') :
    s.SameFiles s'' := ⟨h'.segment.trans h.segment, h.names.trans h'.names⟩

/-- Nothing has happened. -/
theorem World.SameFiles.refl (w : World) : w.SameFiles w := ⟨rfl, .refl _⟩

/-- One after the other. -/
theorem World.SameFiles.trans {w w' w'' : World} (h : w.SameFiles w') (h' : w'.SameFiles w'') :
    w.SameFiles w'' := ⟨h'.segment.trans h.segment, h.names.trans h'.names⟩

/-- A write changes the contents of a file that is there. -/
theorem mem_applyOp_pwrite (files : Files) (name : Name) (offset : ℕ) (data : Bytes) (n : Name) :
    n ∈ applyOp files (.pwrite name offset data) ↔ n ∈ files := by
  simp only [applyOp]
  split
  · rename_i old hold
    rw [AList.mem_insert]
    constructor
    · rintro (rfl | hn)
      · exact AList.lookup_isSome.mp (by rw [hold]; rfl)
      · exact hn
    · exact Or.inr
  · rfl

/-- `fastkv_io_pwrite`. -/
theorem ioPwrite_sameNames (d : Disk) (name : Name) (data : Bytes) (offset : ℕ) :
    d.SameNames (ioPwrite d name data offset).2 := by
  intro n
  unfold ioPwrite Disk.answer
  cases d.outcomes.headD .done with
  | done => exact mem_applyOp_pwrite _ _ _ _ n
  | short m =>
    simp only
    split
    · rfl
    · exact mem_applyOp_pwrite _ _ _ _ n
  | error => rfl

/-- `fastkv_io_sync`. -/
theorem ioSync_sameNames (d : Disk) : d.SameNames (ioSync d).2 := by
  intro n
  unfold ioSync Disk.answer
  cases d.outcomes.headD .done <;> rfl

/-- `flush_buf`. -/
theorem flushBuf_sameFiles (sync : Bool) (s : Log) : s.SameFiles (flushBuf sync s).2 := by
  have hdata : s.SameFiles (flushData s).2 := by
    unfold flushData
    split
    · exact .refl s
    · split
      · exact .refl s
      · rename_i name hname
        have hnames := ioPwrite_sameNames s.disk name s.wal.buf s.wal.fileOffset
        simp only
        split <;> exact ⟨rfl, hnames⟩
  unfold flushBuf
  simp only
  split
  · split
    · split
      · exact hdata
      · exact ⟨hdata.segment, hdata.names.trans (ioSync_sameNames _)⟩
    · exact hdata
  · exact hdata

/-- `wal_write_buf`, field by field. -/
theorem writeFields_sameFiles (fields : List Bytes) : ∀ s : Log,
    s.SameFiles (writeFields fields s).2 := by
  induction fields with
  | nil => exact fun s => .refl s
  | cons field fields ih =>
    intro s
    have hfirst : s.SameFiles (walWriteBuf field s).2 :=
      walBuffer.write_keeps (P := fun s' => s.SameFiles s')
        (fun d s' h => ⟨h.segment, h.names⟩)
        (fun s' h => h.trans (flushBuf_sameFiles false s')) field.length field s (.refl s)
    unfold writeFields
    simp only
    split
    · exact hfirst.trans (ih _)
    · exact hfirst

/-- `fastkv_wal_append`. -/
theorem walAppend_sameFiles (r : Record) (s : Log) : s.SameFiles (walAppend r s).2 := by
  have hfields := writeFields_sameFiles r.frame.fields s
  have hrecorded : s.SameFiles { (writeFields r.frame.fields s).2 with
      wal := (writeFields r.frame.fields s).2.wal.recorded r } := ⟨hfields.segment, hfields.names⟩
  unfold walAppend
  simp only
  split
  · split
    · exact hrecorded.trans (flushBuf_sameFiles true _)
    · exact hrecorded
  · exact hfields

/-- `fastkv_db_apply_write_set`. -/
theorem dbApplyWriteSet_sameFiles (commitTs : ℕ) (es : List WriteEntry) : ∀ w : World,
    w.SameFiles (dbApplyWriteSet commitTs es w).2 := by
  induction es with
  | nil => exact fun w => .refl w
  | cons e es ih =>
    intro w
    have hlog : w.SameFiles (logEntry w e commitTs).2 := by
      unfold logEntry
      split
      · exact .refl w
      · rename_i wal hwal
        have happend := walAppend_sameFiles (e.record commitTs) ⟨wal, w.disk⟩
        refine ⟨?_, happend.names⟩
        rw [hwal]
        exact congrArg some happend.segment
    unfold dbApplyWriteSet
    simp only
    split
    · have happly : w.SameFiles { (logEntry w e commitTs).2 with
          db := applyEntry (logEntry w e commitTs).2.db e commitTs } := by
        refine ⟨?_, hlog.names⟩
        rw [show (applyEntry (logEntry w e commitTs).2.db e commitTs).wal =
          (logEntry w e commitTs).2.db.wal by unfold applyEntry; cases e.value <;> rfl]
        exact hlog.segment
      exact happly.trans (ih _)
    · exact hlog

/-- `fastkv_txn_commit`. -/
theorem txnCommit_sameFiles (w : World) (txn : Txn) : w.SameFiles (txnCommit w txn).2.1 := by
  rcases txnCommit_cases w txn with ⟨-, mgr, -, heq⟩ | ⟨-, -, -, mgr, -, heq⟩
  · rw [heq]
    exact ⟨rfl, .refl _⟩
  · rw [heq]
    have happly := dbApplyWriteSet_sameFiles w.db.clock txn.writes w.drawn
    exact ⟨happly.segment, happly.names⟩

/-- `fastkv_delete`. -/
theorem fastkvDelete_sameFiles (w : World) (key : Bytes) : w.SameFiles (fastkvDelete w key).2 := by
  unfold fastkvDelete singleWrite
  split
  · exact .refl w
  · rename_i txn db hbegin
    obtain ⟨-, -, -, -, -, -, -, hwal⟩ := txnBegin_spec hbegin
    have hfirst : w.SameFiles { w with db } := ⟨by rw [hwal], .refl _⟩
    simp only
    split
    · exact hfirst.trans (txnCommit_sameFiles _ _)
    · obtain ⟨-, -, -, habort, hdisk⟩ := ({ w with db } : World).abort_db (txnDelete txn key).2
      refine hfirst.trans ⟨by rw [habort], ?_⟩
      rw [hdisk]
      exact .refl _

/-- The last steps of a checkpoint. -/
theorem checkpointMemory_sameFiles (w : World) (now : ℕ) :
    w.SameFiles (checkpointMemory w now) := by
  have hexpire : w.SameFiles (ttlExpire w now) :=
    ttlExpire_induction (P := fun _ w' => w.SameFiles w') (fun _ _ _ h => h)
      (fun pk _ w' h _ => h.trans (fastkvDelete_sameFiles w' pk)) (.refl w)
  exact ⟨hexpire.segment, hexpire.names⟩

/-! ## The steps that change them -/

/-- `fastkv_io_open` adds its file. -/
theorem ioOpen_names {d : Disk} {name : Name} (h : (ioOpen d name).1 = .ok) (n : Name) :
    n ∈ (ioOpen d name).2.files ↔ n = name ∨ n ∈ d.files := by
  rw [show (ioOpen d name).2.files = _ from Disk.files_of_call_ok h]
  simp only [applyOp]
  split
  · rename_i hmem
    constructor
    · exact Or.inr
    · rintro (rfl | hn)
      · exact hmem
      · exact hn
  · rw [AList.mem_insert]

/-- `rename` replaces one name by another. -/
theorem ioRename_names {d : Disk} {old new : Name} (h : (ioRename d old new).1 = .ok)
    (hold : old ∈ d.files) (n : Name) :
    n ∈ (ioRename d old new).2.files ↔ n = new ∨ n ≠ old ∧ n ∈ d.files := by
  obtain ⟨data, hdata⟩ := Option.isSome_iff_exists.mp (AList.lookup_isSome.mpr hold)
  rw [show (ioRename d old new).2.files = _ from Disk.files_of_call_ok h]
  simp only [applyOp, hdata]
  rw [AList.mem_insert, AList.mem_erase]

/-- `snap_flush`. -/
theorem snapFlush_sameNames (sw : SnapWriter) : sw.disk.SameNames (snapFlush sw).disk := by
  unfold snapFlush
  split
  · exact .refl _
  · have hnames := ioPwrite_sameNames sw.disk sw.name sw.buf sw.offset
    simp only
    split <;> exact hnames

/-- `snap_write`. -/
theorem foldl_snapWrite_sameNames (fields : List Bytes) : ∀ sw : SnapWriter,
    sw.disk.SameNames (fields.foldl snapWrite sw).disk := by
  induction fields with
  | nil => exact fun sw => .refl _
  | cons field fields ih =>
    intro sw
    have hfirst : sw.disk.SameNames (snapWrite sw field).disk := by
      unfold snapWrite
      split
      · exact .refl _
      · exact snapBuffer.write_keeps (P := fun sw' => sw.disk.SameNames sw'.disk)
          (fun _ _ h => h) (fun sw' h => h.trans (snapFlush_sameNames sw')) field.length field sw
          (.refl _)
    rw [List.foldl_cons]
    exact hfirst.trans (ih _)

/-- A snapshot that was written replaces its temporary file. -/
theorem snapshotWrite_names {ht : Ht} {ts : ℕ} {id : Uuid} {d : Disk}
    (h : (snapshotWrite ht ts id d).1 = .ok) (n : Name) :
    n ∈ (snapshotWrite ht ts id d).2.files ↔
      n = snapName id.hex ∨ n ≠ snapTmpName id.hex ∧ n ∈ d.files := by
  unfold snapshotWrite at h ⊢
  simp only at h ⊢
  split at h
  · rename_i hfail
    exact absurd h hfail
  · rename_i hopen
    rw [if_neg hopen]
    have hcreate := ioOpen_names (not_not.mp hopen)
    generalize (ioOpen d (snapTmpName id.hex)).2 = d₁ at h hcreate ⊢
    have hwrite : d₁.SameNames (snapFlush ((snapshotFields ts ht).foldl snapWrite
        ⟨snapTmpName id.hex, [], 0, .ok, d₁⟩)).disk :=
      (foldl_snapWrite_sameNames _ _).trans (snapFlush_sameNames _)
    generalize snapFlush ((snapshotFields ts ht).foldl snapWrite
      ⟨snapTmpName id.hex, [], 0, .ok, d₁⟩) = sw at h hwrite ⊢
    have hsync : d₁.SameNames (if sw.err = .ok then ioSync sw.disk else (sw.err, sw.disk)).2 := by
      split
      · exact hwrite.trans (ioSync_sameNames _)
      · exact hwrite
    generalize (if sw.err = .ok then ioSync sw.disk else (sw.err, sw.disk)) = r at h hsync ⊢
    split at h
    · rename_i hfail
      exact absurd h hfail
    · rename_i hdone
      rw [if_neg hdone]
      split at h
      · cases h
      · rename_i hrename
        rw [if_neg hrename]
        have htmp : snapTmpName id.hex ∈ r.2.files :=
          (hsync _).mpr ((hcreate _).mpr (Or.inl rfl))
        show n ∈ (ioRename r.2 (snapTmpName id.hex) (snapName id.hex)).2.files ↔ _
        rw [ioRename_names (not_not.mp hrename) htmp, hsync n, hcreate n]
        constructor
        · rintro (hn | ⟨hne, hn⟩)
          · exact Or.inl hn
          · exact Or.inr ⟨hne, hn.resolve_left hne⟩
        · rintro (hn | ⟨hne, hn⟩)
          · exact Or.inl hn
          · exact Or.inr ⟨hne, Or.inr hn⟩

/-- A rotation adds the new segment. -/
theorem walRotate_names {fresh : Uuid} {s : Log} (h : (walRotate fresh s).1 = .ok) :
    (walRotate fresh s).2.wal.segmentId = fresh.hex ∧
      ∀ n, n ∈ (walRotate fresh s).2.disk.files ↔ n = segName fresh.hex ∨ n ∈ s.disk.files := by
  have hflush := (flushBuf_sameFiles true s).names
  unfold walRotate at h ⊢
  simp only at h ⊢
  split at h
  · rename_i hok
    rw [if_pos hok]
    refine ⟨rfl, fun n => ?_⟩
    rw [← hflush n]
    exact ioOpen_names hok n
  · rename_i hfail
    exact absurd h hfail

/-- Removals take away nothing else. -/
theorem foldl_ioRemove_names {α : Type} (name : α → Name) (xs : List α) : ∀ (d : Disk) (n : Name),
    (n ∈ (xs.foldl (fun d x => (ioRemove d (name x)).2) d).files → n ∈ d.files) ∧
      (n ∈ d.files → (∀ x ∈ xs, n ≠ name x) →
        n ∈ (xs.foldl (fun d x => (ioRemove d (name x)).2) d).files) := by
  induction xs with
  | nil => exact fun d n => ⟨fun h => h, fun h _ => h⟩
  | cons x xs ih =>
    intro d n
    have hone : (n ∈ (ioRemove d (name x)).2.files → n ∈ d.files) ∧
        (n ∈ d.files → n ≠ name x → n ∈ (ioRemove d (name x)).2.files) := by
      rcases d.call_cases (.remove (name x)) with heq | heq
      · rw [ioRemove, heq]
        refine ⟨fun hn => (AList.mem_erase.mp hn).2, fun hn hne => AList.mem_erase.mpr ⟨hne, hn⟩⟩
      · rw [ioRemove, heq]
        exact ⟨fun h => h, fun h _ => h⟩
    obtain ⟨hsub, hkeep⟩ := ih (ioRemove d (name x)).2 n
    rw [List.foldl_cons]
    exact ⟨fun hn => hone.1 (hsub hn), fun hn hne => hkeep
      (hone.2 hn (hne x List.mem_cons_self)) fun y hy => hne y (List.mem_cons_of_mem _ hy)⟩

/-- `fastkv_wal_trim` removes segments below a bound. -/
theorem walTrim_names (keepFrom : Name) (d : Disk) (n : Name) :
    (n ∈ (walTrim keepFrom d).files → n ∈ d.files) ∧
      (n ∈ d.files → (∀ id, id < keepFrom → n ≠ segName id) → n ∈ (walTrim keepFrom d).files) := by
  obtain ⟨hsub, hkeep⟩ := foldl_ioRemove_names segName
    ((collectSegments d.files).filter fun id => decide (id < keepFrom)) d n
  refine ⟨hsub, fun hn hne => hkeep hn fun id hid => hne id ?_⟩
  exact of_decide_eq_true (List.mem_filter.mp hid).2

/-- `fastkv_snapshot_trim` removes snapshots below a bound. -/
theorem snapshotTrim_names (keep : Name) (d : Disk) (n : Name) :
    (n ∈ (snapshotTrim keep d).files → n ∈ d.files) ∧
      (n ∈ d.files → (∀ hex, matchName snapPfx snapSfx n = some hex → ¬ hex.take idLen < keep) →
        n ∈ (snapshotTrim keep d).files) := by
  obtain ⟨hsub, hkeep⟩ := foldl_ioRemove_names (fun n => n) (d.files.keys.filter fun name =>
    ((matchName snapPfx snapSfx name).any fun hex => decide (hex.take idLen < keep))) d n
  refine ⟨hsub, fun hn hne => hkeep hn fun m hm => ?_⟩
  rintro rfl
  obtain ⟨hex, hhex, hlt⟩ := (Option.any_eq_true _ _).mp (List.mem_filter.mp hm).2
  exact hne hex hhex (of_decide_eq_true hlt)

/-! ## A checkpoint -/

/-- The files after a checkpoint that succeeded. -/
structure Checkpointed (old : Name) (snapId segId : Uuid) (w w' : World) : Prop where
  /-- The current segment. -/
  segment : ∃ wal, w'.db.wal = some wal ∧ wal.segmentId = segId.hex
  /-- Which files there can be. -/
  only : ∀ n ∈ w'.disk.files, n = snapName snapId.hex ∨ n = segName segId.hex ∨
    n ≠ snapTmpName snapId.hex ∧ n ∈ w.disk.files
  /-- Which files there are in any case: those that neither of the trims removes. -/
  kept : ∀ n, n = snapName snapId.hex ∨ n = segName segId.hex ∨
      n ≠ snapTmpName snapId.hex ∧ n ∈ w.disk.files →
    (∀ id, id < old → n ≠ segName id) →
    (∀ hex, matchName snapPfx snapSfx n = some hex → ¬ hex.take idLen < snapId.hex) →
      n ∈ w'.disk.files

/-- `fastkv_checkpoint`. -/
theorem fastkvCheckpoint_names {w : World} {wal : Wal} {snapId segId : Uuid} {now : ℕ}
    (hwal : w.db.wal = some wal) (h : (fastkvCheckpoint w snapId segId now).1 = .ok) :
    Checkpointed wal.segmentId snapId segId w (fastkvCheckpoint w snapId segId now).2 := by
  have hsync : Log.SameFiles ⟨wal, w.disk⟩ (walSync ⟨wal, w.disk⟩).2 := flushBuf_sameFiles true _
  unfold fastkvCheckpoint at h ⊢
  simp only [hwal] at h ⊢
  generalize walSync ⟨wal, w.disk⟩ = r at h hsync ⊢
  obtain ⟨rc, log⟩ := r
  simp only at h hsync ⊢
  split at h
  · rename_i hfail
    exact absurd h hfail
  · rename_i hdone
    rw [if_neg hdone]
    split at h
    · rename_i hfail
      exact absurd h hfail
    · rename_i hsnap
      rw [if_neg hsnap]
      have hnames := snapshotWrite_names (not_not.mp hsnap)
      generalize (snapshotWrite w.db.ht (oracleNow w.db.txnMgr.oracle) snapId log.disk).2 = disk
        at h hnames ⊢
      split at h
      · rename_i hfail
        exact absurd h hfail
      · rename_i hrotate
        rw [if_neg hrotate]
        obtain ⟨hsegment, hrotated⟩ := walRotate_names (not_not.mp hrotate)
        generalize (walRotate segId ⟨log.wal, disk⟩).2 = log' at hsegment hrotated ⊢
        have hmemory := checkpointMemory_sameFiles ⟨{ w.db with wal := some log'.wal },
          snapshotTrim snapId.hex (walTrim log.wal.segmentId log'.disk)⟩ now
        rw [show log.wal.segmentId = wal.segmentId from hsync.segment] at hmemory ⊢
        generalize checkpointMemory ⟨{ w.db with wal := some log'.wal },
          snapshotTrim snapId.hex (walTrim wal.segmentId log'.disk)⟩ now = w' at hmemory ⊢
        have hbefore : ∀ n, n ∈ log'.disk.files ↔ n = snapName snapId.hex ∨
            n = segName segId.hex ∨ n ≠ snapTmpName snapId.hex ∧ n ∈ w.disk.files := by
          intro n
          rw [hrotated n, hnames n, hsync.names n]
          exact or_left_comm
        refine ⟨?_, fun n hn => ?_, fun n hn hseg hsnap => ?_⟩
        · have hcurrent : w'.db.wal.map Wal.segmentId = some segId.hex :=
            hmemory.segment.trans (congrArg some hsegment)
          exact Option.map_eq_some_iff.mp hcurrent
        · have htrimmed := ((snapshotTrim_names _ _ n).1 ((hmemory.names n).mp hn))
          exact (hbefore n).mp ((walTrim_names _ _ n).1 htrimmed)
        · refine (hmemory.names n).mpr ((snapshotTrim_names _ _ n).2 ?_ hsnap)
          exact (walTrim_names _ _ n).2 ((hbefore n).mpr hn) hseg

/-! ## A checkpoint that may fail -/

/-- Where files come from: those of a directory, and some new names. -/
def Disk.AddsOnly (names : List Name) (d d' : Disk) : Prop :=
  ∀ n ∈ d'.files, n ∈ names ∨ n ∈ d.files

/-- One after the other. -/
theorem Disk.AddsOnly.trans {names names' : List Name} {d d' d'' : Disk}
    (h : d.AddsOnly names d') (h' : d'.AddsOnly names' d'') :
    d.AddsOnly (names ++ names') d'' := by
  intro n hn
  rcases h' n hn with hnew | hn
  · exact Or.inl (List.mem_append_right _ hnew)
  · exact (h n hn).imp_left (List.mem_append_left _)

/-- Writing adds nothing. -/
theorem Disk.SameNames.addsOnly {d d' : Disk} (h : d.SameNames d') (names : List Name) :
    d.AddsOnly names d' := fun n hn => Or.inr ((h n).mp hn)

/-- Fewer names are allowed. -/
theorem Disk.AddsOnly.mono {names names' : List Name} {d d' : Disk} (h : d.AddsOnly names d')
    (hsub : names ⊆ names') : d.AddsOnly names' d' :=
  fun n hn => (h n hn).imp_left fun hm => hsub hm

/-- `fastkv_io_open`, which may fail. -/
theorem ioOpen_addsOnly (d : Disk) (name : Name) : d.AddsOnly [name] (ioOpen d name).2 := by
  intro n hn
  rcases d.call_cases (.create name) with heq | heq
  · have hok : (ioOpen d name).1 = .ok := congrArg Prod.fst heq
    exact ((ioOpen_names hok n).mp hn).imp_left fun h => by simp [h]
  · rw [ioOpen, heq] at hn
    exact Or.inr hn

/-- `rename`, which may fail. -/
theorem ioRename_addsOnly (d : Disk) (old new : Name) :
    d.AddsOnly [new] (ioRename d old new).2 := by
  intro n hn
  rcases d.call_cases (.rename old new) with heq | heq
  · rw [ioRename, heq] at hn
    simp only [Disk.perform, applyOp] at hn
    split at hn
    · rw [AList.mem_insert, AList.mem_erase] at hn
      exact hn.imp (fun h => by simp [h]) And.right
    · exact Or.inr hn
  · rw [ioRename, heq] at hn
    exact Or.inr hn

/-- `remove` adds nothing. -/
theorem ioRemove_addsOnly (d : Disk) (name : Name) (names : List Name) :
    d.AddsOnly names (ioRemove d name).2 := by
  intro n hn
  exact Or.inr ((foldl_ioRemove_names (fun n => n) [name] d n).1 hn)

/-- `fastkv_snapshot_write`, which may fail. -/
theorem snapshotWrite_addsOnly (ht : Ht) (ts : ℕ) (id : Uuid) (d : Disk) :
    d.AddsOnly [snapTmpName id.hex, snapName id.hex] (snapshotWrite ht ts id d).2 := by
  have hcreate := ioOpen_addsOnly d (snapTmpName id.hex)
  unfold snapshotWrite
  simp only
  split
  · exact hcreate.mono (by simp)
  · generalize (ioOpen d (snapTmpName id.hex)).2 = d₁ at hcreate ⊢
    have hwrite : d₁.SameNames (snapFlush ((snapshotFields ts ht).foldl snapWrite
        ⟨snapTmpName id.hex, [], 0, .ok, d₁⟩)).disk :=
      (foldl_snapWrite_sameNames _ _).trans (snapFlush_sameNames _)
    generalize snapFlush ((snapshotFields ts ht).foldl snapWrite
      ⟨snapTmpName id.hex, [], 0, .ok, d₁⟩) = sw at hwrite ⊢
    have hsync : d₁.SameNames (if sw.err = .ok then ioSync sw.disk else (sw.err, sw.disk)).2 := by
      split
      · exact hwrite.trans (ioSync_sameNames _)
      · exact hwrite
    generalize (if sw.err = .ok then ioSync sw.disk else (sw.err, sw.disk)) = r at hsync ⊢
    have hwritten : d.AddsOnly [snapTmpName id.hex] r.2 := hcreate.trans (hsync.addsOnly [])
    split
    · exact (hwritten.trans (ioRemove_addsOnly r.2 _ [])).mono (by simp)
    · have hrename := hwritten.trans (ioRename_addsOnly r.2 (snapTmpName id.hex) (snapName id.hex))
      split
      · exact (hrename.trans (ioRemove_addsOnly _ _ [])).mono (by simp)
      · exact hrename

/-- `fastkv_wal_rotate`, which may fail; the handle has the new identifier in any case. -/
theorem walRotate_addsOnly (fresh : Uuid) (s : Log) :
    (walRotate fresh s).2.wal.segmentId = fresh.hex ∧
      s.disk.AddsOnly [segName fresh.hex] (walRotate fresh s).2.disk := by
  have hflush := (flushBuf_sameFiles true s).names.addsOnly []
  have hopen := hflush.trans (ioOpen_addsOnly (flushBuf true s).2.disk (segName fresh.hex))
  unfold walRotate
  simp only
  split <;> exact ⟨rfl, hopen⟩

/-- The names that a checkpoint uses. -/
def checkpointNames (snapId segId : Uuid) : List Name :=
  [snapTmpName snapId.hex, snapName snapId.hex, segName segId.hex]

/-- `fastkv_checkpoint`, whatever it returns: it adds files under its own names only, and the
current segment stays or becomes the new one. -/
theorem fastkvCheckpoint_addsOnly (w : World) (snapId segId : Uuid) (now : ℕ) :
    w.disk.AddsOnly (checkpointNames snapId segId) (fastkvCheckpoint w snapId segId now).2.disk ∧
      ∀ wal' ∈ (fastkvCheckpoint w snapId segId now).2.db.wal, wal'.segmentId = segId.hex ∨
        ∃ wal ∈ w.db.wal, wal'.segmentId = wal.segmentId := by
  unfold fastkvCheckpoint
  split
  · rename_i hwal
    exact ⟨fun n hn => Or.inr hn, fun wal' hwal' => Or.inr ⟨wal', hwal', rfl⟩⟩
  · rename_i wal hwal
    have hsync : Log.SameFiles ⟨wal, w.disk⟩ (walSync ⟨wal, w.disk⟩).2 := flushBuf_sameFiles true _
    simp only
    generalize walSync ⟨wal, w.disk⟩ = r at hsync ⊢
    obtain ⟨rc, log⟩ := r
    have hstays : ∀ wal' ∈ some log.wal, wal'.segmentId = segId.hex ∨
        ∃ wal ∈ w.db.wal, wal'.segmentId = wal.segmentId := by
      intro wal' hwal'
      cases hwal'
      exact Or.inr ⟨wal, hwal, hsync.segment⟩
    simp only
    split
    · exact ⟨hsync.names.addsOnly _, hstays⟩
    · have hsnap := (hsync.names.addsOnly []).trans
        (snapshotWrite_addsOnly w.db.ht (oracleNow w.db.txnMgr.oracle) snapId log.disk)
      generalize snapshotWrite w.db.ht (oracleNow w.db.txnMgr.oracle) snapId log.disk = snap
        at hsnap ⊢
      split
      · exact ⟨hsnap.mono (by simp [checkpointNames]), hstays⟩
      · obtain ⟨hsegment, hrotate⟩ := walRotate_addsOnly segId ⟨log.wal, snap.2⟩
        have hadds := hsnap.trans hrotate
        generalize walRotate segId ⟨log.wal, snap.2⟩ = rotated at hsegment hadds ⊢
        have hmoves : ∀ wal' ∈ some rotated.2.wal, wal'.segmentId = segId.hex ∨
            ∃ wal ∈ w.db.wal, wal'.segmentId = wal.segmentId := by
          intro wal' hwal'
          cases hwal'
          exact Or.inl hsegment
        split
        · exact ⟨hadds, hmoves⟩
        · have hmemory := checkpointMemory_sameFiles ⟨{ w.db with wal := some rotated.2.wal },
            snapshotTrim snapId.hex (walTrim log.wal.segmentId rotated.2.disk)⟩ now
          refine ⟨fun n hn => ?_, fun wal' hwal' => ?_⟩
          · have htrimmed := (snapshotTrim_names _ _ n).1 ((hmemory.names n).mp hn)
            exact hadds n ((walTrim_names _ _ n).1 htrimmed)
          · left
            have hid := hmemory.segment
            rw [show _ = some wal' from hwal'] at hid
            exact (Option.some.inj hid).trans hsegment

end FastKV
