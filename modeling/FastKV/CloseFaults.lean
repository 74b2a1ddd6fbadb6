import FastKV.Killed
import FastKV.LogFaults

/-!
# Failures while a database is closed

Any call to the operating system may fail during a checkpoint or while a database is closed,
and any write may be cut short. A snapshot that is not complete is removed again under its
temporary name, and nothing else is removed before a snapshot has its final name. So nothing
is lost that was safe before, unless the temporary file cannot be removed.
-/

namespace FastKV

open Lib

/-! ## Writing a snapshot -/

/-- A snapshot writer at work, as long as nothing has failed. Only its file changes. -/
structure SnapWriter.Writing (d₀ : Disk) (name : Name) (sw : SnapWriter) : Prop where
  /-- The open file. -/
  name_eq : sw.name = name
  /-- The file is written up to the offset. -/
  file : sw.err = .ok →
    ∃ stored, sw.disk.files.lookup name = some stored ∧ stored.length = sw.offset
  /-- The other files. -/
  others : ∀ n ≠ name, sw.disk.files.lookup n = d₀.files.lookup n

/-- What a writer has accepted: the file up to the offset, and the buffer. -/
def SnapWriter.accepted (name : Name) (sw : SnapWriter) : Bytes :=
  ((sw.disk.files.lookup name).getD []).take sw.offset ++ sw.buf

section Write

variable {d₀ : Disk} {name : Name} {sw : SnapWriter}

/-- A write changes one file. -/
theorem lookup_pwrite_ne (files : Files) {name other : Name} (offset : ℕ) (data : Bytes)
    (h : other ≠ name) : (applyOp files (.pwrite name offset data)).lookup other =
      files.lookup other := by
  simp only [applyOp]
  split
  · exact AList.lookup_insert_ne h
  · rfl

/-- A flush accepts nothing and loses nothing. It empties the buffer or fails. -/
theorem snapFlush_writing (h : sw.Writing d₀ name) :
    (snapFlush sw).Writing d₀ name ∧ (snapFlush sw).accepted name = sw.accepted name ∧
      ((snapFlush sw).err = .ok → (snapFlush sw).buf = []) ∧
      ((snapFlush sw).err ≠ .ok → (snapFlush sw).buf = sw.buf) := by
  unfold snapFlush
  by_cases herr : sw.err = .ok
  · by_cases hbuf : sw.buf = []
    · rw [if_pos (Or.inr hbuf)]
      exact ⟨h, rfl, fun _ => hbuf, fun _ => rfl⟩
    · obtain ⟨stored, hfile, hlen⟩ := h.file herr
      rw [if_neg (by simp [herr, hbuf]), h.name_eq]
      have hwrite : ∀ m, (applyOp sw.disk.files (.pwrite name sw.offset (sw.buf.take m))).lookup
          name = some (stored ++ sw.buf.take m) := fun m => by
        simp only [applyOp, hfile, AList.lookup_insert, ← hlen, patch_length]
      have hothers : ∀ data, ∀ n ≠ name,
          (applyOp sw.disk.files (.pwrite name sw.offset data)).lookup n = d₀.files.lookup n :=
        fun data n hn => (lookup_pwrite_ne _ _ _ hn).trans (h.others n hn)
      have hbefore : sw.accepted name = stored ++ sw.buf := by
        rw [SnapWriter.accepted, hfile, Option.getD_some, ← hlen, List.take_length]
      rcases hr : ioPwrite sw.disk name sw.buf sw.offset with ⟨rc, d⟩
      rcases ioPwrite_cases hbuf hr with ⟨rfl, hfiles⟩ | ⟨rfl, hfiles⟩
      · have hall := hwrite sw.buf.length
        rw [List.take_length, ← hfiles] at hall
        simp only [if_true]
        refine ⟨⟨rfl, fun _ => ⟨_, hall, by simp [hlen]⟩, fun n hn => ?_⟩, ?_, fun _ => trivial,
          fun hne => absurd rfl hne⟩
        · rw [hfiles]
          exact hothers _ n hn
        · rw [hbefore, SnapWriter.accepted, hall, Option.getD_some, List.append_nil,
            List.take_of_length_le (by simp [hlen])]
      · have hne : ¬ Err.io = Err.ok := by decide
        simp only [if_neg hne]
        refine ⟨⟨rfl, fun hok => absurd hok hne, fun n hn => ?_⟩, ?_, fun hok => absurd hok hne,
          fun _ => trivial⟩
        · rcases hfiles with hsame | ⟨m, hsome⟩
          · rw [hsame]
            exact h.others n hn
          · rw [hsome]
            exact hothers _ n hn
        · rcases hfiles with hsame | ⟨m, hsome⟩
          · rw [SnapWriter.accepted, SnapWriter.accepted, hsame]
          · rw [hbefore, SnapWriter.accepted, hsome, hwrite, Option.getD_some, ← hlen,
              List.take_left]
  · rw [if_pos (Or.inl herr)]
    exact ⟨h, rfl, fun hok => absurd hok herr, fun _ => rfl⟩

/-- The snapshot buffer loses and invents nothing when writes fail. -/
theorem snapBuffer_writing (d₀ : Disk) (name : Name) :
    snapBuffer.Lawful (SnapWriter.accepted name) (SnapWriter.Writing d₀ name) where
  cap_pos := by decide
  contents_push _ _ := rfl
  stream_push d sw := by simp [SnapWriter.accepted, snapBuffer]
  inv_push d sw h := ⟨h.name_eq, h.file, h.others⟩
  stream_flush sw h := (snapFlush_writing h).2.1
  inv_flush sw h := (snapFlush_writing h).1
  contents_flush sw h := (snapFlush_writing h).2.2.1
  contents_fail sw h := (snapFlush_writing h).2.2.2

/-- After an error nothing is written. -/
theorem foldl_snapWrite_of_err (fields : List Bytes) (h : sw.err ≠ .ok) :
    fields.foldl snapWrite sw = sw := by
  induction fields with
  | nil => rfl
  | cons field fields ih => rw [List.foldl_cons, snapWrite, if_pos h, ih]

/-- Fields are written completely, or there is an error. -/
theorem foldl_snapWrite_writing (fields : List Bytes) : ∀ {sw : SnapWriter},
    sw.Writing d₀ name → sw.buf.length ≤ snapBufCap →
      (fields.foldl snapWrite sw).Writing d₀ name ∧
        ((fields.foldl snapWrite sw).err = .ok →
          (fields.foldl snapWrite sw).accepted name = sw.accepted name ++ fields.flatten) := by
  induction fields with
  | nil => exact fun h _ => ⟨h, fun _ => by simp⟩
  | cons field fields ih =>
    intro sw h hcap
    by_cases herr : sw.err = .ok
    · have hwrite : snapWrite sw field = (snapBuffer.write field.length field sw).2 :=
        if_neg (by simp [herr])
      have hwritten := Buffer.write_spec (snapBuffer_writing d₀ name) field.length field sw
        (Nat.le_refl _) h hcap
      have hfails := snapBuffer.write_fails field.length field sw
      rw [List.foldl_cons, hwrite]
      generalize snapBuffer.write field.length field sw = r at hwritten hfails
      obtain ⟨hrest, hall⟩ := ih hwritten.inv hwritten.le_cap
      refine ⟨hrest, fun hok => ?_⟩
      by_cases hrc : r.1 = .ok
      · rw [hall hok, hwritten.stream_ok hrc, List.flatten_cons, List.append_assoc]
      · -- the flush that failed has set the error
        obtain ⟨sw', heq⟩ := hfails hrc
        have hbad : r.2.err ≠ .ok := by
          rw [heq] at hrc ⊢
          exact hrc
        rw [foldl_snapWrite_of_err fields hbad] at hok
        exact absurd hok hbad
    · rw [foldl_snapWrite_of_err _ herr]
      exact ⟨h, fun hok => absurd hok herr⟩

end Write

/-- A call changes the directory or does not. -/
theorem Disk.call_files (d : Disk) (op : FsOp) :
    ((d.call op).1 = .ok ∧ (d.call op).2.files = applyOp d.files op) ∨
      ((d.call op).1 = .io ∧ (d.call op).2.files = d.files) := by
  rcases d.call_cases op with heq | heq
  · rw [heq]
    exact Or.inl ⟨rfl, rfl⟩
  · rw [heq]
    exact Or.inr ⟨rfl, rfl⟩

/-- A removal leaves the other files alone. -/
theorem lookup_ioRemove_ne (d : Disk) {name n : Name} (hn : n ≠ name) :
    (ioRemove d name).2.files.lookup n = d.files.lookup n := by
  rcases d.call_files (.remove name) with ⟨-, heq⟩ | ⟨-, heq⟩
  · rw [ioRemove, heq]
    exact AList.lookup_erase_ne hn
  · rw [ioRemove, heq]

/-- The fields of a snapshot are in the temporary file unless there was an error. -/
theorem snapshotFields_written {d : Disk} {name : Name} (hfile : d.files.lookup name = some [])
    (fields : List Bytes) {sw : SnapWriter}
    (hsw : sw = snapFlush (fields.foldl snapWrite ⟨name, [], 0, .ok, d⟩)) :
    (∀ n ≠ name, sw.disk.files.lookup n = d.files.lookup n) ∧
      (sw.err = .ok → sw.disk.files.lookup name = some fields.flatten) := by
  have hstart : SnapWriter.Writing d name ⟨name, [], 0, .ok, d⟩ :=
    ⟨rfl, fun _ => ⟨[], hfile, rfl⟩, fun _ _ => rfl⟩
  obtain ⟨hwriting, hall⟩ := foldl_snapWrite_writing fields hstart (Nat.zero_le _)
  obtain ⟨hflushed, hsame, hempty, -⟩ := snapFlush_writing hwriting
  have herr : sw.err = .ok → (fields.foldl snapWrite ⟨name, [], 0, .ok, d⟩).err = .ok := by
    intro hok
    by_contra hbad
    rw [hsw, snapFlush, if_pos (Or.inl hbad)] at hok
    exact hbad hok
  rw [← hsw] at hflushed hsame hempty
  refine ⟨hflushed.others, fun hok => ?_⟩
  obtain ⟨stored, hstored, hlen⟩ := hflushed.file hok
  have hstream := hsame.trans (hall (herr hok))
  rw [SnapWriter.accepted, SnapWriter.accepted, hstored, hempty hok, hfile] at hstream
  rw [hstored, ← hlen] at *
  simpa using hstream

/-- Writing a snapshot, whatever fails: the snapshot is complete under its final name, or no file
but the temporary one has changed. -/
theorem snapshotWrite_cases {d : Disk} {id : Uuid} (htmp : snapTmpName id.hex ∉ d.files) (ht : Ht)
    (ts : ℕ) :
    ((snapshotWrite ht ts id d).1 = .ok ∧ ∀ n, (snapshotWrite ht ts id d).2.files.lookup n =
        if n = snapName id.hex then some (snapshotBytes ts ht)
        else if n = snapTmpName id.hex then none else d.files.lookup n) ∨
      ((snapshotWrite ht ts id d).1 ≠ .ok ∧ ∀ n ≠ snapTmpName id.hex,
        (snapshotWrite ht ts id d).2.files.lookup n = d.files.lookup n) := by
  have hne : ¬ Err.io = Err.ok := by decide
  have hcall := d.call_files (.create (snapTmpName id.hex))
  unfold snapshotWrite ioOpen
  dsimp only
  generalize d.call (.create (snapTmpName id.hex)) = r at hcall
  obtain ⟨rc, d₁⟩ := r
  rcases hcall with ⟨rfl, hfiles⟩ | ⟨rfl, hfiles⟩
  · -- the temporary file is open
    have hfile : d₁.files.lookup (snapTmpName id.hex) = some [] := by
      rw [show d₁.files = _ from hfiles, lookup_create, AList.lookup_eq_none.mpr htmp]
      rfl
    have hothers : ∀ n ≠ snapTmpName id.hex, d₁.files.lookup n = d.files.lookup n :=
      fun n hn => by rw [show d₁.files = _ from hfiles, lookup_create_ne _ hn]
    simp only [ne_eq, not_true_eq_false, if_false]
    generalize hsw : snapFlush ((snapshotFields ts ht).foldl snapWrite
      ⟨snapTmpName id.hex, [], 0, .ok, d₁⟩) = sw
    obtain ⟨hkept, hcomplete⟩ := snapshotFields_written hfile (snapshotFields ts ht) hsw.symm
    have hsynced : ∀ r, (if sw.err = .ok then ioSync sw.disk else (sw.err, sw.disk)) = r →
        r.2.files = sw.disk.files ∧ (r.1 = .ok → sw.err = .ok) := by
      rintro r rfl
      split
      · rename_i hok
        exact ⟨ioSync_files sw.disk, fun _ => hok⟩
      · exact ⟨rfl, fun h => h⟩
    generalize (if sw.err = .ok then ioSync sw.disk else (sw.err, sw.disk)) = r at hsynced
    obtain ⟨hsame, hok⟩ := hsynced r rfl
    obtain ⟨err, d₂⟩ := r
    have hremoved : ∀ d₃ : Disk, d₃.files = sw.disk.files → ∀ n ≠ snapTmpName id.hex,
        (ioRemove d₃ (snapTmpName id.hex)).2.files.lookup n = d.files.lookup n := by
      intro d₃ heq n hn
      rw [lookup_ioRemove_ne _ hn, heq, hkept n hn, hothers n hn]
    by_cases herr : err = .ok
    · subst herr
      have hrename := d₂.call_files (.rename (snapTmpName id.hex) (snapName id.hex))
      change ((ioRename _ _ _).1 = _ ∧ (ioRename _ _ _).2.files = _) ∨
        ((ioRename _ _ _).1 = _ ∧ (ioRename _ _ _).2.files = _) at hrename
      simp only [not_true_eq_false, if_false]
      generalize ioRename d₂ (snapTmpName id.hex) (snapName id.hex) = r at hrename
      obtain ⟨rc, d₃⟩ := r
      rcases hrename with ⟨rfl, heq⟩ | ⟨rfl, heq⟩
      · -- the snapshot has its name
        have hlookup := hcomplete (hok rfl)
        rw [← show d₂.files = _ from hsame] at hlookup
        simp only [not_true_eq_false, if_false]
        refine Or.inl ⟨trivial, fun n => ?_⟩
        rw [show d₃.files = _ from heq, lookup_rename hlookup]
        split
        · rfl
        · split
          · rfl
          · rename_i hn
            rw [show d₂.files = _ from hsame, hkept n hn, hothers n hn]
      · simp only [hne, not_false_eq_true, if_true]
        exact Or.inr ⟨trivial, hremoved d₃ ((show d₃.files = _ from heq).trans hsame)⟩
    · simp only [herr, not_false_eq_true, if_true]
      exact Or.inr ⟨trivial, hremoved d₂ hsame⟩
  · -- it could not be created
    simp only [ne_eq, hne, not_false_eq_true, if_true]
    exact Or.inr ⟨trivial, fun n _ => by rw [show d₁.files = _ from hfiles]⟩

/-! ## Flushing the log -/

/-- Nothing is lost when the log is flushed: the handle stays on its file, the stream is the same,
and the file has grown at most up to the end of the stream. -/
structure Log.Retains (name : Name) (s₀ s : Log) : Prop where
  /-- The handle. -/
  attached : Attached s₀ name s
  /-- The stream. -/
  stream_eq : s.stream name = s₀.stream name
  /-- The file. -/
  between : Between name s₀ s₀ s.disk.files

section Flush

variable {name : Name} {s₀ s : Log}

/-- Nothing was flushed. -/
theorem Log.Retains.refl (h : Attached s₀ name s₀) : Retains name s₀ s₀ := by
  obtain ⟨stored, n, hfile, hlen⟩ := h.file
  refine ⟨h, rfl, ⟨_, hfile, by rw [hfile]; exact List.prefix_rfl, ?_⟩, fun _ _ => rfl⟩
  rw [Log.stream_eq hfile hlen, List.prefix_append_right_inj]
  exact List.take_prefix _ _

/-- The write of a flush only makes the file longer. -/
theorem flushData_grows (h : Log.Attached s₀ name s) {bytes : Bytes}
    (hbytes : s.disk.files.lookup name = some bytes) :
    ∃ bytes', (flushData s).2.disk.files.lookup name = some bytes' ∧ bytes <+: bytes' := by
  unfold flushData
  by_cases hbuf : s.wal.buf = []
  · rw [if_pos hbuf]
    exact ⟨bytes, hbytes, List.prefix_rfl⟩
  · rw [if_neg hbuf, h.io]
    obtain ⟨stored, n, hfile, hlen⟩ := h.file
    have hpatch (m : ℕ) :
        (applyOp s.disk.files (.pwrite name s.wal.fileOffset (s.wal.buf.take m))).lookup name =
          some (stored ++ s.wal.buf.take (max n m)) := by
      simp only [applyOp, hfile, ← hlen, patch_take, AList.lookup_insert]
    have hgrows : ∀ m, bytes <+: stored ++ s.wal.buf.take (max n m) := fun m => by
      rw [hfile, Option.some.injEq] at hbytes
      rw [← hbytes, List.prefix_append_right_inj]
      exact List.take_prefix_take_left (Nat.le_max_left n m)
    rcases hr : ioPwrite s.disk name s.wal.buf s.wal.fileOffset with ⟨rc, d⟩
    rcases ioPwrite_cases hbuf hr with ⟨rfl, hfiles⟩ | ⟨rfl, hsame | ⟨m, hsome⟩⟩
    · have hall := hpatch s.wal.buf.length
      rw [List.take_length] at hall
      simp only [hr, if_true, hfiles]
      exact ⟨_, hall, hgrows _⟩
    · have hne : ¬ Err.io = Err.ok := by decide
      simp only [hr, if_neg hne, hsame]
      exact ⟨bytes, hbytes, List.prefix_rfl⟩
    · have hne : ¬ Err.io = Err.ok := by decide
      simp only [hr, if_neg hne, hsome]
      exact ⟨_, hpatch m, hgrows m⟩

/-- The sync of a flush changes no file. -/
theorem flushBuf_files (sync : Bool) (s : Log) :
    (flushBuf sync s).2.disk.files = (flushData s).2.disk.files := by
  unfold flushBuf
  dsimp only
  split
  · split
    · split
      · rfl
      · exact ioSync_files _
    · rfl
  · rfl

/-- A flush loses nothing, whatever fails. -/
theorem Log.Retains.flushBuf (h : Retains name s₀ s) (sync : Bool) :
    Retains name s₀ (flushBuf sync s).2 := by
  obtain ⟨hatt, hstream, -⟩ := flushBuf_spec h.attached sync
  obtain ⟨bytes, hbytes, hold, -⟩ := h.between.file
  obtain ⟨bytes', hbytes', hgrows⟩ := flushData_grows h.attached hbytes
  rw [← flushBuf_files sync] at hbytes'
  have hnew := hstream.trans h.stream_eq
  obtain ⟨stored, n, hfile, hlen⟩ := hatt.file
  refine ⟨hatt, hnew, ⟨bytes', hbytes', hold.trans hgrows, ?_⟩, hatt.others⟩
  rw [hbytes', Option.some.injEq] at hfile
  rw [← hnew, hfile, Log.stream_eq (by rw [hbytes', hfile]) hlen, List.prefix_append_right_inj]
  exact List.take_prefix _ _

/-- A flush with nothing to write changes no file, whatever handle it is. -/
theorem flushBuf_files_of_empty (hbuf : s.wal.buf = []) (sync : Bool) :
    (flushBuf sync s).2.disk.files = s.disk.files ∧ (flushBuf sync s).2.wal = s.wal := by
  have hdata : flushData s = (.ok, s) := if_pos hbuf
  refine ⟨by rw [flushBuf_files, hdata], ?_⟩
  unfold flushBuf
  simp only [hdata, if_true]
  split
  · split <;> rfl
  · rfl

end Flush

/-! ## Removing old files -/

/-- What `fastkv_snapshot_trim` picks: snapshots, but not the one to keep. -/
theorem snapshotTrim_picks {files : Files} {snapId : Uuid} {n : Name}
    (hn : n ∈ files.keys.filter fun name =>
      (matchName snapPfx snapSfx name).any fun hex => decide (hex.take idLen < snapId.hex)) :
    FsOp.Trims snapId (.remove n) := by
  have hmatch := (List.mem_filter.mp hn).2
  refine Or.inr ⟨n, rfl, fun hnone => ?_, ?_⟩
  · rw [hnone] at hmatch
    cases hmatch
  · rintro rfl
    obtain ⟨rest, -, heq⟩ := isSnap_snapName snapId
    rw [heq, Option.any_some, snapId.take_append] at hmatch
    simp at hmatch

section Trim

variable {snap : Snap} {segId : Uuid} {d : Disk}

/-- A call that fails or succeeds keeps a checkpoint complete. -/
theorem Renamed.call (h : Renamed snap segId d.files) {op : FsOp}
    (hop : op = .create (segName segId.hex) ∨ op.Trims snap.id) :
    Renamed snap segId (d.call op).2.files := by
  rcases d.call_files op with ⟨-, heq⟩ | ⟨-, heq⟩
  · rw [heq]
    exact h.apply hop
  · rw [heq]
    exact h

/-- So do removals, whichever of them fail. -/
theorem Renamed.removes (name : Name → Name) (names : List Name) : ∀ {d : Disk},
    Renamed snap segId d.files → (∀ n ∈ names, FsOp.Trims snap.id (.remove (name n))) →
      Renamed snap segId (names.foldl (fun d n => (ioRemove d (name n)).2) d).files := by
  induction names with
  | nil => exact fun h _ => h
  | cons n names ih =>
    intro d h hnames
    exact ih (h.call (Or.inr (hnames n (by simp)))) fun m hm => hnames m (by simp [hm])

/-- Trimming the log keeps a checkpoint complete. -/
theorem Renamed.walTrim (h : Renamed snap segId d.files) (keepFrom : Name) :
    Renamed snap segId (walTrim keepFrom d).files := by
  obtain ⟨segs, hlog, -, -⟩ := h.log
  refine h.removes segName _ fun hex hhex => ?_
  have hmem := List.mem_of_mem_filter hhex
  rw [hlog.dir.collectSegments_eq] at hmem
  obtain ⟨id, -, rfl⟩ := List.mem_map.mp hmem
  exact Or.inl ⟨id, rfl⟩

/-- Trimming the snapshots keeps the newest one. -/
theorem Renamed.snapshotTrim (h : Renamed snap segId d.files) :
    Renamed snap segId (snapshotTrim snap.id.hex d).files :=
  h.removes (fun n => n) _ fun _ hn => snapshotTrim_picks hn

/-- A rotation with nothing to flush keeps a checkpoint complete, whatever fails. -/
theorem Renamed.walRotate {s : Log} (h : Renamed snap segId s.disk.files)
    (hbuf : s.wal.buf = []) : Renamed snap segId (walRotate segId s).2.disk.files ∧
      (FastKV.walRotate segId s).2.wal.buf = [] := by
  obtain ⟨hfiles, hwal⟩ := flushBuf_files_of_empty hbuf true
  unfold FastKV.walRotate
  dsimp only
  generalize flushBuf true s = r at hfiles hwal
  obtain ⟨rc, s'⟩ := r
  have hopened : Renamed snap segId (ioOpen s'.disk (segName segId.hex)).2.files := by
    refine Renamed.call ?_ (Or.inl rfl)
    rw [show s'.disk.files = _ from hfiles]
    exact h
  split
  · exact ⟨hopened, (congrArg Wal.buf hwal).trans hbuf⟩
  · exact ⟨hopened, (congrArg Wal.buf hwal).trans hbuf⟩

end Trim

/-! ## Closing -/

/-- A database with other answers of the operating system to come. -/
def World.answering (w : World) (outcomes : List Outcome) : World :=
  { w with disk := { w.disk with outcomes } }

/-- What is left in the directory when a database is closed. -/
inductive Closed (s : Sys) (wal : Wal) (id snapId segId : Uuid) (rc : Err) (files' : Files) : Prop
  /-- The snapshot has its name. -/
  | renamed (h : Renamed ⟨snapId, s.clock, s.world.db.ht⟩ segId files')
  /-- The checkpoint has failed before. At most the temporary file and the log have changed. -/
  | retained (hrc : rc ≠ .ok) (h : snapTmpName snapId.hex ∉ files' →
      Log.Between (segName id.hex) ⟨wal, s.world.disk⟩ ⟨wal, s.world.disk⟩ files')

section Calls

variable {w : World} {wal : Wal} {log : Log} {snapId : Uuid}

/-- A checkpoint that cannot flush the log. -/
theorem fastkvCheckpoint_of_unsynced {rc : Err} (hwal : w.db.wal = some wal)
    (hsync : walSync ⟨wal, w.disk⟩ = (rc, log)) (hrc : rc ≠ .ok) (snapId segId : Uuid) (now : ℕ) :
    fastkvCheckpoint w snapId segId now = (rc, ⟨{ w.db with wal := some log.wal }, log.disk⟩) := by
  unfold fastkvCheckpoint
  simp only [hwal, hsync, ne_eq, hrc, not_false_eq_true, if_true]

/-- A checkpoint that cannot write the snapshot. -/
theorem fastkvCheckpoint_of_unwritten {rc : Err} {disk : Disk} (hwal : w.db.wal = some wal)
    (hsync : walSync ⟨wal, w.disk⟩ = (.ok, log))
    (hsnap : snapshotWrite w.db.ht w.db.clock snapId log.disk = (rc, disk)) (hrc : rc ≠ .ok)
    (segId : Uuid) (now : ℕ) :
    fastkvCheckpoint w snapId segId now = (rc, ⟨{ w.db with wal := some log.wal }, disk⟩) := by
  have hsnap' : snapshotWrite w.db.ht (oracleNow w.db.txnMgr.oracle) snapId log.disk = (rc, disk) :=
    hsnap
  unfold fastkvCheckpoint
  simp only [hwal, hsync, hsnap', ne_eq, not_true_eq_false, if_false, hrc, not_false_eq_true,
    if_true]

/-- A checkpoint that cannot open a new segment. -/
theorem fastkvCheckpoint_of_unrotated {rc : Err} {disk : Disk} {log' : Log} {segId : Uuid}
    (hwal : w.db.wal = some wal) (hsync : walSync ⟨wal, w.disk⟩ = (.ok, log))
    (hsnap : snapshotWrite w.db.ht w.db.clock snapId log.disk = (.ok, disk))
    (hrotate : walRotate segId ⟨log.wal, disk⟩ = (rc, log')) (hrc : rc ≠ .ok) (now : ℕ) :
    fastkvCheckpoint w snapId segId now =
      (rc, ⟨{ w.db with wal := some log'.wal }, log'.disk⟩) := by
  have hsnap' : snapshotWrite w.db.ht (oracleNow w.db.txnMgr.oracle) snapId log.disk =
    (.ok, disk) := hsnap
  unfold fastkvCheckpoint
  simp only [hwal, hsync, hsnap', hrotate, ne_eq, not_true_eq_false, if_false, hrc,
    not_false_eq_true, if_true]

/-- Closing the log after a checkpoint. -/
theorem fastkvClose_files {w' : World} {rc : Err} {segId : Uuid} {now : ℕ}
    (heq : fastkvCheckpoint w snapId segId now = (rc, w')) (hwal : w'.db.wal = some wal) :
    (fastkvClose w snapId segId now).files = (flushBuf true ⟨wal, w'.disk⟩).2.disk.files := by
  unfold fastkvClose
  simp only [heq, hwal]
  rfl

/-- With nothing in the buffer it changes nothing. -/
theorem fastkvClose_files_of_empty {w' : World} {rc : Err} {segId : Uuid} {now : ℕ}
    (heq : fastkvCheckpoint w snapId segId now = (rc, w')) (hwal : w'.db.wal = some wal)
    (hbuf : wal.buf = []) : (fastkvClose w snapId segId now).files = w'.disk.files :=
  (fastkvClose_files heq hwal).trans (flushBuf_files_of_empty (s := ⟨wal, w'.disk⟩) hbuf true).1

end Calls

section Close

variable {s : Sys} {wal : Wal} {snap : Option Snap} {older : List (Uuid × List Record)}
  {id : Uuid} {cur : List Record}

/-- Once it has its name, the new snapshot is the newest one. -/
theorem Durable.renamed (h : Durable s wal snap older id cur) (hclock : s.clock < tsMax)
    {snapId segId : Uuid} (hnames : NamesGrow s.world.disk.files snapId segId) {log : Log}
    (hlog : Log.Retains (segName id.hex) ⟨wal, s.world.disk⟩ log) (hholds : log.Holds older id cur)
    (hbuf : log.wal.buf = []) {files' : Files} (hlookup : ∀ n, files'.lookup n =
      if n = snapName snapId.hex then some (snapshotBytes s.clock s.world.db.ht)
      else if n = snapTmpName snapId.hex then none else log.disk.files.lookup n) :
    Renamed ⟨snapId, s.clock, s.world.db.ht⟩ segId files' := by
  have hold : NewestSnap log.disk.files snap := h.snapshot_between hlog.between
  have hmem : ∀ n ∈ log.disk.files, n ∈ s.world.disk.files := by
    intro n hn
    by_cases heq : n = segName id.hex
    · rw [heq]
      exact h.holds.dir.present id (by simp)
    · rw [← AList.lookup_isSome, hlog.between.others n heq] at hn
      exact AList.lookup_isSome.mp hn
  have hnames' : NamesGrow log.disk.files snapId segId :=
    ⟨fun i hi => hnames.segments i (hmem _ hi), fun n hn => hnames.snapshots n (hmem n hn)⟩
  have hsegments : SegmentLog files' (older ++ [(id, cur)]) :=
      (hholds.segmentLog hbuf).of_segments fun n hn => by
    rw [hlookup, if_neg, if_neg]
    · rintro rfl
      exact hn (isSnap_snapTmpName snapId).matchName_wal
    · rintro rfl
      exact hn (isSnap_snapName snapId).matchName_wal
  refine ⟨⟨by rw [hlookup, if_pos rfl], fun n hn => ?_, h.fitsEntries, hclock⟩, _, hsegments,
    fun r hr => ?_, fun seg hseg => ?_⟩
  · rw [← AList.lookup_isSome, hlookup] at hn
    split at hn
    · rename_i heq
      exact Or.inr (Or.inl heq)
    · split at hn
      · cases hn
      · exact (hnames'.names hold n (AList.lookup_isSome.mp hn)).imp_right Or.inr
  · exact (h.stamps r (by simpa using hr)).1.le
  · have hpresent := (hholds.segmentLog hbuf).dir.present seg.1 (List.mem_map_of_mem hseg)
    exact (hnames'.segments seg.1 hpresent).le

/-- Closing a database, whatever fails. -/
theorem Durable.closed (h : Durable s wal snap older id cur) (hclock : s.clock < tsMax)
    {snapId segId : Uuid} (hnames : NamesGrow s.world.disk.files snapId segId)
    (outcomes : List Outcome) (now : ℕ) :
    Closed s wal id snapId segId
      (fastkvCheckpoint (s.world.answering outcomes) snapId segId now).1
      (fastkvClose (s.world.answering outcomes) snapId segId now).files := by
  have hholds₀ := h.holds.answering outcomes
  have hstart : Log.Retains (segName id.hex) ⟨wal, s.world.disk⟩
      (Log.answering ⟨wal, s.world.disk⟩ outcomes) :=
    ⟨⟨hholds₀.attached.io, hholds₀.attached.file, fun _ _ => rfl, rfl, rfl⟩, rfl,
      (Log.Retains.refl h.holds.attached).between⟩
  have htmp : snapTmpName snapId.hex ∉ s.world.disk.files := fun hmem =>
    absurd (hnames.snapshots _ hmem snapId (isSnap_snapTmpName snapId)) (lt_irrefl _)
  have hwal : (s.world.answering outcomes).db.wal = some wal := h.wal_eq
  -- the log is flushed
  have hretains := hstart.flushBuf true
  obtain ⟨hholds, hempty⟩ := hholds₀.flush true
  generalize hsync : flushBuf true (Log.answering ⟨wal, s.world.disk⟩ outcomes) = r
    at hretains hholds hempty
  obtain ⟨rc, log⟩ := r
  replace hsync : walSync ⟨wal, (s.world.answering outcomes).disk⟩ = (rc, log) := hsync
  by_cases hrc : rc = .ok
  swap
  · have hcheck := fastkvCheckpoint_of_unsynced hwal hsync hrc snapId segId now
    refine .retained (by rw [hcheck]; exact hrc) fun _ => ?_
    rw [fastkvClose_files hcheck rfl]
    exact (hretains.flushBuf true).between
  subst hrc
  have hbuf : log.wal.buf = [] := hempty rfl
  -- the snapshot is written
  have htmp' : snapTmpName snapId.hex ∉ log.disk.files := by
    intro hmem
    rw [← AList.lookup_isSome, hretains.between.others _ fun heq => ?_, AList.lookup_isSome] at hmem
    · exact htmp hmem
    · have hnone := (isSnap_snapTmpName snapId).matchName_wal
      rw [heq, matchName_segName] at hnone
      cases hnone
  have hwritten := snapshotWrite_cases htmp' s.world.db.ht s.clock
  generalize hsnap : snapshotWrite s.world.db.ht s.clock snapId log.disk = r at hwritten
  obtain ⟨rc, disk⟩ := r
  rcases hwritten with ⟨hok, hlookup⟩ | ⟨hrc, hlookup⟩
  swap
  · have hcheck := fastkvCheckpoint_of_unwritten hwal hsync hsnap hrc segId now
    refine .retained (by rw [hcheck]; exact hrc) fun hgone => ?_
    rw [fastkvClose_files_of_empty hcheck rfl hbuf] at hgone ⊢
    have hsame : ∀ n, disk.files.lookup n = log.disk.files.lookup n := by
      intro n
      by_cases hn : n = snapTmpName snapId.hex
      · rw [hn, AList.lookup_eq_none.mpr hgone, AList.lookup_eq_none.mpr htmp']
      · exact hlookup n hn
    obtain ⟨⟨bytes, hbytes, hgrown⟩, hothers⟩ := hretains.between
    exact ⟨⟨bytes, (hsame _).trans hbytes, hgrown⟩, fun n hn => (hsame n).trans (hothers n hn)⟩
  obtain rfl : rc = .ok := hok
  have hrenamed := h.renamed hclock hnames hretains hholds hbuf hlookup
  -- the log is rotated and old files are removed
  obtain ⟨hrotated, hbuf'⟩ := Renamed.walRotate (s := ⟨log.wal, disk⟩) hrenamed hbuf
  generalize hrotate : walRotate segId ⟨log.wal, disk⟩ = r at hrotated hbuf'
  obtain ⟨rc, log'⟩ := r
  refine .renamed ?_
  by_cases hrc : rc = .ok
  · subst hrc
    have hcheck := fastkvCheckpoint_of_ok hwal hsync hsnap hrotate now
    obtain ⟨hsame, hdisk⟩ := checkpointMemory_log (w := ⟨{ s.world.db with wal := some log'.wal },
      snapshotTrim snapId.hex (walTrim log.wal.segmentId log'.disk)⟩) h.sound.ttl now
    rw [fastkvClose_files_of_empty hcheck hsame hbuf']
    refine (congrArg (Renamed _ segId) (congrArg Disk.files hdisk)).mpr ?_
    exact (hrotated.walTrim _).snapshotTrim
  · have hcheck := fastkvCheckpoint_of_unrotated hwal hsync hsnap hrotate hrc now
    rw [fastkvClose_files_of_empty hcheck rfl hbuf']
    exact hrotated

end Close

/-! ## Main result -/

end FastKV
