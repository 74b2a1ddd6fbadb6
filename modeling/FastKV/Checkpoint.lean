import FastKV.Directory

/-!
# The files of a checkpoint

A checkpoint that meets no failure and is given new identifiers writes a snapshot under a
temporary name, renames it, opens a new segment and then removes older segments and
snapshots. Afterwards the snapshot is the newest one, and the log consists of the segment
that was current before and the new one.
-/

namespace FastKV

/-- The identifiers for new files are larger than those in the directory. -/
structure NamesGrow (files : Files) (snapId segId : Uuid) : Prop where
  /-- Segments are older. -/
  segments : ∀ id : Uuid, segName id.hex ∈ files → id < segId
  /-- Snapshots and temporary files are older. -/
  snapshots : ∀ n ∈ files, ∀ id, IsSnap id n → id < snapId

/-- Identifiers that are larger than all those that occur in names. -/
theorem NamesGrow.of_keys {files : Files} (ids : List Uuid) {snapId segId : Uuid}
    (hkeys : ∀ n ∈ files.keys, ∃ id ∈ ids, n = segName id.hex ∨ n = snapName id.hex)
    (hids : ∀ id ∈ ids, id < snapId ∧ id < segId) : NamesGrow files snapId segId := by
  refine ⟨fun id hid => ?_, fun n hn id hid => ?_⟩
  · obtain ⟨i, hi, heq | heq⟩ := hkeys _ (AList.mem_keys.mp hid)
    · rw [segName_inj heq]
      exact (hids i hi).2
    · have hwal := (isSnap_snapName i).matchName_wal
      rw [← heq, matchName_segName] at hwal
      cases hwal
  · obtain ⟨i, hi, rfl | rfl⟩ := hkeys n (AList.mem_keys.mp hn)
    · exact absurd (matchName_snap_segName i) hid.matchName_ne
    · rw [hid.unique (isSnap_snapName i)]
      exact (hids i hi).1

/-- The removals at the end of a checkpoint: older segments, or other snapshots. -/
def FsOp.Trims (snapId : Uuid) (op : FsOp) : Prop :=
  (∃ id : Uuid, op = .remove (segName id.hex)) ∨
    ∃ n, op = .remove n ∧ matchName snapPfx snapSfx n ≠ none ∧ n ≠ snapName snapId.hex

/-- A log before and after a checkpoint. -/
structure CheckpointedLog (ht : Ht) (ts : ℕ) (snapId segId : Uuid) (s : Log) (id : Uuid)
    (cur : List Record) (s' : Log) : Prop where
  /-- The changes in the directory. -/
  did : ∃ disk writes removes, SnapshotWritten ts ht snapId s.disk disk writes ∧
    disk.Did (.create (segName segId.hex) :: removes) s'.disk ∧ ∀ op ∈ removes, op.Trims snapId
  /-- Nothing will fail later. -/
  quiet : s'.disk.Quiet
  /-- The log is the segment that was current and a new one. -/
  holds : s'.Holds [(id, cur)] segId []
  /-- The snapshot is the newest one. -/
  snapshot : (⟨snapId, ts, ht⟩ : Snap).In s'.disk.files

section Checkpoint

variable {s : Log} {older : List (Uuid × List Record)} {id : Uuid} {cur : List Record}

/-- Syncing a log with nothing to flush. -/
theorem flushBuf_of_empty (h : s.Working) (hbuf : s.wal.buf = []) :
    flushBuf true s = (.ok, ⟨s.wal, { s.disk with outcomes := s.disk.outcomes.tail }⟩) := by
  obtain ⟨name, hio⟩ := Option.isSome_iff_exists.mp h.io
  obtain ⟨hsync, -⟩ := h.quiet.sync
  simp only [flushBuf, flushData, hbuf, hio, hsync, if_true]

/-- A rotation with nothing to flush opens a file. -/
theorem walRotate_did (h : s.Working) (hbuf : s.wal.buf = []) (fresh : Uuid) :
    s.disk.Did [.create (segName fresh.hex)] (walRotate fresh s).2.disk := by
  obtain ⟨hsync, hquiet⟩ := h.quiet.sync
  rw [hsync] at hquiet
  have hflush := flushBuf_of_empty h hbuf
  obtain ⟨hopen, -⟩ := hquiet.call (.create (segName fresh.hex))
  unfold walRotate ioOpen
  simp only [hflush, hopen, if_true]
  exact ⟨rfl, rfl⟩

/-- Trimming the log up to a segment removes the older ones. -/
theorem Log.Holds.walTrim_did {newer : Uuid} {rest : List Record}
    (h : s.Holds (older ++ [(id, cur)]) newer rest) (hquiet : s.disk.Quiet) :
    s.disk.Did ((older.map fun seg => segName seg.1.hex).map .remove) (walTrim id.hex s.disk) := by
  have hsorted := h.dir.sorted
  rw [List.map_append, List.append_assoc, List.pairwise_append] at hsorted
  have hids : (older.map Prod.fst ++ ([id] ++ [newer])).filter
      ((fun hex => decide (hex < id.hex)) ∘ Uuid.hex) = older.map Prod.fst := by
    rw [List.filter_append, List.filter_eq_self.mpr, List.filter_eq_nil_iff.mpr, List.append_nil]
    · intro i hi
      have hle : id ≤ i := by
        rcases List.mem_append.mp hi with hi | hi
        · exact (List.mem_singleton.mp hi).ge
        · rw [List.mem_singleton.mp hi]
          exact le_of_lt (by simpa using hsorted.2.1)
      simpa using not_lt.mp (mt Uuid.lt_iff.mpr (not_lt.mpr hle))
    · intro i hi
      have hlt : i < id := hsorted.2.2 i hi id (by simp)
      simpa using Uuid.lt_iff.mp hlt
  have hsegs : (collectSegments s.disk.files).filter (fun hex => decide (hex < id.hex)) =
      older.map fun seg => seg.1.hex := by
    have hall : (older ++ [(id, cur)]).map Prod.fst ++ [newer] =
        older.map Prod.fst ++ ([id] ++ [newer]) := by simp
    rw [h.dir.collectSegments_eq, hall, List.filter_map, hids, List.map_map]
    rfl
  have htrim := (foldl_ioRemove_quiet segName
    ((collectSegments s.disk.files).filter fun hex => decide (hex < id.hex)) s.disk hquiet).1
  rw [hsegs, List.map_map] at htrim
  rw [walTrim, hsegs, List.map_map]
  exact htrim

/-- Removing the older segments. -/
theorem Log.Holds.trim {newer : Uuid} {rest : List Record}
    (h : s.Holds (older ++ [(id, cur)]) newer rest) {d : Disk}
    (hfiles : d.files = ((older.map fun seg => segName seg.1.hex).map .remove).foldl applyOp
      s.disk.files) : Log.Holds ⟨s.wal, d⟩ [(id, cur)] newer rest := by
  have hlookup := lookup_foldl_remove (older.map fun seg => segName seg.1.hex)
  have hsorted := h.dir.sorted
  rw [List.map_append, List.append_assoc, List.pairwise_append] at hsorted
  have hkeep : ∀ i ∈ [id, newer],
      d.files.lookup (segName i.hex) = s.disk.files.lookup (segName i.hex) := by
    intro i hi
    rw [hfiles, hlookup, if_neg]
    intro hmem
    obtain ⟨seg, hseg, heq⟩ := List.mem_map.mp hmem
    exact absurd (segName_inj heq)
      (ne_of_lt (hsorted.2.2 seg.1 (List.mem_map_of_mem hseg) i (by simpa using hi)))
  have hdir : SegmentDir d.files ([(id, cur)].map Prod.fst ++ [newer]) := by
    refine ⟨hsorted.2.1, fun i hi => ?_, fun n hn => ?_⟩
    · rw [← AList.lookup_isSome, hkeep i (by simpa using hi), AList.lookup_isSome]
      refine h.dir.present i ?_
      rw [List.map_append, List.append_assoc]
      exact List.mem_append_right _ hi
    · rw [← AList.lookup_isSome, hfiles, hlookup] at hn
      split at hn
      · cases hn
      · rename_i hold
        refine (h.dir.only n (AList.lookup_isSome.mp hn)).imp_right fun ⟨i, hi, heq⟩ => ⟨i, ?_, heq⟩
        rw [List.map_append, List.append_assoc] at hi
        rcases List.mem_append.mp hi with hi | hi
        · obtain ⟨seg, hseg, rfl⟩ := List.mem_map.mp hi
          exact absurd (List.mem_map.mpr ⟨seg, hseg, heq.symm⟩) hold
        · exact hi
  obtain ⟨stored, n, hfile, hlen⟩ := h.attached.file
  refine ⟨hdir, fun seg hseg => ?_, h.segment, ⟨h.attached.io, ⟨stored, n, ?_, hlen⟩,
    fun _ _ => rfl, rfl, rfl⟩, h.le_cap, ?_, h.valid⟩
  · rw [List.mem_singleton.mp hseg]
    exact (h.older_holds (id, cur) (by simp)).of_lookup (hkeep id (by simp))
  · rw [hkeep newer (by simp)]
    exact hfile
  · rw [← h.stream, Log.stream, Log.stream, hkeep newer (by simp)]

/-- Trimming the snapshots removes other snapshots. -/
theorem snapshotTrim_did {d : Disk} (hquiet : d.Quiet) (snapId : Uuid) :
    ∃ names : List Name,
      (∀ n ∈ names, matchName snapPfx snapSfx n ≠ none ∧ n ≠ snapName snapId.hex) ∧
      d.Did (names.map .remove) (snapshotTrim snapId.hex d) := by
  refine ⟨_, fun n hn => ?_, (foldl_ioRemove_quiet (fun n => n)
    (d.files.keys.filter fun name => (matchName snapPfx snapSfx name).any fun hex =>
      decide (hex.take idLen < snapId.hex)) d hquiet).1⟩
  have hmatch := (List.mem_filter.mp hn).2
  constructor
  · intro hnone
    rw [hnone] at hmatch
    cases hmatch
  · rintro rfl
    obtain ⟨rest, -, heq⟩ := isSnap_snapName snapId
    rw [heq, Option.any_some, snapId.take_append] at hmatch
    simp at hmatch

/-- A snapshot stays the newest one when other files are removed. -/
theorem Snap.In.removeAll {snap : Snap} (names : List Name) : ∀ {files : Files}, snap.In files →
    (∀ n ∈ names, n ≠ snapName snap.id.hex) →
      snap.In ((names.map .remove).foldl applyOp files) := by
  induction names with
  | nil => exact fun h _ => h
  | cons n names ih =>
    intro files h hnames
    exact ih (h.remove (hnames n (by simp))) fun m hm => hnames m (by simp [hm])

/-- All snapshots of a directory are older than the new identifier. -/
theorem NamesGrow.names {files : Files} {snapId segId : Uuid} (h : NamesGrow files snapId segId)
    {snap : Option Snap} (hsnap : NewestSnap files snap) :
    ∀ n ∈ files, matchName snapPfx snapSfx n = none ∨ ∃ id < snapId, IsSnap id n := by
  intro n hn
  cases snap with
  | none => exact Or.inl (hsnap n hn)
  | some snap =>
    rcases Snap.In.newest hsnap n hn with hnone | rfl | ⟨id, -, hid⟩
    · exact Or.inl hnone
    · exact Or.inr ⟨snap.id, h.snapshots _ hn _ (isSnap_snapName _), isSnap_snapName _⟩
    · exact Or.inr ⟨id, h.snapshots n hn id hid, hid⟩

/-- Writing a snapshot does not touch the segments. -/
theorem SnapshotWritten.lookup_segment {ts : ℕ} {ht : Ht} {snapId : Uuid} {d d' : Disk}
    {ops : List FsOp} (h : SnapshotWritten ts ht snapId d d' ops) (n : Name)
    (hn : matchName walPfx walSfx n ≠ none) : d'.files.lookup n = d.files.lookup n := by
  rw [h.lookup, if_neg, if_neg]
  · rintro rfl
    exact hn (isSnap_snapTmpName snapId).matchName_wal
  · rintro rfl
    exact hn (isSnap_snapName snapId).matchName_wal

/-- A new snapshot is the newest one. -/
theorem SnapshotWritten.snapIn {ts : ℕ} {ht : Ht} {snapId segId : Uuid} {d d' : Disk}
    {ops : List FsOp} (h : SnapshotWritten ts ht snapId d d' ops)
    (hnames : NamesGrow d.files snapId segId) {snap : Option Snap} (hold : NewestSnap d.files snap)
    (hfits : ∀ e ∈ snapEntries ht, FitsEntry e) (hts : ts < tsMax) :
    (⟨snapId, ts, ht⟩ : Snap).In d'.files := by
  refine ⟨by rw [h.lookup, if_pos rfl], fun n hn => ?_, hfits, hts⟩
  rw [← AList.lookup_isSome, h.lookup] at hn
  split at hn
  · rename_i heq
    exact Or.inr (Or.inl heq)
  · split at hn
    · cases hn
    · exact (hnames.names hold n (AList.lookup_isSome.mp hn)).imp_right Or.inr

/-- What a checkpoint does to a log with an empty buffer. -/
theorem Log.Holds.checkpoint (h : s.Holds older id cur) (hbuf : s.wal.buf = [])
    (hquiet : s.disk.Quiet) {snap : Option Snap} (hsnap : NewestSnap s.disk.files snap)
    {snapId segId : Uuid} (hnames : NamesGrow s.disk.files snapId segId) {ht : Ht} {ts : ℕ}
    (hfits : ∀ e ∈ snapEntries ht, FitsEntry e) (hts : ts < tsMax) :
    ∃ disk log, snapshotWrite ht ts snapId s.disk = (.ok, disk) ∧
      walRotate segId ⟨s.wal, disk⟩ = (.ok, log) ∧
      CheckpointedLog ht ts snapId segId s id cur
        ⟨log.wal, snapshotTrim snapId.hex (walTrim id.hex log.disk)⟩ := by
  have htmp : snapTmpName snapId.hex ∉ s.disk.files := fun hmem =>
    absurd (hnames.snapshots _ hmem snapId (isSnap_snapTmpName snapId)) (lt_irrefl _)
  obtain ⟨disk, writes, hwrite, hwritten⟩ := snapshotWrite_quiet hquiet htmp ht ts
  -- the snapshot does not touch the log
  have hlog : Log.Holds ⟨s.wal, disk⟩ older id cur := h.of_segments hwritten.lookup_segment
  have hseg : id < segId := hnames.segments id (h.dir.present id (by simp))
  obtain ⟨hrotate, hrotated, hquiet'⟩ := hlog.rotate_quiet hwritten.quiet hseg
  have hcreate := walRotate_did (hlog.attached.working hwritten.quiet) hbuf segId
  generalize hr : walRotate segId ⟨s.wal, disk⟩ = r at hrotate hrotated hquiet' hcreate
  obtain ⟨rc, log⟩ := r
  obtain rfl : rc = .ok := hrotate
  have hwalTrim := hrotated.walTrim_did hquiet'
  obtain ⟨names, htrims, hsnapTrim⟩ := snapshotTrim_did (walTrim_quiet hquiet' id.hex) snapId
  refine ⟨disk, log, hwrite, hr, ⟨disk, writes, _, hwritten,
    (hcreate.trans hwalTrim).trans hsnapTrim, fun op hop => ?_⟩,
    snapshotTrim_quiet (walTrim_quiet hquiet' id.hex) snapId.hex, ?_, ?_⟩
  · rcases List.mem_append.mp hop with hop | hop
    · obtain ⟨n, hn, rfl⟩ := List.mem_map.mp hop
      obtain ⟨seg, -, rfl⟩ := List.mem_map.mp hn
      exact Or.inl ⟨seg.1, rfl⟩
    · obtain ⟨n, hn, rfl⟩ := List.mem_map.mp hop
      exact Or.inr ⟨n, rfl, htrims n hn⟩
  · refine (hrotated.trim (d := walTrim id.hex log.disk) hwalTrim.files).of_segments fun n hn => ?_
    rw [hsnapTrim.files, lookup_foldl_remove, if_neg]
    intro hmem
    exact hn ((matchName_exclusive n).resolve_right (htrims n hmem).1)
  · have hsegment : (⟨snapId, ts, ht⟩ : Snap).In log.disk.files := by
      have hnew : NewestSnap disk.files (some ⟨snapId, ts, ht⟩) :=
        hwritten.snapIn hnames hsnap hfits hts
      refine hnew.of_lookup fun n hn => ?_
      rw [hcreate.files]
      exact lookup_create_ne _ fun heq => hn (by rw [heq]; exact matchName_snap_segName segId)
    rw [hsnapTrim.files, hwalTrim.files]
    refine (hsegment.removeAll _ fun n hn => ?_).removeAll _ fun n hn => (htrims n hn).2
    obtain ⟨seg, -, rfl⟩ := List.mem_map.mp hn
    intro heq
    refine (isSnap_snapName snapId).matchName_ne ?_
    rw [← heq]
    exact matchName_snap_segName seg.1

end Checkpoint

end FastKV
