import FastKV.Durable

/-!
# Crashes during a checkpoint

Every change that a checkpoint makes in the directory is on record. A crash leaves the effect
of a beginning of this record, where a write may be cut short and a removal may be missing.
Before the snapshot is renamed its temporary file passes the test for snapshots as the newest
one, complete or not. In all other states the directory can be opened and stands for the same
map as before.
-/

namespace FastKV

open Lib

/-- The directories that a crash can leave while the given changes are made. -/
inductive Crashed : Files → List FsOp → Files → Prop
  /-- The crash comes before the rest. -/
  | here (files : Files) (ops : List FsOp) : Crashed files ops files
  /-- A change is made. -/
  | done {files files' : Files} {op : FsOp} {ops : List FsOp} :
      Crashed (applyOp files op) ops files' → Crashed files (op :: ops) files'
  /-- A write stores only the first bytes. -/
  | torn (files : Files) (name : Name) (offset : ℕ) (data : Bytes) (ops : List FsOp) (n : ℕ) :
      Crashed files (.pwrite name offset data :: ops)
        (applyOp files (.pwrite name offset (data.take n)))
  /-- A removal does not reach the disk, although later ones may. -/
  | kept {files files' : Files} {name : Name} {ops : List FsOp} : Crashed files ops files' →
      Crashed files (.remove name :: ops) files'

/-- A crash between two changes. -/
theorem Crashed.take (ops : List FsOp) (n : ℕ) : ∀ files : Files,
    Crashed files ops ((ops.take n).foldl applyOp files) := by
  induction ops generalizing n with
  | nil =>
    intro files
    rw [List.take_nil]
    exact .here files []
  | cons op ops ih =>
    intro files
    cases n with
    | zero => exact .here files _
    | succ n => exact .done (ih n (applyOp files op))

/-- The changes that a checkpoint makes in the directory. -/
def Sys.checkpointOps (s : Sys) (snapId segId : Uuid) (now : ℕ) : List FsOp :=
  (fastkvCheckpoint s.world snapId segId now).2.disk.trace.drop s.world.disk.trace.length

/-! ## The map and the directory -/

/-- The map of a snapshot. -/
def snapMap : Option Snap → Bytes → Slice
  | none => fun _ => none
  | some snap => snap.ht.live

/-- The directory stands for the map in memory. -/
structure Faithful (s : Sys) (snap : Option Snap) : Prop where
  /-- The snapshot has lost nothing. -/
  exported : ∀ sn ∈ snap, sn.ht.Exportable ∧ sn.ht.OneLive ∧ sn.ht.NoEmpty
  /-- The map is the one of the snapshot, updated by the newer records. -/
  contents : s.world.db.ht.live = updates (snapMap snap) (followed s.history).2

/-- Actions after which the directory stands for the map in memory: a checkpoint finds no two
live keys in one bucket, and no commit is stamped with the timestamp of a checkpoint. -/
def ExportsAfterCheckpoint (s : Sys) (a : Action) : Prop :=
  AfterCheckpoint s a ∧
    ∀ snapId segId now, a = .checkpoint snapId segId now → s.world.db.ht.Exportable

/-- Loading a snapshot that has lost nothing. -/
theorem live_loaded {snap : Option Snap}
    (h : ∀ sn ∈ snap, sn.ht.Exportable ∧ sn.ht.OneLive ∧ sn.ht.NoEmpty) (opts : Opts) :
    (loaded opts.stores snap).ht.live = snapMap snap := by
  funext key
  cases snap with
  | none => exact (opts.stores_empty key).1
  | some sn =>
    obtain ⟨hexport, hone, hne⟩ := h sn rfl
    exact (hexport.load hone hne opts sn.ts key).1

/-- An action keeps the directory faithful. -/
theorem Faithful.step {s s' : Sys} {snap snap' : Option Snap} {a : Action} (h : Faithful s snap)
    (hsound : s.Sound) (ha : ExportsAfterCheckpoint s a) (hadvances : Advances s s' snap snap' a) :
    Faithful s' snap' := by
  rcases hadvances with ⟨rfl, rs, hlive, hpending⟩ | ⟨snapId, segId, now, rfl, rfl, hlive, hpending⟩
  · refine ⟨h.exported, ?_⟩
    rw [hlive, hpending, updates_append, h.contents]
  · refine ⟨fun sn hsn => ?_, ?_⟩
    · cases hsn
      exact ⟨ha.2 snapId segId now rfl, hsound.oneLive, hsound.noEmpty⟩
    · rw [hlive, hpending]
      rfl

/-- The directory stands for the map in memory all the time. -/
theorem Served.faithful {s : Sys} (h : Served ExportsAfterCheckpoint s) :
    ∃ wal snap older id cur, Durable s wal snap older id cur ∧ Faithful s snap := by
  induction h with
  | created hro hopen =>
    obtain ⟨wal, h⟩ := Durable.created hro hopen
    refine ⟨_, _, _, _, _, h, by simp, ?_⟩
    have hlive := SegmentLog.empty.live_open NewestSnap.empty rfl hopen
    exact hlive.trans (by rw [live_loaded (by simp)]; rfl)
  | stepped a _ hclock ha ih =>
    obtain ⟨wal, snap, older, id, cur, h, hfaithful⟩ := ih
    obtain ⟨wal', snap', older', id', cur', h', hadvances⟩ := h.step hclock ha.1
    exact ⟨_, _, _, _, _, h', hfaithful.step h.sound ha hadvances⟩
  | reopened _ hro hopen ih =>
    obtain ⟨wal, snap, older, id, cur, h, hfaithful⟩ := ih
    obtain ⟨wal', h'⟩ := h.reopened hro hopen
    refine ⟨_, _, _, _, _, h', hfaithful.exported, ?_⟩
    obtain ⟨log, -, hfiles, hholds, hbuf, -, hsnap, -⟩ := h.synced
    have hlive := (hholds.segmentLog hbuf).live_open hsnap hfiles hopen
    rw [live_loaded hfaithful.exported] at hlive
    refine hlive.trans ?_
    rw [h'.followed_eq]
    simp

/-! ## What a crash can leave -/

/-- A crash while the temporary file is written leaves it there and the other files alone, or
comes after the rename. -/
theorem Crashed.writes {tmp snapshot : Name} {rest : List FsOp} {files' : Files}
    (writes : List FsOp) :
    (∀ op ∈ writes, ∃ offset data, op = .pwrite tmp offset data) → ∀ files : Files, tmp ∈ files →
      Crashed files (writes ++ .rename tmp snapshot :: rest) files' →
      (tmp ∈ files' ∧ ∀ n ≠ tmp, files'.lookup n = files.lookup n) ∨
        Crashed ((writes ++ [FsOp.rename tmp snapshot]).foldl applyOp files) rest files' := by
  induction writes with
  | nil =>
    intro _ files htmp h
    cases h with
    | here => exact Or.inl ⟨htmp, fun _ _ => rfl⟩
    | done h => exact Or.inr h
  | cons op writes ih =>
    intro hwrites files htmp h
    obtain ⟨offset, data, rfl⟩ := hwrites op (by simp)
    have hpatched : ∀ data : Bytes, tmp ∈ applyOp files (.pwrite tmp offset data) ∧
        ∀ n ≠ tmp, (applyOp files (.pwrite tmp offset data)).lookup n = files.lookup n := by
      intro data
      obtain ⟨old, hold⟩ := Option.isSome_iff_exists.mp (AList.lookup_isSome.mpr htmp)
      simp only [applyOp, hold]
      exact ⟨(AList.mem_insert _).mpr (Or.inl rfl), fun n hn => AList.lookup_insert_ne hn⟩
    cases h with
    | here => exact Or.inl ⟨htmp, fun _ _ => rfl⟩
    | torn _ _ _ _ _ m => exact Or.inl (hpatched (data.take m))
    | done h =>
      refine (ih (fun op hop => hwrites op (by simp [hop])) _ (hpatched data).1 h).imp_left ?_
      rintro ⟨hmem, hsame⟩
      exact ⟨hmem, fun n hn => (hsame n hn).trans ((hpatched data).2 n hn)⟩

/-- A crash during a checkpoint comes before it starts, while the temporary file is there, or
after the rename. -/
theorem Crashed.checkpoint {tmp snapshot : Name} {writes rest : List FsOp} {files files' : Files}
    (hwrites : ∀ op ∈ writes, ∃ offset data, op = .pwrite tmp offset data)
    (h : Crashed files (.create tmp :: writes ++ [.rename tmp snapshot] ++ rest) files') :
    files' = files ∨ (tmp ∈ files' ∧ ∀ n ≠ tmp, files'.lookup n = files.lookup n) ∨
      Crashed ((FsOp.create tmp :: writes ++ [FsOp.rename tmp snapshot]).foldl applyOp files) rest
        files' := by
  rw [List.append_assoc] at h
  cases h with
  | here => exact Or.inl rfl
  | done h =>
    right
    have htmp : tmp ∈ applyOp files (.create tmp) := by
      rw [← AList.lookup_isSome, lookup_create]
      rfl
    refine (h.writes writes hwrites _ htmp).imp_left fun ⟨hmem, hsame⟩ => ⟨hmem, fun n hn => ?_⟩
    rw [hsame n hn, lookup_create_ne _ hn]

/-- A directory after the rename: the snapshot is the newest one, and the log is older. -/
structure Renamed (snap : Snap) (segId : Uuid) (files : Files) : Prop where
  /-- The snapshot. -/
  snapshot : snap.In files
  /-- The log. -/
  log : ∃ segs, SegmentLog files segs ∧ (∀ r ∈ segs.flatMap Prod.snd, r.ts ≤ snap.ts) ∧
    ∀ seg ∈ segs, seg.1 ≤ segId

/-- The last changes of a checkpoint keep it so. -/
theorem Renamed.apply {snap : Snap} {segId : Uuid} {files : Files} (h : Renamed snap segId files)
    {op : FsOp} (hop : op = .create (segName segId.hex) ∨ op.Trims snap.id) :
    Renamed snap segId (applyOp files op) := by
  obtain ⟨segs, hlog, hts, hle⟩ := h.log
  rcases hop with rfl | ⟨id, rfl⟩ | ⟨n, rfl, hmatch, hne⟩
  · have hsnap : NewestSnap files (some snap) := h.snapshot
    refine ⟨hsnap.of_lookup fun n hn => lookup_create_ne _ ?_, ?_⟩
    · rintro rfl
      exact hn (matchName_snap_segName segId)
    · by_cases hmem : segName segId.hex ∈ files
      · rw [show applyOp files (.create (segName segId.hex)) = files from if_pos hmem]
        exact ⟨segs, hlog, hts, hle⟩
      · have hlt : ∀ seg ∈ segs, seg.1 < segId := by
          intro seg hseg
          refine lt_of_le_of_ne (hle seg hseg) fun heq => hmem ?_
          rw [← heq]
          exact hlog.dir.present seg.1 (List.mem_map_of_mem hseg)
        refine ⟨segs ++ [(segId, [])], hlog.create hlt, by simpa using hts, fun seg hseg => ?_⟩
        rcases List.mem_append.mp hseg with hold | hnew
        · exact hle seg hold
        · rw [List.mem_singleton.mp hnew]
  · refine ⟨h.snapshot.remove fun heq => ?_, _, hlog.remove id, fun r hr => ?_, fun seg hseg =>
      hle seg (List.mem_of_mem_filter hseg)⟩
    · refine (isSnap_snapName snap.id).matchName_ne ?_
      rw [← heq]
      exact matchName_snap_segName id
    · obtain ⟨seg, hseg, hmem⟩ := List.mem_flatMap.mp hr
      exact hts r (List.mem_flatMap.mpr ⟨seg, List.mem_of_mem_filter hseg, hmem⟩)
  · refine ⟨h.snapshot.remove hne, segs, hlog.of_segments fun m hm => ?_, hts, hle⟩
    refine AList.lookup_erase_ne fun heq => ?_
    subst heq
    exact (matchName_exclusive m).elim hm hmatch

/-- So does a crash in the middle of them. -/
theorem Renamed.crashed {snap : Snap} {segId : Uuid} {files files' : Files} {ops : List FsOp}
    (hcrash : Crashed files ops files') (h : Renamed snap segId files)
    (hops : ∀ op ∈ ops, op = .create (segName segId.hex) ∨ op.Trims snap.id) :
    Renamed snap segId files' := by
  induction hcrash with
  | here => exact h
  | done _ ih =>
    exact ih (h.apply (hops _ (by simp))) fun op hop => hops op (by simp [hop])
  | torn _ name offset data _ n =>
    rcases hops (.pwrite name offset data) (by simp) with heq | ⟨id, heq⟩ | ⟨n, heq, -⟩ <;>
      cases heq
  | kept _ ih => exact ih h fun op hop => hops op (by simp [hop])

/-! ## What is recovered -/

/-- After a crash nothing is lost: the directory can be opened, every key reads as before, and
the snapshot that is picked, if any, is a complete one under its final name. -/
structure Survives (s : Sys) (files' : Files) : Prop where
  /-- The directory opens with the same contents. -/
  opens : ∀ (opts : Opts) (fresh : Uuid), ∃ w, fastkvOpen opts fresh ⟨files', [], []⟩ = .ok w ∧
    ∀ key, (fastkvGet w key).1 = (fastkvGet s.world key).1
  /-- The snapshot is complete and renamed. -/
  complete : ∀ n, findLatestSnapshot files' = some n → ∃ (id : Uuid) (ts : ℕ) (ht : Ht),
    n = snapName id.hex ∧ files'.lookup n = some (snapshotBytes ts ht)

/-- A directory that stands for the map in memory is as good as the database. -/
theorem Survives.of_contents {s : Sys} (hsound : s.Sound) (hclock : s.clock + 1 < tsMax)
    {files' : Files} {snap : Option Snap} {segs : List (Uuid × List Record)}
    (hsnap : NewestSnap files' snap) (hlog : SegmentLog files' segs)
    (hexported : ∀ sn ∈ snap, sn.ht.Exportable ∧ sn.ht.OneLive ∧ sn.ht.NoEmpty)
    (hsnapTs : snapTs snap ≤ s.clock) (hts : ∀ r ∈ segs.flatMap Prod.snd, r.ts ≤ s.clock)
    (hcontents : s.world.db.ht.live = updates (snapMap snap)
      ((segs.flatMap Prod.snd).filter (Record.wanted (snapTs snap)))) : Survives s files' := by
  refine ⟨fun opts fresh => ?_, fun n hn => ?_⟩
  · obtain ⟨w, hopen⟩ := hsnap.open_ok opts fresh
    refine ⟨w, hopen, fun key => ?_⟩
    have hlt : ∀ r ∈ segs.flatMap Prod.snd, r.ts < s.clock + 1 := fun r hr =>
      Nat.lt_succ_of_le (hts r hr)
    obtain ⟨-, hle, -⟩ := hlog.clock_open hsnap hclock.le (Nat.lt_succ_of_le hsnapTs) hlt hopen
    have hintact := hlog.intact hsnap (fun r hr => (hlt r hr).trans hclock) opts
    obtain ⟨hbounded, -, -⟩ := fastkvOpen_invariant hintact hopen
    have hlive := hlog.live_open hsnap rfl hopen
    rw [live_loaded hexported, ← hcontents] at hlive
    rw [fastkvGet_eq hbounded (by omega), hlive,
      fastkvGet_eq hsound.bounded (by show s.clock < tsMax; omega)]
  · cases snap with
    | none =>
      rw [findLatestSnapshot_eq_none hsnap] at hn
      cases hn
    | some sn =>
      rw [Snap.In.find hsnap] at hn
      cases hn
      exact ⟨sn.id, sn.ts, sn.ht, rfl, Snap.In.file hsnap⟩

/-- A temporary file with the newest identifier is picked, so the crash is not survived. -/
theorem not_survives_of_tmp {s : Sys} {files files' : Files} {snapId segId : Uuid}
    (hnames : NamesGrow files snapId segId) {snap : Option Snap} (hsnap : NewestSnap files snap)
    (htmp : snapTmpName snapId.hex ∈ files')
    (hsame : ∀ n ≠ snapTmpName snapId.hex, files'.lookup n = files.lookup n) :
    ¬ Survives s files' := by
  intro h
  have hfind : findLatestSnapshot files' = some (snapTmpName snapId.hex) := by
    refine findLatestSnapshot_eq (isSnap_snapTmpName snapId) htmp fun n hn => ?_
    by_cases heq : n = snapTmpName snapId.hex
    · exact Or.inr (Or.inl heq)
    · rw [← AList.lookup_isSome, hsame n heq, AList.lookup_isSome] at hn
      exact (hnames.names hsnap n hn).imp_right Or.inr
  obtain ⟨id, -, -, heq, -⟩ := h.complete _ hfind
  exact snapTmpName_ne_snapName snapId id heq

/-- Before its first change a checkpoint has changed nothing. -/
theorem Durable.survives {s : Sys} {wal : Wal} {snap : Option Snap}
    {older : List (Uuid × List Record)} {id : Uuid} {cur : List Record}
    (h : Durable s wal snap older id cur) (hfaithful : Faithful s snap)
    (hclock : s.clock + 1 < tsMax) (hsynced : wal.buf = []) : Survives s s.world.disk.files := by
  have hrecords : (older ++ [(id, cur)]).flatMap Prod.snd = older.flatMap Prod.snd ++ cur := by simp
  refine .of_contents h.sound hclock h.snapshot (h.holds.segmentLog hsynced) hfaithful.exported
    ?_ ?_ ?_
  · cases hsn : snap with
    | none => exact Nat.zero_le _
    | some sn =>
      refine h.chronicle.checkpoints sn.ts sn.id (mem_of_followed ?_)
      rw [h.followed_eq, hsn]
      rfl
  · rw [hrecords]
    exact fun r hr => (h.stamps r hr).1.le
  · rw [hrecords, hfaithful.contents, h.followed_eq]

/-- After the rename the new snapshot has everything. -/
theorem Renamed.survives {s : Sys} (hsound : s.Sound) (hclock : s.clock + 1 < tsMax)
    (hexport : s.world.db.ht.Exportable) {snapId segId : Uuid} {files' : Files}
    (h : Renamed ⟨snapId, s.clock, s.world.db.ht⟩ segId files') :
    Survives s files' ∧ snapTmpName snapId.hex ∉ files' := by
  obtain ⟨segs, hlog, hts, -⟩ := h.log
  constructor
  · have hsnap : NewestSnap files' (some ⟨snapId, s.clock, s.world.db.ht⟩) := h.snapshot
    refine .of_contents hsound hclock hsnap hlog (fun sn hsn => ?_) (Nat.le_refl _) hts ?_
    · cases hsn
      exact ⟨hexport, hsound.oneLive, hsound.noEmpty⟩
    · have hnone : (segs.flatMap Prod.snd).filter (Record.wanted s.clock) = [] := by
        refine List.filter_eq_nil_iff.mpr fun r hr => ?_
        simp [Record.wanted, not_lt.mpr (hts r hr)]
      rw [show snapTs (some ⟨snapId, s.clock, s.world.db.ht⟩) = s.clock from rfl, hnone]
      rfl
  · intro htmp
    rcases h.snapshot.newest _ htmp with hnone | heq | ⟨id, hlt, hid⟩
    · exact (isSnap_snapTmpName snapId).matchName_ne hnone
    · exact snapTmpName_ne_snapName snapId snapId heq
    · exact absurd (hid.unique (isSnap_snapTmpName snapId)) (ne_of_lt hlt)

/-- For every state of a database whose log is synced and in which no bucket has two live
keys, and every crash during a checkpoint with new identifiers: the crash is survived exactly
if it does not leave the temporary file of the snapshot. -/
theorem checkpoint_crash_survives_iff {s : Sys} (h : Served ExportsAfterCheckpoint s)
    (hclock : s.clock + 1 < tsMax) {wal : Wal} (hwal : s.world.db.wal = some wal)
    (hsynced : wal.buf = []) {snapId segId : Uuid} {now : ℕ}
    (hstep : ExportsAfterCheckpoint s (.checkpoint snapId segId now)) {files' : Files}
    (hcrash : Crashed s.world.disk.files (s.checkpointOps snapId segId now) files') :
    Survives s files' ↔ snapTmpName snapId.hex ∉ files' := by
  obtain ⟨wal', snap, older, id, cur, hdurable, hfaithful⟩ := h.faithful
  rw [hdurable.wal_eq] at hwal
  cases hwal
  have hnames : NamesGrow s.world.disk.files snapId segId := hstep.1
  obtain ⟨log, wal₁, n, hsync, -, -, hdone⟩ := hdurable.checkpoint_ok (by omega) hnames now
  obtain ⟨disk, writes, removes, hwritten, hdid, htrims⟩ := hdone.did
  -- syncing a synced log changes nothing
  have hflush := flushBuf_of_empty (hdurable.holds.attached.working hdurable.quiet) hsynced
  rw [show flushBuf true ⟨wal, s.world.disk⟩ = (.ok, log) from hsync] at hflush
  have hfiles : log.disk.files = s.world.disk.files := congrArg (fun r => r.2.disk.files) hflush
  have htrace : log.disk.trace = s.world.disk.trace := congrArg (fun r => r.2.disk.trace) hflush
  rw [Sys.checkpointOps, (hwritten.did.trans hdid).trace, htrace, List.drop_left, ← hfiles]
    at hcrash
  rcases hcrash.checkpoint hwritten.writes with rfl | ⟨htmp, hsame⟩ | hcrash
  · rw [hfiles]
    refine iff_of_true (hdurable.survives hfaithful hclock hsynced) fun hmem => ?_
    exact absurd (hnames.snapshots _ hmem snapId (isSnap_snapTmpName snapId)) (lt_irrefl _)
  · rw [hfiles] at hsame
    exact iff_of_false (not_survives_of_tmp hnames hdurable.snapshot htmp hsame) fun hn => hn htmp
  · rw [← hwritten.did.files] at hcrash
    have hsegments : ∀ n, matchName walPfx walSfx n ≠ none →
        disk.files.lookup n = s.world.disk.files.lookup n := fun n hn => by
      rw [hwritten.lookup_segment n hn, hfiles]
    have hlog := (hdurable.holds.segmentLog hsynced).of_segments hsegments
    have hrenamed : Renamed ⟨snapId, s.clock, s.world.db.ht⟩ segId disk.files := by
      refine ⟨hwritten.snapIn (by rw [hfiles]; exact hnames)
        (by rw [hfiles]; exact hdurable.snapshot)
        hdurable.fitsEntries (by omega), _, hlog, fun r hr => ?_, fun seg hseg => ?_⟩
      · exact (hdurable.stamps r (by simpa using hr)).1.le
      · have hpresent := (hdurable.holds.segmentLog hsynced).dir.present seg.1
          (List.mem_map_of_mem hseg)
        exact (hnames.segments seg.1 hpresent).le
    obtain ⟨hsurvives, htmp⟩ := (hrenamed.crashed hcrash fun op hop => by
      rcases List.mem_cons.mp hop with rfl | hop
      · exact Or.inl rfl
      · exact Or.inr (htrims op hop)).survives hdurable.sound hclock (hstep.2 snapId segId now rfl)
    exact iff_of_true hsurvives htmp

/-- A commit and a checkpoint. -/
def oneCheckpoint : List Action :=
  [.call (.begin false), .call (.put 0 [1] (some [10])), .call (.commit 0),
    .checkpoint secondId secondId 0]

/-- A database with one key and a snapshot. -/
def checkpointedSys : Sys := run (Sys.start newWorld) oneCheckpoint

/-- A crash of the next checkpoint right after the rename is survived. -/
theorem crash_after_rename_survives : Survives checkpointedSys
    (((checkpointedSys.checkpointOps thirdId thirdId 0).take 3).foldl applyOp
      checkpointedSys.world.disk.files) := by
  have hserved : Served ExportsAfterCheckpoint (Sys.start newWorld) := .created rfl newWorld_opened
  have hnames : NamesGrow (run (Sys.start newWorld) (oneCheckpoint.take 3)).world.disk.files
      secondId secondId := .of_keys [firstId] (by decide +kernel) (by decide)
  have hexport : (run (Sys.start newWorld) (oneCheckpoint.take 3)).world.db.ht.Exportable := by
    unfold Ht.Exportable
    decide +kernel
  have hcall : ∀ (s : Sys) (c : Call), AfterCheckpoint s (.call c) →
      ExportsAfterCheckpoint s (.call c) := fun s c h => ⟨h, fun _ _ _ heq => by cases heq⟩
  have hnone : (run (Sys.start newWorld) (oneCheckpoint.take 2)).history = [] := by decide +kernel
  have hpermitted : Always ExportsAfterCheckpoint (Sys.start newWorld) oneCheckpoint := by
    refine ⟨hcall _ _ trivial, hcall _ _ trivial, hcall _ _ fun txn _ _ ts id hmem => ?_,
      ⟨hnames, fun _ _ _ _ => hexport⟩, trivial⟩
    have hmem' : .checkpoint ts id ∈
        (run (Sys.start newWorld) (oneCheckpoint.take 2)).history := hmem
    rw [hnone] at hmem'
    cases hmem'
  have hnext : ExportsAfterCheckpoint checkpointedSys (.checkpoint thirdId thirdId 0) := by
    refine ⟨.of_keys [firstId, secondId] (by decide +kernel) (by decide), fun _ _ _ _ => ?_⟩
    unfold Ht.Exportable
    decide +kernel
  obtain ⟨wal, hwal⟩ : ∃ wal, checkpointedSys.world.db.wal = some wal :=
    Option.isSome_iff_exists.mp (by decide +kernel)
  have hsynced : ∀ wal ∈ checkpointedSys.world.db.wal, wal.buf = [] := by decide +kernel
  refine (checkpoint_crash_survives_iff (hserved.run (fun _ _ h => h.1) oneCheckpoint (by decide)
    hpermitted) (by decide +kernel) hwal (hsynced wal hwal) hnext (Crashed.take _ 3 _)).mpr ?_
  decide +kernel

/-- A crash right after the temporary file is created shadows the good snapshot: the directory
cannot be opened any more. -/
theorem crash_after_create_is_fatal :
    Crashed checkpointedSys.world.disk.files (checkpointedSys.checkpointOps thirdId thirdId 0)
        (((checkpointedSys.checkpointOps thirdId thirdId 0).take 1).foldl applyOp
          checkpointedSys.world.disk.files) ∧
      (fastkvOpen oneBucket firstId
        ⟨((checkpointedSys.checkpointOps thirdId thirdId 0).take 1).foldl
        applyOp checkpointedSys.world.disk.files, [], []⟩).isOk = false :=
  ⟨Crashed.take _ 1 _, by decide +kernel⟩

end FastKV
