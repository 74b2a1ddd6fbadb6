import FastKV.Killed
import FastKV.ReplHook

/-!
# A life with synchronous writes

With synchronous writes every append ends with a flush, and so does every checkpoint. Between
two calls the log is synced, and the directory is the one that closing the database would
leave. The process may be killed there any number of times, and once in the middle of a call:
no acknowledged commit is ever lost.
-/

namespace FastKV

open Lib

/-- The states of a database with synchronous writes, in runs where the process may be killed
between any two calls. The directory is then opened as it is. -/
inductive SyncedLife : Sys → Prop
  /-- A database in an empty directory. -/
  | created {opts : Opts} {fresh : Uuid} {w : World} : opts.readOnly = false →
      opts.syncWrites = true → fastkvOpen opts fresh ⟨∅, [], []⟩ = .ok w →
      SyncedLife (Sys.start w)
  /-- An action. -/
  | stepped {s : Sys} (a : Action) : SyncedLife s → s.clock + 1 < tsMax →
      ExportsAfterCheckpoint s a → SyncedLife (step s a).2
  /-- The process is killed. -/
  | killed {s : Sys} {opts : Opts} {fresh : Uuid} {w : World} : SyncedLife s →
      opts.readOnly = false → opts.syncWrites = true →
      fastkvOpen opts fresh ⟨s.world.disk.files, [], []⟩ = .ok w →
      SyncedLife ⟨w, [], s.history⟩

/-- The log syncs its writes and has nothing in its buffer. -/
structure Wal.Synced (wal : Wal) : Prop where
  /-- Writes are synced. -/
  mode : wal.syncWrites = true
  /-- Nothing is waiting. -/
  empty : wal.buf = []

/-- The log of a database, if there is one, is synced. -/
def World.Synced (w : World) : Prop := ∀ wal ∈ w.db.wal, wal.Synced

/-! ## The log stays synced -/

/-- Opening a database for synchronous writes. -/
theorem fastkvOpen_synced {opts : Opts} {fresh : Uuid} {files : Files} {w : World}
    (hro : opts.readOnly = false) (hsync : opts.syncWrites = true)
    (hopen : fastkvOpen opts fresh ⟨files, [], []⟩ = .ok w) : w.Synced := by
  obtain ⟨log, hwalOpen, hwal, -, -⟩ := fastkvOpen_log (fun o ho => by cases ho) hopen hro
  obtain ⟨-, hmode, -, hbuf, -⟩ := walOpen_spec hwalOpen
  intro wal hmem
  rw [hwal, Option.mem_some_iff] at hmem
  subst hmem
  exact ⟨hmode.trans hsync, hbuf⟩

/-- Appends leave nothing in the buffer. -/
theorem appendAll_synced {name : Name} {s₀ : Log} (rs : List Record) : ∀ {s : Log},
    Log.Attached s₀ name s → s.disk.Quiet → s.wal.buf.length ≤ walBufCap → s.wal.Synced →
      (appendAll rs s).2.wal.Synced := by
  induction rs with
  | nil => exact fun _ _ _ h => h
  | cons r rs ih =>
    intro s hatt hquiet hcap hsynced
    have hspec := walAppend_spec hatt hcap r
    obtain ⟨hok, hworking⟩ := walAppend_working (hatt.working hquiet) r
    have hmode : s₀.wal.syncWrites = true := hatt.sync.symm.trans hsynced.mode
    unfold appendAll
    simp only [hok, if_true]
    exact ih hspec.attached hworking.quiet hspec.le_cap
      ⟨hspec.attached.sync.trans hmode, walAppend_buf hatt hquiet hcap hmode r⟩

/-- A flush or a rotation keeps the mode. -/
theorem walRotate_syncWrites (fresh : Uuid) (s : Log) :
    (walRotate fresh s).2.wal.syncWrites = s.wal.syncWrites := by
  have hflush := (flushBuf_sameHook true s).syncWrites
  unfold walRotate
  simp only
  split <;> exact hflush

section Durable

variable {s : Sys} {wal : Wal} {snap : Option Snap} {older : List (Uuid × List Record)}
  {id : Uuid} {cur : List Record}

/-- A checkpoint keeps the mode of the log. -/
theorem Durable.checkpoint_syncWrites (h : Durable s wal snap older id cur) (snapId segId : Uuid)
    (now : ℕ) : ∀ wal' ∈ (fastkvCheckpoint s.world snapId segId now).2.db.wal,
      wal'.syncWrites = wal.syncWrites := by
  obtain ⟨log, disk, log', hsync, hsnap, hrotate, -⟩ :=
    h.working.checkpoint_calls h.wal_eq snapId segId
  have hflushed := (flushBuf_sameHook true ⟨wal, s.world.disk⟩).syncWrites
  rw [show flushBuf true ⟨wal, s.world.disk⟩ = (.ok, log) from hsync] at hflushed
  have hrotated := walRotate_syncWrites segId ⟨log.wal, disk⟩
  rw [hrotate] at hrotated
  rw [fastkvCheckpoint_of_ok h.wal_eq hsync hsnap hrotate now, (checkpointMemory_log
    (w := ⟨{ s.world.db with wal := some log'.wal },
      snapshotTrim snapId.hex (walTrim log.wal.segmentId log'.disk)⟩) h.sound.ttl now).1]
  intro wal' hmem
  cases hmem
  exact hrotated.trans hflushed

/-- An action keeps the log synced. -/
theorem Durable.step_synced (h : Durable s wal snap older id cur) (hsynced : s.world.Synced)
    (hclock : s.clock + 1 < tsMax) {a : Action} (ha : AfterCheckpoint s a) :
    (FastKV.step s a).2.world.Synced := by
  have heffect := step_effect (fun i txn hopen => (h.sound.txns i txn hopen).readOnly) a
  generalize FastKV.step s a = r at heffect
  cases heffect with
  | manager mgr _ hworld _ =>
    rw [hworld]
    exact hsynced
  | @applied i txn _ mgr hopen happlies _ _ hworld _ =>
    have hworking := h.holds.attached.working h.quiet
    obtain ⟨happends, -⟩ :=
      appendAll_working (txn.writes.map fun e => e.record s.clock) _ hworking
    have happly := dbApplyWriteSet_of_ok txn.writes s.world.drawn h.wal_eq happends
    have hall := appendAll_synced (txn.writes.map fun e => e.record s.clock) h.holds.attached
      h.quiet h.holds.le_cap (hsynced wal h.wal_eq)
    rw [hworld, happly]
    intro wal' hmem
    cases hmem
    exact hall
  | collected hworld _ =>
    rw [hworld]
    exact hsynced
  | @checkpointed snapId segId now _ _ hworld _ =>
    obtain ⟨log, wal', n, -, -, hdb, hdone⟩ := h.checkpoint_ok (by omega) ha now
    have hmode := h.checkpoint_syncWrites snapId segId now
    rw [hdb] at hmode
    rw [hworld, World.Synced, hdb]
    intro wal'' hmem
    cases hmem
    -- the new segment has accepted nothing
    have hnothing : Log.stream _ _ = [] := hdone.holds.stream
    exact ⟨(hmode wal' rfl).trans (hsynced wal h.wal_eq).mode,
      (List.append_eq_nil_iff.mp hnothing).2⟩

/-- Closing a database whose log is synced leaves the directory as it is. -/
theorem Durable.syncedFiles_eq (h : Durable s wal snap older id cur) (hsynced : s.world.Synced) :
    s.syncedFiles = s.world.disk.files := by
  have hflush := flushBuf_of_empty (h.holds.attached.working h.quiet)
    (hsynced wal h.wal_eq).empty
  unfold Sys.syncedFiles
  simp only [h.wal_eq, walSync, hflush]

end Durable

/-- All the time the log is synced, and being killed is as good as being closed. -/
theorem SyncedLife.served {s : Sys} (h : SyncedLife s) :
    Served ExportsAfterCheckpoint s ∧ s.world.Synced := by
  induction h with
  | created hro hsync hopen => exact ⟨.created hro hopen, fastkvOpen_synced hro hsync hopen⟩
  | stepped a _ hclock ha ih =>
    obtain ⟨wal, snap, older, id, cur, hdurable⟩ := ih.1.durable fun _ _ h => h.1
    exact ⟨.stepped a ih.1 hclock ha, hdurable.step_synced ih.2 hclock ha.1⟩
  | killed _ hro hsync hopen ih =>
    obtain ⟨wal, snap, older, id, cur, hdurable⟩ := ih.1.durable fun _ _ h => h.1
    have hclosed := hopen
    rw [← hdurable.syncedFiles_eq ih.2] at hclosed
    exact ⟨.reopened ih.1 hro hclosed, fastkvOpen_synced hro hsync hopen⟩

/-- Permitted runs lead from states of the database to states of the database. -/
theorem SyncedLife.run (actions : List Action) : ∀ {s : Sys}, SyncedLife s →
    s.clock + actions.length < tsMax → Always ExportsAfterCheckpoint s actions →
      SyncedLife (FastKV.run s actions) := by
  induction actions with
  | nil => exact fun h _ _ => h
  | cons a as ih =>
    intro s h hclock ha
    rw [List.length_cons] at hclock
    obtain ⟨wal, snap, older, id, cur, hdurable⟩ := h.served.1.durable fun _ _ h => h.1
    obtain ⟨-, -, hle⟩ := hdurable.sound.step (by omega) a
    exact ih (s := (FastKV.step s a).2) (.stepped a h (by omega) ha.1) (by omega) ha.2

end FastKV
