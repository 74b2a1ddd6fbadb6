import FastKV.LogAtomicity

/-!
# Appending and replaying

Records are appended to a log, with syncs, rotations and restarts in any order between them.
The bytes of a record may still be in the buffer of the handle when the directory is read;
once the buffer is empty, a replay hands out exactly the records that were appended. It does
so up to the last complete record if the newest segment is cut.
-/

namespace FastKV

open Lib

/-! ## Sequences of calls -/

/-- A call on a log. -/
inductive WalOp
  /-- `fastkv_wal_append`. -/
  | append (r : Record)
  /-- `fastkv_wal_sync`. -/
  | sync
  /-- `fastkv_wal_rotate`. -/
  | rotate (fresh : Uuid)
  /-- `fastkv_wal_close` and `fastkv_wal_open`. -/
  | reopen (syncWrites : Bool) (fresh : Uuid)
  deriving DecidableEq

/-- Execute a call. -/
def WalOp.run (s : Log) : WalOp → Log
  | .append r => (walAppend r s).2
  | .sync => (walSync s).2
  | .rotate fresh => (walRotate fresh s).2
  | .reopen syncWrites fresh => (walOpen syncWrites fresh (walClose s).2).2.getD s

/-- Records have permitted sizes, and new segments have later names. -/
def WalOp.Permitted (s : Log) : WalOp → Prop
  | .append r => r.Valid
  | .rotate fresh => s.wal.segmentId < fresh.hex
  | _ => True

/-- Execute a sequence of calls. -/
def runWal (s : Log) (ops : List WalOp) : Log := ops.foldl WalOp.run s

/-- All calls of a sequence are permitted. -/
def WalOp.AllPermitted : Log → List WalOp → Prop
  | _, [] => True
  | s, op :: ops => op.Permitted s ∧ AllPermitted (op.run s) ops

/-- The record that a call appends. -/
def WalOp.record : WalOp → Option Record
  | .append r => some r
  | _ => none

/-- The records of a sequence of calls, in order. -/
def appended (ops : List WalOp) : List Record := ops.filterMap WalOp.record

/-- The records after the last rotation, following those given before. -/
def lastSegment : List Record → List WalOp → List Record
  | rs, [] => rs
  | rs, .append r :: ops => lastSegment (rs ++ [r]) ops
  | _, .rotate _ :: ops => lastSegment [] ops
  | rs, _ :: ops => lastSegment rs ops

/-- The call leaves nothing in the buffer of a handle with the given mode. -/
def WalOp.flushes (syncWrites : Bool) : WalOp → Bool
  | .append _ => syncWrites
  | _ => true

/-! ## What they write -/

/-- Closing and opening a log keeps its records and empties its buffer. -/
theorem Log.Holds.reopen {s : Log} {older : List (Uuid × List Record)} {id : Uuid}
    {cur : List Record} (h : s.Holds older id cur) (hquiet : s.disk.Quiet) (syncWrites : Bool)
    (fresh : Uuid) : (WalOp.run s (.reopen syncWrites fresh)).Holds older id cur ∧
      (WalOp.run s (.reopen syncWrites fresh)).disk.Quiet ∧
      (WalOp.run s (.reopen syncWrites fresh)).wal.buf = [] := by
  obtain ⟨hflush, hempty⟩ := h.flush true
  obtain ⟨hok, hworking⟩ := flushBuf_working (h.attached.working hquiet) true
  obtain ⟨log, hopen, hquiet'⟩ := walOpen_quiet (d := (walClose s).2) hworking.quiet
    syncWrites fresh
  have hrun : WalOp.run s (.reopen syncWrites fresh) = log := by rw [WalOp.run, hopen]; rfl
  obtain ⟨-, -, -, hbuf, -, -⟩ := walOpen_spec hopen
  rw [hrun]
  exact ⟨hflush.opened (hempty hok) rfl hopen, hquiet', hbuf⟩

/-- The log holds the given records, the last of them in its newest segment, and nothing will
fail. -/
structure WalHolds (s : Log) (rs last : List Record) : Prop where
  /-- The segments. -/
  holds : ∃ older id, s.Holds older id last ∧ rs = older.flatMap Prod.snd ++ last
  /-- No call will fail. -/
  quiet : s.disk.Quiet

/-- What one call does. -/
theorem WalHolds.step {s : Log} {rs last : List Record} (h : WalHolds s rs last) {op : WalOp}
    (hop : op.Permitted s) : WalHolds (op.run s) (rs ++ op.record.toList)
    (lastSegment last [op]) := by
  obtain ⟨older, id, hholds, rfl⟩ := h.holds
  have hworking := hholds.attached.working h.quiet
  cases op with
  | append r =>
    obtain ⟨hok, hworking'⟩ := walAppend_working hworking r
    exact ⟨⟨older, id, hholds.append hop hok, by simp [WalOp.record, lastSegment]⟩, hworking'.quiet⟩
  | sync =>
    obtain ⟨-, hworking'⟩ := flushBuf_working hworking true
    exact ⟨⟨older, id, (hholds.flush true).1, by simp [WalOp.record, lastSegment]⟩, hworking'.quiet⟩
  | rotate fresh =>
    have hlt : id < fresh := by
      have hop' : s.wal.segmentId < fresh.hex := hop
      rw [hholds.segment] at hop'
      exact Uuid.lt_iff.mpr hop'
    obtain ⟨-, hholds', hquiet⟩ := hholds.rotate_quiet h.quiet hlt
    exact ⟨⟨older ++ [(id, last)], fresh, hholds', by simp [WalOp.record, lastSegment]⟩, hquiet⟩
  | reopen syncWrites fresh =>
    obtain ⟨hholds', hquiet, -⟩ := hholds.reopen h.quiet syncWrites fresh
    exact ⟨⟨older, id, hholds', by simp [WalOp.record, lastSegment]⟩, hquiet⟩

/-- The last segment after one more call. -/
theorem lastSegment_cons (last : List Record) (op : WalOp) (ops : List WalOp) :
    lastSegment last (op :: ops) = lastSegment (lastSegment last [op]) ops := by
  cases op <;> rfl

/-- What a sequence of calls does. -/
theorem WalHolds.run (ops : List WalOp) : ∀ {s : Log} {rs last : List Record}, WalHolds s rs last →
    WalOp.AllPermitted s ops → WalHolds (runWal s ops) (rs ++ appended ops)
    (lastSegment last ops) := by
  induction ops with
  | nil =>
    intro s rs last h _
    rw [appended, List.filterMap_nil, List.append_nil]
    exact h
  | cons op ops ih =>
    intro s rs last h hops
    have hrest := ih (h.step hops.1) hops.2
    have hcons : appended (op :: ops) = op.record.toList ++ appended ops := by
      cases op <;> rfl
    rw [hcons, lastSegment_cons, ← List.append_assoc]
    exact hrest

/-- A new log holds nothing. -/
theorem walOpen_walHolds {syncWrites : Bool} {first : Uuid} {s : Log}
    (hopen : walOpen syncWrites first ⟨∅, [], []⟩ = (.ok, some s)) : WalHolds s [] [] := by
  obtain ⟨s', hopen', hquiet⟩ := walOpen_quiet (d := ⟨∅, [], []⟩)
    (fun o ho => absurd ho List.not_mem_nil) syncWrites first
  rw [hopen] at hopen'
  cases hopen'
  exact ⟨⟨[], first, walOpen_holds hopen, rfl⟩, hquiet⟩

/-- All calls but an append to a handle that does not sync leave the buffer empty. -/
theorem WalHolds.buf_run {s : Log} {rs last : List Record} (h : WalHolds s rs last) {op : WalOp}
    (hflushes : op.flushes s.wal.syncWrites = true) : (op.run s).wal.buf = [] := by
  obtain ⟨older, id, hholds, -⟩ := h.holds
  have hworking := hholds.attached.working h.quiet
  have hempty := (hholds.flush true).2 (flushBuf_working hworking true).1
  cases op with
  | append r => exact walAppend_buf hholds.attached h.quiet hholds.le_cap hflushes r
  | sync => exact hempty
  | rotate fresh =>
    rw [WalOp.run, walRotate]
    simp only
    split
    · exact hempty
    · exact hempty
  | reopen syncWrites fresh => exact (hholds.reopen h.quiet syncWrites fresh).2.2

/-! ## What a replay hands out -/

/-- The largest timestamp in complete segments. -/
theorem SegmentLog.foldl_segmentMaxTs {files : Files} {segs : List (Uuid × List Record)}
    (h : ∀ seg ∈ segs, SegmentHolds files seg) : ∀ m : ℕ,
      (segs.map fun seg => seg.1.hex).foldl (segmentMaxTs files) m =
        (segs.flatMap Prod.snd).foldl (fun m r => max m r.ts) m := by
  induction segs with
  | nil => exact fun m => rfl
  | cons seg segs ih =>
    intro m
    obtain ⟨bytes, hbytes, hscan⟩ := (h seg List.mem_cons_self).file
    have hseg : segmentMaxTs files m seg.1.hex = seg.2.foldl (fun m r => max m r.ts) m := by
      rw [segmentMaxTs, hbytes]
      simp only [hscan, List.foldl_map]
      rfl
    rw [List.map_cons, List.foldl_cons, List.flatMap_cons, List.foldl_append, hseg]
    exact ih (fun seg' hseg' => h seg' (List.mem_cons_of_mem _ hseg')) _

/-- A replay of complete segments runs its callback on what it delivers and reports the largest
timestamp in them. -/
theorem SegmentLog.walReplay_eq {files : Files} {segs : List (Uuid × List Record)}
    (h : SegmentLog files segs) (hne : segs ≠ []) {σ : Type} (sinceTs : ℕ) (step : Record → σ → σ)
    (s : σ) (maxTsOut : ℕ) :
    walReplay sinceTs (fun r s => (.ok, step r s)) files s maxTsOut =
      (.ok, (delivered sinceTs files).foldl (fun s r => step r s) s,
        (segs.flatMap Prod.snd).foldl (fun m r => max m r.ts) sinceTs) := by
  have hids : collectSegments files = segs.map fun seg => seg.1.hex := by
    rw [h.dir.collectSegments_eq, List.map_map]
    rfl
  rw [delivered_eq, ← SegmentLog.foldl_segmentMaxTs h.holds, replayed, hids, walReplay, hids]
  cases segs with
  | nil => exact absurd rfl hne
  | cons seg segs => exact replaySegments_eq sinceTs step files _ s sinceTs

/-- A replay of the directory with the given callback runs it on the wanted ones of the
records, in order and with their type, timestamp, key and value bytes, and reports the largest
timestamp. -/
def ReplaysExactly (sinceTs : ℕ) (files : Files) (rs : List Record) : Prop :=
  ∃ out : List Record,
    out.map Record.content = (rs.filter (Record.wanted sinceTs)).map Record.content ∧
    ∀ (σ : Type) (step : Record → σ → σ) (s : σ) (maxTsOut : ℕ),
      walReplay sinceTs (fun r s => (.ok, step r s)) files s maxTsOut =
        (.ok, out.foldl (fun s r => step r s) s, rs.foldl (fun m r => max m r.ts) sinceTs)

/-- Complete segments are replayed exactly. -/
theorem SegmentLog.replaysExactly {files : Files} {segs : List (Uuid × List Record)}
    (h : SegmentLog files segs) (hne : segs ≠ []) (sinceTs : ℕ) :
    ReplaysExactly sinceTs files (segs.flatMap Prod.snd) :=
  ⟨delivered sinceTs files, h.delivered_content sinceTs,
    fun _ step s maxTsOut => h.walReplay_eq hne sinceTs step s maxTsOut⟩

/-- Records are appended to a new log, with syncs, rotations and restarts between them, and no
call fails. When nothing is left in the buffer, a replay from any timestamp runs its callback
on exactly the wanted records, and after a cut of the newest segment on exactly those that lie
before the cut. Nothing is left after every call that is not an append, and with synchronous
writes after appends as well. -/
theorem wal_roundTrip {syncWrites : Bool} {first : Uuid} {s₀ : Log}
    (hopen : walOpen syncWrites first ⟨∅, [], []⟩ = (.ok, some s₀)) {ops : List WalOp}
    (hops : WalOp.AllPermitted s₀ ops) :
    ((runWal s₀ ops).wal.buf = [] →
      ∃ before, appended ops = before ++ lastSegment [] ops ∧ ∀ sinceTs,
        ReplaysExactly sinceTs (runWal s₀ ops).disk.files (appended ops) ∧
        ∀ pos, ReplaysExactly sinceTs
          (cutFile (runWal s₀ ops).disk.files (segName (runWal s₀ ops).wal.segmentId) pos)
          (before ++ (lastSegment [] ops).take (wholeRecords (lastSegment [] ops) pos))) ∧
      ∀ ops' op, ops = ops' ++ [op] → op.flushes (runWal s₀ ops').wal.syncWrites = true →
        (runWal s₀ ops).wal.buf = [] := by
  have hstart := walOpen_walHolds hopen
  refine ⟨fun hbuf => ?_, ?_⟩
  · obtain ⟨⟨older, id, hholds, heq⟩, -⟩ := hstart.run ops hops
    rw [List.nil_append] at heq
    refine ⟨older.flatMap Prod.snd, heq, fun sinceTs => ⟨?_, fun pos => ?_⟩⟩
    · have hlog := (hholds.segmentLog hbuf).replaysExactly (by simp) sinceTs
      rw [heq]
      simpa using hlog
    · have hlog := (hholds.cut hbuf pos).replaysExactly (by simp) sinceTs
      simpa using hlog
  · rintro ops' op rfl hflushes
    have hfirst : ∀ (ops' : List WalOp) (s : Log), WalOp.AllPermitted s (ops' ++ [op]) →
        WalOp.AllPermitted s ops' := by
      intro ops'
      induction ops' with
      | nil => exact fun _ _ => trivial
      | cons op' ops' ih => exact fun s h => ⟨h.1, ih _ h.2⟩
    have hrun : runWal s₀ (ops' ++ [op]) = op.run (runWal s₀ ops') := by
      rw [runWal, List.foldl_append]
      rfl
    rw [hrun]
    exact (hstart.run ops' (hfirst ops' s₀ hops)).buf_run hflushes

/-- Two records in two segments, with a sync at the end. -/
def twoSegments : List WalOp :=
  [.append ⟨.put, 1, [1], some [10]⟩, .rotate secondId, .append ⟨.delete, 2, [1], none⟩, .sync]

/-- Both records are replayed, and the first alone when the second segment is cut. -/
theorem wal_roundTrip_twoSegments :
    ReplaysExactly 0 (runWal openedLog twoSegments).disk.files (appended twoSegments) ∧
      ReplaysExactly 0 (cutFile (runWal openedLog twoSegments).disk.files (segName secondId.hex) 20)
        [⟨.put, 1, [1], some [10]⟩] := by
  have hopen : walOpen false firstId ⟨∅, [], []⟩ = (.ok, some openedLog) := rfl
  have hrotate : (WalOp.run openedLog (.append ⟨.put, 1, [1], some [10]⟩)).wal.segmentId <
      secondId.hex := by decide +kernel
  have hops : WalOp.AllPermitted openedLog twoSegments :=
    ⟨⟨by decide, by decide, by simp [maxValLen]⟩, hrotate, ⟨by decide, by decide, by simp⟩, trivial,
      trivial⟩
  obtain ⟨hreplay, hflushed⟩ := wal_roundTrip hopen hops
  obtain ⟨before, heq, hall⟩ := hreplay (hflushed (twoSegments.take 3) .sync rfl rfl)
  obtain ⟨hwhole, hcut⟩ := hall 0
  have happended : appended twoSegments =
      [⟨.put, 1, [1], some [10]⟩] ++ lastSegment [] twoSegments := rfl
  have hbefore : before = [⟨.put, 1, [1], some [10]⟩] :=
    List.append_cancel_right (heq.symm.trans happended)
  refine ⟨hwhole, ?_⟩
  have hnone : (lastSegment [] twoSegments).take (wholeRecords (lastSegment [] twoSegments) 20) =
      [] := by
    decide +kernel
  have hseg : (runWal openedLog twoSegments).wal.segmentId = secondId.hex := by decide +kernel
  have hlast := hcut 20
  rw [hnone, List.append_nil, hbefore, hseg] at hlast
  exact hlast

/-- Replayed before any sync, a log of one record delivers nothing. -/
theorem buffered_record_is_not_replayed :
    walOpen false firstId ⟨∅, [], []⟩ = (.ok, some openedLog) ∧
      ¬ ∀ ops, WalOp.AllPermitted openedLog ops → ∀ sinceTs,
        ReplaysExactly sinceTs (runWal openedLog ops).disk.files (appended ops) := by
  refine ⟨rfl, fun h => ?_⟩
  obtain ⟨out, -, hreplay⟩ := h [.append ⟨.put, 1, [1], some [10]⟩]
    ⟨⟨by decide, by decide, by simp [maxValLen]⟩, trivial⟩ 0
  have hmax := congrArg (fun r => r.2.2) (hreplay Unit (fun _ _ => ()) () 0)
  revert hmax
  have hnothing : (walReplay 0 (fun _ (_ : Unit) => (Err.ok, ()))
      (runWal openedLog [.append ⟨.put, 1, [1], some [10]⟩]).disk.files () 0).2.2 = 0 := by
    decide +kernel
  simp only [hnothing]
  decide

end FastKV
