import FastKV.LogHolds

/-!
# The log under I/O failures

Appends, syncs and rotations with any answers of the operating system. An append that fails
after its first byte was buffered leaves that part in the buffer, in front of the next
record; an append whose own sync fails leaves the whole record; a rotation goes on after a
failed write and forgets its file when the new one cannot be opened. As long as no step runs
into one of these, the log delivers exactly the acknowledged records.
-/

namespace FastKV

open Lib

/-- The calls on a log handle. -/
inductive LogCall
  /-- `fastkv_wal_append`. -/
  | append (r : Record)
  /-- `fastkv_wal_sync`. -/
  | sync
  /-- `fastkv_wal_rotate`, with the name it generates. -/
  | rotate (fresh : Uuid)

/-- A call and the answers of the operating system to the system calls it makes. -/
structure LogStep where
  /-- The call. -/
  call : LogCall
  /-- The answers, first system call first. -/
  outcomes : List Outcome

/-- The same state with other answers to come. -/
def Log.answering (s : Log) (outcomes : List Outcome) : Log :=
  { s with disk := { s.disk with outcomes } }

/-- Run one call. -/
def logStep (s : Log) (step : LogStep) : Err × Log :=
  match step.call with
  | .append r => walAppend r (s.answering step.outcomes)
  | .sync => walSync (s.answering step.outcomes)
  | .rotate fresh => walRotate fresh (s.answering step.outcomes)

/-- The record a step acknowledges. -/
def LogStep.acknowledged (step : LogStep) (rc : Err) : List Record :=
  match step.call with
  | .append r => if rc = .ok then [r] else []
  | _ => []

/-- Run a sequence of calls: the acknowledged records in order, and the final state. -/
def runLog : Log → List LogStep → List Record × Log
  | s, [] => ([], s)
  | s, step :: steps =>
    let (rc, s) := logStep s step
    let (acked, s) := runLog s steps
    (step.acknowledged rc ++ acked, s)

/-! ## Steps that keep the log whole -/

/-- The number of bytes that a `pwrite` of `len` bytes stores. -/
def Outcome.stored (len : ℕ) : Outcome → ℕ
  | .done => len
  | .short n => min n len
  | .error => 0

/-- The contents of the current segment file. -/
def Log.file (s : Log) : Bytes := (s.disk.files.lookup (segName s.wal.segmentId)).getD []

/-- The part of the file before the offset consists of complete records. -/
def Log.atBoundary (s : Log) : Prop :=
  frameFormat.encodeAll (frameFormat.scan (s.file.take s.wal.fileOffset)) =
    s.file.take s.wal.fileOffset

/-- A rotation that keeps the log whole. With an empty buffer, or a buffer that is written
completely, only the opening of the new file matters. A buffer that is not written
completely moves to the new segment, so the old one must end with a complete record and
must not have received a complete record of the buffer. -/
def Log.rotateSafe (s : Log) (outcomes : List Outcome) : Prop :=
  let stored := (outcomes.headD .done).stored s.wal.buf.length
  if s.wal.buf = [] then outcomes.getD 1 .done = .done
  else if stored = s.wal.buf.length then outcomes.getD 2 .done = .done
  else outcomes.getD 1 .done = .done ∧ s.atBoundary ∧
    readFrame (s.wal.buf.take (max (s.file.length - s.wal.fileOffset) stored)) = none

/-- A step that keeps the log whole: the record is within the limits of the API and its
append meets no failure, or meets one while the buffer is full and before anything is
copied; a sync may fail in any way; a rotation generates a larger name and is safe. -/
def stepSafe (s : Log) (step : LogStep) : Prop :=
  match step.call with
  | .append r => r.Valid ∧ ((∀ o ∈ step.outcomes, o = .done) ∨
      s.wal.buf.length = walBufCap ∧ (step.outcomes.headD .done).stored walBufCap < walBufCap)
  | .sync => True
  | .rotate fresh => s.wal.segmentId < fresh.hex ∧ s.rotateSafe step.outcomes

/-- All steps of a run are safe in the states in which they are taken. -/
def safeRun : Log → List LogStep → Prop
  | _, [] => True
  | s, step :: steps => stepSafe s step ∧ safeRun (logStep s step).2 steps

variable {s s₀ : Log} {name : Name} {older : List (Uuid × List Record)} {id : Uuid}
  {cur : List Record}

/-- Other answers do not change what a handle holds. -/
theorem Log.Holds.answering (h : s.Holds older id cur) (outcomes : List Outcome) :
    (s.answering outcomes).Holds older id cur :=
  ⟨h.dir, h.older_holds, h.segment, ⟨h.attached.io, h.attached.file, fun _ _ => rfl, rfl, rfl⟩,
    h.le_cap, h.stream, h.valid⟩

/-- A write that stores only a part of the buffer: the file has the longer of the old and
the new part behind the offset. -/
theorem flushData_of_cut (h : Log.Attached s₀ name s) {stored : Bytes} {n : ℕ}
    (hfile : s.disk.files.lookup name = some (stored ++ s.wal.buf.take n))
    (hlen : stored.length = s.wal.fileOffset)
    (hpart : (s.disk.outcomes.headD .done).stored s.wal.buf.length < s.wal.buf.length) :
    (flushData s).1 = .io ∧ (flushData s).2.wal = s.wal ∧
      (flushData s).2.disk.outcomes = s.disk.outcomes.tail ∧
      (flushData s).2.disk.files.lookup name = some (stored ++ s.wal.buf.take
        (max n ((s.disk.outcomes.headD .done).stored s.wal.buf.length))) := by
  have hbuf : s.wal.buf ≠ [] := by
    rintro hnil
    simp [hnil] at hpart
  have hsame : s.disk.files.lookup name = some (stored ++ s.wal.buf.take (max n 0)) := by
    rw [Nat.max_zero]
    exact hfile
  unfold flushData ioPwrite
  rw [if_neg hbuf, h.io]
  cases ho : s.disk.outcomes.headD .done with
  | done =>
    rw [ho, Outcome.stored] at hpart
    omega
  | error =>
    simp only [Disk.answer, ho, Outcome.stored]
    exact ⟨rfl, rfl, rfl, hsame⟩
  | short m =>
    rw [ho, Outcome.stored] at hpart
    have hm : ¬ s.wal.buf.length ≤ m := by omega
    have hmin : min m s.wal.buf.length = m := by omega
    simp only [Disk.answer, ho, if_neg hm, Outcome.stored, hmin]
    refine ⟨rfl, rfl, ?_, ?_⟩
    · by_cases hm0 : m = 0 <;> simp [hm0, Disk.perform]
    · by_cases hm0 : m = 0
      · subst hm0
        simpa using hsame
      · simp only [if_neg hm0, Disk.perform, applyOp, hfile, ← hlen, patch_take]
        simp

/-- A write that stores the whole buffer. -/
theorem flushData_of_complete (h : Log.Attached s₀ name s) (hbuf : s.wal.buf ≠ [])
    (hall : (s.disk.outcomes.headD .done).stored s.wal.buf.length = s.wal.buf.length) :
    (flushData s).1 = .ok ∧ (flushData s).2.disk.outcomes = s.disk.outcomes.tail := by
  have hpos : 0 < s.wal.buf.length := List.length_pos_iff.mpr hbuf
  unfold flushData ioPwrite
  rw [if_neg hbuf, h.io]
  cases ho : s.disk.outcomes.headD .done with
  | done =>
    simp only [Disk.answer, ho, if_true]
    exact ⟨trivial, rfl⟩
  | error =>
    rw [ho, Outcome.stored] at hall
    omega
  | short m =>
    rw [ho, Outcome.stored] at hall
    have hm : s.wal.buf.length ≤ m := by omega
    have hm0 : m ≠ 0 := by omega
    simp only [Disk.answer, ho, if_pos hm, if_neg hm0, if_true]
    exact ⟨trivial, rfl⟩

/-- A sync uses up one answer. -/
theorem ioSync_outcomes (d : Disk) : (ioSync d).2.outcomes = d.outcomes.tail := by
  unfold ioSync Disk.answer
  cases d.outcomes.headD .done <;> rfl

/-- A call succeeds when its answer is `done`. -/
theorem ioOpen_ok {d : Disk} (h : d.outcomes.headD .done = .done) (name : Name) :
    (ioOpen d name).1 = .ok := by
  simp only [ioOpen, Disk.call, Disk.answer, h]

/-- The answers left after a flush whose write succeeded or was not needed. -/
theorem flushBuf_outcomes (h : Log.Attached s₀ name s) (hok : (flushData s).1 = .ok) :
    (flushBuf true s).2.disk.outcomes = (flushData s).2.disk.outcomes.tail ∧
      (flushBuf true s).2.wal.buf = [] := by
  have hdata := flushData_spec h
  have hio : (flushData s).2.wal.io = some name := hdata.attached.io
  unfold flushBuf
  simp only [hok, if_true, hio]
  exact ⟨ioSync_outcomes _, hdata.buf_ok hok⟩

/-- A flush whose write fails ends there. -/
theorem flushBuf_of_fail (sync : Bool) (hfail : (flushData s).1 = .io) :
    flushBuf sync s = (.io, (flushData s).2) := by
  have hne : ¬ Err.io = Err.ok := by decide
  unfold flushBuf
  simp only [hfail, if_neg hne]

/-- An append that finds the buffer full and cannot empty it copies nothing. -/
theorem walAppend_of_full (r : Record) (hfull : s.wal.buf.length = walBufCap)
    (hfail : (flushData s).1 = .io) : walAppend r s = flushBuf false s := by
  have hflush := flushBuf_of_fail false hfail
  have hne : ¬ Err.io = Err.ok := by decide
  have hcrc : leBytes 4 r.frame.crc.toNat ≠ [] := List.ne_nil_of_length_pos (by simp)
  have hwrite : walWriteBuf (leBytes 4 r.frame.crc.toNat) s = flushBuf false s :=
    Buffer.write_of_full hcrc (Nat.le_refl _) (Nat.le_of_eq hfull.symm) (by
      show (flushBuf false s).1 ≠ .ok
      rw [hflush]
      exact hne)
  unfold walAppend Frame.fields
  simp only [List.cons_append, writeFields, hwrite, hflush, if_neg hne]

/-! ## Runs -/

/-- A record sequence split where the stored part of the stream ends. -/
theorem split_at_boundary {stored buf : Bytes} (hvalid : ∀ r ∈ cur, r.Valid)
    (hstream : stored ++ buf = encodeRecords cur)
    (hbound : frameFormat.encodeAll (frameFormat.scan stored) = stored) :
    ∃ k, frameFormat.scan stored = (cur.take k).map Record.frame ∧
      stored = encodeRecords (cur.take k) ∧ buf = encodeRecords (cur.drop k) := by
  have hframes : frameFormat.scan stored ++ frameFormat.scan buf = cur.map Record.frame := by
    rw [← scan_encodeRecords hvalid, ← hstream, ← hbound,
      Format.scan_encodeAll (fun f hf => Format.valid_of_mem_scan hf), hbound]
  have htake : frameFormat.scan stored =
      (cur.take (frameFormat.scan stored).length).map Record.frame := by
    have h := congrArg (List.take (frameFormat.scan stored).length) hframes
    rw [List.take_left, ← List.map_take] at h
    exact h
  have hstored : stored = encodeRecords (cur.take (frameFormat.scan stored).length) := by
    rw [encodeRecords, ← htake, hbound]
  refine ⟨_, htake, hstored, ?_⟩
  have hall := hstream
  rw [← List.take_append_drop (frameFormat.scan stored).length cur, encodeRecords_append,
    ← hstored] at hall
  exact List.append_cancel_left hall

/-- The second outcome of a list. -/
theorem headD_tail (outcomes : List Outcome) :
    outcomes.tail.headD .done = outcomes.getD 1 .done := by
  rcases outcomes with _ | ⟨_, _ | _⟩ <;> rfl

/-- A rotation succeeds if the new file can be opened after the flush. -/
theorem walRotate_ok {fresh : Uuid}
    (h : (flushBuf true s).2.disk.outcomes.headD .done = .done) : (walRotate fresh s).1 = .ok := by
  simp only [walRotate, ioOpen_ok h, if_true]

/-- The segment of a handle, with the part of the buffer that a failed flush has left in it. -/
theorem Log.Holds.parts (h : s.Holds older id cur) :
    ∃ stored n, s.file.take s.wal.fileOffset = stored ∧
      s.file.length - s.wal.fileOffset = n ∧ stored.length = s.wal.fileOffset ∧
      s.disk.files.lookup (segName id.hex) = some (stored ++ s.wal.buf.take n) ∧
      stored ++ s.wal.buf = encodeRecords cur := by
  obtain ⟨stored, n, hfile, hlen⟩ := h.attached.file
  have hfull : s.file = stored ++ s.wal.buf.take n := by
    rw [Log.file, h.segment, hfile, Option.getD_some]
  have htake : s.wal.buf.take (min n s.wal.buf.length) = s.wal.buf.take n := by
    rcases Nat.le_total n s.wal.buf.length with hle | hle
    · rw [Nat.min_eq_left hle]
    · rw [Nat.min_eq_right hle, List.take_of_length_le hle, List.take_of_length_le (Nat.le_refl _)]
  refine ⟨stored, min n s.wal.buf.length, ?_, ?_, hlen, ?_,
    (Log.stream_eq hfile hlen).symm.trans h.stream⟩
  · rw [hfull, ← hlen, List.take_left]
  · rw [hfull, List.length_append, hlen, List.length_take]
    omega
  · rw [htake]
    exact hfile

/-- A rotation whose flush is cut short moves the buffer to the new segment. -/
theorem Log.Holds.rotate_cut (h : s.Holds older id cur) {fresh : Uuid} {outcomes : List Outcome}
    (hlt : id < fresh) (hpart : (outcomes.headD .done).stored s.wal.buf.length < s.wal.buf.length)
    (hopen : outcomes.getD 1 .done = .done) (hbound : s.atBoundary)
    (hnone : readFrame (s.wal.buf.take (max (s.file.length - s.wal.fileOffset)
      ((outcomes.headD .done).stored s.wal.buf.length))) = none) :
    ∃ cur₁ cur₂, cur = cur₁ ++ cur₂ ∧
      (walRotate fresh (s.answering outcomes)).2.Holds (older ++ [(id, cur₁)]) fresh cur₂ := by
  have hs := h.answering outcomes
  obtain ⟨stored, n, hstored, hleft, hlen, hfile, hstream⟩ := h.parts
  obtain ⟨hfail, hwal, houts, hlookup⟩ := flushData_of_cut hs.attached hfile hlen hpart
  have hflush := flushBuf_of_fail true hfail
  unfold Log.atBoundary at hbound
  rw [hstored] at hbound
  obtain ⟨k, hscan, hpre, hpost⟩ := split_at_boundary h.valid hstream hbound
  have hdone : (flushBuf true (s.answering outcomes)).2.disk.outcomes.headD .done = .done := by
    rw [hflush]
    simp only [houts]
    exact (headD_tail outcomes).trans hopen
  -- the old segment ends with what was stored before, the rest of it is not a record
  have hsegment : SegmentHolds (flushBuf true (s.answering outcomes)).2.disk.files
      (id, cur.take k) := by
    rw [hflush]
    refine ⟨fun r hr => h.valid r (List.mem_of_mem_take hr), _, hlookup, ?_⟩
    rw [hleft] at hnone
    have hrest : frameFormat.scan (s.wal.buf.take (max n
        ((outcomes.headD .done).stored s.wal.buf.length))) = [] := Format.scan_of_none hnone
    rw [← hbound, Format.scan_encodeAll (fun f hf => Format.valid_of_mem_scan hf), hscan]
    exact (congrArg _ hrest).trans (List.append_nil _)
  have hbuffer : (flushBuf true (s.answering outcomes)).2.wal.buf = encodeRecords (cur.drop k) := by
    rw [hflush]
    simp only [hwal]
    exact hpost
  exact ⟨cur.take k, cur.drop k, (List.take_append_drop k cur).symm,
    hs.rotate hlt (walRotate_ok hdone) (List.take_append_drop k cur).symm hsegment hbuffer⟩

/-- A safe rotation splits the current records at most between the segments. -/
theorem Log.Holds.rotate_safe (h : s.Holds older id cur) {fresh : Uuid} {outcomes : List Outcome}
    (hfresh : s.wal.segmentId < fresh.hex) (hsafe : s.rotateSafe outcomes) :
    ∃ cur₁ cur₂, cur = cur₁ ++ cur₂ ∧
      (walRotate fresh (s.answering outcomes)).2.Holds (older ++ [(id, cur₁)]) fresh cur₂ := by
  have hs := h.answering outcomes
  have hlt : id < fresh := by
    rw [h.segment] at hfresh
    exact hfresh
  -- a flush that succeeds leaves the current records in the old segment
  have hwhole : ∀ os : List Outcome, (flushData (s.answering outcomes)).1 = .ok →
      (flushData (s.answering outcomes)).2.disk.outcomes.tail = os → os.headD .done = .done →
      ∃ cur₁ cur₂, cur = cur₁ ++ cur₂ ∧
        (walRotate fresh (s.answering outcomes)).2.Holds (older ++ [(id, cur₁)]) fresh cur₂ := by
    intro os hok hos hdone
    obtain ⟨houts, hempty⟩ := flushBuf_outcomes hs.attached hok
    rw [← hos, ← houts] at hdone
    exact ⟨cur, [], by simp, hs.rotate_of_flush hlt (walRotate_ok hdone) hempty⟩
  unfold Log.rotateSafe at hsafe
  by_cases hbuf : s.wal.buf = []
  · simp only [if_pos hbuf] at hsafe
    have hdata : flushData (s.answering outcomes) = (.ok, s.answering outcomes) := if_pos hbuf
    refine hwhole outcomes.tail ?_ ?_ ((headD_tail outcomes).trans hsafe)
    · rw [hdata]
    · rw [hdata]
      rfl
  · simp only [if_neg hbuf] at hsafe
    by_cases hall : (outcomes.headD .done).stored s.wal.buf.length = s.wal.buf.length
    · rw [if_pos hall] at hsafe
      obtain ⟨hok, houts⟩ := flushData_of_complete hs.attached hbuf hall
      have hthird : outcomes.tail.getD 1 .done = outcomes.getD 2 .done := by cases outcomes <;> rfl
      exact hwhole outcomes.tail.tail hok (congrArg List.tail houts)
        ((headD_tail outcomes.tail).trans (hthird.trans hsafe))
    · rw [if_neg hall] at hsafe
      obtain ⟨hopen, hbound, hnone⟩ := hsafe
      have hle : (outcomes.headD .done).stored s.wal.buf.length ≤ s.wal.buf.length := by
        cases outcomes.headD .done <;> simp [Outcome.stored]
      exact h.rotate_cut hlt (Nat.lt_of_le_of_ne hle hall) hopen hbound hnone

/-- A safe step adds exactly the record it acknowledges. -/
theorem Log.Holds.step (h : s.Holds older id cur) {step : LogStep} (hsafe : stepSafe s step) :
    ∃ older' id' cur', (logStep s step).2.Holds older' id' cur' ∧
      older'.flatMap Prod.snd ++ cur' =
        older.flatMap Prod.snd ++ cur ++ step.acknowledged (logStep s step).1 := by
  have hs := h.answering step.outcomes
  obtain ⟨call, outcomes⟩ := step
  cases call with
  | append r =>
    obtain ⟨hr, hquiet | ⟨hfull, hpart⟩⟩ := hsafe
    · have hok : (walAppend r (s.answering outcomes)).1 = .ok :=
        (walAppend_working (hs.attached.working hquiet) r).1
      refine ⟨older, id, cur ++ [r], hs.append hr hok, ?_⟩
      simp only [logStep, LogStep.acknowledged, hok, if_true, List.append_assoc]
    · have hfail : (flushData (s.answering outcomes)).1 = .io := by
        obtain ⟨stored, n, hfile, hlen⟩ := hs.attached.file
        refine (flushData_of_cut hs.attached hfile hlen ?_).1
        show (outcomes.headD .done).stored s.wal.buf.length < s.wal.buf.length
        rw [hfull]
        exact hpart
      have happend := walAppend_of_full r (s := s.answering outcomes) hfull hfail
      refine ⟨older, id, cur, ?_, ?_⟩
      · show (walAppend r (s.answering outcomes)).2.Holds older id cur
        rw [happend]
        exact (hs.flush false).1
      · simp only [logStep, LogStep.acknowledged, happend, flushBuf_of_fail false hfail]
        simp
  | sync =>
    refine ⟨older, id, cur, (hs.flush true).1, ?_⟩
    simp [LogStep.acknowledged]
  | rotate fresh =>
    obtain ⟨hfresh, hrot⟩ := hsafe
    obtain ⟨cur₁, cur₂, rfl, hholds⟩ := h.rotate_safe hfresh hrot
    refine ⟨older ++ [(id, cur₁)], fresh, cur₂, hholds, ?_⟩
    simp [LogStep.acknowledged]

/-- A run of safe steps adds exactly the records it acknowledges. -/
theorem Log.Holds.run (steps : List LogStep) : ∀ {s : Log} {older : List (Uuid × List Record)}
    {id : Uuid} {cur : List Record}, s.Holds older id cur → safeRun s steps →
      ∃ older' id' cur', (runLog s steps).2.Holds older' id' cur' ∧
        older'.flatMap Prod.snd ++ cur' =
          older.flatMap Prod.snd ++ cur ++ (runLog s steps).1 := by
  induction steps with
  | nil =>
    intro s older id cur h _
    exact ⟨older, id, cur, h, by simp [runLog]⟩
  | cons step steps ih =>
    intro s older id cur h hsafe
    obtain ⟨older₁, id₁, cur₁, h₁, heq₁⟩ := h.step hsafe.1
    obtain ⟨older₂, id₂, cur₂, h₂, heq₂⟩ := ih h₁ hsafe.2
    refine ⟨older₂, id₂, cur₂, h₂, ?_⟩
    rw [heq₂, heq₁]
    simp [runLog]

/-- In a run of safe steps from an empty directory, a final sync that succeeds, and the
closing flush with the same answers, leave a directory from which replay delivers exactly
the acknowledged records. -/
theorem replay_delivers_acknowledged {syncWrites : Bool} {first : Uuid}
    {outcomes outcomes' : List Outcome} {s s' : Log} {steps : List LogStep}
    (hopen : walOpen syncWrites first ⟨∅, outcomes, []⟩ = (.ok, some s))
    (hsafe : safeRun s steps)
    (hsync : walSync ((runLog s steps).2.answering outcomes') = (.ok, s')) :
    (∀ sinceTs, (delivered sinceTs s'.disk.files).map Record.content =
        ((runLog s steps).1.filter (Record.wanted sinceTs)).map Record.content) ∧
      (walClose ((runLog s steps).2.answering outcomes')).2.files = s'.disk.files := by
  obtain ⟨older, id, cur, hholds, heq⟩ := Log.Holds.run steps (walOpen_holds hopen) hsafe
  obtain ⟨hflush, hempty⟩ := (hholds.answering outcomes').flush true
  have hsync' : flushBuf true ((runLog s steps).2.answering outcomes') = (.ok, s') := hsync
  rw [hsync'] at hflush hempty
  refine ⟨fun sinceTs => ?_, ?_⟩
  · rw [(hflush.segmentLog (hempty rfl)).delivered_content sinceTs, List.flatMap_append]
    simp only [List.flatMap_cons, List.flatMap_nil, List.append_nil, heq, List.nil_append]
  · rw [walClose, hsync']

/-- A run with a failed sync between two appends. -/
def faultySteps : List LogStep :=
  [⟨.append ⟨.put, 1, [7], some [8]⟩, []⟩, ⟨.sync, [.short 5]⟩,
    ⟨.append ⟨.delete, 2, [7], none⟩, []⟩]

/-- The handle of the example runs. -/
def faultyLog (syncWrites : Bool) : Log :=
  ((walOpen syncWrites firstId ⟨∅, [], []⟩).2).getD
    ⟨⟨none, syncWrites, 0, 0, [], [], false, []⟩, ⟨∅, [], []⟩⟩

/-- After a sync that stored five bytes of the first record, both records are delivered. -/
theorem replay_delivers_acknowledged_after_short_write :
    (delivered 0 (walSync ((runLog (faultyLog false) faultySteps).2.answering [])).2.disk.files).map
        Record.content =
      ((runLog (faultyLog false) faultySteps).1.filter (Record.wanted 0)).map Record.content := by
  have hput : (⟨.put, 1, [7], some [8]⟩ : Record).Valid := ⟨by decide, by decide, by decide⟩
  have hdelete : (⟨.delete, 2, [7], none⟩ : Record).Valid := ⟨by decide, by decide, by simp⟩
  have hsafe : safeRun (faultyLog false) faultySteps := by
    simp only [faultySteps, safeRun, stepSafe, and_true, true_and]
    exact ⟨⟨hput, Or.inl (by simp)⟩, hdelete, Or.inl (by simp)⟩
  have hopen : walOpen false (.repeated '0' (by decide)) ⟨∅, [], []⟩ =
      (.ok, some (faultyLog false)) := rfl
  have hsync : (walSync ((runLog (faultyLog false) faultySteps).2.answering [])).1 = .ok := by
    decide +kernel
  exact (replay_delivers_acknowledged hopen hsafe (Prod.ext hsync rfl)).1 0

/-- With synced writes, an append whose `fsync` fails returns an error, and a later
successful sync leaves a log that delivers its record. -/
theorem failed_append_is_delivered :
    let run := runLog (faultyLog true) [⟨.append ⟨.put, 1, [7], some [8]⟩, [.done, .error]⟩]
    (logStep (faultyLog true) ⟨.append ⟨.put, 1, [7], some [8]⟩, [.done, .error]⟩).1 = .io ∧
      run.1 = [] ∧ (walSync (run.2.answering [])).1 = .ok ∧
      delivered 0 (walSync (run.2.answering [])).2.disk.files = [⟨.put, 1, [7], some [8]⟩] := by
  decide +kernel

end FastKV
