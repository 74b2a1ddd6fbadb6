import FastKV.WalFormat

/-!
# What the log handle has accepted

A handle stands for a stream of bytes: the part of its segment file before the file offset
and the buffer behind it. Bytes of the file beyond the offset can only be left there by a
write that failed half way, and are then the beginning of the buffer; the next successful
write covers them. Every operation of the handle is described by what it does to the
stream, including the operations that fail.
-/

namespace FastKV

open Lib

/-- A successful or a failed `pwrite` in terms of the directory. -/
theorem ioPwrite_cases {d d' : Disk} {name : Name} {data : Bytes} {offset : ℕ} {rc : Err}
    (hdata : data ≠ []) (h : ioPwrite d name data offset = (rc, d')) :
    (rc = .ok ∧ d'.files = applyOp d.files (.pwrite name offset data)) ∨
      (rc = .io ∧ (d'.files = d.files ∨
        ∃ m, d'.files = applyOp d.files (.pwrite name offset (data.take m)))) := by
  have hpos : 0 < data.length := List.length_pos_iff.mpr hdata
  unfold ioPwrite at h
  cases ho : d.outcomes.headD .done with
  | done =>
    simp only [Disk.answer, ho, Prod.mk.injEq] at h
    obtain ⟨rfl, rfl⟩ := h
    exact Or.inl ⟨rfl, rfl⟩
  | short n =>
    simp only [Disk.answer, ho, Prod.mk.injEq] at h
    obtain ⟨rfl, rfl⟩ := h
    by_cases hn : data.length ≤ n
    · have hn0 : n ≠ 0 := by omega
      rw [if_pos hn, if_neg hn0, List.take_of_length_le hn]
      exact Or.inl ⟨rfl, rfl⟩
    · rw [if_neg hn]
      refine Or.inr ⟨rfl, ?_⟩
      split
      · exact Or.inl rfl
      · exact Or.inr ⟨n, rfl⟩
  | error =>
    simp only [Disk.answer, ho, Prod.mk.injEq] at h
    obtain ⟨rfl, rfl⟩ := h
    exact Or.inr ⟨rfl, Or.inl rfl⟩

/-- Writing the beginning of the buffer over a shorter or longer beginning of it. -/
theorem patch_take (stored buf : Bytes) (n m : ℕ) :
    patch (stored ++ buf.take n) stored.length (buf.take m) = stored ++ buf.take (max n m) := by
  have hpad : stored.length - (stored ++ buf.take n).length = 0 := by
    simp
  rw [patch, hpad, List.replicate_zero, List.append_nil, List.take_left, List.append_assoc,
    List.drop_append, Nat.add_sub_cancel_left]
  have hdrop : stored.drop (stored.length + (buf.take m).length) = [] :=
    List.drop_eq_nil_of_le (Nat.le_add_right _ _)
  rw [hdrop, List.nil_append]
  congr 1
  rcases Nat.le_total n m with h | h
  · rw [Nat.max_eq_right h, List.drop_take, List.length_take]
    have hzero : n - min m buf.length = 0 ∨ buf.length ≤ m := by omega
    rcases hzero with h0 | hm
    · simp [h0]
    · simp [Nat.min_eq_right hm]
  · rw [Nat.max_eq_left h, List.length_take]
    rcases Nat.le_total m buf.length with hm | hm
    · rw [Nat.min_eq_left hm]
      conv_rhs => rw [← List.take_append_drop m (buf.take n), List.take_take, Nat.min_eq_left h]
    · rw [Nat.min_eq_right hm, List.take_of_length_le hm,
        List.take_of_length_le (Nat.le_trans hm h), List.drop_length, List.append_nil]

/-- The handle of `s` is open on the file `name`, and nothing but that file and the
buffer differs from `s₀`. -/
structure Log.Attached (s₀ : Log) (name : Name) (s : Log) : Prop where
  /-- The open file. -/
  io : s.wal.io = some name
  /-- The file is what was written up to the offset, and possibly the beginning of the
  buffer after it. -/
  file : ∃ stored n, s.disk.files.lookup name = some (stored ++ s.wal.buf.take n) ∧
    stored.length = s.wal.fileOffset
  /-- The other files are untouched. -/
  others : ∀ other, other ≠ name → s.disk.files.lookup other = s₀.disk.files.lookup other
  /-- The mode of the handle. -/
  sync : s.wal.syncWrites = s₀.wal.syncWrites
  /-- The current segment. -/
  segment : s.wal.segmentId = s₀.wal.segmentId

/-- Everything the handle has accepted for its segment. -/
def Log.stream (name : Name) (s : Log) : Bytes :=
  ((s.disk.files.lookup name).getD []).take s.wal.fileOffset ++ s.wal.buf

variable {s₀ s : Log} {name : Name}

/-- The stream in terms of the stored part of the file. -/
theorem Log.stream_eq {stored : Bytes} {n : ℕ}
    (hfile : s.disk.files.lookup name = some (stored ++ s.wal.buf.take n))
    (hlen : stored.length = s.wal.fileOffset) : s.stream name = stored ++ s.wal.buf := by
  rw [Log.stream, hfile, Option.getD_some, ← hlen, List.take_left]

/-- With an empty buffer the file holds exactly the stream. -/
theorem Log.Attached.lookup_of_empty (h : Attached s₀ name s) (hbuf : s.wal.buf = []) :
    s.disk.files.lookup name = some (s.stream name) := by
  obtain ⟨stored, n, hfile, hlen⟩ := h.file
  rw [Log.stream_eq hfile hlen, hfile, hbuf]
  simp

/-- A handle on a file whose contents and offset are known. -/
theorem Log.Attached.of_write (h : Attached s₀ name s) {bytes : Bytes} {d : Disk}
    (hfiles : d.files = s.disk.files.insert name bytes) {wal : Wal} {n : ℕ}
    (hio : wal.io = some name) (hsync : wal.syncWrites = s.wal.syncWrites)
    (hseg : wal.segmentId = s.wal.segmentId) {stored : Bytes}
    (hbytes : bytes = stored ++ wal.buf.take n) (hlen : stored.length = wal.fileOffset) :
    Attached s₀ name ⟨wal, d⟩ where
  io := hio
  file := ⟨stored, n, by rw [hfiles, AList.lookup_insert, hbytes], hlen⟩
  others other hne := by
    rw [hfiles, AList.lookup_insert_ne hne]
    exact h.others other hne
  sync := hsync.trans h.sync
  segment := hseg.trans h.segment

/-- What writing the buffer does: nothing is accepted or lost, and on success the buffer is
empty. -/
structure Flushed (s₀ : Log) (name : Name) (s : Log) (r : Err × Log) : Prop where
  /-- The handle stays on its file. -/
  attached : Log.Attached s₀ name r.2
  /-- The stream is the same. -/
  stream_eq : r.2.stream name = s.stream name
  /-- Success empties the buffer. -/
  buf_ok : r.1 = .ok → r.2.wal.buf = []
  /-- Failure keeps the buffer. -/
  buf_fail : r.1 ≠ .ok → r.2.wal.buf = s.wal.buf
  /-- The counters and the hook are not involved. -/
  hooked : r.2.wal.hooked = s.wal.hooked

/-- The specification of the write in `flush_buf`. -/
theorem flushData_spec (h : Log.Attached s₀ name s) : Flushed s₀ name s (flushData s) := by
  unfold flushData
  by_cases hbuf : s.wal.buf = []
  · rw [if_pos hbuf]
    exact ⟨h, rfl, fun _ => hbuf, fun hf => absurd rfl hf, rfl⟩
  · rw [if_neg hbuf, h.io]
    obtain ⟨stored, n, hfile, hlen⟩ := h.file
    have hstream := Log.stream_eq hfile hlen
    rcases hr : ioPwrite s.disk name s.wal.buf s.wal.fileOffset with ⟨rc, d⟩
    have hpatch (m : ℕ) : applyOp s.disk.files (.pwrite name s.wal.fileOffset (s.wal.buf.take m)) =
        s.disk.files.insert name (stored ++ s.wal.buf.take (max n m)) := by
      simp only [applyOp, hfile, ← hlen, patch_take]
    rcases ioPwrite_cases hbuf hr with ⟨rfl, hfiles⟩ | ⟨rfl, hfiles⟩
    · -- a full write stores the whole buffer behind what was stored before
      have hall := hpatch s.wal.buf.length
      rw [List.take_length, List.take_of_length_le (Nat.le_max_right _ _)] at hall
      rw [hall] at hfiles
      have hlen' : (stored ++ s.wal.buf).length = s.wal.fileOffset + s.wal.buf.length := by
        rw [List.length_append, hlen]
      simp only [hr, if_true]
      have hatt : Log.Attached s₀ name ⟨{ s.wal with
          fileOffset := s.wal.fileOffset + s.wal.buf.length, buf := [] }, d⟩ :=
        h.of_write (n := 0) hfiles h.io rfl rfl (by simp) hlen'
      refine ⟨hatt, ?_, fun _ => rfl, fun hf => absurd rfl hf, rfl⟩
      rw [hstream, Log.stream, hfiles, AList.lookup_insert, Option.getD_some, ← hlen',
        List.take_length, List.append_nil]
    · have hne : ¬ Err.io = Err.ok := by decide
      simp only [hr, if_neg hne]
      rcases hfiles with hsame | ⟨m, hsome⟩
      · have hatt : Log.Attached s₀ name { s with disk := d } :=
          ⟨h.io, ⟨stored, n, by rw [hsame]; exact hfile, hlen⟩,
            fun other ho => by rw [hsame]; exact h.others other ho, h.sync, h.segment⟩
        refine ⟨hatt, ?_, fun ho => absurd ho hne, fun _ => rfl, rfl⟩
        rw [Log.stream, hsame]
        rfl
      · rw [hpatch m] at hsome
        have hatt : Log.Attached s₀ name ⟨s.wal, d⟩ := h.of_write hsome h.io rfl rfl rfl hlen
        refine ⟨hatt, ?_, fun ho => absurd ho hne, fun _ => rfl, rfl⟩
        rw [hstream, Log.stream, hsome, AList.lookup_insert, Option.getD_some, ← hlen,
          List.take_left]

/-- A sync call touches no file. -/
theorem ioSync_files (d : Disk) : (ioSync d).2.files = d.files := by
  unfold ioSync Disk.answer
  cases d.outcomes.headD .done <;> rfl

/-- The specification of `flush_buf`. After a failed sync the buffer is already written. -/
theorem flushBuf_spec (h : Log.Attached s₀ name s) (sync : Bool) :
    Log.Attached s₀ name (flushBuf sync s).2 ∧
      (flushBuf sync s).2.stream name = s.stream name ∧
      ((flushBuf sync s).1 = .ok → (flushBuf sync s).2.wal.buf = []) ∧
      (sync = false → (flushBuf sync s).1 ≠ .ok → (flushBuf sync s).2.wal.buf = s.wal.buf) ∧
      ((flushBuf sync s).2.wal.buf = [] ∨ (flushBuf sync s).2.wal.buf = s.wal.buf) := by
  have hdata := flushData_spec h
  unfold flushBuf
  generalize flushData s = r at hdata
  obtain ⟨rc, s'⟩ := r
  by_cases hrc : rc = .ok
  · have hempty := hdata.buf_ok hrc
    simp only [if_pos hrc]
    cases sync with
    | false =>
      exact ⟨hdata.attached, hdata.stream_eq, fun _ => hempty, fun _ hf => absurd rfl hf,
        Or.inl hempty⟩
    | true =>
      have hio : s'.wal.io = some name := hdata.attached.io
      simp only [if_true, hio]
      have hsync := ioSync_files s'.disk
      have hatt : Log.Attached s₀ name { s' with disk := (ioSync s'.disk).2 } := by
        obtain ⟨hio, hfile, hothers, hs, hseg⟩ := hdata.attached
        exact ⟨hio, by simpa only [hsync] using hfile, by simpa only [hsync] using hothers,
          hs, hseg⟩
      refine ⟨hatt, ?_, fun _ => hempty, fun hf => absurd hf (by decide), Or.inl hempty⟩
      rw [← hdata.stream_eq, Log.stream, Log.stream, hsync]
  · simp only [if_neg hrc]
    exact ⟨hdata.attached, hdata.stream_eq, fun ho => absurd ho hrc, fun _ => hdata.buf_fail,
      Or.inr (hdata.buf_fail hrc)⟩

/-- The log buffer loses and invents nothing. -/
theorem walBuffer_lawful (s₀ : Log) (name : Name) :
    walBuffer.Lawful (Log.stream name) (Log.Attached s₀ name) where
  cap_pos := by decide
  contents_push _ _ := rfl
  stream_push d s := by simp [Log.stream, walBuffer]
  inv_push d s h := by
    obtain ⟨stored, n, hfile, hlen⟩ := h.file
    refine ⟨h.io, ⟨stored, min n s.wal.buf.length, ?_, hlen⟩, h.others, h.sync, h.segment⟩
    have htake : (s.wal.buf ++ d).take (min n s.wal.buf.length) = s.wal.buf.take n := by
      rw [List.take_append_of_le_length (Nat.min_le_right _ _)]
      rcases Nat.le_total n s.wal.buf.length with hle | hle
      · rw [Nat.min_eq_left hle]
      · rw [Nat.min_eq_right hle, List.take_length, List.take_of_length_le hle]
    show s.disk.files.lookup name = _
    rw [hfile]
    exact congrArg (fun t => some (stored ++ t)) htake.symm
  stream_flush s h := (flushBuf_spec h false).2.1
  inv_flush s h := (flushBuf_spec h false).1
  contents_flush s h := (flushBuf_spec h false).2.2.1
  contents_fail s h := (flushBuf_spec h false).2.2.2.1 rfl

/-- Writing several fields is writing their concatenation. -/
theorem writeFields_spec (s₀ : Log) (name : Name) (fields : List Bytes) : ∀ s : Log,
    Log.Attached s₀ name s → s.wal.buf.length ≤ walBufCap →
      walBuffer.Written (Log.stream name) (Log.Attached s₀ name) fields.flatten s
        (writeFields fields s) := by
  induction fields with
  | nil => exact fun s h hcap => ⟨h, hcap, fun _ => by simp [writeFields], fun hf => absurd rfl hf⟩
  | cons field fields ih =>
    intro s h hcap
    have hfield : walBuffer.Written (Log.stream name) (Log.Attached s₀ name) field s
        (walWriteBuf field s) :=
      Buffer.write_spec (walBuffer_lawful s₀ name) field.length field s (Nat.le_refl _) h hcap
    unfold writeFields
    generalize walWriteBuf field s = r at hfield
    obtain ⟨rc, s'⟩ := r
    by_cases hrc : rc = .ok
    · simp only [if_pos hrc]
      have hrest := ih s' hfield.inv hfield.le_cap
      have hstream : s'.stream name = s.stream name ++ field := hfield.stream_ok hrc
      refine ⟨hrest.inv, hrest.le_cap, fun hok => ?_, fun hfail => ?_⟩
      · rw [hrest.stream_ok hok, hstream, List.flatten_cons, List.append_assoc]
      · obtain ⟨n, hn, heq⟩ := hrest.stream_fail hfail
        refine ⟨field.length + n, ?_, ?_⟩
        · rw [List.flatten_cons, List.length_append]
          omega
        · rw [heq, hstream, List.flatten_cons, List.append_assoc, List.take_length_add_append]
    · simp only [if_neg hrc]
      refine ⟨hfield.inv, hfield.le_cap, fun hok => absurd hok hrc, fun _ => ?_⟩
      obtain ⟨n, hn, heq⟩ := hfield.stream_fail hrc
      refine ⟨n, ?_, ?_⟩
      · rw [List.flatten_cons, List.length_append]
        omega
      · rw [heq, List.flatten_cons, List.take_append_of_le_length (Nat.le_of_lt hn)]

/-- What an append does to the stream of its handle. -/
structure Appended (s₀ : Log) (name : Name) (record : Record) (s : Log) (r : Err × Log) :
    Prop where
  /-- The handle stays on its file. -/
  attached : Log.Attached s₀ name r.2
  /-- The buffer does not overflow. -/
  le_cap : r.2.wal.buf.length ≤ walBufCap
  /-- Success appends the record. -/
  stream_ok : r.1 = .ok → r.2.stream name = s.stream name ++ record.frame.encode
  /-- Failure appends a beginning of the record, possibly all of it. -/
  stream_fail : r.1 ≠ .ok → ∃ n, r.2.stream name = s.stream name ++ record.frame.encode.take n

/-- The bookkeeping of an append is not part of the stream. -/
theorem Log.Attached.recorded (h : Attached s₀ name s) (r : Record) :
    Attached s₀ name { s with wal := s.wal.recorded r } :=
  ⟨h.io, h.file, h.others, h.sync, h.segment⟩

/-- The specification of `fastkv_wal_append`. -/
theorem walAppend_spec (h : Log.Attached s₀ name s) (hcap : s.wal.buf.length ≤ walBufCap)
    (r : Record) : Appended s₀ name r s (walAppend r s) := by
  have hfields := writeFields_spec s₀ name r.frame.fields s h hcap
  unfold walAppend
  generalize writeFields r.frame.fields s = w at hfields
  obtain ⟨rc, s'⟩ := w
  by_cases hrc : rc = .ok
  · have hstream : s'.stream name = s.stream name ++ r.frame.encode := hfields.stream_ok hrc
    have hrec := hfields.inv.recorded r
    simp only [if_pos hrc]
    split
    · obtain ⟨hatt, heq, -, -, hbuf⟩ := flushBuf_spec hrec true
      have hall : (flushBuf true { s' with wal := s'.wal.recorded r }).2.stream name =
          s.stream name ++ r.frame.encode := heq.trans hstream
      refine ⟨hatt, ?_, fun _ => hall, fun _ => ⟨r.frame.encode.length, ?_⟩⟩
      · rcases hbuf with hbuf | hbuf
        · simp [hbuf]
        · rw [hbuf]
          exact hfields.le_cap
      · rw [hall, List.take_length]
    · exact ⟨hrec, hfields.le_cap, fun _ => hstream, fun hf => absurd rfl hf⟩
  · simp only [if_neg hrc]
    refine ⟨hfields.inv, hfields.le_cap, fun hok => absurd hok hrc, fun _ => ?_⟩
    obtain ⟨n, -, heq⟩ := hfields.stream_fail hrc
    exact ⟨n, heq⟩

/-- A log that works: a file is open and no call will fail. -/
structure Log.Working (s : Log) : Prop where
  /-- A file is open. -/
  io : s.wal.io.isSome
  /-- No call will fail. -/
  quiet : s.disk.Quiet

/-- An attached handle in a quiet directory works. -/
theorem Log.Attached.working (h : Attached s₀ name s) (hquiet : s.disk.Quiet) : s.Working :=
  ⟨by rw [h.io]; rfl, hquiet⟩

/-- A flush of a working log succeeds. -/
theorem flushBuf_working (h : s.Working) (sync : Bool) :
    (flushBuf sync s).1 = .ok ∧ (flushBuf sync s).2.Working := by
  obtain ⟨name, hname⟩ := Option.isSome_iff_exists.mp h.io
  obtain ⟨hrc, hquiet, hio⟩ : (flushData s).1 = .ok ∧ (flushData s).2.disk.Quiet ∧
      (flushData s).2.wal.io = some name := by
    unfold flushData
    split
    · exact ⟨rfl, h.quiet, hname⟩
    · obtain ⟨heq, hq⟩ := h.quiet.pwrite name s.wal.buf s.wal.fileOffset
      rw [heq] at hq
      simp only [hname, heq, if_true]
      exact ⟨trivial, hq, trivial⟩
  have hsome : (flushData s).2.wal.io.isSome := by
    rw [hio]
    rfl
  unfold flushBuf
  simp only [hrc, if_true, hio]
  cases sync with
  | false => exact ⟨rfl, hsome, hquiet⟩
  | true =>
    obtain ⟨heq, hq⟩ := hquiet.sync
    rw [heq] at hq
    simp only [if_true, heq]
    exact ⟨trivial, hsome, hq⟩

/-- A working log accepts fields. -/
theorem writeFields_working (fields : List Bytes) : ∀ s : Log, s.Working →
    (writeFields fields s).1 = .ok ∧ (writeFields fields s).2.Working := by
  induction fields with
  | nil => exact fun s h => ⟨rfl, h⟩
  | cons field fields ih =>
    intro s h
    have hpush : ∀ d s, Log.Working s → Log.Working (walBuffer.push d s) :=
      fun _ _ h => ⟨h.io, h.quiet⟩
    obtain ⟨hok, hrest⟩ := walBuffer.write_ok hpush (fun _ h => flushBuf_working h false)
      field.length
      field s h
    have hok' : (walWriteBuf field s).1 = .ok := hok
    unfold writeFields
    simp only [hok', if_true]
    exact ih _ hrest

/-- A working log accepts a record. -/
theorem walAppend_working (h : s.Working) (r : Record) :
    (walAppend r s).1 = .ok ∧ (walAppend r s).2.Working := by
  obtain ⟨hok, hworking⟩ := writeFields_working r.frame.fields s h
  have hrecorded : Log.Working { (writeFields r.frame.fields s).2 with
      wal := (writeFields r.frame.fields s).2.wal.recorded r } := ⟨hworking.io, hworking.quiet⟩
  unfold walAppend
  simp only [hok, if_true]
  split
  · exact flushBuf_working hrecorded true
  · exact ⟨rfl, hrecorded⟩

/-- With synchronous writes an append leaves nothing in the buffer. -/
theorem walAppend_buf (h : Log.Attached s₀ name s) (hquiet : s.disk.Quiet)
    (hcap : s.wal.buf.length ≤ walBufCap) (hsync : s₀.wal.syncWrites = true) (r : Record) :
    (walAppend r s).2.wal.buf = [] := by
  obtain ⟨hok, hworking⟩ := writeFields_working r.frame.fields s (h.working hquiet)
  have hatt := (writeFields_spec s₀ name r.frame.fields s h hcap).inv.recorded r
  have hmode := hatt.sync
  have hrecorded : Log.Working { (writeFields r.frame.fields s).2 with
      wal := (writeFields r.frame.fields s).2.wal.recorded r } := ⟨hworking.io, hworking.quiet⟩
  obtain ⟨-, -, hempty, -⟩ := flushBuf_spec hatt true
  unfold walAppend
  simp only [hok, if_true]
  rw [if_pos (hmode.trans hsync)]
  exact hempty (flushBuf_working hrecorded true).1

/-- A working log can be rotated. -/
theorem walRotate_working (h : s.Working) (fresh : Uuid) :
    (walRotate fresh s).1 = .ok ∧ (walRotate fresh s).2.Working := by
  obtain ⟨-, hworking⟩ := flushBuf_working h true
  obtain ⟨hopen, hquiet⟩ := hworking.quiet.call (.create (segName fresh.hex))
  rw [hopen] at hquiet
  unfold walRotate ioOpen
  simp only [hopen, if_true]
  exact ⟨trivial, rfl, hquiet⟩

/-- Append records one after the other, up to the first that fails. -/
def appendAll : List Record → Log → Err × Log
  | [], s => (.ok, s)
  | r :: rs, s =>
    let (rc, s) := walAppend r s
    if rc = .ok then appendAll rs s else (rc, s)

/-- Successful appends add their records to the stream. -/
theorem appendAll_spec (s₀ : Log) (name : Name) (rs : List Record) : ∀ s : Log,
    Log.Attached s₀ name s → s.wal.buf.length ≤ walBufCap → (appendAll rs s).1 = .ok →
      Log.Attached s₀ name (appendAll rs s).2 ∧ (appendAll rs s).2.wal.buf.length ≤ walBufCap ∧
        (appendAll rs s).2.stream name = s.stream name ++ encodeRecords rs := by
  induction rs with
  | nil => exact fun s h hcap _ => ⟨h, hcap, by simp [appendAll]⟩
  | cons r rs ih =>
    intro s h hcap hok
    have hr := walAppend_spec h hcap r
    unfold appendAll at hok ⊢
    generalize walAppend r s = a at hr hok
    obtain ⟨rc, s'⟩ := a
    by_cases hrc : rc = .ok
    · simp only [if_pos hrc] at hok ⊢
      obtain ⟨hatt, hcap', heq⟩ := ih s' hr.attached hr.le_cap hok
      have hstream : s'.stream name = s.stream name ++ r.frame.encode := hr.stream_ok hrc
      exact ⟨hatt, hcap', by rw [heq, hstream, encodeRecords_cons, List.append_assoc]⟩
    · simp only [if_neg hrc] at hok
      exact absurd hok hrc

/-- The specification of a successful `fastkv_wal_open`: the handle is at the end of its
segment and nothing else has changed. -/
theorem walOpen_spec {syncWrites : Bool} {fresh : Uuid} {d : Disk} {s : Log}
    (h : walOpen syncWrites fresh d = (.ok, some s)) :
    s.wal.segmentId = openSegment d.files fresh ∧ s.wal.syncWrites = syncWrites ∧
      Log.Attached s (segName s.wal.segmentId) s ∧ s.wal.buf = [] ∧
      s.stream (segName s.wal.segmentId) = (d.files.lookup (segName s.wal.segmentId)).getD [] ∧
      s.disk.files = applyOp d.files (.create (segName s.wal.segmentId)) := by
  unfold walOpen at h
  generalize hid : openSegment d.files fresh = id at h
  simp only at h
  split at h
  · rename_i hok
    simp only [Prod.mk.injEq, Option.some.injEq, true_and] at h
    subst h
    have hfiles : (ioOpen d (segName id)).2.files = applyOp d.files (.create (segName id)) :=
      Disk.files_of_call_ok hok
    have hlookup := lookup_create d.files (segName id)
    refine ⟨rfl, rfl, ⟨rfl, ⟨_, 0, ?_, rfl⟩, fun _ _ => rfl, rfl, rfl⟩, rfl, ?_, hfiles⟩
    · rw [hfiles, hlookup]
      simp
    · simp only [Log.stream, hfiles, hlookup, Option.getD_some, List.take_length, List.append_nil]
  · rename_i hfail
    exact absurd (congrArg Prod.fst h) hfail

/-- A working log accepts records. -/
theorem appendAll_working (rs : List Record) : ∀ s : Log, s.Working →
    (appendAll rs s).1 = .ok ∧ (appendAll rs s).2.Working := by
  induction rs with
  | nil => exact fun s h => ⟨rfl, h⟩
  | cons r rs ih =>
    intro s h
    obtain ⟨hok, hworking⟩ := walAppend_working h r
    unfold appendAll
    simp only [hok, if_true]
    exact ih _ hworking

/-- In a quiet directory the log can be opened. -/
theorem walOpen_quiet {d : Disk} (h : d.Quiet) (syncWrites : Bool) (fresh : Uuid) :
    ∃ s, walOpen syncWrites fresh d = (.ok, some s) ∧ s.disk.Quiet := by
  obtain ⟨heq, hq⟩ := h.call (.create (segName (openSegment d.files fresh)))
  unfold walOpen ioOpen
  simp only [heq, if_true]
  rw [heq] at hq
  exact ⟨_, rfl, hq⟩

/-! ## The segments of a directory -/

/-- The log files of a directory are the segments with the given identifiers, oldest
first; no other name passes the name test of the log. -/
structure SegmentDir (files : Files) (ids : List Uuid) : Prop where
  /-- Identifiers are distinct and in ascending order. -/
  sorted : ids.Pairwise (· < ·)
  /-- Each of them has a file. -/
  present : ∀ id ∈ ids, segName id.hex ∈ files
  /-- Every other file is something else. -/
  only : ∀ n ∈ files, matchName walPfx walSfx n = none ∨ ∃ id ∈ ids, n = segName id.hex

/-- The name test recognises a segment. -/
theorem matchName_segName (id : Uuid) :
    matchName walPfx walSfx (segName id.hex) = some (id.hex ++ walSfx) := by
  have h := matchName_eq (show '.' ∉ walPfx by decide) ['l', 'o', 'g'] id []
  simpa [segName, walSfx] using h

/-- The name of a segment determines its identifier. -/
theorem segName_inj {a b : Uuid} (h : segName a.hex = segName b.hex) : a = b := by
  have hhex : a.hex = b.hex := by simpa [segName] using h
  cases a
  cases b
  congr

/-- The identifier that the scans extract from the name of a segment. -/
theorem matchName_take (id : Uuid) :
    (matchName walPfx walSfx (segName id.hex)).map (·.take idLen) = some id.hex := by
  rw [matchName_segName, Option.map_some, id.take_append]

variable {files : Files} {ids : List Uuid}

/-- The identifiers extracted from a directory are those of its segments. -/
theorem SegmentDir.mem_segmentIds (h : SegmentDir files ids) (hex : Name) :
    hex ∈ segmentIds files ↔ ∃ id ∈ ids, id.hex = hex := by
  unfold segmentIds
  rw [List.mem_filterMap]
  constructor
  · rintro ⟨n, hn, hmatch⟩
    rcases h.only n (AList.mem_keys.mpr hn) with hnone | ⟨id, hid, rfl⟩
    · rw [hnone] at hmatch
      cases hmatch
    · rw [matchName_take] at hmatch
      exact ⟨id, hid, Option.some.inj hmatch⟩
  · rintro ⟨id, hid, rfl⟩
    exact ⟨segName id.hex, AList.mem_keys.mp (h.present id hid), matchName_take id⟩

/-- No identifier is extracted twice. -/
theorem SegmentDir.nodup_segmentIds (h : SegmentDir files ids) : (segmentIds files).Nodup := by
  unfold segmentIds
  refine List.pairwise_filterMap.mpr (List.Pairwise.imp_of_mem ?_ files.keys_nodup)
  intro a b ha hb hne x hx y hy
  rcases h.only a (AList.mem_keys.mpr ha) with hnone | ⟨i, -, rfl⟩
  · simp [hnone] at hx
  rcases h.only b (AList.mem_keys.mpr hb) with hnone | ⟨j, -, rfl⟩
  · simp [hnone] at hy
  rw [matchName_take] at hx hy
  rintro rfl
  exact hne (by rw [Option.some.inj hx, Option.some.inj hy])

/-- `collect_segments` lists the segments of a directory oldest first. -/
theorem SegmentDir.collectSegments_eq (h : SegmentDir files ids) :
    collectSegments files = ids.map Uuid.hex := by
  have hlt : (ids.map Uuid.hex).Pairwise (· < ·) := by
    rw [List.pairwise_map]
    exact h.sorted
  have hperm : (collectSegments files).Perm (ids.map Uuid.hex) := by
    refine (List.perm_insertionSort _ _).trans
      ((List.perm_ext_iff_of_nodup h.nodup_segmentIds (hlt.imp ne_of_lt)).mpr fun hex => ?_)
    rw [h.mem_segmentIds, List.mem_map]
  exact hperm.eq_of_pairwise' (List.pairwise_insertionSort _ _) (hlt.imp le_of_lt)

/-- A longer name compares with an identifier as its own identifier does. -/
theorem lt_append_iff {a b : Name} (h : a.length = b.length) {sfx : Name} (hsfx : sfx ≠ []) :
    a < b ++ sfx ↔ a ≤ b := by
  induction a generalizing b with
  | nil =>
    obtain rfl := List.eq_nil_of_length_eq_zero h.symm
    obtain ⟨c, cs, rfl⟩ := List.exists_cons_of_ne_nil hsfx
    simp
  | cons x xs ih =>
    cases b with
    | nil => cases h
    | cons y ys =>
      have hlen : xs.length = ys.length := Nat.succ.inj h
      rw [List.cons_append, List.cons_lt_cons_iff, ih hlen]
      constructor
      · rintro (hlt | ⟨rfl, hle⟩)
        · exact le_of_lt (List.cons_lt_cons_iff.mpr (Or.inl hlt))
        · rcases hle.lt_or_eq with hlt | rfl
          · exact le_of_lt (List.cons_lt_cons_iff.mpr (Or.inr ⟨rfl, hlt⟩))
          · exact le_rfl
      · intro hle
        rcases hle.lt_or_eq with hlt | heq
        · rcases List.cons_lt_cons_iff.mp hlt with hxy | ⟨hxy, htail⟩
          · exact Or.inl hxy
          · exact Or.inr ⟨hxy, le_of_lt htail⟩
        · cases heq
          exact Or.inr ⟨rfl, le_rfl⟩

/-- The scan of `fastkv_wal_open` keeps the larger of two identifiers; on a tie they are the
same. -/
theorem newer_eq_max {cur : Name} (hcur : cur = [] ∨ cur.length = idLen) (id : Uuid) :
    (if cur < id.hex ++ walSfx then (id.hex ++ walSfx).take idLen else cur) = max cur id.hex := by
  rw [id.take_append]
  rcases hcur with rfl | hlen
  · obtain ⟨c, cs, hc⟩ := List.exists_cons_of_ne_nil id.hex_ne
    rw [hc, List.cons_append, if_pos (List.nil_lt_cons c (cs ++ walSfx)),
      max_eq_right (le_of_lt (List.nil_lt_cons c cs))]
  · have hiff : cur < id.hex ++ walSfx ↔ cur ≤ id.hex :=
      lt_append_iff (hlen.trans id.length_hex.symm) (by decide)
    by_cases hle : cur ≤ id.hex
    · rw [if_pos (hiff.mpr hle), max_eq_right hle]
    · rw [if_neg (hle ∘ hiff.mp), max_eq_left (le_of_not_ge hle)]

/-- The scan of `fastkv_wal_open` ends at the largest identifier it met. -/
theorem newestSegment_spec (names : List Name) :
    ∀ cur : Name, (cur = [] ∨ cur.length = idLen) →
      (∀ n ∈ names, matchName walPfx walSfx n = none ∨ ∃ id : Uuid, n = segName id.hex) →
      (newestSegment names cur = cur ∨
        ∃ id : Uuid, segName id.hex ∈ names ∧ newestSegment names cur = id.hex) ∧
      cur ≤ newestSegment names cur ∧
      ∀ id : Uuid, segName id.hex ∈ names → id.hex ≤ newestSegment names cur := by
  induction names with
  | nil => exact fun cur _ _ => ⟨Or.inl rfl, le_rfl, fun id h => by cases h⟩
  | cons n names ih =>
    intro cur hcur hnames
    have hrest : ∀ m ∈ names, matchName walPfx walSfx m = none ∨ ∃ id : Uuid, m = segName id.hex :=
      fun m hm => hnames m (by simp [hm])
    unfold newestSegment
    rcases hnames n (by simp) with hnone | ⟨id, rfl⟩
    · obtain ⟨hfrom, hge, hall⟩ := ih cur hcur hrest
      simp only [hnone]
      refine ⟨hfrom.imp_right fun ⟨i, hi, heq⟩ => ⟨i, by simp [hi], heq⟩, hge, fun i hi => ?_⟩
      rcases List.mem_cons.mp hi with rfl | hi
      · rw [matchName_segName] at hnone
        cases hnone
      · exact hall i hi
    · have hlen' : max cur id.hex = [] ∨ (max cur id.hex).length = idLen := by
        rcases max_choice cur id.hex with heq | heq
        · rw [heq]
          exact hcur
        · rw [heq]
          exact Or.inr id.length_hex
      obtain ⟨hfrom, hge, hall⟩ := ih (max cur id.hex) hlen' hrest
      simp only [matchName_segName, newer_eq_max hcur]
      refine ⟨?_, le_trans (le_max_left _ _) hge, fun i hi => ?_⟩
      · rcases hfrom with heq | ⟨i, hi, heq⟩
        · rcases max_choice cur id.hex with hm | hm
          · exact Or.inl (heq.trans hm)
          · exact Or.inr ⟨id, by simp, heq.trans hm⟩
        · exact Or.inr ⟨i, by simp [hi], heq⟩
      · rcases List.mem_cons.mp hi with hi | hi
        · rw [segName_inj hi]
          exact le_trans (le_max_right _ _) hge
        · exact hall i hi

/-- Opening the log continues the segment with the largest identifier. -/
theorem openSegment_of_largest
    (hnames : ∀ n ∈ files, matchName walPfx walSfx n = none ∨ ∃ id : Uuid, n = segName id.hex)
    {id₀ : Uuid} (hmem : segName id₀.hex ∈ files)
    (hle : ∀ id : Uuid, segName id.hex ∈ files → id ≤ id₀) (fresh : Uuid) :
    openSegment files fresh = id₀.hex := by
  obtain ⟨hfrom, -, hall⟩ := newestSegment_spec files.keys [] (Or.inl rfl)
    fun n hn => hnames n (AList.mem_keys.mpr hn)
  have hge := hall id₀ (AList.mem_keys.mp hmem)
  have hne : newestSegment files.keys [] ≠ [] := by
    intro hnil
    have hlen := id₀.length_hex
    cases hid : id₀.hex with
    | nil => rw [hid] at hlen; cases hlen
    | cons c cs =>
      rw [hnil, hid] at hge
      exact absurd hge (not_le_of_gt (List.nil_lt_cons c cs))
  rw [openSegment, if_neg hne]
  rcases hfrom with hnil | ⟨i, hi, heq⟩
  · exact absurd hnil hne
  · rw [heq] at hge ⊢
    exact le_antisymm (hle i (AList.mem_keys.mpr hi)) hge

/-- `fastkv_wal_open` continues the newest segment. -/
theorem SegmentDir.openSegment_eq {older : List Uuid} {id : Uuid}
    (h : SegmentDir files (older ++ [id])) (fresh : Uuid) : openSegment files fresh = id.hex := by
  refine openSegment_of_largest (fun n hn => ?_) (h.present id (by simp)) (fun i hi => ?_) fresh
  · exact (h.only n hn).imp_right fun ⟨i, _, hi⟩ => ⟨i, hi⟩
  · obtain ⟨j, hj, hij⟩ := (h.only _ hi).resolve_left
      (by rw [matchName_segName]; exact Option.some_ne_none _)
    rw [segName_inj hij]
    rcases List.mem_append.mp hj with hold | hlast
    · have hlt : j < id := (List.pairwise_append.mp h.sorted).2.2 j hold id (by simp)
      exact le_of_lt hlt
    · rw [List.mem_singleton.mp hlast]

end FastKV
