import FastKV.CrashSafety

/-!
# Crashes while the log is written

Appending to the log and flushing it write to one file, behind what the file holds. A crash
between or in the middle of these writes leaves a file that is at least as long as before and
holds a beginning of the stream that the handle has accepted. The records that can be read
from it are a beginning of those that were appended.
-/

namespace FastKV

open Lib

/-! ## Sequences of writes -/

/-- A crash while some writes and further changes are made comes before the end of the writes
or after it. -/
theorem Crashed.append {name : Name} {writes rest : List FsOp} {files files' : Files}
    (h : Crashed files (writes ++ rest) files')
    (hwrites : ∀ op ∈ writes, ∃ offset data, op = .pwrite name offset data) :
    Crashed files writes files' ∨ Crashed (writes.foldl applyOp files) rest files' := by
  induction writes generalizing files with
  | nil => exact Or.inr h
  | cons op writes ih =>
    obtain ⟨offset, data, rfl⟩ := hwrites op (by simp)
    cases h with
    | here => exact Or.inl (.here _ _)
    | torn _ _ _ _ _ m => exact Or.inl (.torn _ _ _ _ _ m)
    | done h => exact (ih h fun op hop => hwrites op (by simp [hop])).imp_left .done

/-- A crash at a single write stores a beginning of its data, or has not stored any. -/
theorem Crashed.pwrite {files files' : Files} {name : Name} {offset : ℕ} {data : Bytes}
    (h : Crashed files [.pwrite name offset data] files') :
    files' = files ∨ ∃ m, files' = applyOp files (.pwrite name offset (data.take m)) := by
  cases h with
  | here => exact Or.inl rfl
  | torn _ _ _ _ _ m => exact Or.inr ⟨m, rfl⟩
  | done h =>
    cases h
    exact Or.inr ⟨data.length, by rw [List.take_length]⟩

/-- A directory between two states of the log: the file of the log has grown, but not beyond
what the handle has accepted. -/
structure Log.Between (name : Name) (s s' : Log) (files' : Files) : Prop where
  /-- The file of the log. -/
  file : ∃ bytes, files'.lookup name = some bytes ∧
    (s.disk.files.lookup name).getD [] <+: bytes ∧ bytes <+: s'.stream name
  /-- The other files. -/
  others : ∀ n ≠ name, files'.lookup n = s.disk.files.lookup n

/-- From one state of the log to another by writes to its file only. -/
structure Log.Wrote (name : Name) (s s' : Log) : Prop where
  /-- The handle stays on its file. -/
  attached : Attached s name s'
  /-- No call will fail. -/
  quiet : s'.disk.Quiet
  /-- The writes, and what a crash leaves of them. -/
  changes : ∃ ops, s.disk.Did ops s'.disk ∧
    (∀ op ∈ ops, ∃ offset data, op = .pwrite name offset data) ∧
    ∀ files', Crashed s.disk.files ops files' → Between name s s' files'

section Wrote

variable {name : Name} {s s' : Log}

/-- A directory between two states is also between the first one and any later one. -/
theorem Log.Between.mono {s'' : Log} {files' : Files} (h : Between name s s' files')
    (hstream : s'.stream name <+: s''.stream name) : Between name s s'' files' := by
  obtain ⟨bytes, hfile, hold, hnew⟩ := h.file
  exact ⟨⟨bytes, hfile, hold, hnew.trans hstream⟩, h.others⟩

/-- Nothing is written. -/
theorem Log.Wrote.refl (h : Attached s name s) (hquiet : s.disk.Quiet) : Wrote name s s := by
  refine ⟨h, hquiet, [], .refl _, by simp, fun files' hcrash => ?_⟩
  cases hcrash
  obtain ⟨stored, n, hfile, hlen⟩ := h.file
  refine ⟨⟨_, hfile, by rw [hfile]; exact List.prefix_rfl, ?_⟩, fun _ _ => rfl⟩
  rw [Log.stream_eq hfile hlen, List.prefix_append_right_inj]
  exact List.take_prefix _ _

/-- A step that writes no file and does not shorten the stream. -/
theorem Log.Wrote.unwritten (h : Wrote name s s') {s'' : Log} (hatt : Attached s name s'')
    (hquiet : s''.disk.Quiet) (hfiles : s''.disk.files = s'.disk.files)
    (htrace : s''.disk.trace = s'.disk.trace) (hstream : s'.stream name <+: s''.stream name) :
    Wrote name s s'' := by
  obtain ⟨ops, hdid, hops, hcrash⟩ := h.changes
  refine ⟨hatt, hquiet, ops, ⟨hfiles.trans hdid.files, htrace.trans hdid.trace⟩, hops, ?_⟩
  exact fun files' hc => (hcrash files' hc).mono hstream

/-- Data is copied to the buffer. -/
theorem Log.Wrote.push (h : Wrote name s s') (data : Bytes) :
    Wrote name s (walBuffer.push data s') := by
  have hlawful := walBuffer_lawful s name
  refine h.unwritten (hlawful.inv_push data s' h.attached) h.quiet rfl rfl ?_
  rw [hlawful.stream_push]
  exact List.prefix_append _ _

/-- The buffer is written. -/
theorem Log.Wrote.flushData (h : Wrote name s s') : Wrote name s (flushData s').2 := by
  have hspec := flushData_spec h.attached
  by_cases hbuf : s'.wal.buf = []
  · have heq : FastKV.flushData s' = (.ok, s') := by
      unfold FastKV.flushData
      rw [if_pos hbuf]
    rw [heq]
    exact h
  obtain ⟨hpwrite, hquiet⟩ := h.quiet.pwrite name s'.wal.buf s'.wal.fileOffset
  rw [hpwrite] at hquiet
  have hdisk : (FastKV.flushData s').2.disk =
      { s'.disk.perform (.pwrite name s'.wal.fileOffset s'.wal.buf) with
        outcomes := s'.disk.outcomes.tail } := by
    unfold FastKV.flushData
    simp only [if_neg hbuf, h.attached.io, hpwrite, if_true]
  obtain ⟨stored, n, hfile, hlen⟩ := h.attached.file
  obtain ⟨ops, hdid, hops, hcrash⟩ := h.changes
  have hwrite : s'.disk.Did [.pwrite name s'.wal.fileOffset s'.wal.buf]
      (FastKV.flushData s').2.disk := by
    rw [hdisk]
    exact ⟨rfl, rfl⟩
  refine ⟨hspec.attached, by rw [hdisk]; exact hquiet, ops ++ [_], hdid.trans hwrite, ?_, ?_⟩
  · intro op hop
    rcases List.mem_append.mp hop with hop | hop
    · exact hops op hop
    · exact ⟨_, _, List.mem_singleton.mp hop⟩
  · intro files' hc
    have hstream : s'.stream name <+: (FastKV.flushData s').2.stream name :=
      ⟨[], by rw [List.append_nil, hspec.stream_eq]⟩
    rcases hc.append hops with hc | hc
    · exact (hcrash files' hc).mono hstream
    -- the earlier writes are complete, and this one stores a part of the buffer
    have hfull : Between name s s' s'.disk.files := by
      have htake := Crashed.take ops ops.length s.disk.files
      rw [List.take_length, ← hdid.files] at htake
      exact hcrash _ htake
    rw [← hdid.files] at hc
    rcases hc.pwrite with rfl | ⟨m, rfl⟩
    · exact hfull.mono hstream
    · obtain ⟨bytes, hbytes, hold, -⟩ := hfull.file
      rw [hfile, Option.some.injEq] at hbytes
      have hpatch : applyOp s'.disk.files (.pwrite name s'.wal.fileOffset (s'.wal.buf.take m)) =
          s'.disk.files.insert name (stored ++ s'.wal.buf.take (max n m)) := by
        simp only [applyOp, hfile, ← hlen, patch_take]
      rw [hpatch]
      refine ⟨⟨_, AList.lookup_insert _, ?_, ?_⟩, fun n' hn' => ?_⟩
      · refine hold.trans ?_
        rw [← hbytes, List.prefix_append_right_inj]
        exact List.take_prefix_take_left (Nat.le_max_left n m)
      · rw [hspec.stream_eq, Log.stream_eq hfile hlen, List.prefix_append_right_inj]
        exact List.take_prefix _ _
      · rw [AList.lookup_insert_ne hn']
        exact hfull.others n' hn'

/-- The log is flushed. -/
theorem Log.Wrote.flushBuf (h : Wrote name s s') (sync : Bool) :
    Wrote name s (flushBuf sync s').2 := by
  have hdata := h.flushData
  obtain ⟨hatt, hstream, -⟩ := flushBuf_spec h.attached sync
  have hdataStream := (flushData_spec h.attached).stream_eq
  obtain ⟨heq, hquiet⟩ := hdata.quiet.sync
  rw [heq] at hquiet
  unfold FastKV.flushBuf at hatt hstream ⊢
  generalize FastKV.flushData s' = r at hdata hatt hstream hdataStream heq hquiet ⊢
  obtain ⟨rc, log⟩ := r
  by_cases hrc : rc = .ok
  · simp only [hrc, if_true] at hatt hstream ⊢
    cases sync with
    | false => exact hdata
    | true =>
      have hio : log.wal.io = some name := hdata.attached.io
      have heq' : ioSync log.disk = (.ok, { log.disk with outcomes := log.disk.outcomes.tail }) :=
        heq
      simp only [if_true, hio, heq'] at hatt hstream ⊢
      refine hdata.unwritten hatt hquiet rfl rfl ?_
      exact ⟨[], by rw [List.append_nil, hstream, hdataStream]⟩
  · simp only [if_neg hrc] at hatt ⊢
    exact hdata

/-- A record is appended. -/
theorem Log.Wrote.walAppend (h : Wrote name s s') (r : Record) :
    Wrote name s (walAppend r s').2 := by
  have hfields : ∀ (fields : List Bytes) (s' : Log), Wrote name s s' →
      Wrote name s (writeFields fields s').2 := by
    intro fields
    induction fields with
    | nil => exact fun _ h => h
    | cons field fields ih =>
      intro s' h
      have hfield : Wrote name s (walWriteBuf field s').2 :=
        Buffer.write_keeps (fun d _ h => h.push d) (fun _ h => h.flushBuf false) _ field s' h
      unfold writeFields
      dsimp only
      split
      · exact ih _ hfield
      · exact hfield
  have hwritten := hfields r.frame.fields s' h
  unfold FastKV.walAppend
  dsimp only
  split
  · have hrecorded := hwritten.unwritten (hwritten.attached.recorded r) hwritten.quiet rfl rfl
      (List.prefix_refl _)
    split
    · exact hrecorded.flushBuf true
    · exact hrecorded
  · exact hwritten

/-- Records are appended. -/
theorem Log.Wrote.appendAll (rs : List Record) : ∀ {s' : Log}, Wrote name s s' →
    Wrote name s (appendAll rs s').2 := by
  induction rs with
  | nil => exact fun h => h
  | cons r rs ih =>
    intro s' h
    have hr := h.walAppend r
    unfold FastKV.appendAll
    dsimp only
    split
    · exact ih hr
    · exact hr

end Wrote

/-! ## The records in the directory -/

/-- A directory between two states of a log holds a beginning of its records, with all those
that were in the file before. -/
theorem Log.Holds.between {s s' : Log} {older : List (Uuid × List Record)} {id : Uuid}
    {cur rs : List Record} {files' : Files} (h : s.Holds older id cur)
    (h' : s'.Holds older id (cur ++ rs)) (hbetween : Between (segName id.hex) s s' files') :
    ∃ k, SegmentLog files' (older ++ [(id, (cur ++ rs).take k)]) ∧
      (s.wal.buf = [] → cur.length ≤ k) := by
  obtain ⟨bytes, hbytes, hold, hnew⟩ := hbetween.file
  rw [h'.stream, List.prefix_iff_eq_take] at hnew
  refine ⟨frameFormat.wholeFrames ((cur ++ rs).map Record.frame) bytes.length, ⟨?_, ?_⟩, ?_⟩
  · rw [List.map_append]
    refine h.dir.of_lookup fun n => ?_
    by_cases hn : n = segName id.hex
    · obtain ⟨stored, m, hfile, -⟩ := h.attached.file
      rw [hn, hbytes, hfile]
      rfl
    · rw [hbetween.others n hn]
  · intro seg hseg
    rcases List.mem_append.mp hseg with hseg | hseg
    · exact (h.older_holds seg hseg).of_lookup (hbetween.others _ (h.older_ne hseg))
    · rw [List.mem_singleton.mp hseg]
      refine ⟨fun r hr => h'.valid r (List.mem_of_mem_take hr), _, hbytes, ?_⟩
      conv_lhs => rw [hnew, encodeRecords]
      rw [Format.scan_take_encodeAll (frames_valid h'.valid), List.map_take]
  · intro hbuf
    rw [h.attached.lookup_of_empty hbuf, h.stream, Option.getD_some] at hold
    have hle := frameFormat.le_wholeFrames_append (rs.map Record.frame) hold.length_le
    rwa [← List.map_append, List.length_map] at hle

end FastKV
