import FastKV.WalStream

/-!
# The records in a log

A directory holds a sequence of records when its segments, read in the order of their
names, contain them in this order. A handle holds records when in addition the newest
segment together with the buffer is exactly the encoding of the last of them. The
operations of the handle are described by how they change the sequence.
-/

namespace FastKV

open Lib

/-- A callback that keeps what it is given. -/
def collect (r : Record) (acc : List Record) : Err × List Record := (.ok, acc ++ [r])

/-- The records that a replay of the directory hands to its callback. -/
def delivered (sinceTs : ℕ) (files : Files) : List Record :=
  (walReplay sinceTs collect files [] 0).2.1

/-- Replay delivers the deliveries of the segments. -/
theorem delivered_eq (sinceTs : ℕ) (files : Files) :
    delivered sinceTs files = replayed sinceTs files := by
  obtain ⟨maxTs, h, -⟩ := walReplay_eq sinceTs (fun r acc => acc ++ [r]) files [] 0
  have hfold : ∀ (rs acc : List Record), rs.foldl (fun acc r => acc ++ [r]) acc = acc ++ rs := by
    intro rs
    induction rs with
    | nil => simp
    | cons r rs ih => simp [ih]
  have hcollect : (collect : Record → List Record → Err × List Record) =
      fun r acc => (.ok, acc ++ [r]) := rfl
  rw [delivered, hcollect, h]
  simp only [hfold, List.nil_append]

/-- The deliveries of consecutive frames. -/
theorem deliveries_append (sinceTs : ℕ) (fs gs : List Frame) (valBuf : Bool) :
    ∃ valBuf', deliveries sinceTs valBuf (fs ++ gs) =
      deliveries sinceTs valBuf fs ++ deliveries sinceTs valBuf' gs := by
  induction fs generalizing valBuf with
  | nil => exact ⟨valBuf, rfl⟩
  | cons f fs ih =>
    obtain ⟨valBuf', h⟩ := ih (valBuf || !f.val.isEmpty)
    refine ⟨valBuf', ?_⟩
    simp only [List.cons_append, deliveries, h]
    split
    · rfl
    · rw [List.append_assoc]

/-- A directory with the same files up to the contents of existing segments has the same
segments. -/
theorem SegmentDir.of_lookup {files files' : Files} {ids : List Uuid} (h : SegmentDir files ids)
    (heq : ∀ n, (files'.lookup n).isSome = (files.lookup n).isSome) : SegmentDir files' ids where
  sorted := h.sorted
  present id hid := by
    have hmem := h.present id hid
    rw [← AList.lookup_isSome, ← heq, AList.lookup_isSome] at hmem
    exact hmem
  only n hn := by
    rw [← AList.lookup_isSome, heq, AList.lookup_isSome] at hn
    exact h.only n hn

/-! ## Segments and their records -/

/-- A segment file from which exactly the given valid records can be read. -/
structure SegmentHolds (files : Files) (seg : Uuid × List Record) : Prop where
  /-- The records are ones the engine logs. -/
  valid : ∀ r ∈ seg.2, r.Valid
  /-- They are what a reader finds. -/
  file : ∃ bytes, files.lookup (segName seg.1.hex) = some bytes ∧
    frameFormat.scan bytes = seg.2.map Record.frame

/-- A directory whose segments hold the given records. -/
structure SegmentLog (files : Files) (segs : List (Uuid × List Record)) : Prop where
  /-- The segments of the directory. -/
  dir : SegmentDir files (segs.map Prod.fst)
  /-- The records of each of them. -/
  holds : ∀ seg ∈ segs, SegmentHolds files seg

/-- A segment only depends on its own file. -/
theorem SegmentHolds.of_lookup {files files' : Files} {seg : Uuid × List Record}
    (h : SegmentHolds files seg)
    (heq : files'.lookup (segName seg.1.hex) = files.lookup (segName seg.1.hex)) :
    SegmentHolds files' seg :=
  ⟨h.valid, by rw [heq]; exact h.file⟩

/-- The encodings of valid records are read back. -/
theorem scan_encodeRecords {rs : List Record} (h : ∀ r ∈ rs, r.Valid) :
    frameFormat.scan (encodeRecords rs) = rs.map Record.frame := by
  have hall := Format.scan_encodeAll (frames_valid h) []
  simpa [encodeRecords] using hall

/-- The wanted records of a segment are delivered. -/
theorem SegmentHolds.deliveries_eq {files : Files} {seg : Uuid × List Record}
    (h : SegmentHolds files seg) (sinceTs : ℕ) :
    (segmentDeliveries sinceTs files seg.1.hex).map Record.content =
      (seg.2.filter (Record.wanted sinceTs)).map Record.content := by
  obtain ⟨bytes, hbytes, hscan⟩ := h.file
  simp only [segmentDeliveries, hbytes, hscan, deliveries_content h.valid]

/-- Replay delivers the wanted records of all segments in order. -/
theorem SegmentLog.delivered_content {files : Files} {segs : List (Uuid × List Record)}
    (h : SegmentLog files segs) (sinceTs : ℕ) :
    (delivered sinceTs files).map Record.content =
      ((segs.flatMap Prod.snd).filter (Record.wanted sinceTs)).map Record.content := by
  rw [delivered_eq, replayed, h.dir.collectSegments_eq, List.map_map, List.flatMap_map]
  have hsegs := h.holds
  clear h
  induction segs with
  | nil => rfl
  | cons seg segs ih =>
    have hrest := ih fun s hs => hsegs s (by simp [hs])
    have hseg := (hsegs seg (by simp)).deliveries_eq sinceTs
    simp only [List.flatMap_cons, List.map_append, List.filter_append, Function.comp_apply]
      at hrest ⊢
    rw [hrest, hseg]

/-- An empty directory has no segments. -/
theorem SegmentDir.empty : SegmentDir ∅ [] :=
  ⟨by simp, by simp, fun n hn => absurd hn (AList.notMem_empty n)⟩

/-- A new segment with a larger identifier is added behind the others, empty. -/
theorem SegmentDir.create {files : Files} {ids : List Uuid} (h : SegmentDir files ids)
    {fresh : Uuid} (hfresh : ∀ i ∈ ids, i < fresh) :
    SegmentDir (applyOp files (.create (segName fresh.hex))) (ids ++ [fresh]) ∧
      (applyOp files (.create (segName fresh.hex))).lookup (segName fresh.hex) = some [] := by
  have hnew : segName fresh.hex ∉ files := by
    intro hmem
    rcases h.only _ hmem with hnone | ⟨i, hi, heq⟩
    · rw [matchName_segName] at hnone
      cases hnone
    · exact absurd (segName_inj heq) (ne_of_gt (hfresh i hi))
  have hfiles : applyOp files (.create (segName fresh.hex)) = files.insert (segName fresh.hex) [] :=
    if_neg hnew
  rw [hfiles]
  refine ⟨⟨?_, fun i hi => ?_, fun n hn => ?_⟩, AList.lookup_insert _⟩
  · exact List.pairwise_append.mpr ⟨h.sorted, by simp, by simpa using hfresh⟩
  · rcases List.mem_append.mp hi with hold | hlast
    · exact (AList.mem_insert _).mpr (Or.inr (h.present i hold))
    · rw [List.mem_singleton.mp hlast]
      exact (AList.mem_insert _).mpr (Or.inl rfl)
  · rcases (AList.mem_insert _).mp hn with rfl | hold
    · exact Or.inr ⟨fresh, by simp, rfl⟩
    · exact (h.only n hold).imp_right fun ⟨i, hi, heq⟩ => ⟨i, by simp [hi], heq⟩

/-! ## The records behind a handle -/

/-- The handle continues segment `id` after the records `cur`; the older segments hold
theirs. -/
structure Log.Holds (s : Log) (older : List (Uuid × List Record)) (id : Uuid)
    (cur : List Record) : Prop where
  /-- The segments of the directory. -/
  dir : SegmentDir s.disk.files (older.map Prod.fst ++ [id])
  /-- The records of the older ones. -/
  older_holds : ∀ seg ∈ older, SegmentHolds s.disk.files seg
  /-- The current segment. -/
  segment : s.wal.segmentId = id.hex
  /-- The handle is open on it. -/
  attached : Attached s (segName id.hex) s
  /-- The buffer does not overflow. -/
  le_cap : s.wal.buf.length ≤ walBufCap
  /-- What the handle has accepted for it. -/
  stream : s.stream (segName id.hex) = encodeRecords cur
  /-- The records are ones the engine logs. -/
  valid : ∀ r ∈ cur, r.Valid

section Holds

variable {s s' : Log} {older : List (Uuid × List Record)} {id : Uuid} {cur : List Record}

/-- An older segment is not the current one. -/
theorem Log.Holds.older_ne (h : s.Holds older id cur) {seg : Uuid × List Record}
    (hseg : seg ∈ older) : segName seg.1.hex ≠ segName id.hex := by
  have hlt : seg.1 < id :=
    (List.pairwise_append.mp h.dir.sorted).2.2 seg.1 (List.mem_map_of_mem hseg) id (by simp)
  exact fun heq => absurd (segName_inj heq) (ne_of_lt hlt)

/-- Operations that only touch the current segment and the buffer. -/
theorem Log.Holds.of_attached (h : s.Holds older id cur) (hatt : Attached s (segName id.hex) s')
    (hcap : s'.wal.buf.length ≤ walBufCap) {cur' : List Record}
    (hstream : s'.stream (segName id.hex) = encodeRecords cur') (hvalid : ∀ r ∈ cur', r.Valid) :
    s'.Holds older id cur' where
  dir := by
    refine h.dir.of_lookup fun n => ?_
    by_cases hn : n = segName id.hex
    · obtain ⟨stored, m, hfile, -⟩ := hatt.file
      obtain ⟨stored', m', hfile', -⟩ := h.attached.file
      rw [hn, hfile, hfile']
      rfl
    · rw [hatt.others n hn]
  older_holds seg hseg := (h.older_holds seg hseg).of_lookup (hatt.others _ (h.older_ne hseg))
  segment := hatt.segment.trans h.segment
  attached := ⟨hatt.io, hatt.file, fun _ _ => rfl, rfl, rfl⟩
  le_cap := hcap
  stream := hstream
  valid := hvalid

/-- A successful append adds its record. -/
theorem Log.Holds.append (h : s.Holds older id cur) {r : Record} (hr : r.Valid)
    (hok : (walAppend r s).1 = .ok) : (walAppend r s).2.Holds older id (cur ++ [r]) := by
  have hspec := walAppend_spec h.attached h.le_cap r
  refine h.of_attached hspec.attached hspec.le_cap ?_ ?_
  · rw [hspec.stream_ok hok, h.stream]
    simp
  · intro r' hr'
    rcases List.mem_append.mp hr' with hold | hnew
    · exact h.valid r' hold
    · rw [List.mem_singleton.mp hnew]
      exact hr

/-- A flush keeps the records, and empties the buffer if it succeeds. -/
theorem Log.Holds.flush (h : s.Holds older id cur) (sync : Bool) :
    (flushBuf sync s).2.Holds older id cur ∧
      ((flushBuf sync s).1 = .ok → (flushBuf sync s).2.wal.buf = []) := by
  obtain ⟨hatt, hstream, hempty, -, hbuf⟩ := flushBuf_spec h.attached sync
  refine ⟨h.of_attached hatt ?_ (hstream.trans h.stream) h.valid, hempty⟩
  rcases hbuf with hbuf | hbuf
  · simp [hbuf]
  · rw [hbuf]
    exact h.le_cap

/-- With an empty buffer the directory holds all the records. -/
theorem Log.Holds.segmentLog (h : s.Holds older id cur) (hbuf : s.wal.buf = []) :
    SegmentLog s.disk.files (older ++ [(id, cur)]) where
  dir := by simpa using h.dir
  holds seg hseg := by
    rcases List.mem_append.mp hseg with hold | hlast
    · exact h.older_holds seg hold
    · rw [List.mem_singleton.mp hlast]
      refine ⟨h.valid, _, h.attached.lookup_of_empty hbuf, ?_⟩
      rw [h.stream]
      exact scan_encodeRecords h.valid

/-- A log that is opened on a directory with complete segments goes on with the newest one. -/
theorem Log.Holds.opened (h : s.Holds older id cur) (hbuf : s.wal.buf = []) {d : Disk}
    (hd : d.files = s.disk.files) {syncWrites : Bool} {fresh : Uuid} {log : Log}
    (hopen : walOpen syncWrites fresh d = (.ok, some log)) : log.Holds older id cur := by
  obtain ⟨hseg, -, hatt, hbuf', hstream, hfiles⟩ := walOpen_spec hopen
  have hfile := h.attached.lookup_of_empty hbuf
  rw [hd] at hseg hstream hfiles
  rw [h.dir.openSegment_eq] at hseg
  rw [hseg] at hatt hstream hfiles
  have hsame : log.disk.files = s.disk.files := by
    rw [hfiles]
    exact if_pos (h.dir.present id (by simp))
  refine ⟨by rw [hsame]; exact h.dir, fun seg hmem => ?_, hseg, hatt, by simp [hbuf'], ?_, h.valid⟩
  · rw [hsame]
    exact h.older_holds seg hmem
  · rw [hstream, hfile, Option.getD_some, h.stream]

/-- A rotation that can open its file: what a reader finds in the old segment stays there,
and the records still in the buffer start the new one. -/
theorem Log.Holds.rotate (h : s.Holds older id cur) {fresh : Uuid} (hfresh : id < fresh)
    (hok : (walRotate fresh s).1 = .ok) {cur₁ cur₂ : List Record} (hcur : cur = cur₁ ++ cur₂)
    (hold : SegmentHolds (flushBuf true s).2.disk.files (id, cur₁))
    (hbuf : (flushBuf true s).2.wal.buf = encodeRecords cur₂) :
    (walRotate fresh s).2.Holds (older ++ [(id, cur₁)]) fresh cur₂ := by
  obtain ⟨hflush, -⟩ := h.flush true
  unfold walRotate at hok ⊢
  generalize (flushBuf true s).2 = s₁ at hflush hold hbuf hok
  simp only at hok ⊢
  have hopen : (ioOpen s₁.disk (segName fresh.hex)).1 = .ok := by
    by_contra hne
    rw [if_neg hne] at hok
    exact hne hok
  rw [if_pos hopen]
  have hfiles : (ioOpen s₁.disk (segName fresh.hex)).2.files =
      applyOp s₁.disk.files (.create (segName fresh.hex)) := Disk.files_of_call_ok hopen
  have hall : ∀ i ∈ older.map Prod.fst ++ [id], i < fresh := by
    intro i hi
    rcases List.mem_append.mp hi with hi | hi
    · exact lt_trans ((List.pairwise_append.mp hflush.dir.sorted).2.2 i hi id (by simp)) hfresh
    · rw [List.mem_singleton.mp hi]
      exact hfresh
  obtain ⟨hdir, hlookup⟩ := hflush.dir.create hall
  have hsame : ∀ i ∈ older.map Prod.fst ++ [id],
      (applyOp s₁.disk.files (.create (segName fresh.hex))).lookup (segName i.hex) =
        s₁.disk.files.lookup (segName i.hex) := by
    intro i hi
    exact lookup_create_ne _ fun heq => absurd (segName_inj heq) (ne_of_lt (hall i hi))
  refine ⟨?_, ?_, rfl, ⟨rfl, ⟨[], 0, ?_, rfl⟩, fun _ _ => rfl, rfl, rfl⟩, hflush.le_cap, ?_, ?_⟩
  · simp only [hfiles, List.map_append, List.map_cons, List.map_nil]
    exact hdir
  · intro seg hseg
    simp only [hfiles]
    rcases List.mem_append.mp hseg with hmem | hmem
    · exact (hflush.older_holds seg hmem).of_lookup
        (hsame seg.1 (List.mem_append_left _ (List.mem_map_of_mem hmem)))
    · rw [List.mem_singleton.mp hmem]
      exact hold.of_lookup (hsame id (by simp))
  · simp only [hfiles, hlookup, List.take_zero, List.append_nil]
  · simp only [Log.stream, hfiles, hlookup, Option.getD_some, List.take_zero, List.nil_append]
    exact hbuf
  · intro r hr
    exact hflush.valid r (by rw [hcur]; exact List.mem_append_right _ hr)

/-- A rotation after a complete flush leaves all records in the old segment. -/
theorem Log.Holds.rotate_of_flush (h : s.Holds older id cur) {fresh : Uuid} (hfresh : id < fresh)
    (hok : (walRotate fresh s).1 = .ok) (hempty : (flushBuf true s).2.wal.buf = []) :
    (walRotate fresh s).2.Holds (older ++ [(id, cur)]) fresh [] := by
  have hlog := (h.flush true).1.segmentLog hempty
  exact h.rotate hfresh hok (List.append_nil cur).symm (hlog.holds (id, cur) (by simp)) hempty

end Holds

/-- Successful appends add their records. -/
theorem Log.Holds.appendAll {older : List (Uuid × List Record)} {id : Uuid} (rs : List Record) :
    ∀ {s : Log} {cur : List Record}, s.Holds older id cur → s.disk.Quiet → (∀ r ∈ rs, r.Valid) →
      (FastKV.appendAll rs s).2.Holds older id (cur ++ rs) ∧
        (FastKV.appendAll rs s).2.disk.Quiet := by
  induction rs with
  | nil =>
    intro s cur h hquiet _
    rw [List.append_nil]
    exact ⟨h, hquiet⟩
  | cons r rs ih =>
    intro s cur h hquiet hrs
    obtain ⟨hok, hworking⟩ := walAppend_working (h.attached.working hquiet) r
    have hrest := ih (h.append (hrs r (by simp)) hok) hworking.quiet fun r' hr' =>
      hrs r' (by simp [hr'])
    unfold FastKV.appendAll
    simp only [hok, if_true]
    rw [List.append_assoc] at hrest
    exact hrest

/-- A rotation on a quiet disk starts a new segment. -/
theorem Log.Holds.rotate_quiet {s : Log} {older : List (Uuid × List Record)} {id fresh : Uuid}
    {cur : List Record} (h : s.Holds older id cur) (hquiet : s.disk.Quiet) (hfresh : id < fresh) :
    (walRotate fresh s).1 = .ok ∧ (walRotate fresh s).2.Holds (older ++ [(id, cur)]) fresh [] ∧
      (walRotate fresh s).2.disk.Quiet := by
  obtain ⟨hok, -⟩ := flushBuf_working (h.attached.working hquiet) true
  obtain ⟨hrotate, hworking⟩ := walRotate_working (h.attached.working hquiet) fresh
  exact ⟨hrotate, h.rotate_of_flush hfresh hrotate ((h.flush true).2 hok), hworking.quiet⟩

/-- A log opened in an empty directory holds nothing. -/
theorem walOpen_holds {syncWrites : Bool} {first : Uuid} {outcomes : List Outcome} {s : Log}
    (h : walOpen syncWrites first ⟨∅, outcomes, []⟩ = (.ok, some s)) : s.Holds [] first [] := by
  obtain ⟨hseg, -, hatt, hbuf, hstream, hfiles⟩ := walOpen_spec h
  have hid : s.wal.segmentId = first.hex := hseg
  rw [hid] at hatt hstream hfiles
  refine ⟨?_, by simp, hid, hatt, by simp [hbuf], ?_, by simp⟩
  · rw [hfiles]
    exact (SegmentDir.empty.create (show ∀ id ∈ [], id < first by simp)).1
  · rw [hstream]
    rfl

end FastKV
