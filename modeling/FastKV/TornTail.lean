import FastKV.LogHolds

/-!
# Appending after a torn record

A crash can leave the newest segment ending inside a record. Recovery reads the complete
records and stops there, but opening the log continues at the end of the file and so leaves
the torn bytes in place. Records appended afterwards are in front of a reader only if there
was nothing torn: any torn byte makes some later append unreadable.
-/

namespace FastKV

open Lib

/-- A directory whose newest segment `id` holds complete records and then a proper prefix
`tail` of one more record. -/
structure TornDir (files : Files) (older : List Uuid) (id : Uuid) (complete : List Record)
    (tail : Bytes) : Prop where
  /-- The segments of the directory. -/
  dir : SegmentDir files (older ++ [id])
  /-- The complete records are ones the engine logs. -/
  complete_valid : ∀ r ∈ complete, r.Valid
  /-- The tail is the beginning of a record. -/
  torn : ∃ r : Record, r.Valid ∧ ∃ n < r.frame.encode.length, tail = r.frame.encode.take n
  /-- The newest segment. -/
  file : files.lookup (segName id.hex) = some (encodeRecords complete ++ tail)

/-- Open the log of a directory, append records and sync. The handle is returned when every
call succeeded. -/
def reopenAppend (syncWrites : Bool) (fresh : Uuid) (disk : Disk) (rs : List Record) :
    Option Log :=
  match walOpen syncWrites fresh disk with
  | (.ok, some s) =>
    match appendAll rs s with
    | (.ok, s) =>
      match walSync s with
      | (.ok, s) => some s
      | _ => none
    | _ => none
  | _ => none

/-- After any successful appends, a replay delivers what it delivered from the older
segments, then the complete records of the newest one, then the appended records. -/
def KeepsAppends (files : Files) (older : List Uuid) (complete : List Record) : Prop :=
  ∀ (disk : Disk) (syncWrites : Bool) (fresh : Uuid) (rs : List Record) (s : Log),
    disk.files = files → (∀ r ∈ rs, r.Valid) →
    reopenAppend syncWrites fresh disk rs = some s → ∀ sinceTs,
      (delivered sinceTs s.disk.files).map Record.content =
        (older.flatMap fun i => segmentDeliveries sinceTs files i.hex).map Record.content ++
          ((complete ++ rs).filter (Record.wanted sinceTs)).map Record.content

variable {files : Files} {older : List Uuid} {id : Uuid} {complete : List Record} {tail : Bytes}

/-- What the directory holds after reopening, appending and syncing. -/
theorem TornDir.reopenAppend_files (h : TornDir files older id complete tail)
    {disk : Disk} {syncWrites : Bool} {fresh : Uuid} {rs : List Record} {s : Log}
    (hdisk : disk.files = files) (hrun : reopenAppend syncWrites fresh disk rs = some s) :
    s.disk.files.lookup (segName id.hex) =
        some (encodeRecords complete ++ tail ++ encodeRecords rs) ∧
      ∀ other, other ≠ segName id.hex → s.disk.files.lookup other = files.lookup other := by
  unfold reopenAppend at hrun
  split at hrun
  · rename_i s₁ hopen
    split at hrun
    · rename_i s₂ happend
      split at hrun
      · rename_i s₃ hsync
        obtain rfl := Option.some.inj hrun
        obtain ⟨hseg, -, hatt, hbuf, hstream, hfiles⟩ := walOpen_spec hopen
        rw [hdisk, h.dir.openSegment_eq fresh] at hseg
        rw [hseg, hdisk] at hfiles
        rw [hseg] at hatt hstream
        rw [hdisk, h.file, Option.getD_some] at hstream
        have hcap : s₁.wal.buf.length ≤ walBufCap := by simp [hbuf]
        have hok : (appendAll rs s₁).1 = .ok := by rw [happend]
        obtain ⟨hatt₂, -, hstream₂⟩ := appendAll_spec s₁ (segName id.hex) rs s₁ hatt hcap hok
        rw [happend] at hatt₂ hstream₂
        have hflush : flushBuf true s₂ = (.ok, s₃) := hsync
        obtain ⟨hatt₃, hstream₃, hempty, -, -⟩ := flushBuf_spec hatt₂ true
        rw [hflush] at hatt₃ hstream₃ hempty
        have hlast := hatt₃.lookup_of_empty (hempty rfl)
        rw [hstream₃, hstream₂, hstream] at hlast
        refine ⟨hlast, fun other hne => ?_⟩
        rw [hatt₃.others other hne, hfiles, lookup_create_ne files hne]
      · cases hrun
    · cases hrun
  · cases hrun

/-- What a replay delivers after reopening, appending and syncing: behind the complete
records the reader meets the torn bytes. -/
theorem TornDir.delivered_content (h : TornDir files older id complete tail)
    {disk : Disk} {syncWrites : Bool} {fresh : Uuid} {rs : List Record} {s : Log}
    (hdisk : disk.files = files) (hrun : reopenAppend syncWrites fresh disk rs = some s)
    (sinceTs : ℕ) :
    ∃ valBuf, (delivered sinceTs s.disk.files).map Record.content =
      (older.flatMap fun i => segmentDeliveries sinceTs files i.hex).map Record.content ++
        (complete.filter (Record.wanted sinceTs)).map Record.content ++
        (deliveries sinceTs valBuf
          (frameFormat.scan (tail ++ encodeRecords rs))).map Record.content := by
  obtain ⟨hlast, hothers⟩ := h.reopenAppend_files hdisk hrun
  have hdir : SegmentDir s.disk.files (older ++ [id]) := by
    refine h.dir.of_lookup fun n => ?_
    by_cases hn : n = segName id.hex
    · rw [hn, hlast, h.file]
      rfl
    · rw [hothers n hn]
  have holder : (older.map Uuid.hex).flatMap (segmentDeliveries sinceTs s.disk.files) =
      older.flatMap fun i => segmentDeliveries sinceTs files i.hex := by
    rw [List.flatMap_map]
    refine List.flatMap_congr fun i hi => ?_
    have hlt : i < id := (List.pairwise_append.mp h.dir.sorted).2.2 i hi id (by simp)
    have hne : segName i.hex ≠ segName id.hex := fun heq => absurd (segName_inj heq) (ne_of_lt hlt)
    simp only [segmentDeliveries, hothers _ hne]
  obtain ⟨valBuf, hvalBuf⟩ := deliveries_append sinceTs (complete.map Record.frame)
    (frameFormat.scan (tail ++ encodeRecords rs)) false
  refine ⟨valBuf, ?_⟩
  have hscan : frameFormat.scan (encodeRecords complete ++ tail ++ encodeRecords rs) =
      complete.map Record.frame ++ frameFormat.scan (tail ++ encodeRecords rs) := by
    rw [List.append_assoc]
    exact Format.scan_encodeAll (frames_valid h.complete_valid) _
  rw [delivered_eq, replayed, hdir.collectSegments_eq, List.map_append, List.flatMap_append,
    holder, List.map_append, List.append_assoc]
  congr 1
  simp only [List.map_cons, List.map_nil, List.flatMap_cons, List.flatMap_nil, List.append_nil,
    segmentDeliveries, hlast, hscan, hvalBuf, List.map_append,
    deliveries_content h.complete_valid]

/-- In a quiet directory the log can be reopened and appended to. -/
theorem reopenAppend_quiet {disk : Disk} (h : disk.Quiet) (syncWrites : Bool) (fresh : Uuid)
    (rs : List Record) : ∃ s, reopenAppend syncWrites fresh disk rs = some s := by
  obtain ⟨s, hopen, hquiet⟩ := walOpen_quiet h syncWrites fresh
  obtain ⟨-, -, hatt, -, -, -⟩ := walOpen_spec hopen
  obtain ⟨happend, hworking⟩ := appendAll_working rs s (hatt.working hquiet)
  obtain ⟨hsync, -⟩ := flushBuf_working hworking true
  refine ⟨(walSync (appendAll rs s).2).2, ?_⟩
  have happ : appendAll rs s = (.ok, (appendAll rs s).2) := Prod.ext happend rfl
  have hsyn : walSync (appendAll rs s).2 = (.ok, (walSync (appendAll rs s).2).2) :=
    Prod.ext hsync rfl
  unfold reopenAppend
  rw [hopen]
  simp only
  rw [happ]
  simp only
  rw [hsyn]

/-- The frame behind a delivered record with a value: all its data is in the record. -/
theorem deliver_eq_frame {f : Frame} (hf : f.Valid) {valBuf : Bool} {r r' : Record} (hr : r.Valid)
    (hdeliver : f.deliver valBuf = some r') (hcontent : r'.content = r.content)
    (hval : r.frame.val ≠ []) : f = r.frame := by
  have hdata : f.typeByte = r.frame.typeByte ∧ f.ts = r.frame.ts ∧ f.key = r.frame.key ∧
      (f.slice valBuf).getD [] = r.frame.val := by
    simp only [Record.content, Prod.mk.injEq] at hcontent
    obtain ⟨htype, hts, hkey, hvalue⟩ := hcontent
    unfold Frame.deliver at hdeliver
    simp only [Record.frame, ← htype, ← hts, ← hkey, ← hvalue]
    split at hdeliver
    · rename_i hput
      obtain rfl := Option.some.inj hdeliver
      exact ⟨hput, rfl, rfl, rfl⟩
    · split at hdeliver
      · rename_i hdel
        obtain rfl := Option.some.inj hdeliver
        exact ⟨hdel, rfl, rfl, rfl⟩
      · cases hdeliver
  obtain ⟨htype, hts, hkey, hvalue⟩ := hdata
  have hfval : f.vlen ≠ vlenTombstone ∧ f.val = r.frame.val := by
    unfold Frame.slice at hvalue
    split at hvalue
    · exact absurd hvalue.symm hval
    · split at hvalue
      · exact ⟨‹_›, hvalue⟩
      · exact absurd hvalue.symm hval
  have hvlen : f.vlen = r.frame.vlen := by
    rcases hf.val_eq with ⟨htomb, -⟩ | ⟨hlen, -⟩
    · exact absurd htomb hfval.1
    · rcases hr.frame.val_eq with ⟨-, hnil⟩ | ⟨hlen', -⟩
      · exact absurd hnil hval
      · rw [hlen, hlen', hfval.2]
  obtain ⟨t, ts, vl, k, v⟩ := f
  simp only at htype hts hkey hvlen hfval
  rw [htype, hts, hkey, hvlen, hfval.2]

/-- If a record is read back from behind torn bytes, the torn bytes start as it does: the
first frame reaches beyond the torn bytes, and what is left is too short for the record. -/
theorem head_eq_of_delivered {r r' : Record} (hr : r.Valid) (hval : r.frame.val ≠ [])
    (htorn : readFrame tail = none) (htail : tail ≠ []) {sinceTs : ℕ} {valBuf : Bool}
    (hmem : r' ∈ deliveries sinceTs valBuf (frameFormat.scan (tail ++ r.frame.encode)))
    (hcontent : r'.content = r.content) : tail.head? = r.frame.encode.head? := by
  obtain ⟨g, hg, valBuf', hdeliver⟩ := exists_frame_of_mem_deliveries hmem
  cases hd : frameFormat.decode (tail ++ r.frame.encode) with
  | none =>
    rw [Format.scan_of_none hd] at hg
    cases hg
  | some p =>
    obtain ⟨f, rest⟩ := p
    obtain ⟨hf, heq⟩ := frameFormat.decode_sound _ f rest hd
    have heq' : tail ++ r.frame.encode = f.encode ++ rest := heq
    have hlong : tail.length < f.encode.length := by
      by_contra hshort
      have hpre : f.encode <+: tail := by
        refine List.prefix_of_prefix_length_le (heq ▸ List.prefix_append f.encode rest)
          (List.prefix_append tail _) (by omega)
      obtain ⟨more, rfl⟩ := hpre
      rw [readFrame_encode f more hf] at htorn
      cases htorn
    have hlen := congrArg List.length heq'
    rw [List.length_append, List.length_append] at hlen
    rw [Format.scan_of_some hd] at hg
    rcases List.mem_cons.mp hg with rfl | hg
    · have hframe := deliver_eq_frame hf hr hdeliver hcontent hval
      rw [hframe] at heq'
      obtain ⟨b, bs, rfl⟩ := List.exists_cons_of_ne_nil htail
      obtain ⟨c, cs, hc⟩ := List.exists_cons_of_ne_nil (frameFormat.encode_ne_nil r.frame)
      have hc' : r.frame.encode = c :: cs := hc
      rw [hc', List.cons_append, List.cons_append] at heq'
      rw [hc', (List.cons.inj heq').1]
      rfl
    · have hshort := Format.length_le_of_mem_scan hg
      have hgvalid : g.Valid := Format.valid_of_mem_scan hg
      have hframe := deliver_eq_frame hgvalid hr hdeliver hcontent hval
      rw [hframe] at hshort
      have : r.frame.encode.length ≤ rest.length := hshort
      omega

/-- A small record that differs from its siblings in the value only. -/
def probe (b : UInt8) : Record := ⟨.put, 1, [0], some [b]⟩

/-- Probes are records the engine logs. -/
theorem probe_valid (b : UInt8) : (probe b).Valid :=
  ⟨by simp [probe], by simp [probe, maxKeyLen], by simp [probe, maxValLen]⟩

/-- The checksums of the first two probes start with different bytes. -/
theorem probe_head_ne : (probe 0).frame.encode.head? ≠ (probe 1).frame.encode.head? := by
  decide +kernel

/-- Torn bytes make one of the probes unreadable. -/
theorem TornDir.not_keepsAppends (h : TornDir files older id complete tail) (htail : tail ≠ []) :
    ¬ KeepsAppends files older complete := by
  intro hkeep
  obtain ⟨b, hb⟩ : ∃ b, tail.head? ≠ (probe b).frame.encode.head? := by
    by_cases h0 : tail.head? = (probe 0).frame.encode.head?
    · exact ⟨1, fun h1 => probe_head_ne (h0.symm.trans h1)⟩
    · exact ⟨0, h0⟩
  have hquiet : (⟨files, [], []⟩ : Disk).Quiet := by simp [Disk.Quiet]
  obtain ⟨s, hrun⟩ := reopenAppend_quiet hquiet false id [probe b]
  have hwant := hkeep ⟨files, [], []⟩ false id [probe b] s rfl
    (by simpa using probe_valid b) hrun 0
  obtain ⟨valBuf, hgot⟩ := h.delivered_content rfl hrun 0
  have hwanted : (probe b).wanted 0 = true := rfl
  rw [hgot, List.append_assoc, List.filter_append, List.map_append,
    List.append_cancel_left_eq, List.append_cancel_left_eq, List.filter_cons_of_pos hwanted,
    encodeRecords_cons, encodeRecords_nil, List.append_nil] at hwant
  have hmem : (probe b).content ∈ (deliveries 0 valBuf
      (frameFormat.scan (tail ++ (probe b).frame.encode))).map Record.content := by
    rw [hwant]
    simp
  obtain ⟨r', hr', hcontent⟩ := List.mem_map.mp hmem
  obtain ⟨r, hr, n, hn, rfl⟩ := h.torn
  have hnone : frameFormat.decode (r.frame.encode.take n) = none :=
    Format.decode_prefix_eq_none hr.frame hn
  exact hb (head_eq_of_delivered (probe_valid b) (by simp [probe, Record.frame]) hnone htail hr'
    hcontent)

/-- Appends after a reopen are durable exactly if the crash left no torn bytes. -/
theorem keepsAppends_iff (h : TornDir files older id complete tail) :
    KeepsAppends files older complete ↔ tail = [] := by
  constructor
  · intro hkeep
    by_contra htail
    exact h.not_keepsAppends htail hkeep
  · rintro rfl disk syncWrites fresh rs s hdisk hrs hrun sinceTs
    obtain ⟨valBuf, hgot⟩ := h.delivered_content hdisk hrun sinceTs
    have hscan : frameFormat.scan (encodeRecords rs) = rs.map Record.frame := by
      have hall := Format.scan_encodeAll (frames_valid hrs) []
      simpa [encodeRecords] using hall
    rw [hgot, List.nil_append, hscan, deliveries_content hrs, List.filter_append, List.map_append,
      List.append_assoc]

/-- The segment of the examples. -/
def tornId : Uuid := firstId

/-- A directory with one segment. -/
def oneSegment (bytes : Bytes) : Files := (∅ : Files).insert (segName tornId.hex) bytes

/-- The segments of such a directory. -/
theorem oneSegment_dir (bytes : Bytes) : SegmentDir (oneSegment bytes) [tornId] where
  sorted := by simp
  present id hid := by
    rw [List.mem_singleton.mp hid]
    exact (AList.mem_insert _).mpr (Or.inl rfl)
  only n hn := by
    rcases (AList.mem_insert _).mp hn with rfl | hempty
    · exact Or.inr ⟨tornId, by simp, rfl⟩
    · exact absurd hempty (AList.notMem_empty n)

/-- A segment that ends with a complete record. -/
theorem keepsAppends_iff_whole :
    KeepsAppends (oneSegment (encodeRecords [probe 0])) [] [probe 0] ↔ ([] : Bytes) = [] :=
  have hdir : TornDir (oneSegment (encodeRecords [probe 0])) [] tornId [probe 0] [] :=
    ⟨oneSegment_dir _, by simpa using probe_valid 0,
      ⟨probe 0, probe_valid 0, 0, by decide +kernel, rfl⟩,
      by rw [oneSegment, AList.lookup_insert, List.append_nil]⟩
  keepsAppends_iff hdir

/-- One torn byte, the first of the checksum of another record, hides the next record that
is appended and synced. -/
theorem torn_byte_hides_append :
    TornDir (oneSegment (encodeRecords [probe 0] ++ [45])) [] tornId [probe 0] [45] ∧
      ((reopenAppend true tornId ⟨oneSegment (encodeRecords [probe 0] ++ [45]), [], []⟩
        [probe 1]).map fun s => delivered 0 s.disk.files) = some [probe 0] ∧
      ¬ KeepsAppends (oneSegment (encodeRecords [probe 0] ++ [45])) [] [probe 0] := by
  have hdir : TornDir (oneSegment (encodeRecords [probe 0] ++ [45])) [] tornId [probe 0] [45] :=
    ⟨oneSegment_dir _, by simpa using probe_valid 0,
      ⟨probe 0, probe_valid 0, 1, by decide +kernel, by decide +kernel⟩,
      AList.lookup_insert _⟩
  exact ⟨hdir, by decide +kernel, hdir.not_keepsAppends (by decide)⟩

end FastKV
