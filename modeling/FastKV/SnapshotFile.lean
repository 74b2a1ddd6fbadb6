import FastKV.Reachable
import FastKV.BTreeOrder

/-!
# Snapshot files

What `fastkv_snapshot_write` leaves in a directory when no call fails, what
`fastkv_snapshot_load` reads back from such a file, and which file it picks.
-/

namespace FastKV

open Lib

/-! ## Writing -/

/-- A snapshot writer at work on a file. -/
structure SnapWriter.Attached (d₀ : Disk) (name : Name) (sw : SnapWriter) : Prop where
  /-- The open file. -/
  name_eq : sw.name = name
  /-- Nothing has failed. -/
  err : sw.err = .ok
  /-- Nothing will fail. -/
  quiet : sw.disk.Quiet
  /-- The file is written up to the offset. -/
  file : ∃ stored, sw.disk.files.lookup name = some stored ∧ stored.length = sw.offset
  /-- All changes since the file was opened are writes to it. -/
  did : ∃ ops, d₀.Did ops sw.disk ∧ ∀ op ∈ ops, ∃ offset data, op = .pwrite name offset data

/-- What the file will contain after a flush. -/
def SnapWriter.stream (name : Name) (sw : SnapWriter) : Bytes :=
  (sw.disk.files.lookup name).getD [] ++ sw.buf

section Write

variable {d₀ : Disk} {name : Name} {sw : SnapWriter}

/-- A flush on a quiet disk writes the buffer behind the file. -/
theorem snapFlush_spec (h : sw.Attached d₀ name) :
    (snapFlush sw).Attached d₀ name ∧ (snapFlush sw).stream name = sw.stream name ∧
      (snapFlush sw).buf = [] := by
  unfold snapFlush
  by_cases hbuf : sw.buf = []
  · rw [if_pos (Or.inr hbuf)]
    exact ⟨h, rfl, hbuf⟩
  · obtain ⟨stored, hfile, hlen⟩ := h.file
    obtain ⟨heq, hquiet⟩ := h.quiet.pwrite sw.name sw.buf sw.offset
    rw [if_neg (by simp [h.err, hbuf])]
    rw [heq] at hquiet
    simp only [heq, if_true]
    have hlookup : (applyOp sw.disk.files (.pwrite sw.name sw.offset sw.buf)).lookup name =
        some (stored ++ sw.buf) := by
      rw [h.name_eq]
      simp only [applyOp, hfile, AList.lookup_insert, ← hlen, patch_length]
    refine ⟨⟨h.name_eq, rfl, hquiet, ⟨stored ++ sw.buf, hlookup, by simp [hlen]⟩, ?_⟩, ?_, trivial⟩
    · obtain ⟨ops, hdid, hops⟩ := h.did
      refine ⟨ops ++ [.pwrite sw.name sw.offset sw.buf],
        hdid.trans ⟨rfl, rfl⟩, fun op hop => ?_⟩
      rcases List.mem_append.mp hop with hold | hnew
      · exact hops op hold
      · exact ⟨sw.offset, sw.buf, by rw [List.mem_singleton.mp hnew, h.name_eq]⟩
    · simp only [SnapWriter.stream, Disk.perform, hlookup, hfile, Option.getD_some, List.append_nil]

/-- The snapshot buffer loses and invents nothing. -/
theorem snapBuffer_lawful (d₀ : Disk) (name : Name) :
    snapBuffer.Lawful (SnapWriter.stream name) (SnapWriter.Attached d₀ name) where
  cap_pos := by decide
  contents_push _ _ := rfl
  stream_push d sw := by simp [SnapWriter.stream, snapBuffer]
  inv_push d sw h := ⟨h.name_eq, h.err, h.quiet, h.file, h.did⟩
  stream_flush sw h := (snapFlush_spec h).2.1
  inv_flush sw h := (snapFlush_spec h).1
  contents_flush sw h _ := (snapFlush_spec h).2.2
  contents_fail sw h hfail := absurd (snapFlush_spec h).1.err hfail

/-- Writing fields is writing their concatenation. -/
theorem foldl_snapWrite (d₀ : Disk) (name : Name) (fields : List Bytes) : ∀ sw : SnapWriter,
    sw.Attached d₀ name → sw.buf.length ≤ snapBufCap →
      (fields.foldl snapWrite sw).Attached d₀ name ∧
        (fields.foldl snapWrite sw).stream name = sw.stream name ++ fields.flatten ∧
        (fields.foldl snapWrite sw).buf.length ≤ snapBufCap := by
  induction fields with
  | nil => exact fun sw h hcap => ⟨h, by simp, hcap⟩
  | cons field fields ih =>
    intro sw h hcap
    have hwritten := Buffer.write_spec (snapBuffer_lawful d₀ name) field.length field sw
      (Nat.le_refl _) h hcap
    have hok := (Buffer.write_ok (snapBuffer_lawful d₀ name).inv_push
      (fun sw h => ⟨(snapFlush_spec h).1.err, (snapFlush_spec h).1⟩) field.length field sw h).1
    have hwrite : snapWrite sw field = (snapBuffer.write field.length field sw).2 :=
      if_neg (by simp [h.err])
    obtain ⟨hatt, hstream, hcap'⟩ := ih _ hwritten.inv hwritten.le_cap
    rw [List.foldl_cons, hwrite]
    refine ⟨hatt, ?_, hcap'⟩
    rw [hstream, hwritten.stream_ok hok, List.flatten_cons, List.append_assoc]

end Write

/-- The contents of a snapshot file. -/
def snapshotBytes (ts : ℕ) (ht : Ht) : Bytes := (snapshotFields ts ht).flatten

/-- A snapshot written without failures: the temporary file is created, written and
renamed. -/
structure SnapshotWritten (ts : ℕ) (ht : Ht) (id : Uuid) (d d' : Disk) (ops : List FsOp) :
    Prop where
  /-- Nothing will fail later. -/
  quiet : d'.Quiet
  /-- The changes. -/
  did : d.Did (.create (snapTmpName id.hex) :: ops ++
    [.rename (snapTmpName id.hex) (snapName id.hex)]) d'
  /-- Between the creation and the rename only the temporary file is written. -/
  writes : ∀ op ∈ ops, ∃ offset data, op = .pwrite (snapTmpName id.hex) offset data
  /-- Before the rename it is complete. -/
  complete : ((FsOp.create (snapTmpName id.hex) :: ops).foldl applyOp d.files).lookup
    (snapTmpName id.hex) = some (snapshotBytes ts ht)

/-- Writing a snapshot in a quiet directory, under a temporary name that is not in use. -/
theorem snapshotWrite_quiet {d : Disk} (hquiet : d.Quiet) {id : Uuid}
    (htmp : snapTmpName id.hex ∉ d.files) (ht : Ht) (ts : ℕ) :
    ∃ d' ops, snapshotWrite ht ts id d = (.ok, d') ∧ SnapshotWritten ts ht id d d' ops := by
  obtain ⟨hopen, hquiet₁⟩ := hquiet.call (.create (snapTmpName id.hex))
  rw [hopen] at hquiet₁
  have hfile : (applyOp d.files (.create (snapTmpName id.hex))).lookup (snapTmpName id.hex) =
      some [] := by
    rw [lookup_create, AList.lookup_eq_none.mpr htmp]
    rfl
  have hstart : SnapWriter.Attached { d.perform (.create (snapTmpName id.hex)) with
      outcomes := d.outcomes.tail } (snapTmpName id.hex) ⟨snapTmpName id.hex, [], 0, .ok,
        { d.perform (.create (snapTmpName id.hex)) with outcomes := d.outcomes.tail }⟩ :=
    ⟨rfl, rfl, hquiet₁, ⟨[], hfile, rfl⟩, [], .refl _, by simp⟩
  obtain ⟨hatt, hstream, -⟩ := foldl_snapWrite _ _ (snapshotFields ts ht) _ hstart (Nat.zero_le _)
  obtain ⟨hflushed, hstream', hbuf⟩ := snapFlush_spec hatt
  generalize hsw : snapFlush ((snapshotFields ts ht).foldl snapWrite
    ⟨snapTmpName id.hex, [], 0, .ok, { d.perform (.create (snapTmpName id.hex)) with
      outcomes := d.outcomes.tail }⟩) = sw
    at hflushed hstream' hbuf
  obtain ⟨hsync, hquiet₂⟩ := hflushed.quiet.sync
  rw [hsync] at hquiet₂
  obtain ⟨hrename, hquiet₃⟩ := hquiet₂.call (.rename (snapTmpName id.hex) (snapName id.hex))
  rw [hrename] at hquiet₃
  obtain ⟨ops, hdid, hops⟩ := hflushed.did
  have hdid₀ : d.Did (.create (snapTmpName id.hex) :: ops) sw.disk :=
    Disk.Did.trans (show d.Did [.create (snapTmpName id.hex)] _ from ⟨rfl, rfl⟩) hdid
  refine ⟨_, ops, ?_, hquiet₃, ?_, hops, ?_⟩
  · unfold snapshotWrite ioOpen
    simp only [hopen, ne_eq, not_true_eq_false, if_false, hsw, hflushed.err, if_true, hsync,
      ioRename, hrename]
  · exact hdid₀.trans ⟨rfl, rfl⟩
  · rw [← hdid₀.files]
    obtain ⟨stored, hstored, -⟩ := hflushed.file
    rw [hstored]
    rw [hstream, SnapWriter.stream, SnapWriter.stream, hstored, hbuf] at hstream'
    simp only [Option.getD_some, List.append_nil, Disk.perform, hfile, List.nil_append] at hstream'
    rw [hstream']
    rfl

/-! ## Reading -/

/-- An entry whose lengths fit their fields. -/
def FitsEntry (entry : Bytes × Bytes) : Prop := entry.1.length < 2 ^ 32 ∧ entry.2.length < 2 ^ 32

/-- An entry is read back. -/
theorem readEntry_encode {entry : Bytes × Bytes} (h : FitsEntry entry) (rest : Bytes) :
    readEntry ((entryFields entry).flatten ++ rest) = some (entry, rest) := by
  obtain ⟨hkey, hval⟩ := h
  have hbytes : (entryFields entry).flatten ++ rest = leBytes 4 entry.1.length ++
      (leBytes 4 entry.2.length ++ (entry.1 ++ (entry.2 ++ rest))) := by
    simp [entryFields]
  rw [hbytes, readEntry]
  simp only [readLe_leBytes _ (show entry.1.length < 256 ^ 4 by omega),
    readLe_leBytes _ (show entry.2.length < 256 ^ 4 by omega), Option.bind_eq_bind,
    Option.bind_some, takeExact_append, Option.pure_def]

/-- An entry that was read has lengths that fit their fields. -/
theorem readEntry_fits {bs rest : Bytes} {entry : Bytes × Bytes}
    (h : readEntry bs = some (entry, rest)) : FitsEntry entry := by
  simp only [readEntry, Option.bind_eq_bind, Option.bind_eq_some_iff, Prod.exists,
    Option.pure_def, Option.some.injEq, Prod.mk.injEq] at h
  obtain ⟨klen, bs₁, h₁, vlen, bs₂, h₂, key, bs₃, h₃, val, bs₄, h₄, rfl, -⟩ := h
  have hk := (readLe_eq_some h₁).2
  have hv := (readLe_eq_some h₂).2
  have hkey := (takeExact_eq_some h₃).2
  have hval := (takeExact_eq_some h₄).2
  exact ⟨by rw [hkey]; omega, by rw [hval]; omega⟩

/-- The header is read back. -/
theorem readHeader_encode {ts numKeys : ℕ} (hts : ts < 2 ^ 64) (hnum : numKeys < 2 ^ 64)
    (dataCrc : UInt32) (rest : Bytes) :
    readHeader ((headerFields ts numKeys dataCrc).flatten ++ rest) =
      some (⟨snapshotMagic, snapshotVersion, ts, numKeys, dataCrc.toNat⟩, rest) := by
  have hcrc := dataCrc.toNat_lt
  have hbytes : (headerFields ts numKeys dataCrc).flatten ++ rest = leBytes 4 snapshotMagic ++
      (leBytes 2 snapshotVersion ++ (leBytes 2 0 ++ (leBytes 8 ts ++ (leBytes 8 numKeys ++
        (leBytes 4 dataCrc.toNat ++ (leBytes 4 0 ++ rest)))))) := by
    simp [headerFields]
  rw [hbytes, readHeader]
  simp only [readLe_leBytes _ (show snapshotMagic < 256 ^ 4 by decide),
    readLe_leBytes _ (show snapshotVersion < 256 ^ 2 by decide),
    readLe_leBytes _ (show 0 < 256 ^ 2 by decide), readLe_leBytes _ (show ts < 256 ^ 8 by omega),
    readLe_leBytes _ (show numKeys < 256 ^ 8 by omega),
    readLe_leBytes _ (show dataCrc.toNat < 256 ^ 4 by omega),
    readLe_leBytes _ (show 0 < 256 ^ 4 by decide), Option.bind_eq_bind, Option.bind_some,
    Option.pure_def]

/-- Entries that fit are all loaded, whatever stands behind them, and the checksum is the one of
the writer. -/
theorem loadEntries_encode (ts : ℕ) (entries : List (Bytes × Bytes)) (rest : Bytes) :
    (∀ e ∈ entries, FitsEntry e) → ∀ (dataCrc : UInt32) (s : Stores),
      loadEntries ts entries.length ((entries.flatMap entryFields).flatten ++ rest) dataCrc s =
        (some ((entries.flatMap entryFields).foldl crc32c dataCrc),
          entries.foldl (loadEntry ts) s) := by
  induction entries with
  | nil => exact fun _ _ _ => rfl
  | cons e entries ih =>
    intro hfits dataCrc s
    have hread := readEntry_encode (hfits e (by simp))
      ((entries.flatMap entryFields).flatten ++ rest)
    rw [List.flatMap_cons, List.flatten_append, List.append_assoc, List.length_cons]
    simp only [loadEntries, hread, ih fun e' he' => hfits e' (by simp [he']), List.foldl_append,
      List.foldl_cons]

/-- Whatever is loaded are entries that fit. -/
theorem loadEntries_fits (ts numKeys : ℕ) : ∀ (bs : Bytes) (dataCrc : UInt32) (s : Stores),
    ∃ entries : List (Bytes × Bytes),
      (loadEntries ts numKeys bs dataCrc s).2 = entries.foldl (loadEntry ts) s ∧
        ∀ e ∈ entries, FitsEntry e := by
  induction numKeys with
  | zero => exact fun _ _ s => ⟨[], rfl, by simp⟩
  | succ numKeys ih =>
    intro bs dataCrc s
    unfold loadEntries
    cases hread : readEntry bs with
    | none => exact ⟨[], rfl, by simp⟩
    | some r =>
      obtain ⟨entry, rest⟩ := r
      obtain ⟨entries, heq, hfits⟩ := ih rest ((entryFields entry).foldl crc32c dataCrc)
        (loadEntry ts s entry)
      refine ⟨entry :: entries, heq, fun e he => ?_⟩
      rcases List.mem_cons.mp he with rfl | he
      · exact readEntry_fits hread
      · exact hfits e he

/-- There are fewer entries than 64-bit numbers. -/
theorem length_snapEntries_lt (ht : Ht) : (snapEntries ht).length < 2 ^ 64 := by
  obtain ⟨n, hn, hlen⟩ := ht.powerOfTwo
  have hle : (snapEntries ht).length ≤ ht.buckets.length := List.length_filterMap_le _ _
  have hlt : 2 ^ n < 2 ^ 64 := Nat.pow_lt_pow_right (by decide) hn
  omega

/-- A snapshot whose entries fit their fields is loaded completely. -/
theorem loadFile_snapshotBytes {ht : Ht} (hfits : ∀ e ∈ snapEntries ht, FitsEntry e) {ts : ℕ}
    (hts : ts < 2 ^ 64) (s : Stores) :
    loadFile (snapshotBytes ts ht) s = (.ok, (snapEntries ht).foldl (loadEntry ts) s, ts) := by
  have hheader := readHeader_encode hts (length_snapEntries_lt ht) (entriesCrc (snapEntries ht))
    ((snapEntries ht).flatMap entryFields).flatten
  have hload := loadEntries_encode ts (snapEntries ht) [] hfits 0 s
  rw [List.append_nil] at hload
  have hne : (headerFields ts (snapEntries ht).length (entriesCrc (snapEntries ht))).flatten ++
      ((snapEntries ht).flatMap entryFields).flatten ≠ [] := by
    intro hnil
    rw [hnil] at hheader
    cases hheader
  rw [snapshotBytes, snapshotFields, List.flatten_append, loadFile, if_neg hne]
  simp only [hheader, ne_eq, not_true_eq_false, or_self, if_false, hload]
  exact if_pos rfl

/-- The result of loading a file with a good header depends on the loop and the checksum. -/
def loadResult (header : SnapHeader) : Option UInt32 × Stores → Err × Stores × ℕ
  | (none, s) => (.corrupt, s, 0)
  | (some dataCrc, s) =>
    if dataCrc.toNat = header.storedCrc then (.ok, s, header.ts) else (.corrupt, s, 0)

/-- A file with a good header. -/
theorem loadFile_of_header {bytes bs : Bytes} {header : SnapHeader}
    (hread : readHeader bytes = some (header, bs)) (hmagic : header.magic = snapshotMagic)
    (hversion : header.version = snapshotVersion) (s : Stores) :
    loadFile bytes s = loadResult header (loadEntries header.ts header.numKeys bs 0 s) := by
  have hne : bytes ≠ [] := by
    rintro rfl
    cases hread
  rw [loadFile, if_neg hne]
  simp only [hread, hmagic, hversion, ne_eq, not_true_eq_false, or_self, if_false]
  rfl

/-- A file without one. -/
theorem loadFile_of_no_header {bytes : Bytes}
    (h : ∀ header bs, readHeader bytes = some (header, bs) →
      ¬ (header.magic = snapshotMagic ∧ header.version = snapshotVersion)) (s : Stores) :
    loadFile bytes s = (if bytes = [] then .io else .corrupt, s, 0) := by
  unfold loadFile
  split
  · rfl
  · split
    · rfl
    · rename_i header bs hread
      exact if_pos (not_and_or.mp (h header bs hread))

/-- Every file has a good header or none. -/
theorem loadFile_cases (bytes : Bytes) (s : Stores) :
    loadFile bytes s = (if bytes = [] then .io else .corrupt, s, 0) ∨
      ∃ header bs, readHeader bytes = some (header, bs) ∧ header.magic = snapshotMagic ∧
        header.version = snapshotVersion ∧
        loadFile bytes s = loadResult header (loadEntries header.ts header.numKeys bs 0 s) := by
  by_cases h : ∃ header bs, readHeader bytes = some (header, bs) ∧
      header.magic = snapshotMagic ∧ header.version = snapshotVersion
  · obtain ⟨header, bs, hread, hmagic, hversion⟩ := h
    exact Or.inr ⟨header, bs, hread, hmagic, hversion,
      loadFile_of_header hread hmagic hversion s⟩
  · exact Or.inl (loadFile_of_no_header
      (fun header bs hread hgood => h ⟨header, bs, hread, hgood.1, hgood.2⟩) s)

/-- The structures are those that the loop leaves. -/
theorem loadResult_stores (header : SnapHeader) (loaded : Option UInt32 × Stores) :
    (loadResult header loaded).2.1 = loaded.2 := by
  obtain ⟨r, s⟩ := loaded
  cases r with
  | none => rfl
  | some dataCrc =>
    simp only [loadResult]
    split <;> rfl

/-- The file is accepted if the loop ends with the stored checksum. -/
theorem loadResult_ok {header : SnapHeader} {loaded : Option UInt32 × Stores}
    (h : (loadResult header loaded).1 = .ok) :
    (∃ dataCrc, loaded.1 = some dataCrc ∧ dataCrc.toNat = header.storedCrc) ∧
      (loadResult header loaded).2.2 = header.ts := by
  obtain ⟨r, s⟩ := loaded
  cases r with
  | none => cases h
  | some dataCrc =>
    simp only [loadResult] at h ⊢
    by_cases hcrc : dataCrc.toNat = header.storedCrc
    · exact ⟨⟨dataCrc, rfl, hcrc⟩, by rw [if_pos hcrc]⟩
    · rw [if_neg hcrc] at h
      cases h

/-- A file that loads without an error loads entries that fit. -/
theorem loadFile_fits {bytes : Bytes} {s s' : Stores} {ts : ℕ}
    (h : loadFile bytes s = (.ok, s', ts)) :
    ∃ entries : List (Bytes × Bytes), s' = entries.foldl (loadEntry ts) s ∧
      ∀ e ∈ entries, FitsEntry e := by
  rcases loadFile_cases bytes s with hbad | ⟨header, bs, -, -, -, heq⟩
  · rw [hbad] at h
    split at h <;> cases h
  · rw [heq] at h
    obtain ⟨-, hts⟩ := loadResult_ok (congrArg Prod.fst h)
    have hstores := loadResult_stores header (loadEntries header.ts header.numKeys bs 0 s)
    rw [h] at hts hstores
    obtain ⟨entries, hloaded, hfits⟩ := loadEntries_fits header.ts header.numKeys bs 0 s
    rw [hloaded, ← hts] at hstores
    exact ⟨entries, hstores, hfits⟩

/-! ## Picking the file -/

/-- The name passes the test of `find_latest_snapshot` with this identifier. -/
def IsSnap (id : Uuid) (n : Name) : Prop :=
  ∃ rest, rest ≠ [] ∧ matchName snapPfx snapSfx n = some (id.hex ++ rest)

/-- Snapshots pass the test. -/
theorem isSnap_snapName (id : Uuid) : IsSnap id (snapName id.hex) := by
  have h := matchName_eq (show '.' ∉ snapPfx by decide) ['b', 'i', 'n'] id []
  exact ⟨snapSfx, by decide, by simpa [snapName, snapSfx] using h⟩

/-- Temporary files pass it too. -/
theorem isSnap_snapTmpName (id : Uuid) : IsSnap id (snapTmpName id.hex) := by
  have h := matchName_eq (show '.' ∉ snapPfx by decide) ['b', 'i', 'n'] id ['.', 't', 'm', 'p']
  exact ⟨snapSfx ++ ['.', 't', 'm', 'p'], by decide,
    by simpa [snapName, snapTmpName, snapSfx] using h⟩

/-- A name has one identifier. -/
theorem IsSnap.unique {id id' : Uuid} {n : Name} (h : IsSnap id n) (h' : IsSnap id' n) :
    id = id' := by
  obtain ⟨rest, -, hm⟩ := h
  obtain ⟨rest', -, hm'⟩ := h'
  rw [hm] at hm'
  have happ := Option.some.inj hm'
  have hhex := List.append_inj_left happ (id.length_hex.trans id'.length_hex.symm)
  cases id
  cases id'
  congr

/-- The scan ends with the newest identifier. -/
theorem latestSnapshot_eq {id₀ : Uuid} {n₀ : Name} (h₀ : IsSnap id₀ n₀) (names : List Name) :
    (∀ n ∈ names, matchName snapPfx snapSfx n = none ∨ n = n₀ ∨ ∃ id < id₀, IsSnap id n) →
    ∀ best : Option (Name × Name),
      (best = some (id₀.hex, n₀) ∨ n₀ ∈ names ∧ ∀ b ∈ best, ∃ id < id₀, b.1 = id.hex) →
      latestSnapshot names best = some (id₀.hex, n₀) := by
  -- an identifier is compared with a whole rest of a name, which is longer
  have hlt : ∀ (a b : Uuid) {rest : Name}, rest ≠ [] → (a.hex < b.hex ++ rest ↔ a ≤ b) :=
    fun a b _ hrest => lt_append_iff (a.length_hex.trans b.length_hex.symm) hrest
  induction names with
  | nil =>
    rintro - best (rfl | ⟨hmem, -⟩)
    · rfl
    · cases hmem
  | cons n names ih =>
    intro hnames best hbest
    have hrest := ih fun n' hn' => hnames n' (by simp [hn'])
    rcases hnames n (by simp) with hnone | rfl | ⟨id, hid, rest, hne, hmatch⟩
    · have hn₀ : n₀ ≠ n := by
        rintro rfl
        obtain ⟨rest, -, hmatch⟩ := h₀
        rw [hnone] at hmatch
        cases hmatch
      simp only [latestSnapshot, hnone]
      exact hrest best (hbest.imp_right fun h => ⟨by simpa [hn₀] using h.1, h.2⟩)
    · obtain ⟨rest, hne, hmatch⟩ := h₀
      simp only [latestSnapshot, hmatch, Uuid.take_append]
      rcases best with - | ⟨bestId, bestName⟩
      · exact hrest _ (Or.inl rfl)
      · have hle : bestId < id₀.hex ++ rest := by
          rcases hbest with heq | ⟨-, hall⟩
          · simp only [Option.some.injEq, Prod.mk.injEq] at heq
            rw [heq.1]
            exact (hlt id₀ id₀ hne).mpr (le_refl _)
          · obtain ⟨b, hb, hbhex⟩ := hall _ rfl
            rw [show bestId = b.hex from hbhex]
            exact (hlt b id₀ hne).mpr (le_of_lt hb)
        simp only [if_pos hle]
        exact hrest _ (Or.inl rfl)
    · have hn₀ : n₀ ≠ n := by
        rintro rfl
        exact absurd (h₀.unique ⟨rest, hne, hmatch⟩) (ne_of_gt hid)
      simp only [latestSnapshot, hmatch, Uuid.take_append]
      rcases best with - | ⟨bestId, bestName⟩
      · refine hrest _ (Or.inr ⟨?_, ?_⟩)
        · rcases hbest with heq | h
          · cases heq
          · simpa [hn₀] using h.1
        · intro b hb
          cases hb
          exact ⟨id, hid, rfl⟩
      · refine hrest _ ?_
        rcases hbest with heq | ⟨hmem, hall⟩
        · simp only [Option.some.injEq, Prod.mk.injEq] at heq
          rw [heq.1, heq.2, if_neg (by rw [hlt id₀ id hne]; exact not_le.mpr hid)]
          exact Or.inl rfl
        · refine Or.inr ⟨by simpa [hn₀] using hmem, fun b hb => ?_⟩
          split at hb
          · cases hb
            exact ⟨id, hid, rfl⟩
          · exact hall b hb

/-- The snapshot with the newest identifier is picked. -/
theorem findLatestSnapshot_eq {files : Files} {id₀ : Uuid} {n₀ : Name} (h₀ : IsSnap id₀ n₀)
    (hmem : n₀ ∈ files)
    (hnames : ∀ n ∈ files, matchName snapPfx snapSfx n = none ∨ n = n₀ ∨ ∃ id < id₀, IsSnap id n) :
    findLatestSnapshot files = some n₀ := by
  unfold findLatestSnapshot
  rw [latestSnapshot_eq h₀ files.keys (fun n hn => hnames n (AList.mem_keys.mpr hn)) none
    (Or.inr ⟨AList.mem_keys.mp hmem, by simp⟩)]
  rfl

/-- Without snapshots there is nothing to pick. -/
theorem findLatestSnapshot_eq_none {files : Files}
    (h : ∀ n ∈ files, matchName snapPfx snapSfx n = none) : findLatestSnapshot files = none := by
  have hscan : ∀ names : List Name, (∀ n ∈ names, matchName snapPfx snapSfx n = none) →
      latestSnapshot names none = none := by
    intro names
    induction names with
    | nil => exact fun _ => rfl
    | cons n names ih =>
      intro hnames
      simp only [latestSnapshot, hnames n (by simp)]
      exact ih fun n' hn' => hnames n' (by simp [hn'])
  unfold findLatestSnapshot
  rw [hscan files.keys fun n hn => h n (AList.mem_keys.mpr hn)]
  rfl

end FastKV
