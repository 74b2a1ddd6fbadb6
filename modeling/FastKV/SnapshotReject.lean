import FastKV.LogRecovery
import FastKV.SnapshotParse

/-!
# Rejected snapshots

`fastkv_snapshot_load` puts every entry into the structures as soon as it has read it, under the
timestamp of a header that nothing has verified yet. If it then rejects the file, it takes nothing
back, and `fastkv_open` goes on as if there had been no snapshot. So a rejected file leaves no
trace only if the function stops before the first entry.
-/

namespace FastKV

open Lib

/-- The header is good and counts entries, and the first of them can be read. -/
def FirstEntryLoads (bytes : Bytes) : Prop :=
  ∃ header bs entry rest, readHeader bytes = some (header, bs) ∧ header.magic = snapshotMagic ∧
    header.version = snapshotVersion ∧ 0 < header.numKeys ∧ readEntry bs = some (entry, rest)

/-- The largest timestamp in the log. -/
def logMaxTs (files : Files) : ℕ := (collectSegments files).foldl (segmentMaxTs files) 0

/-- A snapshot that is rejected leaves no trace: neither in the structures that it was to fill nor
in what `fastkv_open` makes of the directory. -/
structure LeavesNoTrace (files : Files) : Prop where
  /-- The structures are as before. -/
  stores : ∀ s, (snapshotLoad files s).1 ≠ .ok → (snapshotLoad files s).2.1 = s
  /-- Opening the directory gives what the whole log gives. -/
  replay : ∀ (opts : Opts) (fresh : Uuid) (disk : Disk) (w : World), disk.files = files →
    (snapshotLoad files opts.stores).1 ≠ .ok → fastkvOpen opts fresh disk = .ok w →
    w.db.stores = (walReplay 0 walReplayCb files opts.stores 0).2.1
  /-- The clock is behind every version. -/
  clock : ∀ (opts : Opts) (fresh : Uuid) (disk : Disk) (w : World), disk.files = files →
    (snapshotLoad files opts.stores).1 ≠ .ok → fastkvOpen opts fresh disk = .ok w →
    ∀ key, ∀ v ∈ w.db.ht.versions key, v.beginTs < w.db.clock

/-! ## Loading -/

section Load

variable {bytes : Bytes}

/-- A file is loaded without an error into any structures or into none. -/
theorem loadFile_ok_iff (bytes : Bytes) (s : Stores) :
    (loadFile bytes s).1 = .ok ↔ ∃ ts entries, IsSnapshot bytes ts entries := by
  constructor
  · exact isSnapshot_of_loadFile
  · rintro ⟨ts, entries, h⟩
    rw [h.load s]

/-- A file that is rejected leaves no timestamp, and unless it is empty it counts as corrupt. -/
theorem loadFile_rejected {s : Stores} (h : (loadFile bytes s).1 ≠ .ok) :
    (loadFile bytes s).2.2 = 0 ∧ (bytes ≠ [] → (loadFile bytes s).1 = .corrupt) := by
  rcases loadFile_cases bytes s with hbad | ⟨header, bs, -, -, -, heq⟩
  · rw [hbad]
    exact ⟨rfl, fun hne => if_neg hne⟩
  · rw [heq] at h ⊢
    generalize loadEntries header.ts header.numKeys bs 0 s = loaded at h ⊢
    obtain ⟨r, s'⟩ := loaded
    cases r with
    | none => exact ⟨rfl, fun _ => rfl⟩
    | some dataCrc =>
      simp only [loadResult] at h ⊢
      by_cases hcrc : dataCrc.toNat = header.storedCrc
      · rw [if_pos hcrc] at h
        exact absurd rfl h
      · rw [if_neg hcrc]
        exact ⟨rfl, fun _ => rfl⟩

/-- If no entry can be read, nothing is loaded. -/
theorem loadFile_stores (h : ¬ FirstEntryLoads bytes) (s : Stores) :
    (loadFile bytes s).2.1 = s := by
  rcases loadFile_cases bytes s with hbad | ⟨header, bs, hread, hmagic, hversion, heq⟩
  · rw [hbad]
  · rw [heq, loadResult_stores]
    cases hnum : header.numKeys with
    | zero => rfl
    | succ numKeys =>
      cases hentry : readEntry bs with
      | none => simp only [loadEntries, hentry]
      | some r =>
        obtain ⟨entry, rest⟩ := r
        exact absurd ⟨header, bs, entry, rest, hread, hmagic, hversion, by omega, hentry⟩ h

/-- A key keeps having versions. -/
theorem versions_ne_nil {ht : Ht} {key : Bytes} (h : ht.versions key ≠ []) (commitTs : ℕ)
    (key' : Bytes) (value : Slice) :
    (htInsertVersion ht commitTs key' value).versions key ≠ [] := by
  rw [versions_htInsertVersion]
  split
  · exact List.cons_ne_nil _ _
  · exact h

/-- If an entry can be read, its key has a version afterwards. -/
theorem loadFile_versions (h : FirstEntryLoads bytes) (s : Stores) :
    ∃ key, (loadFile bytes s).2.1.ht.versions key ≠ [] := by
  obtain ⟨header, bs, entry, rest, hread, hmagic, hversion, hnum, hentry⟩ := h
  refine ⟨entry.1, ?_⟩
  rw [loadFile_of_header hread hmagic hversion, loadResult_stores]
  obtain ⟨numKeys, hsucc⟩ := Nat.exists_eq_succ_of_ne_zero hnum.ne'
  rw [hsucc, loadEntries, hentry]
  apply loadEntries_induction (P := fun ht => ht.versions entry.1 ≠ [])
  · exact fun ht key value hne => versions_ne_nil hne _ key value
  · rw [loadEntry, htPut, versions_htInsertVersion_self]
    exact List.cons_ne_nil _ _

end Load

/-! ## Replay -/

section Replay

variable {files : Files}

/-- The replay of the whole log. -/
theorem walReplay_all (files : Files) (s : Stores) : walReplay 0 walReplayCb files s 0 =
    (.ok, (replayed 0 files).foldl (fun s r => replayRecord r s) s, logMaxTs files) := by
  unfold walReplay replayed logMaxTs
  cases collectSegments files with
  | nil => rfl
  | cons id ids => exact replaySegments_eq 0 replayRecord files (id :: ids) s 0

/-- A delivered record is a write that is newer than the bound. -/
theorem mem_deliveries {sinceTs : ℕ} (fs : List Frame) : ∀ {valBuf : Bool} {r : Record},
    r ∈ deliveries sinceTs valBuf fs → sinceTs < r.ts ∧ (r.type = .put ∨ r.type = .delete) := by
  induction fs with
  | nil => exact fun h => absurd h List.not_mem_nil
  | cons f fs ih =>
    intro valBuf r h
    simp only [deliveries] at h
    split at h
    · exact ih h
    · rename_i hts
      rcases List.mem_append.mp h with hhead | htail
      · have hdeliver := Option.mem_toList.mp hhead
        have htype : r.type = .put ∨ r.type = .delete := by
          unfold Frame.deliver at hdeliver
          split at hdeliver
          · left
            rw [← Option.some.inj hdeliver]
          · split at hdeliver
            · right
              rw [← Option.some.inj hdeliver]
            · cases hdeliver
        rw [f.ts_of_deliver hdeliver]
        exact ⟨not_le.mp hts, htype⟩
      · exact ih htail

/-- The replayed records are writes with a timestamp between 1 and the largest one. -/
theorem mem_replayed {r : Record} (h : r ∈ replayed 0 files) :
    0 < r.ts ∧ r.ts ≤ logMaxTs files ∧ (r.type = .put ∨ r.type = .delete) := by
  have hle := (le_foldl_segmentMaxTs files (collectSegments files) 0).2 r h
  obtain ⟨id, -, hid⟩ := List.mem_flatMap.mp h
  unfold segmentDeliveries at hid
  split at hid
  · cases hid
  · obtain ⟨hts, htype⟩ := mem_deliveries _ hid
    exact ⟨hts, hle, htype⟩

/-- The largest timestamp fits into 64 bits. -/
theorem logMaxTs_lt (files : Files) : logMaxTs files < 2 ^ 64 := by
  have hframes : ∀ (fs : List Frame) (m : ℕ), (∀ f ∈ fs, f.ts < 2 ^ 64) → m < 2 ^ 64 →
      fs.foldl (fun m f => max m f.ts) m < 2 ^ 64 := by
    intro fs
    induction fs with
    | nil => exact fun m _ hm => hm
    | cons f fs ih =>
      intro m hfs hm
      exact ih _ (fun g hg => hfs g (List.mem_cons_of_mem _ hg))
        (max_lt hm (hfs f List.mem_cons_self))
  have hsegments : ∀ (ids : List Name) (m : ℕ), m < 2 ^ 64 →
      ids.foldl (segmentMaxTs files) m < 2 ^ 64 := by
    intro ids
    induction ids with
    | nil => exact fun m hm => hm
    | cons id ids ih =>
      intro m hm
      apply ih
      unfold segmentMaxTs
      split
      · exact hm
      · apply hframes _ _ (fun f hf => ?_) hm
        have hvalid : f.Valid := Format.valid_of_mem_scan hf
        have hlt := hvalid.ts_lt
        omega
  exact hsegments _ 0 (by decide)

/-- The last replayed record leaves a version, with its timestamp. -/
theorem exists_version_of_replayed (hne : replayed 0 files ≠ []) (s : Stores) :
    ∃ key, ∃ v ∈ ((replayed 0 files).foldl (fun s r => replayRecord r s) s).ht.versions key,
      0 < v.beginTs := by
  rcases List.eq_nil_or_concat (replayed 0 files) with hnil | ⟨init, r, heq⟩
  · exact absurd hnil hne
  · obtain ⟨hts, -, htype⟩ := mem_replayed (show r ∈ replayed 0 files by rw [heq]; simp)
    rw [heq, List.concat_eq_append, List.foldl_append, List.foldl_cons, List.foldl_nil]
    generalize init.foldl (fun s r => replayRecord r s) s = s'
    refine ⟨r.key, ?_⟩
    unfold replayRecord
    rcases htype with htype | htype
    · rw [htype]
      simp only [htPut, versions_htInsertVersion_self]
      exact ⟨_, List.mem_cons_self, hts⟩
    · rw [htype]
      simp only [htDelete, versions_htInsertVersion_self]
      exact ⟨_, List.mem_cons_self, hts⟩

end Replay

/-! ## Opening -/

section Open

variable {files : Files} {path : Name} {bytes : Bytes}

/-- What opening a directory with a rejected snapshot gives. -/
theorem fastkvOpen_rejected (hfind : findLatestSnapshot files = some path)
    (hbytes : files.lookup path = some bytes) {opts : Opts} {fresh : Uuid} {disk : Disk} {w : World}
    (hdisk : disk.files = files) (hbad : (loadFile bytes opts.stores).1 ≠ .ok)
    (hopen : fastkvOpen opts fresh disk = .ok w) :
    bytes ≠ [] ∧ w.db.stores = (replayed 0 files).foldl (fun s r => replayRecord r s)
        (loadFile bytes opts.stores).2.1 ∧
      w.db.clock = max 1 (add64 (logMaxTs files) 1) := by
  have hload : snapshotLoad disk.files opts.stores = loadFile bytes opts.stores := by
    simp only [snapshotLoad, hdisk, hfind, hbytes]
  have hne : bytes ≠ [] := by
    rintro rfl
    rw [fastkvOpen, hload] at hopen
    cases hopen
  obtain ⟨s, snapTs, walMaxTs, wal, rc, hs, hdb, -, hwal⟩ := fastkvOpen_cases hopen
  obtain ⟨hts, -⟩ := loadFile_rejected hbad
  rw [hload] at hs
  rw [hs] at hts ⊢
  change snapTs = 0 at hts
  rw [hts, hdisk] at hdb
  rw [hts, hdisk, walReplay_all] at hwal
  refine ⟨hne, by rw [hdb]; rfl, ?_⟩
  rw [hdb, hwal]
  simp only [Opts.assemble, Db.clock, clock_oracleAdvance]
  rfl

/-- A read-only database opens in a directory with a corrupt snapshot. -/
theorem fastkvOpen_readOnly (hfind : findLatestSnapshot files = some path)
    (hbytes : files.lookup path = some bytes) (hne : bytes ≠ []) (opts : Opts)
    (hreadOnly : opts.readOnly = true) (hbad : (loadFile bytes opts.stores).1 ≠ .ok) :
    ∃ w, fastkvOpen opts firstId ⟨files, [], []⟩ = .ok w := by
  have hload : snapshotLoad files opts.stores = loadFile bytes opts.stores := by
    simp only [snapshotLoad, hfind, hbytes]
  obtain ⟨hts, hcorrupt⟩ := loadFile_rejected hbad
  have hrc := hcorrupt hne
  generalize loadFile bytes opts.stores = loaded at hload hts hrc
  obtain ⟨rc, s, snapTs⟩ := loaded
  change snapTs = 0 at hts
  change rc = .corrupt at hrc
  rw [hts, hrc] at hload
  unfold fastkvOpen
  simp only [hload, walReplay_all, hreadOnly, ne_eq, reduceCtorEq, not_false_eq_true,
    not_true_eq_false, and_false, if_false, if_true]
  exact ⟨_, rfl⟩

/-- The snapshot of a directory is rejected. It leaves no trace exactly if the function has
stopped before the first entry and, should the directory open and the log have writes, the
largest timestamp of the log is not the last one. -/
theorem rejected_leaves_no_trace_iff (hfind : findLatestSnapshot files = some path)
    (hbytes : files.lookup path = some bytes)
    (hbad : ¬ ∃ ts entries, IsSnapshot bytes ts entries) :
    LeavesNoTrace files ↔ ¬ FirstEntryLoads bytes ∧
      (bytes = [] ∨ replayed 0 files = [] ∨ logMaxTs files + 1 < 2 ^ 64) := by
  have hload : ∀ s, snapshotLoad files s = loadFile bytes s := by
    intro s
    simp only [snapshotLoad, hfind, hbytes]
  have hrejected : ∀ s, (loadFile bytes s).1 ≠ .ok := fun s hok =>
    hbad ((loadFile_ok_iff bytes s).mp hok)
  constructor
  · intro h
    constructor
    · intro hfirst
      obtain ⟨key, hversions⟩ := loadFile_versions hfirst oneBucket.stores
      have hsame := h.stores oneBucket.stores (by rw [hload]; exact hrejected _)
      rw [hload] at hsame
      rw [hsame, Opts.stores, versions_htCreate] at hversions
      exact hversions rfl
    · by_contra hall
      obtain ⟨hne, hwrites, hmax⟩ : bytes ≠ [] ∧ replayed 0 files ≠ [] ∧
          ¬ logMaxTs files + 1 < 2 ^ 64 := by
        rw [not_or, not_or] at hall
        exact hall
      -- the timestamp behind the last one is 0, and the clock stays at 1
      have hlast : add64 (logMaxTs files) 1 = 0 := by
        have hlt := logMaxTs_lt files
        unfold add64
        omega
      obtain ⟨w, hopen⟩ := fastkvOpen_readOnly hfind hbytes hne ⟨1, by decide, false, true⟩ rfl
        (hrejected _)
      obtain ⟨-, hstores, hclock⟩ := fastkvOpen_rejected hfind hbytes rfl (hrejected _) hopen
      obtain ⟨key, v, hv, hpos⟩ := exists_version_of_replayed hwrites
        (loadFile bytes (Opts.stores ⟨1, by decide, false, true⟩)).2.1
      rw [← hstores] at hv
      have hbehind := h.clock _ _ _ w rfl (by rw [hload]; exact hrejected _) hopen key v hv
      rw [hclock, hlast] at hbehind
      omega
  · rintro ⟨hfirst, hlog⟩
    constructor
    · intro s _
      rw [hload]
      exact loadFile_stores hfirst s
    · intro opts fresh disk w hdisk _ hopen
      obtain ⟨-, hstores, -⟩ := fastkvOpen_rejected hfind hbytes hdisk (hrejected _) hopen
      rw [hstores, loadFile_stores hfirst, walReplay_all]
    · intro opts fresh disk w hdisk _ hopen key v hv
      obtain ⟨hne, hstores, hclock⟩ := fastkvOpen_rejected hfind hbytes hdisk (hrejected _) hopen
      rw [loadFile_stores hfirst] at hstores
      change v ∈ w.db.stores.ht.versions key at hv
      rw [hstores] at hv
      rcases hlog with hnil | hnone | hlt
      · exact absurd hnil hne
      · rw [hnone, List.foldl_nil, Opts.stores, versions_htCreate] at hv
        cases hv
      · apply (foldl_replayRecord_induction (P := fun ht => ht.Bounded w.db.clock) _
          (fun r hr ht key value hb => hb.insert ?_ key value) opts.stores
          (opts.stores_bounded _) key v hv).1
        obtain ⟨-, hle, -⟩ := mem_replayed hr
        rw [hclock, add64_eq hlt]
        omega

end Open

/-- A directory with one file. -/
def oneFile (name : Name) (bytes : Bytes) : Files := (∅ : Files).insert name bytes

/-- A snapshot of one entry with timestamp 9, of a later version of the format. -/
def laterVersionFile : Bytes :=
  ([leBytes 4 snapshotMagic, leBytes 2 (snapshotVersion + 1), leBytes 2 0, leBytes 8 9,
    leBytes 8 1, leBytes 4 0, leBytes 4 0] ++ entryFields ([1], [7])).flatten

/-- A record of the log, with timestamp 5. -/
def loggedPut : Record := ⟨.put, 5, [2], some [20]⟩

/-- Such a snapshot beside a segment with one record. -/
def laterVersionFiles : Files :=
  (oneFile (segName firstId.hex) (encodeRecords [loggedPut])).insert (snapName firstId.hex)
    laterVersionFile

/-- The snapshot is rejected before its entry is read. The database opens with the record of the
log, and the clock is behind it. -/
theorem rejected_leaves_no_trace_laterVersion :
    LeavesNoTrace laterVersionFiles ∧
      (snapshotLoad laterVersionFiles oneBucket.stores).1 = .corrupt ∧
      (fastkvOpen ⟨1, by decide, false, true⟩ firstId ⟨laterVersionFiles, [], []⟩).toOption.map
        (fun w => (w.db.clock, w.db.ht.versions [1], w.db.ht.versions [2])) =
        some (6, [], [⟨5, tsMax, [2], some [20]⟩]) := by
  have hfind : findLatestSnapshot laterVersionFiles = some (snapName firstId.hex) := by
    decide +kernel
  have hbytes : laterVersionFiles.lookup (snapName firstId.hex) = some laterVersionFile :=
    AList.lookup_insert _
  have hbad : ¬ ∃ ts entries, IsSnapshot laterVersionFile ts entries := by
    rw [← loadFile_ok_iff laterVersionFile oneBucket.stores]
    decide
  refine ⟨(rejected_leaves_no_trace_iff hfind hbytes hbad).mpr ⟨?_, ?_⟩, by decide +kernel,
    by decide +kernel⟩
  · rintro ⟨header, bs, entry, rest, hread, -, hversion, -⟩
    -- the version is not the one that is looked for
    have hother : (readHeader laterVersionFile).all (fun r => r.1.version != snapshotVersion) =
        true := by decide
    rw [hread, Option.all_some] at hother
    exact (bne_iff_ne.mp hother) hversion
  · exact Or.inr (Or.inr (by decide +kernel))

/-- The snapshot of one entry with timestamp 5 and a wrong checksum. -/
def wrongCrcFile : Bytes := (headerFields 5 1 0).flatten ++ (entryFields ([1], [7])).flatten

/-- It is rejected, but its entry stays, and `fastkv_open` comes up with that entry and a clock
that is behind it. -/
theorem rejected_snapshot_stays :
    (snapshotLoad (oneFile (snapName firstId.hex) wrongCrcFile) oneBucket.stores).1 = .corrupt ∧
      (fastkvOpen ⟨1, by decide, false, true⟩ firstId
        ⟨oneFile (snapName firstId.hex) wrongCrcFile, [], []⟩).toOption.map
          (fun w => (w.db.clock, w.db.ht.versions [1], btreeGet w.db.btree [1])) =
        some (1, [⟨5, tsMax, [1], some [7]⟩], .ok [7]) ∧
      ¬ LeavesNoTrace (oneFile (snapName firstId.hex) wrongCrcFile) := by
  have hrc : (snapshotLoad (oneFile (snapName firstId.hex) wrongCrcFile)
      oneBucket.stores).1 = .corrupt := by
    decide +kernel
  refine ⟨hrc, by decide +kernel, fun h => ?_⟩
  have hsame := h.stores oneBucket.stores (by rw [hrc]; decide)
  have hlive : (snapshotLoad (oneFile (snapName firstId.hex) wrongCrcFile)
      oneBucket.stores).2.1.ht.live [1] = some [7] := by
    decide +kernel
  rw [hsame, (oneBucket.stores_empty [1]).1] at hlive
  cases hlive

end FastKV
