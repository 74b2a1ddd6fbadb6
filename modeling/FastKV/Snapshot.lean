import FastKV.Db

/-!
# Snapshots

`persist/snapshot.c`. A snapshot file is a header and one entry for each exported key; it is
written under a temporary name through a buffer of 64 KiB and then renamed. Loading picks
the file with the largest identifier among the names that pass the name test, reads it and
puts every entry into the hash table and the B+tree before the checksum is compared.
-/

namespace FastKV

open Lib

/-- `SNAPSHOT_MAGIC`. -/
def snapshotMagic : ℕ := 0x464B5350

/-- `SNAPSHOT_VERSION`. -/
def snapshotVersion : ℕ := 1

/-- `SNAP_BUF_CAP`. -/
def snapBufCap : ℕ := 65536

/-- `struct snap_writer`, with the directory it writes to. -/
structure SnapWriter where
  /-- The open file. -/
  name : Name
  /-- Bytes not yet written. -/
  buf : Bytes
  /-- Where the buffer will be written. -/
  offset : ℕ
  /-- The first error. -/
  err : Err
  /-- The directory. -/
  disk : Disk

/-- `snap_flush`. -/
def snapFlush (sw : SnapWriter) : SnapWriter :=
  if sw.err ≠ .ok ∨ sw.buf = [] then sw
  else
    let (err, disk) := ioPwrite sw.disk sw.name sw.buf sw.offset
    if err = .ok then { sw with err, disk, offset := sw.offset + sw.buf.length, buf := [] }
    else { sw with err, disk }

/-- The buffer of the snapshot writer. -/
def snapBuffer : Buffer UInt8 SnapWriter Err where
  cap := snapBufCap
  contents sw := sw.buf
  push data sw := { sw with buf := sw.buf ++ data }
  flush sw := ((snapFlush sw).err, snapFlush sw)
  ok := .ok

/-- `snap_write`. -/
def snapWrite (sw : SnapWriter) (data : Bytes) : SnapWriter :=
  if sw.err ≠ .ok then sw else (snapBuffer.write data.length data sw).2

/-- Key and value of a version that a snapshot exports: live and not a tombstone. -/
def Version.livePair (v : Version) : Option (Bytes × Bytes) :=
  if v.endTs = tsMax then v.value.map fun value => (v.key, value) else none

/-- The inner loop of `fastkv_snapshot_write`: the first live version of a bucket ends the
walk over the bucket. -/
def bucketEntry : List Version → Option (Bytes × Bytes)
  | [] => none
  | v :: next =>
    match v.livePair with
    | some entry => some entry
    | none => bucketEntry next

/-- The entries that both passes of `fastkv_snapshot_write` visit, bucket by bucket. -/
def snapEntries (ht : Ht) : List (Bytes × Bytes) := ht.buckets.filterMap bucketEntry

/-- The fields of an entry in file order. -/
def entryFields (entry : Bytes × Bytes) : List Bytes :=
  [leBytes 4 entry.1.length, leBytes 4 entry.2.length, entry.1, entry.2]

/-- The checksum of the first pass. -/
def entriesCrc (entries : List (Bytes × Bytes)) : UInt32 :=
  (entries.flatMap entryFields).foldl crc32c 0

/-- The fields of the header. -/
def headerFields (ts numKeys : ℕ) (dataCrc : UInt32) : List Bytes :=
  [leBytes 4 snapshotMagic, leBytes 2 snapshotVersion, leBytes 2 0, leBytes 8 ts,
    leBytes 8 numKeys, leBytes 4 dataCrc.toNat, leBytes 4 0]

/-- The fields of the whole file. -/
def snapshotFields (ts : ℕ) (ht : Ht) : List Bytes :=
  headerFields ts (snapEntries ht).length (entriesCrc (snapEntries ht)) ++
    (snapEntries ht).flatMap entryFields

/-- `fastkv_snapshot_write` under the identifier `id`. -/
def snapshotWrite (ht : Ht) (ts : ℕ) (id : Uuid) (disk : Disk) : Err × Disk :=
  let tmp := snapTmpName id.hex
  let (rc, disk) := ioOpen disk tmp
  if rc ≠ .ok then (rc, disk)
  else
    let sw := snapFlush ((snapshotFields ts ht).foldl snapWrite ⟨tmp, [], 0, .ok, disk⟩)
    let (err, disk) := if sw.err = .ok then ioSync sw.disk else (sw.err, sw.disk)
    if err ≠ .ok then (err, (ioRemove disk tmp).2)
    else
      let (rc, disk) := ioRename disk tmp (snapName id.hex)
      if rc ≠ .ok then (.io, (ioRemove disk tmp).2) else (.ok, disk)

/-- The scan of `find_latest_snapshot`: identifier and name of the best file so far. The
comparison is with the whole rest of the name. -/
def latestSnapshot : List Name → Option (Name × Name) → Option (Name × Name)
  | [], best => best
  | name :: names, best =>
    match matchName snapPfx snapSfx name with
    | none => latestSnapshot names best
    | some hex =>
      match best with
      | none => latestSnapshot names (some (hex.take idLen, name))
      | some (bestId, _) =>
        latestSnapshot names (if bestId < hex then some (hex.take idLen, name) else best)

/-- `find_latest_snapshot`. -/
def findLatestSnapshot (files : Files) : Option Name :=
  (latestSnapshot files.keys none).map Prod.snd

/-- The header that `fastkv_snapshot_load` reads. -/
structure SnapHeader where
  /-- Magic number. -/
  magic : ℕ
  /-- Format version. -/
  version : ℕ
  /-- Timestamp. -/
  ts : ℕ
  /-- Number of entries. -/
  numKeys : ℕ
  /-- Checksum of the entries. -/
  storedCrc : ℕ

/-- The header reads of `fastkv_snapshot_load`. -/
def readHeader (bs : Bytes) : Option (SnapHeader × Bytes) := do
  let (magic, bs) ← readLe 4 bs
  let (version, bs) ← readLe 2 bs
  let (_, bs) ← readLe 2 bs
  let (ts, bs) ← readLe 8 bs
  let (numKeys, bs) ← readLe 8 bs
  let (storedCrc, bs) ← readLe 4 bs
  let (_, bs) ← readLe 4 bs
  pure (⟨magic, version, ts, numKeys, storedCrc⟩, bs)

/-- The entry reads of `fastkv_snapshot_load`. -/
def readEntry (bs : Bytes) : Option ((Bytes × Bytes) × Bytes) := do
  let (klen, bs) ← readLe 4 bs
  let (vlen, bs) ← readLe 4 bs
  let (key, bs) ← takeExact klen bs
  let (val, bs) ← takeExact vlen bs
  pure ((key, val), bs)

/-- The two structures that recovery fills. -/
structure Stores where
  /-- The hash table. -/
  ht : Ht
  /-- The B+tree. -/
  btree : BTree

/-- Put one snapshot entry into both structures. -/
def loadEntry (ts : ℕ) (s : Stores) (entry : Bytes × Bytes) : Stores :=
  ⟨htPut s.ht ts entry.1 (some entry.2), btreeInsert s.btree entry.1 entry.2⟩

/-- The loop of `fastkv_snapshot_load`; the checksum is `none` when the file ended early. -/
def loadEntries (ts : ℕ) : ℕ → Bytes → UInt32 → Stores → Option UInt32 × Stores
  | 0, _, dataCrc, s => (some dataCrc, s)
  | numKeys + 1, bs, dataCrc, s =>
    match readEntry bs with
    | none => (none, s)
    | some (entry, bs) =>
      loadEntries ts numKeys bs ((entryFields entry).foldl crc32c dataCrc) (loadEntry ts s entry)

/-- `fastkv_snapshot_load` for a file with the given contents. Mapping an empty file
fails. -/
def loadFile (bytes : Bytes) (s : Stores) : Err × Stores × ℕ :=
  if bytes = [] then (.io, s, 0)
  else
    match readHeader bytes with
    | none => (.corrupt, s, 0)
    | some (header, bs) =>
      if header.magic ≠ snapshotMagic ∨ header.version ≠ snapshotVersion then (.corrupt, s, 0)
      else
        match loadEntries header.ts header.numKeys bs 0 s with
        | (none, s) => (.corrupt, s, 0)
        | (some dataCrc, s) =>
          if dataCrc.toNat = header.storedCrc then (.ok, s, header.ts) else (.corrupt, s, 0)

/-- `fastkv_snapshot_load`: result, structures and the timestamp left in `*ts_out`, which
the caller sets to 0 before. -/
def snapshotLoad (files : Files) (s : Stores) : Err × Stores × ℕ :=
  match findLatestSnapshot files with
  | none => (.ok, s, 0)
  | some path =>
    match files.lookup path with
    | none => (.io, s, 0)
    | some bytes => loadFile bytes s

/-- `fastkv_snapshot_trim`: remove the snapshots with smaller identifiers, whether or not
that works. -/
def snapshotTrim (keep : Name) (disk : Disk) : Disk :=
  (disk.files.keys.filter fun name =>
    ((matchName snapPfx snapSfx name).any fun hex => decide (hex.take idLen < keep))).foldl
    (fun disk name => (ioRemove disk name).2) disk

end FastKV
