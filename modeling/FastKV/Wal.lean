import Mathlib.Data.List.Sort
import FastKV.Lib.Buffered
import FastKV.Names
import FastKV.Util

/-!
# The write-ahead log

`wal/wal.c`. Records are copied field by field into a buffer of 64 KiB in front of the
current segment file; the buffer is written at the file offset the handle remembers.
Recovery reads the segments in the order of their names and hands every complete record
newer than a timestamp to a callback, stopping each segment at the first record that is
cut short, implausible or fails its checksum. Allocations succeed here.
-/

namespace FastKV

open Lib

/-- `WAL_BUF_CAP`. -/
def walBufCap : ℕ := 65536

/-- `WAL_VLEN_TOMBSTONE`. -/
def vlenTombstone : ℕ := 2 ^ 32 - 1

/-- `WAL_HEADER_SIZE`. -/
def walHeaderSize : ℕ := 4 + 1 + 8 + 4 + 4

/-- `fastkv_wal_rec_type_t`. -/
inductive RecType
  | put
  | delete
  | commit
  | begin
  deriving DecidableEq, Repr

/-- The byte that stands for a record type. -/
def RecType.code : RecType → ℕ
  | .put => 1
  | .delete => 2
  | .commit => 3
  | .begin => 4

/-- `fastkv_wal_record_t` without its checksum, which no callback reads. -/
structure Record where
  /-- What the record describes. -/
  type : RecType
  /-- Commit timestamp. -/
  ts : ℕ
  /-- The key. -/
  key : Bytes
  /-- The value; the null slice in a deletion. -/
  value : Slice
  deriving DecidableEq, Repr

/-- A record as it stands in a segment: the type byte and the length field of the value
as they are stored. -/
structure Frame where
  /-- The type byte. -/
  typeByte : ℕ
  /-- The timestamp. -/
  ts : ℕ
  /-- The length field of the value, `vlenTombstone` when there is none. -/
  vlen : ℕ
  /-- The key bytes. -/
  key : Bytes
  /-- The value bytes. -/
  val : Bytes
  deriving DecidableEq, Repr

/-- The header fields that follow the checksum. -/
def Frame.header (f : Frame) : List Bytes :=
  [leBytes 1 f.typeByte, leBytes 8 f.ts, leBytes 4 f.key.length, leBytes 4 f.vlen]

/-- The checksum of a frame: header fields, key and value in this order. -/
def Frame.crc (f : Frame) : UInt32 := (f.header ++ [f.key, f.val]).foldl crc32c 0

/-- All fields of a frame in the order in which they are written. -/
def Frame.fields (f : Frame) : List Bytes :=
  leBytes 4 f.crc.toNat :: f.header ++ [f.key, f.val]

/-- The bytes of a frame. -/
def Frame.encode (f : Frame) : Bytes := f.fields.flatten

/-- What `fastkv_wal_append` writes for a record. -/
def Record.frame (r : Record) : Frame where
  typeByte := r.type.code
  ts := r.ts
  vlen := match r.value with
    | none => vlenTombstone
    | some value => value.length
  key := r.key
  val := r.value.getD []

/-! ## The handle -/

/-- `struct fastkv_wal`; the directory is implicit. -/
structure Wal where
  /-- The open segment file. After a rotation that could not open its file the handle is
  stale and this is `none`. -/
  io : Option Name
  /-- Whether every append is synced. -/
  syncWrites : Bool
  /-- Bytes appended since the log was opened, a 64-bit counter. -/
  bytesWritten : ℕ
  /-- Where the buffer will be written. -/
  fileOffset : ℕ
  /-- The 32 digits of the current segment. -/
  segmentId : Name
  /-- Bytes not yet written to the file. -/
  buf : Bytes
  /-- Whether the replication hook is installed. -/
  hook : Bool
  /-- The records handed to the hook, oldest first. -/
  hooked : List Bytes

/-- A log handle and the directory it writes to. -/
structure Log where
  /-- The handle. -/
  wal : Wal
  /-- The directory. -/
  disk : Disk

/-- The first half of `flush_buf`: write the buffer at the file offset. -/
def flushData (s : Log) : Err × Log :=
  if s.wal.buf = [] then (.ok, s)
  else
    match s.wal.io with
    | none => (.io, s)
    | some name =>
      let (rc, disk) := ioPwrite s.disk name s.wal.buf s.wal.fileOffset
      if rc = .ok then
        (.ok, ⟨{ s.wal with fileOffset := s.wal.fileOffset + s.wal.buf.length, buf := [] }, disk⟩)
      else (rc, { s with disk })

/-- `flush_buf`. -/
def flushBuf (sync : Bool) (s : Log) : Err × Log :=
  let (rc, s) := flushData s
  if rc = .ok then
    if sync then
      match s.wal.io with
      | none => (.io, s)
      | some _ =>
        let (rc, disk) := ioSync s.disk
        (rc, { s with disk })
    else (.ok, s)
  else (rc, s)

/-- The buffer of the log. -/
def walBuffer : Buffer UInt8 Log Err where
  cap := walBufCap
  contents s := s.wal.buf
  push data s := { s with wal := { s.wal with buf := s.wal.buf ++ data } }
  flush := flushBuf false
  ok := .ok

/-- `wal_write_buf`. -/
def walWriteBuf (data : Bytes) (s : Log) : Err × Log := walBuffer.write data.length data s

/-- Write fields one after the other, up to the first that fails. -/
def writeFields : List Bytes → Log → Err × Log
  | [], s => (.ok, s)
  | field :: fields, s =>
    let (rc, s) := walWriteBuf field s
    if rc = .ok then writeFields fields s else (rc, s)

/-- The bookkeeping of `fastkv_wal_append` once a record is in the buffer. -/
def Wal.recorded (w : Wal) (r : Record) : Wal :=
  { w with
    bytesWritten :=
      add64 w.bytesWritten (walHeaderSize + r.key.length + (r.value.getD []).length)
    hooked := if w.hook then w.hooked ++ [r.frame.encode] else w.hooked }

/-- `fastkv_wal_append`. -/
def walAppend (r : Record) (s : Log) : Err × Log :=
  let (rc, s) := writeFields r.frame.fields s
  if rc = .ok then
    let s := { s with wal := s.wal.recorded r }
    if s.wal.syncWrites then flushBuf true s else (.ok, s)
  else (rc, s)

/-- `fastkv_wal_sync`. -/
def walSync (s : Log) : Err × Log := flushBuf true s

/-- `fastkv_wal_close`: the result of the flush is dropped with the handle. -/
def walClose (s : Log) : Err × Disk := (.ok, (flushBuf true s).2.disk)

/-! ## Opening, rotating and trimming -/

/-- The segment identifiers in a directory, in listing order: the 32 characters after the
prefix of every name that passes the test. -/
def segmentIds (files : Files) : List Name :=
  files.keys.filterMap fun name => (matchName walPfx walSfx name).map (·.take idLen)

/-- `collect_segments`: the identifiers in ascending order. -/
def collectSegments (files : Files) : List Name := (segmentIds files).insertionSort (· ≤ ·)

/-- The scan of `fastkv_wal_open`. The comparison is with the whole rest of the name. -/
def newestSegment : List Name → Name → Name
  | [], segmentId => segmentId
  | name :: names, segmentId =>
    match matchName walPfx walSfx name with
    | some hex => newestSegment names (if segmentId < hex then hex.take idLen else segmentId)
    | none => newestSegment names segmentId

/-- The segment that `fastkv_wal_open` continues: the newest one, or `fresh` if there is
none. -/
def openSegment (files : Files) (fresh : Uuid) : Name :=
  if newestSegment files.keys [] = [] then fresh.hex else newestSegment files.keys []

/-- `fastkv_wal_open`: the handle starts at the end of its segment. -/
def walOpen (syncWrites : Bool) (fresh : Uuid) (disk : Disk) : Err × Option Log :=
  let segmentId := openSegment disk.files fresh
  let fileOffset := ((disk.files.lookup (segName segmentId)).getD []).length
  let (rc, disk) := ioOpen disk (segName segmentId)
  if rc = .ok then
    (.ok, some ⟨⟨some (segName segmentId), syncWrites, 0, fileOffset, segmentId, [], false, []⟩,
      disk⟩)
  else (rc, none)

/-- `fastkv_wal_rotate` to the segment `fresh`. The result of the flush is dropped. -/
def walRotate (fresh : Uuid) (s : Log) : Err × Log :=
  let s := (flushBuf true s).2
  let wal := { s.wal with io := none, segmentId := fresh.hex, fileOffset := 0 }
  let (rc, disk) := ioOpen s.disk (segName fresh.hex)
  if rc = .ok then (.ok, ⟨{ wal with io := some (segName fresh.hex) }, disk⟩)
  else (rc, ⟨wal, disk⟩)

/-- `fastkv_wal_trim`: remove the segments with smaller names, whether or not that works. -/
def walTrim (keepFrom : Name) (disk : Disk) : Disk :=
  ((collectSegments disk.files).filter fun id => decide (id < keepFrom)).foldl
    (fun disk id => (ioRemove disk (segName id)).2) disk

/-! ## Replay -/

/-- One round of the read loop of `replay_segment` up to the checksum test; `none` is a
`break`. -/
def readFrame (bs : Bytes) : Option (Frame × Bytes) := do
  let (storedCrc, bs) ← readLe 4 bs
  let (typeByte, bs) ← readLe 1 bs
  let (ts, bs) ← readLe 8 bs
  let (klen, bs) ← readLe 4 bs
  let (vlen, bs) ← readLe 4 bs
  guard (klen ≤ maxKeyLen)
  let realVlen := if vlen = vlenTombstone then 0 else vlen
  guard (realVlen ≤ maxValLen)
  let (key, bs) ← takeExact klen bs
  let (val, bs) ← takeExact realVlen bs
  let f : Frame := ⟨typeByte, ts, vlen, key, val⟩
  guard (f.crc.toNat = storedCrc)
  pure (f, bs)

/-- The value handed to the callback. `valBuf` says whether the value buffer has been
allocated: until then an empty value has a null data pointer. -/
def Frame.slice (valBuf : Bool) (f : Frame) : Slice :=
  if f.vlen = vlenTombstone then none else if valBuf then some f.val else none

/-- The record handed to the callback, if its type is one the callback gets. -/
def Frame.deliver (valBuf : Bool) (f : Frame) : Option Record :=
  if f.typeByte = RecType.put.code then some ⟨.put, f.ts, f.key, f.slice valBuf⟩
  else if f.typeByte = RecType.delete.code then some ⟨.delete, f.ts, f.key, f.slice valBuf⟩
  else none

section Replay

variable {σ : Type} (sinceTs : ℕ) (fn : Record → σ → Err × σ)

/-- The loop of `replay_segment`, with the largest timestamp seen so far. Every record takes
some bytes, so their number is enough fuel. -/
def replayLoop : ℕ → Bytes → Bool → σ → ℕ → Err × σ × ℕ
  | 0, _, _, s, maxTs => (.ok, s, maxTs)
  | fuel + 1, bs, valBuf, s, maxTs =>
    match readFrame bs with
    | none => (.ok, s, maxTs)
    | some (f, bs) =>
      let valBuf := valBuf || !f.val.isEmpty
      let maxTs := max maxTs f.ts
      if f.ts ≤ sinceTs then replayLoop fuel bs valBuf s maxTs
      else
        match f.deliver valBuf with
        | none => replayLoop fuel bs valBuf s maxTs
        | some r =>
          match fn r s with
          | (.ok, s) => replayLoop fuel bs valBuf s maxTs
          | (rc, s) => (rc, s, maxTs)

/-- `replay_segment`: a segment that cannot be opened is skipped. -/
def replaySegment (files : Files) (id : Name) (s : σ) (maxTs : ℕ) : Err × σ × ℕ :=
  match files.lookup (segName id) with
  | none => (.ok, s, maxTs)
  | some bs => replayLoop sinceTs fn bs.length bs false s maxTs

/-- The segment loop of `fastkv_wal_replay`. -/
def replaySegments (files : Files) : List Name → σ → ℕ → Err × σ × ℕ
  | [], s, maxTs => (.ok, s, maxTs)
  | id :: ids, s, maxTs =>
    match replaySegment sinceTs fn files id s maxTs with
    | (.ok, s, maxTs) => replaySegments files ids s maxTs
    | r => r

/-- `fastkv_wal_replay`; `maxTsOut` is left alone when there is no segment. -/
def walReplay (files : Files) (s : σ) (maxTsOut : ℕ) : Err × σ × ℕ :=
  match collectSegments files with
  | [] => (.ok, s, maxTsOut)
  | ids => replaySegments sinceTs fn files ids s sinceTs

end Replay

end FastKV
