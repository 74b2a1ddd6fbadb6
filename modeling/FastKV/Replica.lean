import FastKV.StoreRuns

/-!
# Records on a replica

`repl/repl_client.c`: a replica decodes each record that it receives and applies it to its
own hash table and B+tree, without writing a log. For the bytes of a record of the primary
this is what recovery does with the record; in addition the clock moves beyond it.
-/

namespace FastKV

open Lib

/-! ## The records that a payload can begin with -/

/-- A frame whose fields fit their widths and whose length field agrees with the value. -/
structure Frame.Complete (f : Frame) : Prop where
  /-- The type is one byte. -/
  typeByte_lt : f.typeByte < 256 ^ 1
  /-- The timestamp is a 64-bit number. -/
  ts_lt : f.ts < 256 ^ 8
  /-- The length of the key fits. -/
  key_lt : f.key.length < 256 ^ 4
  /-- The value is absent, or its length is stored. -/
  val_eq : f.vlen = vlenTombstone ∧ f.val = [] ∨
    f.vlen = f.val.length ∧ f.val.length < vlenTombstone

/-- The payload starts with the frame; the stored checksum is that of the frame. -/
def Frame.Heads (f : Frame) (payload : Bytes) : Prop :=
  f.Complete ∧ ∃ rest, payload = f.encode ++ rest

/-- The number of value bytes that the length field announces. -/
theorem Frame.Complete.realVlen {f : Frame} (h : f.Complete) :
    (if f.vlen = vlenTombstone then 0 else f.vlen) = f.val.length ∧ f.vlen < 256 ^ 4 := by
  have htomb : vlenTombstone = 4294967295 := rfl
  rcases h.val_eq with ⟨hv, hval⟩ | ⟨hv, hlt⟩
  · rw [if_pos hv, hval]
    exact ⟨rfl, by omega⟩
  · rw [if_neg (by omega)]
    exact ⟨hv, by omega⟩

/-- A valid frame is complete. -/
theorem Frame.Valid.complete {f : Frame} (h : f.Valid) : f.Complete := by
  have hkeyMax : maxKeyLen = 4096 := rfl
  have hvalMax : maxValLen = 67108864 := rfl
  have htomb : vlenTombstone = 4294967295 := rfl
  have hkey := h.key_le
  constructor
  · exact h.typeByte_lt
  · exact h.ts_lt
  · omega
  · rcases h.val_eq with hv | ⟨hv, hle⟩
    · exact Or.inl hv
    · exact Or.inr ⟨hv, by omega⟩

/-! ## The decoder -/

/-- The second half of `apply_wal_record`, once the checksum has been verified. -/
def applyFrame (db : Db) (f : Frame) : Db :=
  let value : Slice := if f.vlen = vlenTombstone then none else some f.val
  let s : Stores :=
    if f.typeByte = RecType.put.code then
      ⟨htPut db.ht f.ts f.key value, btreeInsert db.btree f.key (value.getD [])⟩
    else if f.typeByte = RecType.delete.code then
      ⟨htDelete db.ht f.ts f.key, (btreeDelete db.btree f.key).2⟩
    else db.stores
  { db with
    ht := s.ht
    btree := s.btree
    txnMgr := { db.txnMgr with oracle := oracleAdvance db.txnMgr.oracle (add64 f.ts 1) } }

/-- `apply_wal_record` for a payload. The first length test admits 17 bytes although the
header has 21, so the header is read from memory that goes on with `beyond`. -/
def applyWalRecord (beyond payload : Bytes) (db : Db) : Db :=
  if payload.length < 17 then db
  else
    let applied := do
      let (storedCrc, p) ← readLe 4 (payload ++ beyond)
      let (typeByte, p) ← readLe 1 p
      let (ts, p) ← readLe 8 p
      let (klen, p) ← readLe 4 p
      let (vlen, p) ← readLe 4 p
      let realVlen := if vlen = vlenTombstone then 0 else vlen
      guard (walHeaderSize + klen + realVlen ≤ payload.length)
      let f : Frame := ⟨typeByte, ts, vlen, p.take klen, (p.drop klen).take realVlen⟩
      guard (f.crc.toNat = storedCrc)
      pure (applyFrame db f)
    applied.getD db

/-- The frame at the front of a payload is applied. -/
theorem applyWalRecord_heads {f : Frame} {payload : Bytes} (h : f.Heads payload) (beyond : Bytes)
    (db : Db) : applyWalRecord beyond payload db = applyFrame db f := by
  obtain ⟨hcomplete, rest, rfl⟩ := h
  obtain ⟨hreal, hvlen⟩ := hcomplete.realVlen
  have hcrc : f.crc.toNat < 256 ^ 4 := by
    have := f.crc.toNat_lt
    omega
  have hlen : walHeaderSize + f.key.length + f.val.length ≤ (f.encode ++ rest).length := by
    rw [List.length_append, f.length_encode]
    exact Nat.le_add_right _ _
  have hlong : ¬ (f.encode ++ rest).length < 17 := by
    have hsize : walHeaderSize = 21 := rfl
    omega
  unfold applyWalRecord
  rw [if_neg hlong]
  simp only [List.append_assoc]
  rw [Frame.encode_eq]
  simp only [readLe_leBytes _ hcrc, readLe_leBytes _ hcomplete.typeByte_lt,
    readLe_leBytes _ hcomplete.ts_lt, readLe_leBytes _ hcomplete.key_lt, readLe_leBytes _ hvlen,
    Option.bind_eq_bind, Option.bind_some, hreal, hlen, guard, if_true, List.take_left,
    List.drop_left, Option.pure_def, Option.getD_some]

/-- The bytes of a valid frame are decoded to the frame. -/
theorem applyWalRecord_encode {f : Frame} (h : f.Valid) (beyond : Bytes) (db : Db) :
    applyWalRecord beyond f.encode db = applyFrame db f :=
  applyWalRecord_heads ⟨h.complete, [], (List.append_nil _).symm⟩ beyond db

/-- The frame of a record is applied as recovery applies the record. -/
theorem applyFrame_stores {r : Record} (h : r.Valid) (db : Db) :
    (applyFrame db r.frame).stores = replayRecord r db.stores := by
  have hvalue : (if r.frame.vlen = vlenTombstone then none else some r.frame.val) = r.value := by
    cases hv : r.value with
    | none => simp [Record.frame, hv]
    | some v =>
      have hle := h.value_le v hv
      have hne : v.length ≠ vlenTombstone := by
        have hmax : maxValLen = 67108864 := rfl
        have htomb : vlenTombstone = 4294967295 := rfl
        omega
      simp [Record.frame, hv, hne]
  unfold applyFrame
  simp only [hvalue]
  cases hr : r.type <;> simp [Record.frame, RecType.code, replayRecord, Db.stores, hr]

/-- A record of the primary is applied as recovery applies it, and the clock moves beyond it. -/
theorem applyWalRecord_record {r : Record} (h : r.Valid) (beyond : Bytes) (db : Db) :
    (applyWalRecord beyond r.frame.encode db).stores = replayRecord r db.stores ∧
      (applyWalRecord beyond r.frame.encode db).clock = max db.clock (add64 r.ts 1) := by
  rw [applyWalRecord_encode h.frame]
  exact ⟨applyFrame_stores h db, clock_oracleAdvance _ _⟩

end FastKV
