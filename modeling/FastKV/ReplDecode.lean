import FastKV.Reachable
import FastKV.Replica
import FastKV.VersionMap

/-!
# The decoder of the replica on arbitrary payloads

`apply_wal_record` takes its bytes from the network. What it does with a payload is decided by
the first record in it: nothing is applied unless the header and the bytes that it announces are
all there and the checksum matches. The length is tested twice, and the first test is short of
the header by four bytes, so a payload of 17 to 20 bytes is read beyond its end. There is no
limit on values, as recovery has one.
-/

namespace FastKV

open Lib

/-! ## Reading within a payload -/

/-- The fields of the header. -/
structure FrameHeader where
  /-- The stored checksum. -/
  crc : ℕ
  /-- The type byte. -/
  typeByte : ℕ
  /-- The timestamp. -/
  ts : ℕ
  /-- The length of the key. -/
  klen : ℕ
  /-- The length field of the value. -/
  vlen : ℕ

/-- The value bytes that a header announces. -/
def FrameHeader.realVlen (h : FrameHeader) : ℕ := if h.vlen = vlenTombstone then 0 else h.vlen

/-- The header of a payload, and what follows. -/
def readFrameHeader (payload : Bytes) : Option (FrameHeader × Bytes) := do
  let (crc, p) ← readLe 4 payload
  let (typeByte, p) ← readLe 1 p
  let (ts, p) ← readLe 8 p
  let (klen, p) ← readLe 4 p
  let (vlen, p) ← readLe 4 p
  pure (⟨crc, typeByte, ts, klen, vlen⟩, p)

/-- `apply_wal_record` confined to the payload: a read beyond its end has no result. -/
def applyWithin (payload : Bytes) (db : Db) : Option Db :=
  if payload.length < 17 then some db
  else do
    let (h, p) ← readFrameHeader payload
    if payload.length < walHeaderSize + h.klen + h.realVlen then pure db
    else do
      let (key, p) ← takeExact h.klen p
      let (val, _) ← takeExact h.realVlen p
      let f : Frame := ⟨h.typeByte, h.ts, h.vlen, key, val⟩
      pure (if f.crc.toNat = h.crc then applyFrame db f else db)

/-! ## Reading a header -/

/-- The bytes of a header. -/
def FrameHeader.bytes (h : FrameHeader) : Bytes :=
  leBytes 4 h.crc ++ (leBytes 1 h.typeByte ++ (leBytes 8 h.ts ++ (leBytes 4 h.klen ++
    leBytes 4 h.vlen)))

/-- A header takes 21 bytes. -/
theorem FrameHeader.length_bytes (h : FrameHeader) : h.bytes.length = walHeaderSize := by
  simp [FrameHeader.bytes, walHeaderSize]

/-- Its fields fit their widths. -/
structure FrameHeader.Fits (h : FrameHeader) : Prop where
  /-- The checksum. -/
  crc : h.crc < 256 ^ 4
  /-- The type byte. -/
  typeByte : h.typeByte < 256 ^ 1
  /-- The timestamp. -/
  ts : h.ts < 256 ^ 8
  /-- The length of the key. -/
  klen : h.klen < 256 ^ 4
  /-- The length field of the value. -/
  vlen : h.vlen < 256 ^ 4

/-- Reading a header back. -/
theorem readFrameHeader_bytes {h : FrameHeader} (hfits : h.Fits) (p : Bytes) :
    readFrameHeader (h.bytes ++ p) = some (h, p) := by
  unfold readFrameHeader FrameHeader.bytes
  simp only [List.append_assoc, readLe_leBytes _ hfits.crc, readLe_leBytes _ hfits.typeByte,
    readLe_leBytes _ hfits.ts, readLe_leBytes _ hfits.klen, readLe_leBytes _ hfits.vlen,
    Option.bind_eq_bind, Option.bind_some, Option.pure_def]

/-- What has been read as a header are its bytes. -/
theorem readFrameHeader_eq_some {payload p : Bytes} {h : FrameHeader}
    (hread : readFrameHeader payload = some (h, p)) : payload = h.bytes ++ p ∧ h.Fits := by
  simp only [readFrameHeader, Option.bind_eq_bind, Option.bind_eq_some_iff, Prod.exists,
    Option.pure_def] at hread
  obtain ⟨crc, p₁, h₁, typeByte, p₂, h₂, ts, p₃, h₃, klen, p₄, h₄, vlen, p₅, h₅, heq⟩ := hread
  simp only [Option.some.injEq, Prod.mk.injEq] at heq
  obtain ⟨rfl, rfl⟩ := heq
  obtain ⟨rfl, hcrc⟩ := readLe_eq_some h₁
  obtain ⟨rfl, htype⟩ := readLe_eq_some h₂
  obtain ⟨rfl, hts⟩ := readLe_eq_some h₃
  obtain ⟨rfl, hklen⟩ := readLe_eq_some h₄
  obtain ⟨rfl, hvlen⟩ := readLe_eq_some h₅
  constructor
  · simp only [FrameHeader.bytes, List.append_assoc]
  · exact ⟨hcrc, htype, hts, hklen, hvlen⟩

/-- A header is read whenever there are enough bytes. -/
theorem readFrameHeader_of_length {payload : Bytes} (hlen : walHeaderSize ≤ payload.length) :
    ∃ h p, readFrameHeader payload = some (h, p) := by
  have hsize : walHeaderSize = 21 := rfl
  have hfield : ∀ (width : ℕ) (bs : Bytes), width ≤ bs.length → ∃ n rest,
      readLe width bs = some (n, rest) ∧ rest.length = bs.length - width := by
    intro width bs hle
    refine ⟨leNat (bs.take width), bs.drop width, ?_, List.length_drop⟩
    rw [readLe, takeExact, if_pos hle]
    rfl
  obtain ⟨crc, p₁, h₁, hp₁⟩ := hfield 4 payload (by omega)
  obtain ⟨typeByte, p₂, h₂, hp₂⟩ := hfield 1 p₁ (by omega)
  obtain ⟨ts, p₃, h₃, hp₃⟩ := hfield 8 p₂ (by omega)
  obtain ⟨klen, p₄, h₄, hp₄⟩ := hfield 4 p₃ (by omega)
  obtain ⟨vlen, p₅, h₅, -⟩ := hfield 4 p₄ (by omega)
  refine ⟨⟨crc, typeByte, ts, klen, vlen⟩, p₅, ?_⟩
  simp only [readFrameHeader, h₁, h₂, h₃, h₄, h₅, Option.bind_eq_bind, Option.bind_some,
    Option.pure_def]

/-- The header of a frame. -/
def Frame.frameHeader (f : Frame) : FrameHeader :=
  ⟨f.crc.toNat, f.typeByte, f.ts, f.key.length, f.vlen⟩

/-- The bytes of a frame are its header, its key and its value. -/
theorem Frame.encode_eq_header (f : Frame) :
    f.encode = f.frameHeader.bytes ++ (f.key ++ f.val) := by
  have hbytes := f.encode_eq []
  rw [List.append_nil, List.append_nil] at hbytes
  rw [hbytes]
  simp only [FrameHeader.bytes, Frame.frameHeader, List.append_assoc]

/-- The header of a complete frame fits. -/
theorem Frame.Complete.fits {f : Frame} (h : f.Complete) : f.frameHeader.Fits := by
  constructor
  · have hlt := f.crc.toNat_lt
    unfold Frame.frameHeader
    simp only
    omega
  · exact h.typeByte_lt
  · exact h.ts_lt
  · exact h.key_lt
  · exact h.realVlen.2

/-! ## What the decoder does -/

/-- A default is returned, or there is a value. -/
theorem getD_eq_or_some {α : Type} (o : Option α) (d : α) : o.getD d = d ∨ ∃ x, o = some x := by
  cases o with
  | none => exact Or.inl rfl
  | some x => exact Or.inr ⟨x, rfl⟩

/-- The frame that a header announces, with its key and value taken from what follows. -/
def FrameHeader.frame (h : FrameHeader) (p : Bytes) : Frame :=
  ⟨h.typeByte, h.ts, h.vlen, p.take h.klen, (p.drop h.klen).take h.realVlen⟩

/-- It is at the front of the payload, in memory that may go on behind. -/
theorem FrameHeader.frame_heads {h : FrameHeader} {payload beyond p : Bytes}
    (hread : readFrameHeader (payload ++ beyond) = some (h, p))
    (hlen : walHeaderSize + h.klen + h.realVlen ≤ payload.length)
    (hcrc : (h.frame p).crc.toNat = h.crc) : (h.frame p).Heads payload := by
  obtain ⟨heq, hfits⟩ := readFrameHeader_eq_some hread
  have hbytes := h.length_bytes
  have hp : h.klen + h.realVlen ≤ p.length := by
    have htotal := congrArg List.length heq
    rw [List.length_append, List.length_append] at htotal
    omega
  have hkey : (h.frame p).key.length = h.klen := by
    rw [FrameHeader.frame, List.length_take]
    omega
  have hval : (h.frame p).val.length = h.realVlen := by
    rw [FrameHeader.frame, List.length_take, List.length_drop]
    omega
  constructor
  · constructor
    · exact hfits.typeByte
    · exact hfits.ts
    · rw [hkey]
      exact hfits.klen
    · have htomb : vlenTombstone = 4294967295 := rfl
      have hvlen := hfits.vlen
      have hreal : h.realVlen = if h.vlen = vlenTombstone then 0 else h.vlen := rfl
      have hframe : (h.frame p).vlen = h.vlen := rfl
      rw [hframe]
      split at hreal
      · rename_i hv
        left
        constructor
        · exact hv
        · exact List.eq_nil_of_length_eq_zero (hval.trans hreal)
      · right
        omega
  · refine ⟨payload.drop (walHeaderSize + (h.klen + h.realVlen)), ?_⟩
    have hheader : (h.frame p).frameHeader = h := by
      unfold Frame.frameHeader
      rw [hcrc, hkey]
      rfl
    have hencode : (h.frame p).encode =
        payload.take (walHeaderSize + (h.klen + h.realVlen)) := by
      have htake : (payload ++ beyond).take (walHeaderSize + (h.klen + h.realVlen)) =
          payload.take (walHeaderSize + (h.klen + h.realVlen)) :=
        List.take_append_of_le_length (by omega)
      rw [Frame.encode_eq_header, hheader, ← htake, heq, ← hbytes, List.take_length_add_append,
        List.take_add]
      rfl
    rw [hencode, List.take_append_drop]

/-- Nothing is applied unless there is one. -/
theorem applyWalRecord_cases (beyond payload : Bytes) (db : Db) :
    applyWalRecord beyond payload db = db ∨ ∃ f : Frame, f.Heads payload := by
  unfold applyWalRecord
  split
  · exact Or.inl rfl
  · refine (getD_eq_or_some _ _).imp_right fun ⟨db', happlied⟩ => ?_
    simp only [Option.bind_eq_bind, Option.bind_eq_some_iff, Prod.exists, Option.guard_eq_some',
      exists_const, Option.pure_def] at happlied
    obtain ⟨crc, p₁, h₁, typeByte, p₂, h₂, ts, p₃, h₃, klen, p₄, h₄, vlen, p₅, h₅, hlen, hcrc,
      -⟩ := happlied
    have hread : readFrameHeader (payload ++ beyond) =
        some (⟨crc, typeByte, ts, klen, vlen⟩, p₅) := by
      simp only [readFrameHeader, h₁, h₂, h₃, h₄, h₅, Option.bind_eq_bind, Option.bind_some,
        Option.pure_def]
    exact ⟨_, FrameHeader.frame_heads hread hlen hcrc⟩

/-- With a whole header all reads stay within the payload. -/
theorem applyWithin_of_header {payload p : Bytes} {h : FrameHeader}
    (hread : readFrameHeader payload = some (h, p)) (db : Db) : applyWithin payload db =
      some (if walHeaderSize + h.klen + h.realVlen ≤ payload.length ∧
        (h.frame p).crc.toNat = h.crc then applyFrame db (h.frame p) else db) := by
  have hsize : walHeaderSize = 21 := rfl
  obtain ⟨heq, -⟩ := readFrameHeader_eq_some hread
  have htotal := congrArg List.length heq
  rw [List.length_append, h.length_bytes] at htotal
  unfold applyWithin
  rw [if_neg (by omega), hread]
  simp only [Option.bind_eq_bind, Option.bind_some, Option.pure_def]
  split
  · rename_i hshort
    rw [if_neg fun hwhole => absurd hwhole.1 (Nat.not_le.mpr hshort)]
  · rename_i hwhole
    have hkey : h.klen ≤ p.length := by omega
    have hval : h.realVlen ≤ (p.drop h.klen).length := by
      rw [List.length_drop]
      omega
    have htakeKey : takeExact h.klen p = some (p.take h.klen, p.drop h.klen) := if_pos hkey
    have htakeVal : takeExact h.realVlen (p.drop h.klen) =
      some ((p.drop h.klen).take h.realVlen, (p.drop h.klen).drop h.realVlen) := if_pos hval
    have hframe : Frame.mk h.typeByte h.ts h.vlen (p.take h.klen)
      ((p.drop h.klen).take h.realVlen) = h.frame p := rfl
    change ((takeExact h.klen p).bind fun key => (takeExact h.realVlen key.2).bind _) = _
    rw [htakeKey, Option.bind_some, htakeVal, Option.bind_some]
    simp only [hframe, Nat.not_lt.mp hwhole, true_and]

/-- The decoder leaves the payload exactly if that ends within the last field of the header. -/
theorem applyWithin_isSome_iff (payload : Bytes) (db : Db) :
    (applyWithin payload db).isSome ↔ ¬ (17 ≤ payload.length ∧ payload.length < 21) := by
  have hsize : walHeaderSize = 21 := rfl
  by_cases hlen : walHeaderSize ≤ payload.length
  · obtain ⟨h, p, hread⟩ := readFrameHeader_of_length hlen
    rw [applyWithin_of_header hread]
    simp only [Option.isSome_some, true_iff]
    omega
  · unfold applyWithin
    split
    · simp only [Option.isSome_some, true_iff]
      omega
    · have hread : readFrameHeader payload = none := by
        rw [Option.eq_none_iff_forall_not_mem]
        rintro ⟨h, p⟩ hread
        have htotal := congrArg List.length (readFrameHeader_eq_some hread).1
        rw [List.length_append, h.length_bytes] at htotal
        omega
      rw [hread]
      simp only [Option.bind_eq_bind, Option.bind_none, Option.isSome_none, Bool.false_eq_true,
        false_iff]
      omega

/-- The header of the frame at the front is the header that is read. -/
theorem Frame.Heads.frameHeader {f : Frame} {payload : Bytes} (h : f.Heads payload) : ∃ p,
    readFrameHeader payload = some (f.frameHeader, p) ∧ f.frameHeader.frame p = f ∧
      walHeaderSize + f.frameHeader.klen + f.frameHeader.realVlen ≤ payload.length := by
  obtain ⟨hcomplete, rest, rfl⟩ := h
  have hreal : f.frameHeader.realVlen = f.val.length := hcomplete.realVlen.1
  have hklen : f.frameHeader.klen = f.key.length := rfl
  refine ⟨f.key ++ (f.val ++ rest), ?_, ?_, ?_⟩
  · rw [Frame.encode_eq_header, List.append_assoc, List.append_assoc,
      readFrameHeader_bytes hcomplete.fits]
  · rw [FrameHeader.frame, hklen, hreal, List.take_left, List.drop_left, List.take_left]
    rfl
  · rw [hreal, hklen, List.length_append, f.length_encode]
    exact Nat.le_add_right _ _

/-- Within the payload it does what it does in any memory. -/
theorem applyWithin_eq {payload : Bytes} {db db' : Db} (h : applyWithin payload db = some db')
    (beyond : Bytes) : applyWalRecord beyond payload db = db' := by
  rcases Nat.lt_or_ge payload.length 17 with hlen | hlen
  · unfold applyWithin at h
    rw [if_pos hlen] at h
    unfold applyWalRecord
    rw [if_pos hlen]
    exact Option.some.inj h
  · have hsome := (applyWithin_isSome_iff payload db).mp (by rw [h]; rfl)
    have hlong : walHeaderSize ≤ payload.length := by
      have hsize : walHeaderSize = 21 := rfl
      omega
    obtain ⟨header, p, hread⟩ := readFrameHeader_of_length hlong
    rw [applyWithin_of_header hread] at h
    split at h
    · rename_i hwhole
      rw [← Option.some.inj h]
      apply applyWalRecord_heads
      have hread' : readFrameHeader (payload ++ []) = some (header, p) := by
        rw [List.append_nil]
        exact hread
      exact FrameHeader.frame_heads hread' hwhole.1 hwhole.2
    · rename_i hnot
      rw [← Option.some.inj h]
      rcases applyWalRecord_cases beyond payload db with heq | ⟨f, hf⟩
      · exact heq
      · obtain ⟨p', hread', hframe, hfits⟩ := hf.frameHeader
        rw [hread', Option.some.injEq, Prod.mk.injEq] at hread
        obtain ⟨rfl, rfl⟩ := hread
        apply absurd _ hnot
        constructor
        · exact hfits
        · rw [hframe]
          rfl

/-! ## The effect of a record -/

/-- What the loop of `replay_segment` makes of a frame, with the value buffer allocated or not. -/
def replayFrame (sinceTs : ℕ) (valBuf : Bool) (f : Frame) (s : Stores) : Stores :=
  (replayLoop sinceTs walReplayCb f.encode.length f.encode valBuf s 0).2.1

section Effect

variable {f : Frame} {sinceTs : ℕ}

/-- A frame that is not read has no effect. -/
theorem replayFrame_unread (hread : readFrame f.encode = none) (valBuf : Bool) (s : Stores) :
    replayFrame sinceTs valBuf f s = s := by
  have hlen : f.encode.length = 20 + f.key.length + f.val.length + 1 := by
    rw [f.length_encode, walHeaderSize]
    omega
  rw [replayFrame, hlen, replayLoop, hread]

/-- A newer one is handed to the callback. -/
theorem replayFrame_valid (hf : f.Valid) (hsince : sinceTs < f.ts) (valBuf : Bool)
    (s : Stores) : replayFrame sinceTs valBuf f s =
      ((f.deliver (valBuf || !f.val.isEmpty)).map fun r => replayRecord r s).getD s := by
  have hlen : f.encode.length = 20 + f.key.length + f.val.length + 1 := by
    rw [f.length_encode, walHeaderSize]
    omega
  have hread := readFrame_encode f [] hf
  rw [List.append_nil] at hread
  have hnil : ∀ (n : ℕ) (valBuf : Bool) (s : Stores) (maxTs : ℕ),
      replayLoop sinceTs walReplayCb n [] valBuf s maxTs = (.ok, s, maxTs) := by
    intro n valBuf s maxTs
    cases n <;> rfl
  rw [replayFrame, hlen, replayLoop, hread]
  simp only
  rw [if_neg (Nat.not_le.mpr hsince)]
  cases f.deliver (valBuf || !f.val.isEmpty) with
  | none => simp only [hnil, Option.map_none, Option.getD_none]
  | some r => simp only [walReplayCb, hnil, Option.map_some, Option.getD_some]

/-- The table keeps an empty value as a null slice. -/
theorem htPut_congr {value value' : Slice} (h : sliceDup value = sliceDup value') (ht : Ht)
    (ts : ℕ) (key : Bytes) : htPut ht ts key value = htPut ht ts key value' := by
  simp only [htPut, htInsertVersion, newVersion, h]

/-- The value of a frame and the slice that recovery hands on are the same to the stores. -/
theorem Frame.slice_alike {f : Frame} {valBuf : Bool} (hbuf : valBuf = false → f.val = []) :
    sliceDup (if f.vlen = vlenTombstone then none else some f.val) = sliceDup (f.slice valBuf) ∧
      (if f.vlen = vlenTombstone then none else some f.val).getD [] =
        (f.slice valBuf).getD [] := by
  unfold Frame.slice
  split
  · exact ⟨rfl, rfl⟩
  · cases valBuf with
    | true => exact ⟨rfl, rfl⟩
    | false =>
      rw [hbuf rfl]
      exact ⟨rfl, rfl⟩

/-- A valid frame is applied as recovery applies it. -/
theorem applyFrame_replays (hf : f.Valid) (hsince : sinceTs < f.ts) (valBuf : Bool) (db : Db) :
    (applyFrame db f).stores = replayFrame sinceTs valBuf f db.stores := by
  have hbuf : (valBuf || !f.val.isEmpty) = false → f.val = [] := by simp
  obtain ⟨hdup, hget⟩ := Frame.slice_alike hbuf
  rw [replayFrame_valid hf hsince]
  unfold applyFrame Frame.deliver
  simp only
  split
  · simp only [Option.map_some, Option.getD_some, replayRecord, hget, Db.stores,
      htPut_congr hdup]
  · split
    · rfl
    · rfl

/-- A put or a deletion changes the table. -/
theorem applyFrame_changes
    (htype : f.typeByte = RecType.put.code ∨ f.typeByte = RecType.delete.code) (db : Db) :
    (applyFrame db f).stores ≠ db.stores := by
  have hinsert : ∀ value : Slice, htInsertVersion db.ht f.ts f.key value ≠ db.ht := by
    intro value heq
    have hversions := versions_htInsertVersion_self db.ht f.ts f.key value
    rw [heq] at hversions
    have hlen := congrArg List.length hversions
    rw [List.length_cons, length_sealLive] at hlen
    omega
  intro heq
  have hht : (applyFrame db f).ht = db.ht := congrArg Stores.ht heq
  unfold applyFrame at hht
  simp only at hht
  split at hht
  · exact hinsert _ hht
  · rename_i hput
    rw [if_pos (htype.resolve_left hput)] at hht
    exact hinsert _ hht

/-- Other types change no store. -/
theorem applyFrame_idle
    (htype : ¬ (f.typeByte = RecType.put.code ∨ f.typeByte = RecType.delete.code)) (db : Db) :
    (applyFrame db f).stores = db.stores := by
  rw [not_or] at htype
  unfold applyFrame
  simp only [htype.1, htype.2, if_false]
  rfl

/-- A plausible frame is valid. -/
theorem Frame.Complete.valid (h : f.Complete) (hkey : f.key.length ≤ maxKeyLen)
    (hval : f.val.length ≤ maxValLen) : f.Valid := by
  constructor
  · exact h.typeByte_lt
  · exact h.ts_lt
  · exact hkey
  · exact h.val_eq.imp_right fun hv => ⟨hv.1, hval⟩

/-- A frame with a longer value is not read. -/
theorem readFrame_long (h : f.Complete) (hval : maxValLen < f.val.length) :
    readFrame f.encode = none := by
  rw [Option.eq_none_iff_forall_not_mem]
  rintro ⟨g, rest⟩ hread
  obtain ⟨hg, heq⟩ := readFrame_sound _ _ _ hread
  have hheads : f.Heads f.encode := ⟨h, [], (List.append_nil _).symm⟩
  have hheads' : g.Heads f.encode := ⟨hg.complete, rest, heq⟩
  obtain ⟨p, hp, -⟩ := hheads.frameHeader
  obtain ⟨p', hp', -⟩ := hheads'.frameHeader
  rw [hp, Option.some.injEq, Prod.mk.injEq] at hp'
  have hvlen : f.vlen = g.vlen := congrArg FrameHeader.vlen hp'.1
  obtain ⟨hreal, -⟩ := h.realVlen
  obtain ⟨hreal', hle, -⟩ := hg.realVlen
  rw [hvlen] at hreal
  omega

end Effect

/-! ## Any payload -/

/-- What is asked of the decoder for a payload, and a timestamp that recovery starts from. -/
structure Decodes (sinceTs : ℕ) (payload : Bytes) (db : Db) : Prop where
  /-- Only the payload is read. -/
  within : ∃ db', applyWithin payload db = some db' ∧
    ∀ beyond, applyWalRecord beyond payload db = db'
  /-- Nothing changes unless a complete record with its checksum is at the front. -/
  changes : ∀ beyond, (¬ ∃ f : Frame, f.Heads payload) → applyWalRecord beyond payload db = db
  /-- A newer record with a plausible key is applied as recovery applies it. -/
  effect : ∀ f : Frame, f.Heads payload → f.key.length ≤ maxKeyLen → sinceTs < f.ts →
    ∀ beyond valBuf, (applyWalRecord beyond payload db).stores =
      replayFrame sinceTs valBuf f db.stores

/-- The decoder does that exactly for the payloads that do not end within the last field of the
header and do not begin with a newer put or deletion whose value is longer than values are. -/
theorem decodes_iff (sinceTs : ℕ) (payload : Bytes) (db : Db) :
    Decodes sinceTs payload db ↔
      ¬ (17 ≤ payload.length ∧ payload.length < 21) ∧
        ∀ f : Frame, f.Heads payload → f.key.length ≤ maxKeyLen → sinceTs < f.ts →
          f.typeByte = RecType.put.code ∨ f.typeByte = RecType.delete.code →
            f.val.length ≤ maxValLen := by
  constructor
  · intro h
    constructor
    · obtain ⟨db', hwithin, -⟩ := h.within
      apply (applyWithin_isSome_iff payload db).mp
      rw [hwithin]
      rfl
    · intro f hf hkey hsince htype
      by_contra hval
      have heffect := h.effect f hf hkey hsince [] false
      rw [applyWalRecord_heads hf, replayFrame_unread (readFrame_long hf.1 (not_le.mp hval))]
        at heffect
      exact applyFrame_changes htype db heffect
  · rintro ⟨hlen, hvalues⟩
    constructor
    · obtain ⟨db', hwithin⟩ := Option.isSome_iff_exists.mp
        ((applyWithin_isSome_iff payload db).mpr hlen)
      exact ⟨db', hwithin, applyWithin_eq hwithin⟩
    · intro beyond hnone
      exact (applyWalRecord_cases beyond payload db).resolve_right hnone
    · intro f hf hkey hsince beyond valBuf
      rw [applyWalRecord_heads hf]
      by_cases hval : f.val.length ≤ maxValLen
      · exact applyFrame_replays (hf.1.valid hkey hval) hsince valBuf db
      · have htype := fun htype => hval (hvalues f hf hkey hsince htype)
        rw [applyFrame_idle htype, replayFrame_unread (readFrame_long hf.1 (not_le.mp hval))]

/-- A payload of 17 bytes is read beyond its end. -/
theorem short_payload_overread : ¬ ∀ (sinceTs : ℕ) (payload : Bytes) (db : Db),
    1 ≤ payload.length → payload.length ≤ maxKeyLen + maxValLen + 32 →
      Decodes sinceTs payload db := by
  intro hall
  have hdecodes := hall 0 (List.replicate 17 0) newWorld.db (by decide) (by decide)
  obtain ⟨db', hwithin, -⟩ := hdecodes.within
  have hsome : (applyWithin (List.replicate 17 0) newWorld.db).isSome := by
    rw [hwithin]
    rfl
  exact (applyWithin_isSome_iff _ _).mp hsome (by decide)

end FastKV
