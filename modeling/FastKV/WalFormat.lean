import FastKV.Lib.Framed
import FastKV.Wal

/-!
# Reading a log back

The read loop of `replay_segment` accepts exactly the frames that the writer produces for
plausible records, so a segment is a log of self-delimiting frames. Replay is then a fold
of the callback over the records that the segments hold.
-/

namespace FastKV

open Lib

/-- The frames that the read loop accepts: every field fits its width, the lengths are
plausible and the value length field agrees with the value. -/
structure Frame.Valid (f : Frame) : Prop where
  /-- The type is one byte. -/
  typeByte_lt : f.typeByte < 256 ^ 1
  /-- The timestamp is a 64-bit number. -/
  ts_lt : f.ts < 256 ^ 8
  /-- The key is not too long. -/
  key_le : f.key.length ≤ maxKeyLen
  /-- The value is absent, or its length is stored and not too long. -/
  val_eq : f.vlen = vlenTombstone ∧ f.val = [] ∨ f.vlen = f.val.length ∧ f.val.length ≤ maxValLen

/-- The records that the engine logs: the API refuses longer keys and values. -/
structure Record.Valid (r : Record) : Prop where
  /-- The timestamp is a 64-bit number. -/
  ts_lt : r.ts < 2 ^ 64
  /-- `fastkv_txn_put` and `fastkv_txn_delete` check the key. -/
  key_le : r.key.length ≤ maxKeyLen
  /-- `fastkv_txn_put` checks the value. -/
  value_le : ∀ v ∈ r.value, v.length ≤ maxValLen

/-- The bytes that the checksum covers. -/
def Frame.covered (f : Frame) : Bytes := (f.header ++ [f.key, f.val]).flatten

/-- The checksum stands before the bytes that it covers. -/
theorem Frame.encode_eq_covered (f : Frame) : f.encode = leBytes 4 f.crc.toNat ++ f.covered := rfl

/-- The covered bytes, field by field. -/
theorem Frame.covered_eq (f : Frame) (rest : Bytes) :
    f.covered ++ rest = leBytes 1 f.typeByte ++ (leBytes 8 f.ts ++ (leBytes 4 f.key.length ++
      (leBytes 4 f.vlen ++ (f.key ++ (f.val ++ rest))))) := by
  simp [Frame.covered, Frame.header]

/-- The bytes of a frame, field by field. -/
theorem Frame.encode_eq (f : Frame) (rest : Bytes) :
    f.encode ++ rest = leBytes 4 f.crc.toNat ++ (leBytes 1 f.typeByte ++ (leBytes 8 f.ts ++
      (leBytes 4 f.key.length ++ (leBytes 4 f.vlen ++ (f.key ++ (f.val ++ rest)))))) := by
  rw [f.encode_eq_covered, List.append_assoc, f.covered_eq]

/-- A frame takes the header and the bytes of its key and value. -/
theorem Frame.length_encode (f : Frame) :
    f.encode.length = walHeaderSize + f.key.length + f.val.length := by
  have h := congrArg List.length (f.encode_eq [])
  simp only [List.append_nil, List.length_append, leBytes_length] at h
  rw [h, walHeaderSize]
  omega

/-- The number of value bytes that the length field announces. -/
theorem Frame.Valid.realVlen {f : Frame} (h : f.Valid) :
    (if f.vlen = vlenTombstone then 0 else f.vlen) = f.val.length ∧ f.val.length ≤ maxValLen ∧
      f.vlen < 256 ^ 4 := by
  have hmax : maxValLen = 67108864 := rfl
  have htomb : vlenTombstone = 4294967295 := rfl
  rcases h.val_eq with ⟨hv, hval⟩ | ⟨hv, hle⟩
  · simp [hv, hval, htomb]
  · have hne : f.vlen ≠ vlenTombstone := by omega
    rw [if_neg hne]
    exact ⟨hv, hle, by omega⟩

/-- The read loop reads a valid frame exactly if the stored checksum is that of the frame. -/
theorem readFrame_stored {f : Frame} (h : f.Valid) {storedCrc : ℕ} (hcrc : storedCrc < 256 ^ 4)
    (rest : Bytes) : readFrame (leBytes 4 storedCrc ++ (f.covered ++ rest)) =
      if f.crc.toNat = storedCrc then some (f, rest) else none := by
  obtain ⟨hreal, hval, hvlen⟩ := h.realVlen
  have hkey := h.key_le
  have hklen : f.key.length < 256 ^ 4 := by
    have hmax : maxKeyLen = 4096 := rfl
    omega
  rw [Frame.covered_eq, readFrame]
  simp only [readLe_leBytes _ hcrc, readLe_leBytes _ h.typeByte_lt, readLe_leBytes _ h.ts_lt,
    readLe_leBytes _ hklen, readLe_leBytes _ hvlen, Option.bind_eq_bind, Option.bind_some, guard,
    hkey, hreal, hval, if_true, takeExact_append, Option.pure_def]
  by_cases heq : f.crc.toNat = storedCrc
  · rw [if_pos heq, if_pos heq]
    rfl
  · rw [if_neg heq, if_neg heq]
    rfl

/-- The read loop reads a valid frame back. -/
theorem readFrame_encode (f : Frame) (rest : Bytes) (h : f.Valid) :
    readFrame (f.encode ++ rest) = some (f, rest) := by
  have hcrc : f.crc.toNat < 256 ^ 4 := by
    have := f.crc.toNat_lt
    omega
  rw [f.encode_eq_covered, List.append_assoc, readFrame_stored h hcrc, if_pos rfl]

/-- Whatever the read loop accepts is a valid frame that stood at the front. -/
theorem readFrame_sound (bs : Bytes) (f : Frame) (rest : Bytes)
    (h : readFrame bs = some (f, rest)) : f.Valid ∧ bs = f.encode ++ rest := by
  simp only [readFrame, Option.bind_eq_bind, Option.bind_eq_some_iff, Prod.exists,
    Option.guard_eq_some', exists_const, Option.pure_def] at h
  obtain ⟨crc, bs₁, h₁, typeByte, bs₂, h₂, ts, bs₃, h₃, klen, bs₄, h₄, vlen, bs₅, h₅, hklen,
    hvlen, key, bs₆, h₆, val, bs₇, h₇, hcrc, heq⟩ := h
  simp only [Option.some.injEq, Prod.mk.injEq] at heq
  obtain ⟨rfl, rfl⟩ := heq
  obtain ⟨rfl, -⟩ := readLe_eq_some h₁
  obtain ⟨rfl, htype⟩ := readLe_eq_some h₂
  obtain ⟨rfl, hts⟩ := readLe_eq_some h₃
  obtain ⟨rfl, -⟩ := readLe_eq_some h₄
  obtain ⟨rfl, -⟩ := readLe_eq_some h₅
  obtain ⟨rfl, hkey⟩ := takeExact_eq_some h₆
  obtain ⟨rfl, hval⟩ := takeExact_eq_some h₇
  refine ⟨⟨htype, hts, by simpa [hkey] using hklen, ?_⟩, ?_⟩
  · by_cases ht : vlen = vlenTombstone
    · rw [if_pos ht] at hval
      exact Or.inl ⟨ht, List.eq_nil_of_length_eq_zero hval⟩
    · rw [if_neg ht] at hval hvlen
      exact Or.inr ⟨hval.symm, by rw [hval]; exact hvlen⟩
  · rw [Frame.encode_eq]
    simp only [hcrc, hkey]

/-- Segments are logs of frames. -/
def frameFormat : Format UInt8 Frame where
  encode := Frame.encode
  decode := readFrame
  Valid := Frame.Valid
  encode_ne_nil f h := by
    have hlen := f.length_encode
    rw [h] at hlen
    simp [walHeaderSize] at hlen
    omega
  decode_encode := readFrame_encode
  decode_sound := readFrame_sound

/-- A record that the engine logs can be read back. -/
theorem Record.Valid.frame {r : Record} (h : r.Valid) : r.frame.Valid where
  typeByte_lt := by cases hr : r.type <;> simp [Record.frame, hr, RecType.code]
  ts_lt := by simpa [Record.frame] using h.ts_lt
  key_le := h.key_le
  val_eq := by
    cases hv : r.value with
    | none => exact Or.inl (by simp [Record.frame, hv])
    | some v => exact Or.inr (by simpa [Record.frame, hv] using h.value_le v hv)

/-- The bytes of a sequence of records. -/
def encodeRecords (rs : List Record) : Bytes := frameFormat.encodeAll (rs.map Record.frame)

@[simp] theorem encodeRecords_nil : encodeRecords [] = [] := rfl

@[simp] theorem encodeRecords_append (rs rs' : List Record) :
    encodeRecords (rs ++ rs') = encodeRecords rs ++ encodeRecords rs' := by
  simp [encodeRecords]

@[simp] theorem encodeRecords_cons (r : Record) (rs : List Record) :
    encodeRecords (r :: rs) = r.frame.encode ++ encodeRecords rs := rfl

/-- The frames of valid records are valid. -/
theorem frames_valid {rs : List Record} (h : ∀ r ∈ rs, r.Valid) :
    ∀ f ∈ rs.map Record.frame, frameFormat.Valid f := by
  intro f hf
  obtain ⟨r, hr, rfl⟩ := List.mem_map.mp hf
  exact (h r hr).frame

/-! ## What replay delivers -/

/-- The records that the loop hands to its callback, for the frames it reads. -/
def deliveries (sinceTs : ℕ) : Bool → List Frame → List Record
  | _, [] => []
  | valBuf, f :: fs =>
    let valBuf := valBuf || !f.val.isEmpty
    if f.ts ≤ sinceTs then deliveries sinceTs valBuf fs
    else (f.deliver valBuf).toList ++ deliveries sinceTs valBuf fs

/-- The records handed to the callback for one segment. -/
def segmentDeliveries (sinceTs : ℕ) (files : Files) (id : Name) : List Record :=
  match files.lookup (segName id) with
  | none => []
  | some bs => deliveries sinceTs false (frameFormat.scan bs)

/-- The largest timestamp in one segment, and the given one. -/
def segmentMaxTs (files : Files) (maxTs : ℕ) (id : Name) : ℕ :=
  match files.lookup (segName id) with
  | none => maxTs
  | some bs => (frameFormat.scan bs).foldl (fun m f => max m f.ts) maxTs

/-- What a record says, slices compared by their bytes as `slice_eq` does. -/
def Record.content (r : Record) : RecType × ℕ × Bytes × Bytes :=
  (r.type, r.ts, r.key, r.value.getD [])

/-- The records that replay is meant to hand on: newer than `sinceTs` and of a type the
callback gets. -/
def Record.wanted (sinceTs : ℕ) (r : Record) : Bool :=
  decide (sinceTs < r.ts) && (decide (r.type = .put) || decide (r.type = .delete))

/-- A valid record is delivered with its content exactly if its type is handed on. -/
theorem Record.Valid.deliver_content {r : Record} (h : r.Valid) {valBuf : Bool}
    (hbuf : valBuf = false → r.frame.val = []) :
    (r.frame.deliver valBuf).toList.map Record.content =
      if r.type = .put ∨ r.type = .delete then [r.content] else [] := by
  have hvalue : (r.frame.slice valBuf).getD [] = r.value.getD [] := by
    unfold Frame.slice
    rcases h.frame.val_eq with ⟨hv, hval⟩ | ⟨hv, -⟩
    · rw [if_pos hv, Option.getD_none]
      exact hval.symm
    · split
      · rename_i ht
        have hreal := h.frame.realVlen.1
        rw [if_pos ht] at hreal
        rw [Option.getD_none]
        exact (List.eq_nil_of_length_eq_zero hreal.symm).symm
      · cases valBuf with
        | false => exact (hbuf rfl).symm
        | true => rfl
  unfold Frame.deliver
  have htype : r.frame.typeByte = r.type.code := rfl
  have hts : r.frame.ts = r.ts := rfl
  have hkey : r.frame.key = r.key := rfl
  cases hr : r.type <;> simp [Record.content, RecType.code, htype, hts, hkey, hr, hvalue]

/-- From valid records replay delivers the contents of the wanted ones, in order. -/
theorem deliveries_content {rs : List Record} (h : ∀ r ∈ rs, r.Valid) (sinceTs : ℕ)
    (valBuf : Bool) :
    (deliveries sinceTs valBuf (rs.map Record.frame)).map Record.content =
      (rs.filter (Record.wanted sinceTs)).map Record.content := by
  induction rs generalizing valBuf with
  | nil => rfl
  | cons r rs ih =>
    have hr : r.Valid := h r (by simp)
    have hrest := ih fun r' hr' => h r' (by simp [hr'])
    have hts : r.frame.ts = r.ts := rfl
    simp only [List.map_cons, deliveries, List.filter_cons, Record.wanted, hts]
    by_cases hsince : r.ts ≤ sinceTs
    · have hnot : ¬ sinceTs < r.ts := by omega
      simp only [if_pos hsince, hrest, hnot, decide_false, Bool.false_and, Bool.false_eq_true,
        if_false]
    · have hlt : sinceTs < r.ts := by omega
      have hbuf : (valBuf || !r.frame.val.isEmpty) = false → r.frame.val = [] := by simp
      simp only [if_neg hsince, List.map_append, hrest, hr.deliver_content hbuf, hlt, decide_true,
        Bool.true_and, Bool.or_eq_true, decide_eq_true_eq]
      by_cases htype : r.type = .put ∨ r.type = .delete
      · simp only [if_pos htype, List.map_cons, List.singleton_append]
      · simp only [if_neg htype, List.nil_append]

section Replay

variable {σ : Type} (sinceTs : ℕ) (step : Record → σ → σ)

/-- With a callback that never fails, the loop folds it over the deliveries. -/
theorem replayLoop_eq (fuel : ℕ) : ∀ (bs : Bytes) (valBuf : Bool) (s : σ) (maxTs : ℕ),
    replayLoop sinceTs (fun r s => (.ok, step r s)) fuel bs valBuf s maxTs =
      (.ok, (deliveries sinceTs valBuf (frameFormat.scanFuel fuel bs)).foldl (fun s r =>
        step r s) s, (frameFormat.scanFuel fuel bs).foldl (fun m f => max m f.ts) maxTs) := by
  induction fuel with
  | zero => exact fun _ _ _ _ => rfl
  | succ fuel ih =>
    intro bs valBuf s maxTs
    have hdec : frameFormat.decode bs = readFrame bs := rfl
    unfold replayLoop Format.scanFuel
    rw [hdec]
    cases readFrame bs with
    | none => rfl
    | some r =>
      obtain ⟨f, rest⟩ := r
      simp only [deliveries, List.foldl_cons]
      by_cases hts : f.ts ≤ sinceTs
      · simp only [if_pos hts, ih]
      · simp only [if_neg hts]
        cases f.deliver (valBuf || !f.val.isEmpty) with
        | none => simp only [ih, Option.toList_none, List.nil_append]
        | some r => simp only [ih, Option.toList_some, List.singleton_append, List.foldl_cons]

/-- The segment loop folds the callback over the deliveries of all segments. -/
theorem replaySegments_eq (files : Files) (ids : List Name) : ∀ (s : σ) (maxTs : ℕ),
    replaySegments sinceTs (fun r s => (.ok, step r s)) files ids s maxTs =
      (.ok, (ids.flatMap (segmentDeliveries sinceTs files)).foldl (fun s r => step r s) s,
        ids.foldl (segmentMaxTs files) maxTs) := by
  induction ids with
  | nil => exact fun _ _ => rfl
  | cons id ids ih =>
    intro s maxTs
    unfold replaySegments replaySegment
    simp only [List.flatMap_cons, List.foldl_append, List.foldl_cons, segmentDeliveries,
      segmentMaxTs]
    cases files.lookup (segName id) with
    | none => simp only [ih, List.foldl_nil]
    | some bs => simp only [replayLoop_eq, ih]; rfl

/-- Everything that replay delivers from a directory. -/
def replayed (sinceTs : ℕ) (files : Files) : List Record :=
  (collectSegments files).flatMap (segmentDeliveries sinceTs files)

/-- A delivered record was read as one of the frames. -/
theorem exists_frame_of_mem_deliveries {sinceTs : ℕ} {fs : List Frame} {valBuf : Bool} {r : Record}
    (h : r ∈ deliveries sinceTs valBuf fs) : ∃ f ∈ fs, ∃ valBuf', f.deliver valBuf' = some r := by
  induction fs generalizing valBuf with
  | nil => cases h
  | cons f fs ih =>
    simp only [deliveries] at h
    split at h
    · obtain ⟨g, hg, hdel⟩ := ih h
      exact ⟨g, by simp [hg], hdel⟩
    · rcases List.mem_append.mp h with hhead | htail
      · exact ⟨f, by simp, _, Option.mem_toList.mp hhead⟩
      · obtain ⟨g, hg, hdel⟩ := ih htail
        exact ⟨g, by simp [hg], hdel⟩

/-- A record is delivered with the timestamp of its frame. -/
theorem Frame.ts_of_deliver {f : Frame} {valBuf : Bool} {r : Record}
    (h : f.deliver valBuf = some r) : r.ts = f.ts := by
  unfold Frame.deliver at h
  split at h
  · rw [← Option.some.inj h]
  · split at h
    · rw [← Option.some.inj h]
    · cases h

/-- The largest timestamp of some frames is not smaller than any of them. -/
theorem le_foldl_maxTs (fs : List Frame) : ∀ m : ℕ,
    m ≤ fs.foldl (fun m f => max m f.ts) m ∧
      ∀ f ∈ fs, f.ts ≤ fs.foldl (fun m f => max m f.ts) m := by
  induction fs with
  | nil => exact fun m => ⟨Nat.le_refl m, fun _ h => absurd h List.not_mem_nil⟩
  | cons g fs ih =>
    intro m
    obtain ⟨hm, hfs⟩ := ih (max m g.ts)
    rw [List.foldl_cons]
    refine ⟨(Nat.le_max_left _ _).trans hm, fun f hf => ?_⟩
    rcases List.mem_cons.mp hf with rfl | hf
    · exact (Nat.le_max_right _ _).trans hm
    · exact hfs f hf

/-- The timestamp that replay reports is not smaller than any it delivers. -/
theorem le_foldl_segmentMaxTs {sinceTs : ℕ} (files : Files) (ids : List Name) : ∀ m : ℕ,
    m ≤ ids.foldl (segmentMaxTs files) m ∧
      ∀ r ∈ ids.flatMap (segmentDeliveries sinceTs files),
        r.ts ≤ ids.foldl (segmentMaxTs files) m := by
  induction ids with
  | nil => exact fun m => ⟨Nat.le_refl m, fun _ h => absurd h List.not_mem_nil⟩
  | cons id ids ih =>
    intro m
    obtain ⟨hm, hrest⟩ := ih (segmentMaxTs files m id)
    have hseg : m ≤ segmentMaxTs files m id ∧
        ∀ r ∈ segmentDeliveries sinceTs files id, r.ts ≤ segmentMaxTs files m id := by
      unfold segmentMaxTs segmentDeliveries
      cases files.lookup (segName id) with
      | none => exact ⟨Nat.le_refl m, fun _ h => absurd h List.not_mem_nil⟩
      | some bs =>
        obtain ⟨hle, hall⟩ := le_foldl_maxTs (frameFormat.scan bs) m
        refine ⟨hle, fun r hr => ?_⟩
        obtain ⟨f, hf, valBuf, hdeliver⟩ := exists_frame_of_mem_deliveries hr
        rw [f.ts_of_deliver hdeliver]
        exact hall f hf
    rw [List.foldl_cons]
    refine ⟨hseg.1.trans hm, fun r hr => ?_⟩
    rw [List.flatMap_cons] at hr
    rcases List.mem_append.mp hr with hr | hr
    · exact (hseg.2 r hr).trans hm
    · exact hrest r hr

/-- Replay with a callback that never fails is a fold over what it delivers. -/
theorem walReplay_eq (files : Files) (s : σ) (maxTsOut : ℕ) :
    ∃ maxTs, walReplay sinceTs (fun r s => (.ok, step r s)) files s maxTsOut =
      (.ok, (replayed sinceTs files).foldl (fun s r => step r s) s, maxTs) ∧
        ∀ r ∈ replayed sinceTs files, r.ts ≤ maxTs := by
  unfold walReplay replayed
  cases hids : collectSegments files with
  | nil => exact ⟨maxTsOut, rfl, fun _ h => absurd h List.not_mem_nil⟩
  | cons id ids =>
    exact ⟨_, replaySegments_eq sinceTs step files (id :: ids) s sinceTs,
      (le_foldl_segmentMaxTs files (id :: ids) sinceTs).2⟩

end Replay

end FastKV
