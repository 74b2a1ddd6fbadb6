import FastKV.Crc32
import FastKV.WalFormat

/-!
# Damaged records

Bits of a stored record can change on the medium. The checksum of a record is a remainder
modulo the Castagnoli polynomial, taken field by field over everything behind the checksum.
A change inside a window of 32 bits that leaves the two length fields alone is noticed, and
replay stops in front of the record.
-/

namespace FastKV

open Lib

/-! ## The checksum of a frame -/

/-- The checksum of a frame is that of its covered bytes. -/
theorem Frame.crc_eq (f : Frame) : f.crc = crc32c 0 f.covered := foldl_crc32c _ 0

/-- Frames whose covered bytes differ inside a window of 32 bits have different checksums. -/
theorem Frame.crc_ne {f g : Frame} (hlen : g.covered.length = f.covered.length)
    (hne : g.covered ≠ f.covered) {start : ℕ}
    (h : ∀ i, bitAt g.covered i ≠ bitAt f.covered i → start ≤ i ∧ i < start + 32) :
    g.crc ≠ f.crc := by
  obtain ⟨burst, hburst, hlt, hpos⟩ := exists_burst hlen hne h
  rw [g.crc_eq, f.crc_eq]
  exact crc32c_ne (residue_ne castagnoli_width hlen hburst hlt hpos _)

/-! ## Damage -/

/-- The parts of a stored record, as ranges of bits: the checksum, the type and the timestamp,
the key and the value. The length fields lie between the last two. -/
def Frame.parts (f : Frame) : List (ℕ × ℕ) :=
  [(0, 8 * 4), (8 * 4, 8 * 13), (8 * walHeaderSize, 8 * f.encode.length)]

/-- The bytes of the frame, changed only inside a window of at most 32 bits of one part. Bits
count from the least significant one of each byte, as the checksum takes them. -/
structure Frame.Damaged (f : Frame) (d : Bytes) : Prop where
  /-- No byte is lost or added. -/
  length : d.length = f.encode.length
  /-- A bit is changed. -/
  ne : d ≠ f.encode
  /-- The changed bits lie in a window. -/
  window : ∃ part ∈ f.parts, ∃ start width, width ≤ 32 ∧ part.1 ≤ start ∧
    start + width ≤ part.2 ∧ ∀ i, bitAt d i ≠ bitAt f.encode i → start ≤ i ∧ i < start + width

/-- Where the bits agree the bytes do. -/
theorem take_drop_eq {bs bs' : Bytes} (hlen : bs.length = bs'.length) (lo n : ℕ)
    (h : ∀ i, 8 * lo ≤ i → i < 8 * (lo + n) → bitAt bs i = bitAt bs' i) :
    (bs.drop lo).take n = (bs'.drop lo).take n := by
  apply eq_of_bitAt_eq
  · rw [List.length_take, List.length_take, List.length_drop, List.length_drop, hlen]
  · intro i
    by_cases hi : i < 8 * n
    · rw [bitAt_take _ hi, bitAt_take _ hi, bitAt_drop, bitAt_drop]
      exact h _ (by omega) (by omega)
    · have hshort : ∀ bs : Bytes, bitAt ((bs.drop lo).take n) i = false := by
        intro bs
        apply bitAt_of_length_le
        have := List.length_take_le n (bs.drop lo)
        omega
      rw [hshort, hshort]

/-- The covered bytes behind the length fields. -/
theorem Frame.length_covered (f : Frame) :
    f.covered.length = 17 + f.key.length + f.val.length := by
  have h := congrArg List.length (f.covered_eq [])
  simp only [List.append_nil, List.length_append, leBytes_length] at h
  omega

/-- The length fields among the covered bytes. -/
theorem Frame.lengths_covered (f : Frame) :
    (f.covered.drop 9).take 8 = leBytes 4 f.key.length ++ leBytes 4 f.vlen := by
  have hcovered : f.covered = (leBytes 1 f.typeByte ++ leBytes 8 f.ts) ++
      ((leBytes 4 f.key.length ++ leBytes 4 f.vlen) ++ (f.key ++ f.val)) := by
    have h := f.covered_eq []
    simp only [List.append_nil] at h
    rw [h]
    simp only [List.append_assoc]
  have hfront : (leBytes 1 f.typeByte ++ leBytes 8 f.ts).length = 9 := by simp
  have hmid : (leBytes 4 f.key.length ++ leBytes 4 f.vlen).length = 8 := by simp
  rw [hcovered, ← hfront, List.drop_left, ← hmid, List.take_left]

/-- Bytes with the length fields of a valid frame are those of a valid frame. -/
theorem Frame.Valid.exists_covered {f : Frame} (h : f.Valid) {body : Bytes}
    (hlen : body.length = f.covered.length)
    (hfields : (body.drop 9).take 8 = (f.covered.drop 9).take 8) :
    ∃ g : Frame, g.Valid ∧ g.covered = body := by
  have hlength := f.length_covered
  have hkey : ((body.drop 17).take f.key.length).length = f.key.length := by
    rw [List.length_take, List.length_drop]
    omega
  have hval : ((body.drop 17).drop f.key.length).length = f.val.length := by
    rw [List.length_drop, List.length_drop]
    omega
  have htype : (body.take 1).length = 1 := by
    rw [List.length_take]
    omega
  have hts : ((body.drop 1).take 8).length = 8 := by
    rw [List.length_take, List.length_drop]
    omega
  have htype_lt := leNat_lt (body.take 1)
  have hts_lt := leNat_lt ((body.drop 1).take 8)
  rw [htype] at htype_lt
  rw [hts] at hts_lt
  refine ⟨⟨leNat (body.take 1), leNat ((body.drop 1).take 8), f.vlen,
    (body.drop 17).take f.key.length, (body.drop 17).drop f.key.length⟩,
    ⟨htype_lt, hts_lt, ?_, ?_⟩, ?_⟩
  · rw [hkey]
    exact h.key_le
  · rw [hval]
    rcases h.val_eq with ⟨htomb, hnil⟩ | hstored
    · refine Or.inl ⟨htomb, List.eq_nil_of_length_eq_zero ?_⟩
      rw [hval, hnil, List.length_nil]
    · exact Or.inr hstored
  · have hsplit : body = body.take 1 ++ ((body.drop 1).take 8 ++ ((body.drop 9).take 8 ++
        ((body.drop 17).take f.key.length ++ (body.drop 17).drop f.key.length))) := by
      have h₁ := List.take_append_drop 1 body
      have h₂ := List.take_append_drop 8 (body.drop 1)
      have h₃ := List.take_append_drop 8 (body.drop 9)
      simp only [List.drop_drop] at h₂ h₃
      rw [List.take_append_drop, h₃, h₂, h₁]
    have hbytes₁ := leBytes_leNat (body.take 1)
    have hbytes₈ := leBytes_leNat ((body.drop 1).take 8)
    rw [htype] at hbytes₁
    rw [hts] at hbytes₈
    conv_rhs => rw [hsplit, hfields, f.lengths_covered]
    have hcovered := Frame.covered_eq ⟨leNat (body.take 1), leNat ((body.drop 1).take 8), f.vlen,
      (body.drop 17).take f.key.length, (body.drop 17).drop f.key.length⟩ []
    simp only [List.append_nil, hbytes₁, hbytes₈, hkey] at hcovered
    rw [hcovered, List.append_assoc]

/-- The covered bytes are those behind the checksum. -/
theorem Frame.drop_encode (f : Frame) : f.encode.drop 4 = f.covered := by
  rw [f.encode_eq_covered]
  exact List.drop_left' (leBytes_length 4 _)

/-- The checksum stands in the first bytes. -/
theorem Frame.take_encode (f : Frame) : f.encode.take 4 = leBytes 4 f.crc.toNat := by
  rw [f.encode_eq_covered]
  exact List.take_left' (leBytes_length 4 _)

/-- In a damaged record the bits outside a window are those of the record. The window lies in the
checksum, or in the covered bytes and off the length fields. -/
theorem Frame.Damaged.exists_window {f : Frame} {d : Bytes} (h : f.Damaged d) :
    ∃ start stop, stop ≤ start + 32 ∧
      (stop ≤ 8 * 4 ∨ 8 * 4 ≤ start ∧ (stop ≤ 8 * 13 ∨ 8 * 21 ≤ start)) ∧
      ∀ i, ¬ (start ≤ i ∧ i < stop) → bitAt d i = bitAt f.encode i := by
  obtain ⟨part, hpart, start, width, hwidth, hlo, hhi, hbits⟩ := h.window
  refine ⟨start, start + width, by omega, ?_, fun i hi => ?_⟩
  · have hsize : walHeaderSize = 21 := rfl
    simp only [Frame.parts, List.mem_cons, List.not_mem_nil, or_false] at hpart
    rcases hpart with rfl | rfl | rfl
    · exact Or.inl hhi
    · exact Or.inr ⟨hlo, Or.inl hhi⟩
    · rw [hsize] at hlo
      exact Or.inr ⟨by omega, Or.inr hlo⟩
  · by_contra hne
    exact hi (hbits i hne)

/-- Either the covered bytes are intact, or the stored checksum and the length fields are, and the
covered bytes differ in a short window. -/
theorem Frame.Damaged.sides {f : Frame} {d : Bytes} (h : f.Damaged d) :
    d.drop 4 = f.covered ∨
      d.take 4 = leBytes 4 f.crc.toNat ∧
        ((d.drop 4).drop 9).take 8 = (f.covered.drop 9).take 8 ∧
        ∃ start, ∀ i, bitAt (d.drop 4) i ≠ bitAt f.covered i → start ≤ i ∧ i < start + 32 := by
  obtain ⟨start, stop, hstop, hcrc | ⟨hbehind, hfields⟩, hsame⟩ := h.exists_window
  · left
    rw [← f.drop_encode]
    apply eq_of_bitAt_eq
    · rw [List.length_drop, List.length_drop, h.length]
    · intro i
      rw [bitAt_drop, bitAt_drop]
      exact hsame _ (by omega)
  · right
    refine ⟨?_, ?_, start - 8 * 4, fun i hi => ?_⟩
    · rw [← f.take_encode]
      exact take_drop_eq h.length 0 4 fun i _ hi => hsame i (by omega)
    · rw [← f.drop_encode, List.drop_drop, List.drop_drop]
      exact take_drop_eq h.length 13 8 fun i hi hi' => hsame i (by omega)
    · rw [← f.drop_encode, bitAt_drop, bitAt_drop] at hi
      have hin := not_imp_comm.mp (hsame _) hi
      omega

/-- A damaged record is a stored checksum and the covered bytes of a valid frame that has
another checksum. -/
theorem Frame.Damaged.mismatch {f : Frame} {d : Bytes} (h : f.Damaged d) (hf : f.Valid) :
    ∃ g : Frame, g.Valid ∧ ∃ storedCrc, storedCrc < 256 ^ 4 ∧ g.crc.toNat ≠ storedCrc ∧
      d = leBytes 4 storedCrc ++ g.covered := by
  rcases h.sides with htail | ⟨hhead, hfields, start, hwindow⟩
  · -- the stored checksum is not that of the frame
    have hfour : (d.take 4).length = 4 := by
      have hlen := f.length_encode
      have hsize : walHeaderSize = 21 := rfl
      have hdlen := h.length
      rw [List.length_take]
      omega
    have hstored := leBytes_leNat (d.take 4)
    have hlt := leNat_lt (d.take 4)
    rw [hfour] at hstored hlt
    refine ⟨f, hf, leNat (d.take 4), hlt, fun heq => h.ne ?_, ?_⟩
    · rw [← List.take_append_drop 4 d, ← hstored, ← heq, htail, f.encode_eq_covered]
    · rw [hstored, ← htail, List.take_append_drop]
  · -- the covered bytes are those of another frame
    have hdrop : (d.drop 4).length = f.covered.length := by
      rw [← f.drop_encode, List.length_drop, List.length_drop, h.length]
    obtain ⟨g, hg, hbody⟩ := hf.exists_covered hdrop hfields
    have hd : d = leBytes 4 f.crc.toNat ++ g.covered := by
      rw [hbody, ← hhead, List.take_append_drop]
    have hne : g.covered ≠ f.covered := by
      intro hcov
      apply h.ne
      rw [hd, hcov, f.encode_eq_covered]
    have hlt : f.crc.toNat < 256 ^ 4 := by
      have := f.crc.toNat_lt
      omega
    rw [← hbody] at hdrop hwindow
    exact ⟨g, hg, f.crc.toNat, hlt,
      fun heq => Frame.crc_ne hdrop hne hwindow (UInt32.toNat_inj.mp heq), hd⟩

/-- A damaged record is not read. -/
theorem Frame.Damaged.readFrame {f : Frame} {d : Bytes} (h : f.Damaged d) (hf : f.Valid)
    (rest : Bytes) : readFrame (d ++ rest) = none := by
  obtain ⟨g, hg, storedCrc, hlt, hne, rfl⟩ := h.mismatch hf
  rw [List.append_assoc, readFrame_stored hg hlt, if_neg hne]

/-! ## Replay -/

/-- There are not more frames than bytes. -/
theorem length_le_encodeAll (fs : List Frame) : fs.length ≤ (frameFormat.encodeAll fs).length := by
  induction fs with
  | nil => exact Nat.le_refl 0
  | cons f fs ih =>
    have hpos : 0 < (frameFormat.encode f).length := Format.encode_pos f
    rw [Format.encodeAll_cons, List.length_append, List.length_cons]
    omega

section Replay

variable {σ : Type} {pre : List Frame} (hpre : ∀ g ∈ pre, g.Valid) {tail : Bytes}
  (htail : readFrame tail = none)
include hpre htail

/-- With every callback the loop ends at bytes from which no frame is read. -/
theorem replayLoop_tail (sinceTs : ℕ) (fn : Record → σ → Err × σ) :
    ∀ (fuel fuel' : ℕ) (valBuf : Bool) (s : σ) (maxTs : ℕ), pre.length ≤ fuel → pre.length ≤ fuel' →
      replayLoop sinceTs fn fuel (frameFormat.encodeAll pre ++ tail) valBuf s maxTs =
        replayLoop sinceTs fn fuel' (frameFormat.encodeAll pre) valBuf s maxTs := by
  have hstop : ∀ bs, readFrame bs = none → ∀ (fuel : ℕ) (valBuf : Bool) (s : σ) (maxTs : ℕ),
      replayLoop sinceTs fn fuel bs valBuf s maxTs = (.ok, s, maxTs) := by
    intro bs hbs fuel valBuf s maxTs
    cases fuel with
    | zero => rfl
    | succ fuel => rw [replayLoop, hbs]
  induction pre with
  | nil =>
    intro fuel fuel' valBuf s maxTs _ _
    rw [Format.encodeAll_nil, List.nil_append, hstop tail htail,
      hstop [] (frameFormat.decode_nil)]
  | cons f fs ih =>
    intro fuel fuel' valBuf s maxTs hfuel hfuel'
    rw [List.length_cons] at hfuel hfuel'
    obtain ⟨n, rfl⟩ : ∃ n, fuel = n + 1 := ⟨fuel - 1, by omega⟩
    obtain ⟨n', rfl⟩ : ∃ n', fuel' = n' + 1 := ⟨fuel' - 1, by omega⟩
    have hf : f.Valid := hpre f List.mem_cons_self
    have hgo := ih (fun g hg => hpre g (List.mem_cons_of_mem f hg)) n n'
    have hread : ∀ rest, readFrame (frameFormat.encode f ++ rest) = some (f, rest) :=
      fun rest => readFrame_encode f rest hf
    rw [Format.encodeAll_cons, List.append_assoc, replayLoop, replayLoop, hread, hread]
    simp only
    by_cases hts : f.ts ≤ sinceTs
    · rw [if_pos hts, if_pos hts]
      exact hgo _ _ _ (by omega) (by omega)
    · rw [if_neg hts, if_neg hts]
      cases f.deliver (valBuf || !f.val.isEmpty) with
      | none => exact hgo _ _ _ (by omega) (by omega)
      | some r =>
        simp only
        split
        · exact hgo _ _ _ (by omega) (by omega)
        · rfl

/-- A segment is replayed up to bytes from which no frame is read. -/
theorem replaySegment_tail {files : Files} {id : Name}
    (hfile : files.lookup (segName id) = some (frameFormat.encodeAll pre ++ tail)) (sinceTs : ℕ)
    (fn : Record → σ → Err × σ) (s : σ) (maxTs : ℕ) :
    replaySegment sinceTs fn files id s maxTs =
      replayLoop sinceTs fn pre.length (frameFormat.encodeAll pre) false s maxTs := by
  have hlen := length_le_encodeAll pre
  rw [replaySegment, hfile]
  apply replayLoop_tail hpre htail
  · rw [List.length_append]
    omega
  · exact Nat.le_refl _

end Replay

/-- The fuel of one round for each frame is enough. -/
theorem scanFuel_encodeAll {pre : List Frame} (hpre : ∀ g ∈ pre, g.Valid) :
    frameFormat.scanFuel pre.length (frameFormat.encodeAll pre) = pre := by
  induction pre with
  | nil => rfl
  | cons f fs ih =>
    have hread : frameFormat.decode (frameFormat.encode f ++ frameFormat.encodeAll fs) =
        some (f, frameFormat.encodeAll fs) :=
      frameFormat.decode_encode f _ (hpre f List.mem_cons_self)
    rw [List.length_cons, Format.encodeAll_cons, Format.scanFuel, hread]
    simp only [ih fun g hg => hpre g (List.mem_cons_of_mem f hg)]

/-- A segment holds valid records, then a record with changed bits, then anything. The bits lie
in a window of at most 32 of them, inside the checksum, inside the type and the timestamp, or
inside the key and the value. Replay runs its callback on what the records before the damaged
one deliver, in order, and on nothing else: with a callback that never fails on all of it, and
with every callback as if the segment ended in front of the damage. -/
theorem damaged_record_stops_replay {files : Files} {id : Name} {pre : List Frame} {f : Frame}
    {d rest : Bytes} (hpre : ∀ g ∈ pre, g.Valid) (hf : f.Valid) (hd : f.Damaged d)
    (hfile : files.lookup (segName id) = some (frameFormat.encodeAll pre ++ (d ++ rest)))
    (sinceTs maxTs : ℕ) (σ : Type) (s : σ) :
    (∀ step : Record → σ → σ,
      replaySegment sinceTs (fun r s => (.ok, step r s)) files id s maxTs =
        (.ok, (deliveries sinceTs false pre).foldl (fun s r => step r s) s,
          pre.foldl (fun m g => max m g.ts) maxTs)) ∧
      ∀ (fn : Record → σ → Err × σ) (before : Files),
        before.lookup (segName id) = some (frameFormat.encodeAll pre) →
          replaySegment sinceTs fn files id s maxTs =
            replaySegment sinceTs fn before id s maxTs := by
  have htail : readFrame (d ++ rest) = none := hd.readFrame hf rest
  constructor
  · intro step
    rw [replaySegment_tail hpre htail hfile, replayLoop_eq, scanFuel_encodeAll hpre]
  · intro fn before hbefore
    have hnothing : readFrame [] = none := rfl
    rw [← List.append_nil (frameFormat.encodeAll pre)] at hbefore
    rw [replaySegment_tail hpre htail hfile, replaySegment_tail hpre hnothing hbefore]

/-- A record whose key gets two of its bits changed below. -/
def intact : Frame := ⟨RecType.put.code, 7, 1, [107], [118]⟩

/-- The records before the damaged one. -/
def earlier : List Frame := [⟨RecType.put.code, 5, 1, [97], [98]⟩]

/-- Only the earlier record is replayed. -/
theorem damaged_record_stops_replay_key :
    replaySegment 0 (fun r s => (.ok, s ++ [r]))
        ((∅ : Files).insert (segName firstId.hex)
          (frameFormat.encodeAll earlier ++ (intact.encode.set 21 104 ++ [])))
        firstId.hex ([] : List Record) 0 =
      (.ok, [⟨.put, 5, [97], some [98]⟩], 5) := by
  have hvalid : ∀ ts k v, ts < 256 ^ 8 → (⟨RecType.put.code, ts, 1, [k], [v]⟩ : Frame).Valid :=
    fun ts k v hts => ⟨by simp [RecType.code], hts, by simp [maxKeyLen],
      Or.inr ⟨rfl, by simp [maxValLen]⟩⟩
  have hd : intact.Damaged (intact.encode.set 21 104) := by
    refine ⟨rfl, by decide +kernel, (8 * walHeaderSize, 8 * intact.encode.length),
      by simp [Frame.parts], 8 * 21, 2, by decide, Nat.le_refl _, by decide +kernel, ?_⟩
    have hbits : ∀ i < 8 * 23, bitAt (intact.encode.set 21 104) i ≠ bitAt intact.encode i →
        8 * 21 ≤ i ∧ i < 8 * 21 + 2 := by decide +kernel
    intro i hi
    by_cases hin : i < 8 * 23
    · exact hbits i hin hi
    · have hend : 8 * 23 ≤ i := by omega
      exact absurd ((bitAt_of_length_le hend).trans (bitAt_of_length_le hend).symm) hi
  exact (damaged_record_stops_replay (by simpa [earlier] using hvalid 5 97 98 (by decide))
    (hvalid 7 107 118 (by decide)) hd (AList.lookup_insert _) 0 0 (List Record) []).1
    (fun r s => s ++ [r])

end FastKV
