import FastKV.Lib.ShiftRegister
import FastKV.Snapshot
import FastKV.WalFormat

/-!
# The checksum

`util/crc32.c`. The table holds the register after eight shifts, and shifting is linear, so one
lookup does what eight shifts do. The checksum is therefore the one that takes the message bit by
bit, and it can be continued over any pieces of the message: the records of the log and the
entries of a snapshot are checked field by field.
-/

namespace FastKV

open Lib

/-! ## The checksum as a remainder -/


/-- The reflected Castagnoli polynomial. -/
def castagnoli : ℕ := 0x82F63B78

/-- The polynomial fills the register. -/
theorem castagnoli_width : 2 ^ 31 ≤ castagnoli ∧ castagnoli < 2 ^ (31 + 1) := by decide

/-- A shift of the table computation shifts the register. -/
theorem crcTableStep_toNat (crc : UInt32) :
    (crcTableStep crc).toNat = shiftOut castagnoli crc.toNat := by
  have hhalf : (crc >>> 1).toNat = crc.toNat / 2 := by
    rw [UInt32.toNat_shiftRight]
    exact Nat.shiftRight_one _
  have hlow : (crc &&& 1).toNat = crc.toNat % 2 := by
    rw [UInt32.toNat_and]
    exact Nat.and_one_is_mod _
  unfold crcTableStep shiftOut
  rw [UInt32.toNat_xor, hhalf]
  by_cases hodd : crc.toNat % 2 = 1
  · have hone : crc &&& 1 = 1 := by
      apply UInt32.toNat_inj.mp
      rw [hlow, hodd]
      rfl
    rw [if_pos hodd, hone]
    rfl
  · have hzero : crc &&& 1 = 0 := by
      apply UInt32.toNat_inj.mp
      rw [hlow]
      have hlt := Nat.mod_lt crc.toNat (by decide : 0 < 2)
      have hnone : crc.toNat % 2 = 0 := by omega
      rw [hnone]
      rfl
    rw [if_neg hodd, hzero]
    rfl

/-- An entry of the table is the register after eight shifts. -/
theorem crc32cTable_toNat (i : UInt32) :
    (crc32cTable i).toNat = (shiftOut castagnoli)^[8] i.toNat := by
  have hsteps : ∀ (k : ℕ) (c : UInt32),
      (crcTableStep^[k] c).toNat = (shiftOut castagnoli)^[k] c.toNat := by
    intro k
    induction k with
    | zero => exact fun _ => rfl
    | succ k ih =>
      intro c
      rw [Function.iterate_succ_apply, Function.iterate_succ_apply, ih, crcTableStep_toNat]
  exact hsteps 8 i

/-- The loop body takes one byte into the register. -/
theorem crc32cByte_toNat (crc : UInt32) (b : UInt8) :
    (crc32cByte crc b).toNat = (shiftOut castagnoli)^[8] (crc.toNat ^^^ b.toNat) := by
  have hb : b.toNat < 2 ^ 8 := b.toNat_lt
  have hhigh : (crc >>> 8).toNat = (crc.toNat ^^^ b.toNat) / 2 ^ 8 := by
    rw [UInt32.toNat_shiftRight, Nat.xor_div_two_pow, Nat.div_eq_of_lt hb, Nat.xor_zero]
    exact Nat.shiftRight_eq_div_pow _ _
  have hlow : ((crc ^^^ b.toUInt32) &&& 0xFF).toNat = (crc.toNat ^^^ b.toNat) % 2 ^ 8 := by
    rw [UInt32.toNat_and, UInt32.toNat_xor, UInt8.toNat_toUInt32]
    exact Nat.and_two_pow_sub_one_eq_mod _ 8
  rw [crc32cByte, UInt32.toNat_xor, hhigh, crc32cTable_toNat, hlow, ← iterate_shiftOut_low]

/-- The loop of `fastkv_crc32c` computes a remainder. -/
theorem foldl_crc32cByte_toNat (buf : Bytes) : ∀ crc : UInt32,
    (buf.foldl crc32cByte crc).toNat = residue castagnoli crc.toNat buf := by
  induction buf with
  | nil => exact fun _ => rfl
  | cons b buf ih =>
    intro crc
    rw [List.foldl_cons, ih, crc32cByte_toNat]
    rfl

/-- Buffers with different remainders have different checksums. -/
theorem crc32c_ne {buf buf' : Bytes} {crc : UInt32}
    (h : residue castagnoli (~~~crc).toNat buf ≠ residue castagnoli (~~~crc).toNat buf') :
    crc32c crc buf ≠ crc32c crc buf' := by
  intro heq
  have hloop := congrArg (fun c : UInt32 => (~~~c).toNat) heq
  simp only [crc32c, UInt32.not_not, foldl_crc32cByte_toNat] at hloop
  exact h hloop

/-- A checksum that is continued over several buffers is that of all their bytes. -/
theorem foldl_crc32c (bufs : List Bytes) : ∀ crc : UInt32,
    bufs.foldl crc32c crc = crc32c crc bufs.flatten := by
  induction bufs with
  | nil => exact fun crc => by rw [List.foldl_nil, List.flatten_nil, crc32c, List.foldl_nil,
      UInt32.not_not]
  | cons buf bufs ih =>
    intro crc
    rw [List.foldl_cons, ih, List.flatten_cons, crc32c, crc32c, crc32c, UInt32.not_not,
      List.foldl_append]

/-! ## Bit by bit -/

/-- Take one bit into the register: compare it with the lowest one, shift, and add the reflected
polynomial if they differ. -/
def crc32cBit (crc : UInt32) (bit : Bool) : UInt32 :=
  if (decide (crc &&& 1 = 1)) = bit then crc >>> 1 else (crc >>> 1) ^^^ 0x82F63B78

/-- The bits of a message in the order in which a reflected checksum takes them. -/
def messageBits (buf : Bytes) : List Bool := buf.flatMap fun b => lowBits 8 b.toNat

/-- The reflected CRC-32C bit by bit, complemented at both ends. -/
def crc32cBitwise (crc : UInt32) (buf : Bytes) : UInt32 :=
  ~~~((messageBits buf).foldl crc32cBit (~~~crc))

/-- Taking a bit in shifts the register. -/
theorem crc32cBit_toNat (crc : UInt32) (bit : Bool) :
    (crc32cBit crc bit).toNat = shiftIn castagnoli crc.toNat bit := by
  have hhalf : (crc >>> 1).toNat = crc.toNat / 2 := by
    rw [UInt32.toNat_shiftRight]
    exact Nat.shiftRight_one _
  have hlow : crc &&& 1 = 1 ↔ crc.toNat % 2 = 1 := by
    rw [← UInt32.toNat_inj, UInt32.toNat_and]
    exact iff_of_eq (congrArg (· = 1) (Nat.and_one_is_mod _))
  have hdiv : (crc.toNat ^^^ bit.toNat) / 2 = crc.toNat / 2 := by
    have hbit : bit.toNat / 2 = 0 := by
      cases bit <;> rfl
    rw [Nat.xor_div_two, hbit, Nat.xor_zero]
  have hpar : (crc.toNat ^^^ bit.toNat) % 2 = (crc.toNat + bit.toNat) % 2 := Nat.xor_mod_two_eq
  unfold crc32cBit shiftIn shiftOut
  rw [hdiv, hpar]
  by_cases hodd : crc.toNat % 2 = 1
  · rw [decide_eq_true (hlow.mpr hodd)]
    cases bit with
    | true =>
      have hsum : ¬ (crc.toNat + true.toNat) % 2 = 1 := by
        rw [Bool.toNat_true]
        omega
      rw [if_pos rfl, if_neg hsum, hhalf, Nat.xor_zero]
    | false =>
      have hsum : (crc.toNat + false.toNat) % 2 = 1 := hodd
      rw [if_neg (by decide), if_pos hsum, UInt32.toNat_xor, hhalf]
      rfl
  · rw [decide_eq_false (mt hlow.mp hodd)]
    cases bit with
    | true =>
      have hsum : (crc.toNat + true.toNat) % 2 = 1 := by
        rw [Bool.toNat_true]
        omega
      rw [if_neg (by decide), if_pos hsum, UInt32.toNat_xor, hhalf]
      rfl
    | false =>
      have hsum : ¬ (crc.toNat + false.toNat) % 2 = 1 := hodd
      rw [if_pos rfl, if_neg hsum, hhalf, Nat.xor_zero]

/-- Taking bits in shifts the register, one bit after the other. -/
theorem foldl_crc32cBit_toNat (bits : List Bool) : ∀ crc : UInt32,
    (bits.foldl crc32cBit crc).toNat = bits.foldl (shiftIn castagnoli) crc.toNat := by
  induction bits with
  | nil => exact fun _ => rfl
  | cons bit bits ih =>
    intro crc
    rw [List.foldl_cons, List.foldl_cons, ih, crc32cBit_toNat]

/-- One lookup in the table takes the eight bits of a byte in. -/
theorem crc32cByte_eq (crc : UInt32) (b : UInt8) :
    crc32cByte crc b = (lowBits 8 b.toNat).foldl crc32cBit crc := by
  have hb : b.toNat % 2 ^ 8 = b.toNat := Nat.mod_eq_of_lt b.toNat_lt
  apply UInt32.toNat_inj.mp
  rw [crc32cByte_toNat, foldl_crc32cBit_toNat, foldl_shiftIn, hb]

/-- The loop over the table takes all bits of the buffer in. -/
theorem foldl_crc32cByte (buf : Bytes) : ∀ crc : UInt32,
    buf.foldl crc32cByte crc = (messageBits buf).foldl crc32cBit crc := by
  induction buf with
  | nil => exact fun _ => rfl
  | cons b buf ih =>
    intro crc
    rw [List.foldl_cons, ih, crc32cByte_eq, messageBits, messageBits, List.flatMap_cons,
      List.foldl_append]

/-- The checksum from the table is the one bit by bit. -/
theorem crc32c_eq (crc : UInt32) (buf : Bytes) : crc32c crc buf = crc32cBitwise crc buf := by
  rw [crc32c, crc32cBitwise, foldl_crc32cByte]

/-- The checksum from the table is the reflected CRC-32C. Continued over any pieces of a message
it is the checksum of the whole, and so the checksums that a log record and the entries of a
snapshot carry are those of their bytes. -/
theorem crc32c_reference_pieces (crc : UInt32) (buf : Bytes) (pieces : List Bytes) (f : Frame)
    (entries : List (Bytes × Bytes)) :
    crc32c crc buf = crc32cBitwise crc buf ∧
      pieces.foldl crc32c crc = crc32c crc pieces.flatten ∧
      f.crc = crc32cBitwise 0 (f.header ++ [f.key, f.val]).flatten ∧
      entriesCrc entries = crc32cBitwise 0 (entries.flatMap entryFields).flatten := by
  refine ⟨crc32c_eq crc buf, foldl_crc32c pieces crc, ?_, ?_⟩
  · rw [Frame.crc, foldl_crc32c, crc32c_eq]
  · rw [entriesCrc, foldl_crc32c, crc32c_eq]

end FastKV
