import FastKV.Lib.Steps
import FastKV.Uuid7

/-!
# The generator of identifiers in machine words

`util/uuid7/uuid7.c` once more, with the fields of `uuid7_ctx` in the words that hold them: the
masks of the refill, the carry from the lower part of the counter into the upper one and the
bytes that are written out. The fields stay within 4, 14 and 56 bits, so a call does what it does
on the fields as numbers, and the identifiers are ordered as their positions.
-/

namespace FastKV

open Lib

/-! ## Words -/

/-- `uuid7_ctx` without the state of the random number generator. -/
structure Uuid7Words where
  /-- The timestamp. -/
  lastTimestampMs : UInt64
  /-- The nibble, which is kept for a millisecond. -/
  randAHigh : UInt8
  /-- The upper part of the counter. -/
  counterHigh : UInt16
  /-- The lower part of the counter. -/
  counterLow : UInt64
  deriving DecidableEq

/-- What a call of `uuid7_generate_ex` gets from outside. -/
structure Uuid7Input where
  /-- The reading of the clock that is passed. -/
  now : UInt64
  /-- The readings that it takes itself, if the counter is full. -/
  later : List UInt64
  /-- The two words that `prng_fill` returns. -/
  rnd : UInt64 × UInt64

/-- Take over a reading and draw the rest anew. -/
def Uuid7Words.refill (timestamp : UInt64) (rnd : UInt64 × UInt64) : Uuid7Words where
  lastTimestampMs := timestamp
  randAHigh := ((rnd.1 >>> 60) &&& 0xF).toUInt8
  counterHigh := ((rnd.1 >>> 46) &&& 0x3FFF).toUInt16
  counterLow := rnd.2 &&& 0x00FFFFFFFFFFFFFF

/-- `uuid7_init`. -/
def uuid7Init (now : UInt64) (rnd : UInt64 × UInt64) : Uuid7Words := .refill now rnd

/-- `uuid7_generate_ex` up to the bytes it writes. The loop of a full counter ends at the first
reading that is not the last timestamp; without one the call does not return. -/
def Uuid7Words.generateEx (ctx : Uuid7Words) (d : Uuid7Input) : Option Uuid7Words :=
  let delta : Int64 := (d.now - ctx.lastTimestampMs).toInt64
  if 0 < delta then some (.refill d.now d.rnd)
  else if delta = 0 ∨ (delta < 0 ∧ (-delta).toUInt64 ≤ 10000) then
    let counterLow := (ctx.counterLow + 1) &&& 0x00FFFFFFFFFFFFFF
    if counterLow = 0 then
      let counterHigh := ctx.counterHigh + 1
      if counterHigh = 0x4000 then
        (d.later.find? fun fresh => decide (fresh ≠ ctx.lastTimestampMs)).map fun fresh =>
          .refill fresh d.rnd
      else some { ctx with counterHigh, counterLow }
    else some { ctx with counterLow }
  else some (.refill d.now d.rnd)

/-- `write_be48`, in bytes. -/
def be48 (val : UInt64) : Bytes :=
  [(val >>> 40).toUInt8, (val >>> 32).toUInt8, (val >>> 24).toUInt8, (val >>> 16).toUInt8,
    (val >>> 8).toUInt8, val.toUInt8]

/-- `write_be56`, in bytes. -/
def be56 (val : UInt64) : Bytes :=
  [(val >>> 48).toUInt8, (val >>> 40).toUInt8, (val >>> 32).toUInt8, (val >>> 24).toUInt8,
    (val >>> 16).toUInt8, (val >>> 8).toUInt8, val.toUInt8]

/-- The 16 bytes that a call writes. -/
def Uuid7Words.out (ctx : Uuid7Words) : Bytes :=
  be48 ctx.lastTimestampMs ++ [0x70 ||| ctx.randAHigh, (ctx.counterHigh >>> 6).toUInt8,
    0x80 ||| (ctx.counterHigh &&& 0x3F).toUInt8] ++ be56 ctx.counterLow

/-- The characters of `uuid7_hex` for the bytes. -/
def hexOf (out : Bytes) : Name := uuid7Hex (out.map UInt8.toNat)

/-! ## The fields as numbers -/

/-- The fields have their widths. -/
structure Uuid7Words.InRange (ctx : Uuid7Words) : Prop where
  /-- The nibble. -/
  randAHigh : ctx.randAHigh.toNat < 2 ^ 4
  /-- The upper part of the counter. -/
  counterHigh : ctx.counterHigh.toNat < 2 ^ 14
  /-- The lower part of the counter. -/
  counterLow : ctx.counterLow.toNat < 2 ^ 56

/-- The fields as numbers. -/
def Uuid7Words.ctx (w : Uuid7Words) : Uuid7Ctx where
  lastTimestampMs := w.lastTimestampMs.toNat
  randAHigh := ⟨w.randAHigh.toNat % 16, Nat.mod_lt _ (by omega)⟩
  counterHigh := ⟨w.counterHigh.toNat % 2 ^ 14, Nat.mod_lt _ (by omega)⟩
  counterLow := ⟨w.counterLow.toNat % 2 ^ 56, Nat.mod_lt _ (by omega)⟩

/-- The input as numbers. -/
def Uuid7Input.draw (d : Uuid7Input) : Uuid7Draw :=
  ⟨d.now.toNat, d.later.map UInt64.toNat, (d.rnd.1.toNat, d.rnd.2.toNat)⟩

/-- A word as a signed number. -/
theorem toInt_word (d : UInt64) : d.toInt64.toInt = (d.toNat : ℤ).bmod (2 ^ 64) := by
  show d.toBitVec.toInt = _
  rw [BitVec.toInt_eq_toNat_bmod]
  rfl

/-- The difference of two readings as the code computes it. -/
theorem toInt_delta (now last : UInt64) :
    (now - last).toInt64.toInt = clockDelta now.toNat last.toNat := by
  have hnow := now.toNat_lt
  have hlast := last.toNat_lt
  rw [toInt_word, UInt64.toNat_sub, clockDelta, Int.bmod_def, Int.bmod_def]
  push_cast
  omega

/-- The size of a negative difference. -/
theorem toNat_neg_delta {d : UInt64} (hd : d.toInt64.toInt < 0) :
    ((-d.toInt64).toUInt64.toNat : ℤ) = -d.toInt64.toInt := by
  have hsize : UInt64.size = 2 ^ 64 := rfl
  have hlt := d.toNat_lt
  rw [← UInt64.toInt64_neg, UInt64.toUInt64_toInt64]
  rw [toInt_word, Int.bmod_def] at hd
  rw [toInt_word, UInt64.toNat_neg, Int.bmod_def]
  push_cast
  omega

/-- A mask of ones. -/
theorem toNat_mask {x mask : UInt64} (n : ℕ) (hmask : mask.toNat = 2 ^ n - 1) :
    (x &&& mask).toNat = x.toNat % 2 ^ n := by
  rw [UInt64.toNat_and, hmask]
  exact Nat.and_two_pow_sub_one_eq_mod _ n

/-- The nibble of a refill. -/
theorem toNat_refill_randAHigh (timestamp : UInt64) (rnd : UInt64 × UInt64) :
    (Uuid7Words.refill timestamp rnd).randAHigh.toNat = rnd.1.toNat >>> 60 % 2 ^ 4 := by
  simp only [Uuid7Words.refill, UInt64.toNat_toUInt8]
  rw [toNat_mask 4 rfl, UInt64.toNat_shiftRight]
  show rnd.1.toNat >>> 60 % 2 ^ 4 % 2 ^ 8 = _
  omega

/-- The upper part of its counter. -/
theorem toNat_refill_counterHigh (timestamp : UInt64) (rnd : UInt64 × UInt64) :
    (Uuid7Words.refill timestamp rnd).counterHigh.toNat = rnd.1.toNat >>> 46 % 2 ^ 14 := by
  simp only [Uuid7Words.refill, UInt64.toNat_toUInt16]
  rw [toNat_mask 14 rfl, UInt64.toNat_shiftRight]
  show rnd.1.toNat >>> 46 % 2 ^ 14 % 2 ^ 16 = _
  omega

/-- The lower part. -/
theorem toNat_refill_counterLow (timestamp : UInt64) (rnd : UInt64 × UInt64) :
    (Uuid7Words.refill timestamp rnd).counterLow.toNat = rnd.2.toNat % 2 ^ 56 :=
  toNat_mask 56 rfl

/-- A refill has the fields in their widths. -/
theorem refill_inRange (timestamp : UInt64) (rnd : UInt64 × UInt64) :
    (Uuid7Words.refill timestamp rnd).InRange := by
  constructor
  · rw [toNat_refill_randAHigh]
    exact Nat.mod_lt _ (by decide)
  · rw [toNat_refill_counterHigh]
    exact Nat.mod_lt _ (by decide)
  · rw [toNat_refill_counterLow]
    exact Nat.mod_lt _ (by decide)

/-- A refill as numbers. -/
theorem ctx_refill (timestamp : UInt64) (rnd : UInt64 × UInt64) :
    (Uuid7Words.refill timestamp rnd).ctx =
      .restart timestamp.toNat (rnd.1.toNat, rnd.2.toNat) := by
  simp only [Uuid7Words.ctx, Uuid7Ctx.restart, toNat_refill_randAHigh, toNat_refill_counterHigh,
    toNat_refill_counterLow, Uuid7Ctx.mk.injEq, Fin.ext_iff, Fin.val_ofNat, Nat.mod_mod, and_true]
  constructor
  · rfl
  · exact Nat.mod_mod _ 16

/-! ## A call -/

section Call

variable {w w' : Uuid7Words} {d : Uuid7Input}

/-- The lower part of the counter after it has been increased. -/
theorem toNat_count (w : Uuid7Words) :
    ((w.counterLow + 1) &&& 0x00FFFFFFFFFFFFFF).toNat = (w.counterLow.toNat + 1) % 2 ^ 56 := by
  rw [toNat_mask 56 rfl, UInt64.toNat_add]
  show (w.counterLow.toNat + 1) % 2 ^ 64 % 2 ^ 56 = _
  omega

/-- The upper part. -/
theorem Uuid7Words.InRange.toNat_carry (h : w.InRange) :
    (w.counterHigh + 1).toNat = w.counterHigh.toNat + 1 := by
  have hlt := h.counterHigh
  rw [UInt16.toNat_add]
  exact Nat.mod_eq_of_lt (by
    show w.counterHigh.toNat + 1 < 2 ^ 16
    omega)

/-- The fields stay in their widths. -/
theorem Uuid7Words.InRange.generateEx (h : w.InRange) (hcall : w.generateEx d = some w') :
    w'.InRange := by
  unfold Uuid7Words.generateEx at hcall
  simp only at hcall
  split at hcall
  · cases hcall
    exact refill_inRange _ _
  · split at hcall
    · have hlow : ((w.counterLow + 1) &&& 0x00FFFFFFFFFFFFFF).toNat < 2 ^ 56 := by
        rw [toNat_count]
        exact Nat.mod_lt _ (by decide)
      split at hcall
      · split at hcall
        · obtain ⟨fresh, -, rfl⟩ := Option.map_eq_some_iff.mp hcall
          exact refill_inRange _ _
        · rename_i hfull
          cases hcall
          have hhigh := h.counterHigh
          have hcarry := h.toNat_carry
          have hne : (w.counterHigh + 1).toNat ≠ 0x4000 :=
            fun heq => hfull (UInt16.toNat_inj.mp heq)
          constructor
          · exact h.randAHigh
          · simp only
            omega
          · exact hlow
      · cases hcall
        exact ⟨h.randAHigh, h.counterHigh, hlow⟩
    · cases hcall
      exact refill_inRange _ _

/-- The first test of a call. -/
theorem lt_delta_iff (now last : UInt64) :
    0 < (now - last).toInt64 ↔ 0 < clockDelta now.toNat last.toNat := by
  rw [Int64.lt_iff_toInt_lt, toInt_delta]
  exact Iff.rfl

/-- The second test. -/
theorem delta_near_iff (now last : UInt64) :
    ((now - last).toInt64 = 0 ∨
      ((now - last).toInt64 < 0 ∧ (-(now - last).toInt64).toUInt64 ≤ 10000)) ↔
    (clockDelta now.toNat last.toNat = 0 ∨ (clockDelta now.toNat last.toNat < 0 ∧
      -clockDelta now.toNat last.toNat ≤ clockBackwardThresholdMs)) := by
  have hzero : (0 : Int64).toInt = 0 := rfl
  have hthreshold : clockBackwardThresholdMs = 10000 := rfl
  have hlimit : (10000 : UInt64).toNat = 10000 := rfl
  rw [← Int64.toInt_inj, Int64.lt_iff_toInt_lt, UInt64.le_iff_toNat_le, hzero, hlimit,
    hthreshold, ← toInt_delta]
  constructor
  · rintro (h | ⟨hneg, hle⟩)
    · exact Or.inl h
    · have hsize := toNat_neg_delta hneg
      exact Or.inr ⟨hneg, by omega⟩
  · rintro (h | ⟨hneg, hle⟩)
    · exact Or.inl h
    · have hsize := toNat_neg_delta hneg
      exact Or.inr ⟨hneg, by omega⟩

/-- The lower part of the counter as a number. -/
theorem ofNat_count (w : Uuid7Words) :
    Fin.ofNat (2 ^ 56) ((w.counterLow + 1) &&& 0x00FFFFFFFFFFFFFF).toNat =
      w.ctx.counterLow + 1 := by
  rw [toNat_count]
  apply Fin.ext
  simp [Uuid7Words.ctx, Fin.val_add]

/-- The upper part of the counter as a number. -/
theorem Uuid7Words.InRange.val_counterHigh (h : w.InRange) :
    w.ctx.counterHigh.val = w.counterHigh.toNat := Nat.mod_eq_of_lt h.counterHigh

/-- The upper part of the counter with a carry as a number. -/
theorem Uuid7Words.InRange.ofNat_carry (h : w.InRange) :
    Fin.ofNat (2 ^ 14) (w.counterHigh + 1).toNat = w.ctx.counterHigh + 1 := by
  rw [h.toNat_carry]
  apply Fin.ext
  simp [Uuid7Words.ctx, Fin.val_add]

/-- The reading that ends the loop of a full counter. -/
theorem find?_fresh (later : List UInt64) (last : UInt64) :
    (later.map UInt64.toNat).find? (fun fresh => decide (fresh ≠ last.toNat)) =
      (later.find? fun fresh => decide (fresh ≠ last)).map UInt64.toNat := by
  have hne (fresh : UInt64) : decide (fresh.toNat ≠ last.toNat) = decide (fresh ≠ last) := by
    simp only [ne_eq, UInt64.toNat_inj]
  rw [List.find?_map]
  simp only [Function.comp_def, hne]

/-- A call does on the words what it does on the numbers. -/
theorem Uuid7Words.InRange.ctx_generateEx (h : w.InRange) (d : Uuid7Input) :
    (w.generateEx d).map Uuid7Words.ctx = uuid7GenerateEx w.ctx d.draw := by
  have hlater : 0 < (d.now - w.lastTimestampMs).toInt64 ↔
    0 < clockDelta d.draw.now w.ctx.lastTimestampMs := lt_delta_iff _ _
  have hnear := delta_near_iff d.now w.lastTimestampMs
  have hlow : ((w.counterLow + 1) &&& 0x00FFFFFFFFFFFFFF) = 0 ↔ w.ctx.counterLow + 1 = 0 := by
    rw [← ofNat_count, ← UInt64.toNat_inj, toNat_count, Fin.ext_iff, Fin.val_ofNat, Nat.mod_mod]
    rfl
  have hhigh : w.counterHigh + 1 = 0x4000 ↔ (w.ctx.counterHigh : ℕ) + 1 = 0x4000 := by
    rw [← UInt16.toNat_inj, h.toNat_carry, h.val_counterHigh]
    rfl
  unfold Uuid7Words.generateEx uuid7GenerateEx
  simp only
  by_cases hpos : 0 < clockDelta d.draw.now w.ctx.lastTimestampMs
  · rw [if_pos (hlater.mpr hpos), if_pos hpos]
    exact congrArg some (ctx_refill _ _)
  · rw [if_neg fun hlt => hpos (hlater.mp hlt), if_neg hpos]
    by_cases hclose : clockDelta d.draw.now w.ctx.lastTimestampMs = 0 ∨
        -clockDelta d.draw.now w.ctx.lastTimestampMs ≤ clockBackwardThresholdMs
    · rw [if_pos hclose, if_pos (hnear.mpr ?_)]
      · by_cases hwrap : w.ctx.counterLow + 1 = 0
        · rw [if_pos hwrap, if_pos (hlow.mpr hwrap)]
          by_cases hfull : (w.ctx.counterHigh : ℕ) + 1 = 0x4000
          · rw [if_pos hfull, if_pos (hhigh.mpr hfull)]
            have hfresh : d.draw.later.find? (fun fresh => decide (fresh ≠
                w.ctx.lastTimestampMs)) = _ := find?_fresh d.later w.lastTimestampMs
            rw [hfresh, Option.map_map, Option.map_map]
            exact congrArg (Option.map · _) (funext fun fresh => ctx_refill fresh d.rnd)
          · rw [if_neg hfull, if_neg fun heq => hfull (hhigh.mp heq)]
            rw [Option.map_some, ← ofNat_count, ← h.ofNat_carry]
            rfl
        · rw [if_neg hwrap, if_neg fun heq => hwrap (hlow.mp heq)]
          rw [Option.map_some, ← ofNat_count]
          rfl
      · rcases hclose with heq | hle
        · exact Or.inl heq
        · rcases eq_or_lt_of_le (not_lt.mp hpos) with heq | hneg
          · exact Or.inl heq
          · exact Or.inr ⟨hneg, hle⟩
    · rw [if_neg hclose, if_neg fun hwords => hclose ?_]
      · exact congrArg some (ctx_refill _ _)
      · rcases hnear.mp hwords with heq | ⟨-, hle⟩
        · exact Or.inl heq
        · exact Or.inr hle

end Call

/-! ## The bytes -/

/-- A byte of a word. -/
theorem toNat_byte (val shift : UInt64) (hshift : shift.toNat < 64) :
    (val >>> shift).toUInt8.toNat = val.toNat / 2 ^ shift.toNat % 256 := by
  rw [UInt64.toNat_toUInt8, UInt64.toNat_shiftRight, Nat.mod_eq_of_lt hshift,
    Nat.shiftRight_eq_div_pow]

/-- The bytes of the timestamp are its digits. -/
theorem map_be48 (val : UInt64) : (be48 val).map UInt8.toNat = writeBe48 val.toNat := by
  simp only [be48, List.map_cons, List.map_nil, writeBe48, digitsOf]
  rw [toNat_byte _ 40 (by decide), toNat_byte _ 32 (by decide), toNat_byte _ 24 (by decide),
    toNat_byte _ 16 (by decide), toNat_byte _ 8 (by decide), UInt64.toNat_toUInt8]
  simp

/-- The bytes of the counter are its digits. -/
theorem map_be56 (val : UInt64) : (be56 val).map UInt8.toNat = writeBe56 val.toNat := by
  simp only [be56, List.map_cons, List.map_nil, writeBe56, digitsOf]
  rw [toNat_byte _ 48 (by decide), toNat_byte _ 40 (by decide), toNat_byte _ 32 (by decide),
    toNat_byte _ 24 (by decide), toNat_byte _ 16 (by decide), toNat_byte _ 8 (by decide),
    UInt64.toNat_toUInt8]
  simp

/-- The bytes written are those of the numbers. -/
theorem Uuid7Words.InRange.map_out {w : Uuid7Words} (h : w.InRange) :
    w.out.map UInt8.toNat = w.ctx.raw := by
  have hrand : (w.ctx.randAHigh : ℕ) = w.randAHigh.toNat := Nat.mod_eq_of_lt h.randAHigh
  have hlow : (w.ctx.counterLow : ℕ) = w.counterLow.toNat := Nat.mod_eq_of_lt h.counterLow
  have hhigh := h.val_counterHigh
  have hlt := h.counterHigh
  simp only [Uuid7Words.out, List.map_append, map_be48, map_be56, List.map_cons, List.map_nil,
    UInt8.toNat_or, UInt16.toNat_toUInt8, UInt16.toNat_shiftRight, UInt16.toNat_and, Uuid7Ctx.raw,
    hrand, hlow, hhigh]
  have hsix : w.counterHigh.toNat >>> 6 % 256 = w.counterHigh.toNat >>> 6 := by
    rw [Nat.shiftRight_eq_div_pow]
    omega
  have hmask : (w.counterHigh.toNat &&& 63) % 256 = w.counterHigh.toNat &&& 63 :=
    Nat.mod_eq_of_lt (Nat.lt_of_le_of_lt Nat.and_le_right (by decide))
  have hsixShift : UInt16.toNat 6 % 16 = 6 := rfl
  have hones : UInt16.toNat 63 = 63 := rfl
  rw [hsixShift, hones, hsix, hmask]
  rfl

/-- Bytes are ordered as their numbers. -/
theorem ofNat_lt_iff (d : ℕ) (hd : d < 256) (e : ℕ) (he : e < 256) :
    UInt8.ofNat d < UInt8.ofNat e ↔ d < e := by
  rw [UInt8.lt_iff_toNat_lt, UInt8.toNat_ofNat_of_lt' hd, UInt8.toNat_ofNat_of_lt' he]

/-- The bytes written are ordered as the positions. -/
theorem out_lt_iff {w w' : Uuid7Words} (h : w.InRange) (h' : w'.InRange) :
    w.out < w'.out ↔ w.ctx.position < w'.ctx.position := by
  have hbytes : ∀ {w : Uuid7Words}, w.InRange → w.out = w.ctx.raw.map UInt8.ofNat := by
    intro w h
    rw [← h.map_out, List.map_map]
    simp [Function.comp_def]
  have hlen : w.ctx.raw.length = w'.ctx.raw.length := by
    rw [Uuid7Ctx.length_raw, Uuid7Ctx.length_raw]
  rw [hbytes h, hbytes h', map_lt_map_iff ofNat_lt_iff hlen (fun _ => w.ctx.raw_lt)
    fun _ => w'.ctx.raw_lt, lt_iff_number_lt (by decide) hlen (fun _ => w.ctx.raw_lt)
    fun _ => w'.ctx.raw_lt, Uuid7Ctx.number_raw_lt_iff]

/-- So are the characters. -/
theorem hexOf_lt_iff {w w' : Uuid7Words} (h : w.InRange) (h' : w'.InRange) :
    hexOf w.out < hexOf w'.out ↔ w.ctx.position < w'.ctx.position := by
  rw [hexOf, hexOf, h.map_out, h'.map_out, ← Uuid7Ctx.uuid_lt_iff]
  exact Iff.rfl

/-! ## Runs -/

/-- A context and the identifiers that have been written since. -/
structure Uuid7Run where
  /-- The context. -/
  words : Uuid7Words
  /-- The identifiers, oldest first. -/
  outs : List Bytes

/-- A call; if it does not return nothing is written. -/
def uuid7Call (s : Uuid7Run) (d : Uuid7Input) : Uuid7Run :=
  match s.words.generateEx d with
  | none => s
  | some words => ⟨words, s.outs ++ [words.out]⟩

/-- No reading is beyond 48 bits, or more than the threshold below the last timestamp. -/
structure NearReadings (s : Uuid7Run) (d : Uuid7Input) : Prop where
  /-- The reading that is passed. -/
  now : d.now.toNat < 2 ^ 48 ∧
    s.words.lastTimestampMs.toNat ≤ d.now.toNat + clockBackwardThresholdMs
  /-- The readings taken while waiting. -/
  later : ∀ fresh ∈ d.later, fresh.toNat < 2 ^ 48 ∧
    s.words.lastTimestampMs.toNat ≤ fresh.toNat + clockBackwardThresholdMs

/-- If the clock has not moved on and the counter is full, the reading that ends the waiting is
later than the last timestamp. -/
def WaitsForward (s : Uuid7Run) (d : Uuid7Input) : Prop :=
  d.now ≤ s.words.lastTimestampMs → s.words.ctx.Full →
    ∀ fresh, d.later.find? (fun fresh => decide (fresh ≠ s.words.lastTimestampMs)) = some fresh →
      s.words.lastTimestampMs < fresh

/-- A later timestamp makes a later identifier. -/
theorem position_lt_of_timestamp {a b : Uuid7Ctx} (hlt : a.lastTimestampMs < b.lastTimestampMs)
    (hb : b.lastTimestampMs < 2 ^ 48) : a.position < b.position := by
  have ha := Nat.mod_eq_of_lt (hlt.trans hb)
  have hb' := Nat.mod_eq_of_lt hb
  have hrand := a.randAHigh.isLt
  have hhigh := a.counterHigh.isLt
  have hlow := a.counterLow.isLt
  rw [Uuid7Ctx.position, Uuid7Ctx.position, ha, hb']
  omega

section Runs

variable {s : Uuid7Run} {d : Uuid7Input} {w : Uuid7Words}

/-- Near readings are compared as numbers. -/
theorem NearReadings.delta (hnear : NearReadings s d) :
    clockDelta d.now.toNat s.words.lastTimestampMs.toNat =
      d.now.toNat - s.words.lastTimestampMs.toNat := by
  obtain ⟨hnow, hlast⟩ := hnear.now
  have hthreshold : clockBackwardThresholdMs = 10000 := rfl
  rw [clockDelta, Int.bmod_def]
  omega

/-- The generator counts while the clock has not moved on. -/
theorem NearReadings.counts_iff (hnear : NearReadings s d) :
    s.words.ctx.Counts d.draw.now ↔ d.now ≤ s.words.lastTimestampMs := by
  have hlast := hnear.now.2
  have hdelta : clockDelta d.draw.now s.words.ctx.lastTimestampMs =
    d.now.toNat - s.words.lastTimestampMs.toNat := hnear.delta
  rw [Uuid7Ctx.Counts, hdelta, UInt64.le_iff_toNat_le]
  omega

/-- The next identifier is behind the last one. -/
theorem position_lt (h : s.words.InRange) (hnear : NearReadings s d)
    (hforward : WaitsForward s d) (hcall : s.words.generateEx d = some w) :
    s.words.ctx.position < w.ctx.position := by
  have hctx : uuid7GenerateEx s.words.ctx d.draw = some w.ctx := by
    rw [← h.ctx_generateEx, hcall, Option.map_some]
  rcases uuid7GenerateEx_cases hctx with
    ⟨hcounts, heq⟩ | ⟨-, -, heq⟩ | ⟨hcounts, hfull, fresh, hfresh, heq⟩
  · rw [hnear.counts_iff, UInt64.not_le, UInt64.lt_iff_toNat_lt] at hcounts
    rw [heq]
    exact position_lt_of_timestamp hcounts hnear.now.1
  · omega
  · have hfind := hfresh
    rw [show d.draw.later.find? (fun fresh => decide (fresh ≠ s.words.ctx.lastTimestampMs)) = _
      from find?_fresh d.later s.words.lastTimestampMs] at hfind
    obtain ⟨fresh', hfresh', rfl⟩ := Option.map_eq_some_iff.mp hfind
    have hlt := hforward (hnear.counts_iff.mp hcounts) hfull fresh' hfresh'
    rw [heq]
    exact position_lt_of_timestamp (UInt64.lt_iff_toNat_lt.mp hlt)
      (hnear.later fresh' (List.mem_of_find?_eq_some hfresh')).1

/-- What holds during a run: the fields are in their widths, the identifiers increase, and none
is behind that of the context. -/
structure Uuid7Run.Increasing (s : Uuid7Run) : Prop where
  /-- The fields. -/
  inRange : s.words.InRange
  /-- The identifiers as bytes. -/
  outs : s.outs.Pairwise (· < ·)
  /-- The identifiers as characters. -/
  hexes : (s.outs.map hexOf).Pairwise (· < ·)
  /-- The last one. -/
  last : ∀ out ∈ s.outs, out ≤ s.words.out ∧ hexOf out ≤ hexOf s.words.out

/-- A call keeps that. -/
theorem Uuid7Run.Increasing.call (h : s.Increasing) (hnear : NearReadings s d)
    (hforward : WaitsForward s d) : (uuid7Call s d).Increasing := by
  unfold uuid7Call
  cases hcall : s.words.generateEx d with
  | none => exact h
  | some w =>
    have hrange := h.inRange.generateEx hcall
    have hlt := position_lt h.inRange hnear hforward hcall
    have hout := (out_lt_iff h.inRange hrange).mpr hlt
    have hhex := (hexOf_lt_iff h.inRange hrange).mpr hlt
    constructor
    · exact hrange
    · apply List.pairwise_append.mpr
      refine ⟨h.outs, List.pairwise_singleton _ _, fun out hmem out' hlast => ?_⟩
      rw [List.mem_singleton.mp hlast]
      exact lt_of_le_of_lt (h.last out hmem).1 hout
    · rw [List.map_append]
      apply List.pairwise_append.mpr
      refine ⟨h.hexes, List.pairwise_singleton _ _, fun hex hmem hex' hlast => ?_⟩
      obtain ⟨out, hmem', rfl⟩ := List.mem_map.mp hmem
      rw [List.map_singleton, List.mem_singleton] at hlast
      rw [hlast]
      exact lt_of_le_of_lt (h.last out hmem').2 hhex
    · intro out hmem
      rcases List.mem_append.mp hmem with hmem' | hmem'
      · obtain ⟨hle, hle'⟩ := h.last out hmem'
        exact ⟨le_of_lt (lt_of_le_of_lt hle hout), le_of_lt (lt_of_le_of_lt hle' hhex)⟩
      · rw [List.mem_singleton.mp hmem']
        exact ⟨le_refl _, le_refl _⟩

/-- A call keeps the fields in their widths, whatever the readings are. -/
theorem inRange_call (h : s.words.InRange) (d : Uuid7Input) :
    (uuid7Call s d).words.InRange := by
  unfold uuid7Call
  cases hcall : s.words.generateEx d with
  | none => exact h
  | some w => exact h.generateEx hcall

/-- So does a run. -/
theorem inRange_exec (calls : List Uuid7Input) (h : s.words.InRange) :
    (exec uuid7Call s calls).words.InRange :=
  exec_invariant (I := fun s : Uuid7Run => s.words.InRange) (P := fun _ _ => True)
    (fun _ d hs _ => inRange_call hs d) calls h (.of_forall calls _ fun _ _ _ => trivial)

end Runs

/-- From every context that `uuid7_init` and any calls lead to: the fields stay in their widths,
and the identifiers increase as bytes and as characters while the readings are near and a full
counter waits for a later reading. -/
theorem uuid7_outs_increase (now : UInt64) (rnd : UInt64 × UInt64)
    (earlier calls : List Uuid7Input) {w : Uuid7Words}
    (hw : (exec uuid7Call ⟨uuid7Init now rnd, []⟩ earlier).words = w) :
    (exec uuid7Call ⟨w, []⟩ calls).words.InRange ∧
    (Permitted uuid7Call (fun s d => NearReadings s d ∧ WaitsForward s d) ⟨w, []⟩ calls →
      (exec uuid7Call ⟨w, []⟩ calls).outs.Pairwise (· < ·) ∧
      ((exec uuid7Call ⟨w, []⟩ calls).outs.map hexOf).Pairwise (· < ·)) := by
  have hrange : w.InRange := by
    rw [← hw]
    exact inRange_exec earlier (refill_inRange now rnd)
  constructor
  · exact inRange_exec calls hrange
  · intro hp
    have hstart : Uuid7Run.Increasing ⟨w, []⟩ :=
      ⟨hrange, List.Pairwise.nil, List.Pairwise.nil, fun out hout => by cases hout⟩
    have hrun := exec_invariant (fun s d h hd => Uuid7Run.Increasing.call h hd.1 hd.2) calls
      hstart hp
    exact ⟨hrun.outs, hrun.hexes⟩

/-- The random words that fill the upper part of the counter and leave one step in the lower
part. -/
def nearlyFull : UInt64 × UInt64 := (0xFFFFFFFFFFFFFFFF, 0x00FFFFFFFFFFFFFE)

/-- A call within the millisecond, and one that finds the counter full and waits until the clock
shows another millisecond. -/
def callsAcross (fresh : UInt64) : List Uuid7Input :=
  [⟨100000, [], (0, 0)⟩, ⟨100000, [100000, fresh], (0, 0)⟩]

/-- With a clock that moves on the identifiers increase. -/
theorem uuid7_outs_increase_across :
    (exec uuid7Call ⟨uuid7Init 100000 nearlyFull, []⟩ (callsAcross 100001)).outs.Pairwise
      (· < ·) := by
  refine ((uuid7_outs_increase 100000 nearlyFull [] (callsAcross 100001) rfl).2
    ⟨⟨⟨by decide +kernel, List.forall_mem_nil _⟩, ?_⟩,
      ⟨⟨by decide +kernel, List.forall_mem_cons.mpr ⟨by decide +kernel,
        List.forall_mem_singleton.mpr (by decide +kernel)⟩⟩, ?_⟩, trivial⟩).1
  · intro _ hfull
    exact absurd hfull (by decide +kernel)
  · intro _ _ fresh hfresh
    have hlater : some (100001 : UInt64) = some fresh := hfresh
    rw [← Option.some.inj hlater]
    decide +kernel

/-- With a clock that has been set back by a millisecond they do not. -/
theorem uuid7_outs_fall : ¬ ∀ (now : UInt64) (rnd : UInt64 × UInt64)
    (earlier calls : List Uuid7Input) (w : Uuid7Words),
    (exec uuid7Call ⟨uuid7Init now rnd, []⟩ earlier).words = w →
    Permitted uuid7Call NearReadings ⟨w, []⟩ calls →
      (exec uuid7Call ⟨w, []⟩ calls).outs.Pairwise (· < ·) := by
  intro hall
  have hfall := hall 100000 nearlyFull [] (callsAcross 99999) _ rfl ⟨?_, ?_, trivial⟩
  · exact absurd hfall (by decide +kernel)
  · exact ⟨by decide +kernel, List.forall_mem_nil _⟩
  · exact ⟨by decide +kernel, List.forall_mem_cons.mpr ⟨by decide +kernel,
      List.forall_mem_singleton.mpr (by decide +kernel)⟩⟩

end FastKV
