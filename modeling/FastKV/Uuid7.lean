import FastKV.Lib.Digits
import FastKV.Names

/-!
# The generator of identifiers

`util/uuid7`: an identifier holds the wall clock in milliseconds, a random nibble and a counter.
The generator remembers the last one. When the clock has moved on, or has moved back by more
than a threshold, it takes over the reading and draws nibble and counter anew; otherwise it
counts. Readings of the clock and random words are inputs here.
-/

namespace FastKV

open Lib

/-- `UUID7_CLOCK_BACKWARD_THRESHOLD_MS`. -/
def clockBackwardThresholdMs : ℕ := 10000

/-- `uuid7_ctx` without the state of the random number generator. -/
structure Uuid7Ctx where
  /-- The timestamp, a 64-bit number. -/
  lastTimestampMs : ℕ
  /-- The nibble, which is kept for a millisecond. -/
  randAHigh : Fin 16
  /-- The upper part of the counter. -/
  counterHigh : Fin (2 ^ 14)
  /-- The lower part of the counter. -/
  counterLow : Fin (2 ^ 56)
  deriving DecidableEq

/-- What a call of `uuid7_generate` gets from outside. -/
structure Uuid7Draw where
  /-- The reading of the clock. -/
  now : ℕ
  /-- Further readings, if the counter is full. -/
  later : List ℕ
  /-- The two words that `prng_fill` returns. -/
  rnd : ℕ × ℕ

/-- Take over a reading and draw the rest anew. -/
def Uuid7Ctx.restart (timestamp : ℕ) (rnd : ℕ × ℕ) : Uuid7Ctx where
  lastTimestampMs := timestamp
  randAHigh := Fin.ofNat 16 (rnd.1 >>> 60)
  counterHigh := Fin.ofNat (2 ^ 14) (rnd.1 >>> 46)
  counterLow := Fin.ofNat (2 ^ 56) rnd.2

/-- The difference of two 64-bit readings as a signed number. -/
def clockDelta (now last : ℕ) : ℤ := ((now : ℤ) - last).bmod (2 ^ 64)

/-- `uuid7_generate_ex`, up to the bytes it writes. A full counter waits for another reading;
without one it does not return. -/
def uuid7GenerateEx (ctx : Uuid7Ctx) (d : Uuid7Draw) : Option Uuid7Ctx :=
  let delta := clockDelta d.now ctx.lastTimestampMs
  if 0 < delta then some (.restart d.now d.rnd)
  else if delta = 0 ∨ -delta ≤ clockBackwardThresholdMs then
    let counterLow := ctx.counterLow + 1
    if counterLow = 0 then
      if (ctx.counterHigh : ℕ) + 1 = 0x4000 then
        (d.later.find? fun fresh => decide (fresh ≠ ctx.lastTimestampMs)).map fun fresh =>
          .restart fresh d.rnd
      else some { ctx with counterHigh := ctx.counterHigh + 1, counterLow }
    else some { ctx with counterLow }
  else some (.restart d.now d.rnd)

/-- `write_be48`. -/
def writeBe48 (val : ℕ) : List ℕ := digitsOf 256 6 val

/-- `write_be56`. -/
def writeBe56 (val : ℕ) : List ℕ := digitsOf 256 7 val

/-- The bytes that `uuid7_generate_ex` writes. -/
def Uuid7Ctx.raw (ctx : Uuid7Ctx) : List ℕ :=
  writeBe48 ctx.lastTimestampMs ++ [0x70 ||| ctx.randAHigh.val, ctx.counterHigh.val >>> 6,
    0x80 ||| (ctx.counterHigh.val &&& 0x3F)] ++ writeBe56 ctx.counterLow.val

/-- A digit. -/
def hexDigit (d : ℕ) : Char := hexDigits.getD d '0'

/-- `uuid7_hex` for the bytes of an identifier. -/
def uuid7Hex (raw : List ℕ) : Name :=
  raw.flatMap fun b => [hexDigit (b >>> 4), hexDigit (b &&& 0xF)]

/-! ## Identifiers in order -/

/-- The place of an identifier among all of them. -/
def Uuid7Ctx.position (ctx : Uuid7Ctx) : ℕ :=
  ((ctx.lastTimestampMs % 2 ^ 48 * 16 + ctx.randAHigh) * 2 ^ 14 + ctx.counterHigh) * 2 ^ 56 +
    ctx.counterLow

/-- The bits that are the same in all identifiers. -/
theorem or_nibble : ∀ n : Fin 16, 0x70 ||| n.val = 0x70 + n.val := by decide

/-- The same for the other byte. -/
theorem or_sixBits : ∀ n : Fin 64, 0x80 ||| n.val = 0x80 + n.val := by decide

/-- The bytes as fields. -/
theorem Uuid7Ctx.raw_eq (ctx : Uuid7Ctx) : ctx.raw =
    digitsOf 256 6 ctx.lastTimestampMs ++ [0x70 + ctx.randAHigh.val, ctx.counterHigh.val / 64,
      0x80 + ctx.counterHigh.val % 64] ++ digitsOf 256 7 ctx.counterLow.val := by
  have hlow : ctx.counterHigh.val &&& 0x3F = ctx.counterHigh.val % 64 :=
    Nat.and_two_pow_sub_one_eq_mod _ 6
  have hhigh : ctx.counterHigh.val >>> 6 = ctx.counterHigh.val / 64 :=
    Nat.shiftRight_eq_div_pow _ 6
  have hbyte := or_sixBits ⟨ctx.counterHigh.val % 64, Nat.mod_lt _ (by decide)⟩
  rw [Uuid7Ctx.raw, or_nibble, hhigh, hlow, hbyte]
  rfl

/-- They are bytes. -/
theorem Uuid7Ctx.raw_lt (ctx : Uuid7Ctx) {b : ℕ} (hb : b ∈ ctx.raw) : b < 256 := by
  have hrand := ctx.randAHigh.isLt
  have hhigh := ctx.counterHigh.isLt
  rw [raw_eq, List.mem_append, List.mem_append] at hb
  rcases hb with (hb | hb) | hb
  · exact digitsOf_lt (by decide) hb
  · simp only [List.mem_cons, List.not_mem_nil, or_false] at hb
    omega
  · exact digitsOf_lt (by decide) hb

/-- The number that the bytes denote, field by field. -/
theorem Uuid7Ctx.number_raw (ctx : Uuid7Ctx) : number 256 ctx.raw =
    ctx.counterLow.val + 2 ^ 56 * (0x80 + ctx.counterHigh.val % 64) +
      2 ^ 64 * (ctx.counterHigh.val / 64) + 2 ^ 72 * (0x70 + ctx.randAHigh.val) +
      2 ^ 80 * (ctx.lastTimestampMs % 2 ^ 48) := by
  have hlow : ctx.counterLow.val % 256 ^ 7 = ctx.counterLow.val := Nat.mod_eq_of_lt (by
    have hlt := ctx.counterLow.isLt
    omega)
  have hts : (256 : ℕ) ^ 6 = 2 ^ 48 := by decide
  rw [raw_eq, number_append, number_append, number_digitsOf, number_digitsOf, length_digitsOf,
    number_cons, number_cons, number_cons, hlow, hts]
  simp only [List.length_cons, List.length_nil]
  show _ + 256 ^ 7 * (number 256 [] + 256 ^ 0 * _ + 256 ^ 1 * _ + 256 ^ 2 * _ + 256 ^ 3 * _) = _
  have hnil : number 256 [] = 0 := rfl
  rw [hnil]
  ring

/-- The numbers are ordered as the positions. -/
theorem Uuid7Ctx.number_raw_lt_iff (a b : Uuid7Ctx) :
    number 256 a.raw < number 256 b.raw ↔ a.position < b.position := by
  have ha := a.counterLow.isLt
  have ha' := a.counterHigh.isLt
  have ha'' := a.randAHigh.isLt
  have hb := b.counterLow.isLt
  have hb' := b.counterHigh.isLt
  have hb'' := b.randAHigh.isLt
  rw [number_raw, number_raw, position, position]
  generalize a.lastTimestampMs % 2 ^ 48 = s
  generalize b.lastTimestampMs % 2 ^ 48 = t
  omega

/-- The digits of bytes. -/
theorem uuid7Hex_eq (raw : List ℕ) :
    uuid7Hex raw = (raw.flatMap fun b => [b / 16, b % 16]).map hexDigit := by
  have hhigh : ∀ b : ℕ, b >>> 4 = b / 16 := fun b => Nat.shiftRight_eq_div_pow b 4
  have hlow : ∀ b : ℕ, b &&& 0xF = b % 16 := fun b => Nat.and_two_pow_sub_one_eq_mod b 4
  simp only [uuid7Hex, List.map_flatMap, List.map_cons, List.map_nil, hhigh, hlow]

/-- The digits are characters in order. -/
theorem hexDigit_lt_iff : ∀ d < 16, ∀ e < 16, (hexDigit d < hexDigit e ↔ d < e) := by decide

/-- The number of bytes. -/
theorem Uuid7Ctx.length_raw (ctx : Uuid7Ctx) : ctx.raw.length = 16 := by
  simp [raw_eq]

/-- The digits of an identifier are below 16. -/
theorem Uuid7Ctx.digit_lt (ctx : Uuid7Ctx) {d : ℕ}
    (hd : d ∈ ctx.raw.flatMap fun b => [b / 16, b % 16]) : d < 16 := by
  obtain ⟨b, hb, hmem⟩ := List.mem_flatMap.mp hd
  have hlt := ctx.raw_lt hb
  simp only [List.mem_cons, List.not_mem_nil, or_false] at hmem
  omega

/-- The identifier that `uuid7_hex` writes. -/
def Uuid7Ctx.uuid (ctx : Uuid7Ctx) : Uuid where
  hex := uuid7Hex ctx.raw
  length_hex := by simp [uuid7Hex, List.length_flatMap, length_raw, idLen]
  digits := by
    intro c hc
    rw [uuid7Hex_eq] at hc
    obtain ⟨d, hd, rfl⟩ := List.mem_map.mp hc
    have hlt := ctx.digit_lt hd
    exact (show ∀ d < 16, hexDigit d ∈ hexDigits by decide) d hlt

/-- Identifiers are ordered as their positions. -/
theorem Uuid7Ctx.uuid_lt_iff (a b : Uuid7Ctx) : a.uuid < b.uuid ↔ a.position < b.position := by
  have hlen : (a.raw.flatMap fun b => [b / 16, b % 16]).length =
      (b.raw.flatMap fun b => [b / 16, b % 16]).length := by
    simp [List.length_flatMap, length_raw]
  rw [Uuid.lt_iff, ← number_raw_lt_iff]
  show uuid7Hex a.raw < uuid7Hex b.raw ↔ _
  rw [uuid7Hex_eq, uuid7Hex_eq, map_lt_map_iff hexDigit_lt_iff hlen (fun _ => a.digit_lt)
    fun _ => b.digit_lt, lt_iff_number_lt (by decide) hlen (fun _ => a.digit_lt)
    fun _ => b.digit_lt, number_pairs, number_pairs]

/-- The same for the other comparison. -/
theorem Uuid7Ctx.uuid_le_iff (a b : Uuid7Ctx) : a.uuid ≤ b.uuid ↔ a.position ≤ b.position := by
  rw [← not_lt, uuid_lt_iff, not_lt]

/-- An identifier has one position. -/
theorem Uuid7Ctx.position_eq {a b : Uuid7Ctx} (h : a.uuid.hex = b.uuid.hex) :
    a.position = b.position := by
  have hle : a.uuid ≤ b.uuid := show a.uuid.hex ≤ b.uuid.hex from le_of_eq h
  have hge : b.uuid ≤ a.uuid := show b.uuid.hex ≤ a.uuid.hex from le_of_eq h.symm
  exact le_antisymm ((a.uuid_le_iff b).mp hle) ((b.uuid_le_iff a).mp hge)

/-! ## The next identifier -/

/-- The reading is not later than the last one, and not much earlier. -/
def Uuid7Ctx.Counts (ctx : Uuid7Ctx) (now : ℕ) : Prop :=
  -clockBackwardThresholdMs ≤ clockDelta now ctx.lastTimestampMs ∧
    clockDelta now ctx.lastTimestampMs ≤ 0

/-- It can be computed. -/
instance Uuid7Ctx.decidableCounts (ctx : Uuid7Ctx) (now : ℕ) : Decidable (ctx.Counts now) :=
  inferInstanceAs (Decidable (_ ∧ _))

/-- The counter cannot be increased. -/
def Uuid7Ctx.Full (ctx : Uuid7Ctx) : Prop :=
  ctx.counterHigh.val = 2 ^ 14 - 1 ∧ ctx.counterLow.val = 2 ^ 56 - 1

/-- It can be computed. -/
instance Uuid7Ctx.decidableFull (ctx : Uuid7Ctx) : Decidable ctx.Full :=
  inferInstanceAs (Decidable (_ ∧ _))

/-- The generator is not behind a position, given what the next call gets from outside: what it
restarts from is at that position or beyond it, or it counts and the position is at most one
ahead. -/
def Uuid7Ctx.NotBehind (ctx : Uuid7Ctx) (d : Uuid7Draw) (position : ℕ) : Prop :=
  (¬ ctx.Counts d.now ∧ position ≤ (Uuid7Ctx.restart d.now d.rnd).position) ∨
    (ctx.Counts d.now ∧ ¬ ctx.Full ∧ position ≤ ctx.position + 1) ∨
    (ctx.Counts d.now ∧ ctx.Full ∧ ∀ fresh,
      d.later.find? (fun fresh => decide (fresh ≠ ctx.lastTimestampMs)) = some fresh →
        position ≤ (Uuid7Ctx.restart fresh d.rnd).position)

/-- Counting moves to the next position. -/
theorem Uuid7Ctx.position_count {ctx : Uuid7Ctx} :
    (ctx.counterLow + 1 = 0 ↔ ctx.counterLow.val = 2 ^ 56 - 1) ∧
    (ctx.counterLow + 1 ≠ 0 →
      ({ ctx with counterLow := ctx.counterLow + 1 } : Uuid7Ctx).position = ctx.position + 1) ∧
    (ctx.counterLow + 1 = 0 → ctx.counterHigh.val + 1 ≠ 0x4000 →
      ({ ctx with
        counterHigh := ctx.counterHigh + 1
        counterLow := ctx.counterLow + 1 } : Uuid7Ctx).position = ctx.position + 1) := by
  have hlt := ctx.counterLow.isLt
  have hlt' := ctx.counterHigh.isLt
  have hval : (ctx.counterLow + 1).val = (ctx.counterLow.val + 1) % 2 ^ 56 := Fin.val_add _ _
  have hval' : (ctx.counterHigh + 1).val = (ctx.counterHigh.val + 1) % 2 ^ 14 := Fin.val_add _ _
  have hzero : ctx.counterLow + 1 = 0 ↔ (ctx.counterLow + 1).val = 0 := Fin.val_eq_zero_iff.symm
  refine ⟨?_, fun hne => ?_, fun heq hne => ?_⟩
  · rw [hzero, hval]
    omega
  · rw [Ne, hzero] at hne
    simp only [position]
    omega
  · rw [hzero] at heq
    simp only [position]
    omega

/-- What a call does. -/
theorem uuid7GenerateEx_cases {ctx ctx' : Uuid7Ctx} {d : Uuid7Draw}
    (h : uuid7GenerateEx ctx d = some ctx') :
    (¬ ctx.Counts d.now ∧ ctx' = .restart d.now d.rnd) ∨
    (ctx.Counts d.now ∧ ¬ ctx.Full ∧ ctx'.position = ctx.position + 1) ∨
    (ctx.Counts d.now ∧ ctx.Full ∧ ∃ fresh,
      d.later.find? (fun fresh => decide (fresh ≠ ctx.lastTimestampMs)) = some fresh ∧
        ctx' = .restart fresh d.rnd) := by
  obtain ⟨hwrap, hlow, hhigh⟩ := ctx.position_count
  have hlt := ctx.counterHigh.isLt
  unfold uuid7GenerateEx at h
  simp only at h
  unfold Uuid7Ctx.Counts Uuid7Ctx.Full
  split at h
  · rename_i hlater
    cases h
    exact Or.inl ⟨fun hc => by omega, rfl⟩
  · rename_i hlater
    split at h
    · rename_i hnear
      have hcounts : -(clockBackwardThresholdMs : ℤ) ≤ clockDelta d.now ctx.lastTimestampMs ∧
          clockDelta d.now ctx.lastTimestampMs ≤ 0 := by
        rcases hnear with hnear | hnear <;> constructor <;> omega
      split at h
      · rename_i hfull
        split at h
        · rename_i hfull'
          obtain ⟨fresh, hfresh, heq⟩ := Option.map_eq_some_iff.mp h
          exact Or.inr (Or.inr ⟨hcounts, ⟨by omega, hwrap.mp hfull⟩, fresh, hfresh, heq.symm⟩)
        · rename_i hfull'
          cases h
          exact Or.inr (Or.inl ⟨hcounts, fun hf => by omega, hhigh hfull hfull'⟩)
      · rename_i hfull
        cases h
        exact Or.inr (Or.inl ⟨hcounts, fun hf => hfull (hwrap.mpr hf.2), hlow hfull⟩)
    · rename_i hfar
      cases h
      exact Or.inl ⟨fun hc => hfar (Or.inr (by omega)), rfl⟩

/-- The generator is not behind a position exactly when the next identifier is not. -/
theorem uuid7GenerateEx_position {ctx ctx' : Uuid7Ctx} {d : Uuid7Draw}
    (h : uuid7GenerateEx ctx d = some ctx') (position : ℕ) :
    position ≤ ctx'.position ↔ ctx.NotBehind d position := by
  unfold Uuid7Ctx.NotBehind
  rcases uuid7GenerateEx_cases h with
    ⟨hcounts, rfl⟩ | ⟨hcounts, hfull, heq⟩ | ⟨hcounts, hfull, fresh, hfresh, rfl⟩
  · simp [hcounts]
  · simp [hcounts, hfull, heq]
  · simp only [hcounts, hfull, hfresh, not_true_eq_false, false_and, true_and, false_or,
      Option.some.injEq, forall_eq']

end FastKV
