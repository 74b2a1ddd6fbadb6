import FastKV.Lib.ByteCodec
import Mathlib.Data.Nat.Bitwise
import Mathlib.Logic.Function.Iterate

/-!
# Checksums from a shift register

A cyclic redundancy check divides a message by a polynomial over the field of two elements.
The reflected form keeps the remainder in a register from which the lowest bit is shifted out,
and so takes the bits of a byte with the least significant first. A register that is not zero
does not become zero by shifting. Hence two messages of one length have different remainders if
they differ only inside a window that is not wider than the register.
-/

namespace FastKV.Lib

/-- Shift the lowest bit out and add the polynomial if that bit was set. -/
def shiftOut (poly n : ℕ) : ℕ := n / 2 ^^^ if n % 2 = 1 then poly else 0

/-- The register after a message. -/
def residue (poly : ℕ) (reg : ℕ) (msg : List UInt8) : ℕ :=
  msg.foldl (fun reg b => (shiftOut poly)^[8] (reg ^^^ b.toNat)) reg

/-- Take one bit into the register. -/
def shiftIn (poly n : ℕ) (bit : Bool) : ℕ := shiftOut poly (n ^^^ bit.toNat)

/-- The lowest bits of a number, the least significant first. -/
def lowBits (k x : ℕ) : List Bool := (List.range k).map x.testBit

/-- A bit of a byte string, the least significant bit of each byte first. -/
def bitAt (bs : List UInt8) (i : ℕ) : Bool := (bs.getD (i / 8) 0).toNat.testBit (i % 8)

/-- Below a multiple of a power of two, addition is exclusive or. -/
theorem two_pow_mul_add_eq_xor {k b : ℕ} (a : ℕ) (hb : b < 2 ^ k) :
    2 ^ k * a + b = (2 ^ k * a) ^^^ b := by
  apply Nat.eq_of_testBit_eq
  intro i
  rw [Nat.testBit_two_pow_mul_add _ hb, Nat.testBit_xor, Nat.testBit_two_pow_mul]
  by_cases hi : i < k
  · simp [hi, Nat.not_le.mpr hi]
  · have hzero : b.testBit i = false :=
      Nat.testBit_lt_two_pow (hb.trans_le (Nat.pow_le_pow_right (by decide) (by omega)))
    simp [hi, Nat.not_lt.mp hi, hzero]

/-- A byte string denotes its first byte and a multiple of 256. -/
theorem leNat_cons (b : UInt8) (bs : List UInt8) :
    leNat (b :: bs) = 2 ^ 8 * leNat bs + b.toNat := by
  rw [leNat]
  omega

section Shift

variable (poly : ℕ)

/-- Shifting is linear. -/
theorem shiftOut_xor (a b : ℕ) : shiftOut poly (a ^^^ b) = shiftOut poly a ^^^ shiftOut poly b := by
  have hparity : (a ^^^ b) % 2 = (a + b) % 2 := Nat.xor_mod_two_eq
  unfold shiftOut
  rw [Nat.xor_div_two, hparity]
  by_cases ha : a % 2 = 1
  · by_cases hb : b % 2 = 1
    · have hab : ¬ (a + b) % 2 = 1 := by omega
      rw [if_neg hab, if_pos ha, if_pos hb, Nat.xor_zero, Nat.xor_comm (b / 2) poly,
        ← Nat.xor_assoc, Nat.xor_xor_cancel_right]
    · have hab : (a + b) % 2 = 1 := by omega
      rw [if_pos hab, if_pos ha, if_neg hb, Nat.xor_zero, Nat.xor_assoc, Nat.xor_assoc,
        Nat.xor_comm (b / 2) poly]
  · by_cases hb : b % 2 = 1
    · have hab : (a + b) % 2 = 1 := by omega
      rw [if_pos hab, if_neg ha, if_pos hb, Nat.xor_zero, Nat.xor_assoc]
    · have hab : ¬ (a + b) % 2 = 1 := by omega
      rw [if_neg hab, if_neg ha, if_neg hb, Nat.xor_zero, Nat.xor_zero, Nat.xor_zero]

/-- Repeated shifting is linear. -/
theorem iterate_shiftOut_xor (k : ℕ) : ∀ a b : ℕ,
    (shiftOut poly)^[k] (a ^^^ b) = (shiftOut poly)^[k] a ^^^ (shiftOut poly)^[k] b := by
  induction k with
  | zero => exact fun _ _ => rfl
  | succ k ih =>
    intro a b
    rw [Function.iterate_succ_apply, shiftOut_xor, ih]
    rfl

/-- A zero bit is shifted out without a trace. -/
theorem shiftOut_two_mul (n : ℕ) : shiftOut poly (2 * n) = n := by
  have heven : ¬ 2 * n % 2 = 1 := by omega
  rw [shiftOut, if_neg heven, Nat.xor_zero]
  omega

/-- Zero bits are shifted out without a trace. -/
theorem iterate_shiftOut_two_pow_mul (k n : ℕ) : (shiftOut poly)^[k] (2 ^ k * n) = n := by
  induction k with
  | zero => simp
  | succ k ih =>
    have hmul : 2 ^ (k + 1) * n = 2 * (2 ^ k * n) := by ring
    rw [Function.iterate_succ_apply, hmul, shiftOut_two_mul, ih]

/-- The bits above the shifted ones only move down. -/
theorem iterate_shiftOut_low (k x : ℕ) :
    (shiftOut poly)^[k] x = x / 2 ^ k ^^^ (shiftOut poly)^[k] (x % 2 ^ k) := by
  have hlow : x % 2 ^ k < 2 ^ k := Nat.mod_lt _ (Nat.two_pow_pos k)
  conv_lhs => rw [← Nat.div_add_mod x (2 ^ k), two_pow_mul_add_eq_xor _ hlow]
  rw [iterate_shiftOut_xor, iterate_shiftOut_two_pow_mul]

/-- The lowest bit comes first. -/
theorem lowBits_succ (k x : ℕ) : lowBits (k + 1) x = decide (x % 2 = 1) :: lowBits k (x / 2) := by
  unfold lowBits
  rw [List.range_succ_eq_map, List.map_cons, List.map_map, Nat.testBit_zero]
  congr 1
  apply List.map_congr_left
  intro i _
  rw [Function.comp_apply, Nat.testBit_succ]

/-- Bits that are taken in one by one may as well be added first and shifted out afterwards. -/
theorem foldl_shiftIn (k : ℕ) : ∀ x n : ℕ,
    (lowBits k x).foldl (shiftIn poly) n = (shiftOut poly)^[k] (n ^^^ x % 2 ^ k) := by
  induction k with
  | zero =>
    intro x n
    have hmod : x % 2 ^ 0 = 0 := Nat.mod_one x
    rw [hmod, Nat.xor_zero]
    rfl
  | succ k ih =>
    intro x n
    have hbit : (decide (x % 2 = 1)).toNat = x % 2 := by
      by_cases hodd : x % 2 = 1
      · rw [decide_eq_true hodd, hodd, Bool.toNat_true]
      · have heven : x % 2 = 0 := by omega
        rw [decide_eq_false hodd, heven, Bool.toNat_false]
    have hmod : x % 2 ^ (k + 1) = (2 * (x / 2 % 2 ^ k)) ^^^ (x % 2) := by
      have hlow : x % 2 < 2 ^ 1 := by omega
      have hsum := two_pow_mul_add_eq_xor (x / 2 % 2 ^ k) hlow
      rw [pow_one] at hsum
      rw [← hsum, pow_succ, Nat.mul_comm (2 ^ k) 2, Nat.mod_mul]
      omega
    have hshift : shiftOut poly (n ^^^ x % 2 ^ (k + 1)) =
        shiftOut poly (n ^^^ x % 2) ^^^ x / 2 % 2 ^ k := by
      rw [hmod, Nat.xor_comm (2 * _), ← Nat.xor_assoc, shiftOut_xor, shiftOut_two_mul]
    rw [lowBits_succ, List.foldl_cons, ih, shiftIn, hbit, Function.iterate_succ_apply, hshift]

/-- The remainder of a message depends on the number that its bytes denote. -/
theorem residue_eq (msg : List UInt8) : ∀ reg : ℕ,
    residue poly reg msg = (shiftOut poly)^[8 * msg.length] (reg ^^^ leNat msg) := by
  induction msg with
  | nil => exact fun reg => by simp [residue, leNat]
  | cons b msg ih =>
    intro reg
    have hb : b.toNat < 2 ^ 8 := b.toNat_lt
    have hlen : 8 * (b :: msg).length = 8 * msg.length + 8 := by
      rw [List.length_cons]
      omega
    have hstep : residue poly reg (b :: msg) =
        residue poly ((shiftOut poly)^[8] (reg ^^^ b.toNat)) msg := rfl
    rw [hstep, ih, hlen, Function.iterate_add_apply, leNat_cons, two_pow_mul_add_eq_xor _ hb,
      Nat.xor_comm (2 ^ 8 * leNat msg), ← Nat.xor_assoc,
      iterate_shiftOut_xor poly 8 (reg ^^^ b.toNat), iterate_shiftOut_two_pow_mul]

end Shift

section Width

variable {poly width : ℕ} (hpoly : 2 ^ width ≤ poly ∧ poly < 2 ^ (width + 1))
include hpoly

/-- The register keeps its width. -/
theorem shiftOut_lt {n : ℕ} (h : n < 2 ^ (width + 1)) : shiftOut poly n < 2 ^ (width + 1) := by
  apply Nat.xor_lt_two_pow
  · omega
  · split
    · exact hpoly.2
    · exact Nat.two_pow_pos _

/-- A register that is not zero stays so: the highest bit of the polynomial is set, and the
shifted register has none there. -/
theorem shiftOut_pos {n : ℕ} (h : n < 2 ^ (width + 1)) (hn : 0 < n) : 0 < shiftOut poly n := by
  apply Nat.pos_of_ne_zero
  intro hzero
  have heq : n / 2 = if n % 2 = 1 then poly else 0 := Nat.xor_eq_zero_iff.mp hzero
  have hhalf : n / 2 < 2 ^ width := by
    have hpow : 2 ^ (width + 1) = 2 * 2 ^ width := by ring
    omega
  have hle := hpoly.1
  split at heq
  · omega
  · omega

/-- A register that is not zero does not become zero. -/
theorem iterate_shiftOut_pos (k : ℕ) : ∀ {n : ℕ}, n < 2 ^ (width + 1) → 0 < n →
    0 < (shiftOut poly)^[k] n := by
  induction k with
  | zero => exact fun _ hn => hn
  | succ k ih =>
    intro n h hn
    rw [Function.iterate_succ_apply]
    exact ih (shiftOut_lt hpoly h) (shiftOut_pos hpoly h hn)

/-- Messages that differ by a pattern not wider than the register have different remainders. -/
theorem residue_ne {msg msg' : List UInt8} (hlen : msg.length = msg'.length) {start burst : ℕ}
    (hburst : leNat msg ^^^ leNat msg' = 2 ^ start * burst) (hlt : burst < 2 ^ (width + 1))
    (hpos : 0 < burst) (reg : ℕ) : residue poly reg msg ≠ residue poly reg msg' := by
  intro heq
  have hdiff : (shiftOut poly)^[8 * msg.length] (2 ^ start * burst) = 0 := by
    rw [residue_eq, residue_eq, ← hlen] at heq
    have hzero := Nat.xor_eq_zero_iff.mpr heq
    rw [← iterate_shiftOut_xor, Nat.xor_comm reg, Nat.xor_assoc, ← Nat.xor_assoc reg,
      Nat.xor_self, Nat.zero_xor, hburst] at hzero
    exact hzero
  have hstart : start ≤ 8 * msg.length := by
    by_contra hlong
    have hrange : ∀ bs : List UInt8, bs.length = msg.length → leNat bs < 2 ^ (8 * msg.length) := by
      intro bs hbs
      rw [pow_mul, ← hbs]
      exact leNat_lt bs
    have hnum : 2 ^ start * burst < 2 ^ (8 * msg.length) := by
      rw [← hburst]
      exact Nat.xor_lt_two_pow (hrange msg rfl) (hrange msg' hlen.symm)
    have hle : 2 ^ (8 * msg.length) ≤ 2 ^ start := Nat.pow_le_pow_right (by decide) (by omega)
    have hmul : 2 ^ start ≤ 2 ^ start * burst := Nat.le_mul_of_pos_right _ hpos
    omega
  have hsplit : 8 * msg.length = (8 * msg.length - start) + start := by omega
  rw [hsplit, Function.iterate_add_apply, iterate_shiftOut_two_pow_mul] at hdiff
  have hkeep := iterate_shiftOut_pos hpoly (8 * msg.length - start) hlt hpos
  omega

end Width

/-! ## Bits of a byte string -/

/-- The bits of a byte string are those of the number that it denotes. -/
theorem testBit_leNat (bs : List UInt8) : ∀ i : ℕ, (leNat bs).testBit i = bitAt bs i := by
  induction bs with
  | nil => exact fun i => by simp [leNat, bitAt]
  | cons b bs ih =>
    intro i
    have hb : b.toNat < 2 ^ 8 := b.toNat_lt
    rw [leNat_cons, Nat.testBit_two_pow_mul_add _ hb]
    unfold bitAt
    by_cases hi : i < 8
    · have hdiv : i / 8 = 0 := by omega
      have hmod : i % 8 = i := by omega
      rw [if_pos hi, hdiv, hmod, List.getD_cons_zero]
    · have hdiv : i / 8 = (i - 8) / 8 + 1 := by omega
      have hmod : i % 8 = (i - 8) % 8 := by omega
      rw [if_neg hi, ih, hdiv, hmod, List.getD_cons_succ, bitAt]

/-- The bits of a byte string behind a front. -/
theorem bitAt_drop (bs : List UInt8) (k i : ℕ) : bitAt (bs.drop k) i = bitAt bs (8 * k + i) := by
  have hdiv : (8 * k + i) / 8 = k + i / 8 := by omega
  have hmod : (8 * k + i) % 8 = i % 8 := by omega
  simp only [bitAt, hdiv, hmod, List.getD_eq_getElem?_getD, List.getElem?_drop]

/-- The bits of the front of a byte string. -/
theorem bitAt_take (bs : List UInt8) {k i : ℕ} (h : i < 8 * k) :
    bitAt (bs.take k) i = bitAt bs i := by
  have hlt : i / 8 < k := by omega
  simp only [bitAt, List.getD_eq_getElem?_getD, List.getElem?_take, if_pos hlt]

/-- There are no bits behind the end. -/
theorem bitAt_of_length_le {bs : List UInt8} {i : ℕ} (h : 8 * bs.length ≤ i) :
    bitAt bs i = false := by
  have hle : bs.length ≤ i / 8 := by omega
  simp [bitAt, List.getD_eq_getElem?_getD, List.getElem?_eq_none hle]

/-- Byte strings of one length with the same bits are equal. -/
theorem eq_of_bitAt_eq {bs bs' : List UInt8} (hlen : bs.length = bs'.length)
    (h : ∀ i, bitAt bs i = bitAt bs' i) : bs = bs' := by
  have hnum : leNat bs = leNat bs' := by
    apply Nat.eq_of_testBit_eq
    intro i
    rw [testBit_leNat, testBit_leNat, h]
  rw [← leBytes_leNat bs, ← leBytes_leNat bs', hlen, hnum]

/-- The difference of byte strings that agree outside a window is a pattern of its width. -/
theorem exists_burst {bs bs' : List UInt8} (hlen : bs.length = bs'.length) (hne : bs ≠ bs')
    {start width : ℕ} (h : ∀ i, bitAt bs i ≠ bitAt bs' i → start ≤ i ∧ i < start + width) :
    ∃ burst, leNat bs ^^^ leNat bs' = 2 ^ start * burst ∧ burst < 2 ^ width ∧ 0 < burst := by
  have hbit : ∀ i, (leNat bs ^^^ leNat bs').testBit i = true → start ≤ i ∧ i < start + width := by
    intro i hi
    rw [Nat.testBit_xor, testBit_leNat, testBit_leNat] at hi
    exact h i (by simpa using hi)
  have hsplit : leNat bs ^^^ leNat bs' = 2 ^ start * ((leNat bs ^^^ leNat bs') / 2 ^ start) := by
    apply Nat.eq_of_testBit_eq
    intro i
    rw [Nat.testBit_two_pow_mul, Nat.testBit_div_two_pow]
    by_cases hi : start ≤ i
    · rw [Nat.sub_add_cancel hi]
      simp [hi]
    · have hzero : (leNat bs ^^^ leNat bs').testBit i = false := by
        by_contra htrue
        exact hi (hbit i (by simpa using htrue)).1
      simp [hi, hzero]
  refine ⟨(leNat bs ^^^ leNat bs') / 2 ^ start, hsplit, ?_, ?_⟩
  · apply Nat.lt_pow_two_of_testBit
    intro i hi
    rw [Nat.testBit_div_two_pow]
    by_contra htrue
    have hin := (hbit (i + start) (by simpa using htrue)).2
    omega
  · apply Nat.pos_of_ne_zero
    intro hzero
    rw [hzero, Nat.mul_zero] at hsplit
    have hnum : leNat bs = leNat bs' := Nat.xor_eq_zero_iff.mp hsplit
    apply hne
    rw [← leBytes_leNat bs, ← leBytes_leNat bs', hlen, hnum]

end FastKV.Lib
