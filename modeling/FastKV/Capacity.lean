import FastKV.Recovery
import Mathlib.Data.Nat.Log

/-!
# The capacity in machine words

`fastkv_open` rounds the requested size up to a power of two in 64-bit words, and the code masks
hashes with the capacity in two places. The loop sets all bits below the highest one, so the
words hold the numbers of the model, and both masks give the same index.
-/

namespace FastKV

/-! ## Words -/

/-- The loop of `fastkv_open` from the shift `i` on, `none` if it takes more rounds. -/
def smearLoop : ℕ → UInt64 → UInt64 → Option UInt64
  | 0, _, _ => none
  | rounds + 1, i, cap =>
    if i < 64 then smearLoop rounds (i <<< 1) (cap ||| cap >>> i) else some cap

/-- The computation of `cap` in `fastkv_open`. -/
def openCapacity (mapSize : UInt64) : Option UInt64 :=
  let cap := if mapSize ≠ 0 then mapSize else 1024 * 1024
  (smearLoop 64 1 (cap - 1)).map (· + 1)

/-- The assertion of `fastkv_ht_create`. -/
def HtCreateAsserts (initialCapacity : UInt64) : Prop :=
  0 < initialCapacity ∧ initialCapacity &&& (initialCapacity - 1) = 0

instance (initialCapacity : UInt64) : Decidable (HtCreateAsserts initialCapacity) :=
  inferInstanceAs (Decidable (_ ∧ _))

/-- The index that `bucket_idx` returns. -/
def bucketIdxWord (capacity : UInt64) (key : Bytes) : UInt64 := hash key &&& (capacity - 1)

/-- The index `idx` in `fastkv_db_check_conflicts`. -/
def conflictIdxWord (capacity : UInt64) (key : Bytes) : UInt64 :=
  let h := hash key
  h &&& (capacity - 1)

/-! ## The loop -/

/-- One round of the loop on numbers. -/
theorem toNat_smear_round {i cap : UInt64} (hi : i.toNat < 64) :
    (cap ||| cap >>> i).toNat = cap.toNat ||| cap.toNat >>> i.toNat := by
  rw [UInt64.toNat_or, UInt64.toNat_shiftRight, Nat.mod_eq_of_lt hi]

/-- At the shift `2 ^ m` every bit has been smeared over `2 ^ m` places; the loop stops when the
shift is the width of a word. -/
theorem smearLoop_spec {x : ℕ} : ∀ {rounds m : ℕ} {i cap : UInt64}, i.toNat = 2 ^ m → m ≤ 6 →
    6 < rounds + m → (∀ b, cap.toNat.testBit b = true ↔ ∃ j < 2 ^ m, x.testBit (b + j) = true) →
    ∃ w, smearLoop rounds i cap = some w ∧
      ∀ b, w.toNat.testBit b = true ↔ ∃ j < 64, x.testBit (b + j) = true := by
  intro rounds
  induction rounds with
  | zero =>
    intro m _ _ _ hm hrounds
    omega
  | succ rounds ih =>
    intro m i cap hi hm hrounds hcap
    rcases Nat.lt_or_ge m 6 with hlt | hge
    · have hpow : 2 ^ m ≤ 2 ^ 5 := Nat.pow_le_pow_right (by decide) (by omega)
      have hsmall : i.toNat < 64 := by omega
      have hnext : (i <<< 1).toNat = 2 ^ (m + 1) := by
        have hshift : (i <<< 1).toNat = i.toNat * 2 % 2 ^ 64 := by
          rw [UInt64.toNat_shiftLeft, Nat.shiftLeft_eq]
          rfl
        rw [hshift, hi, Nat.pow_succ]
        omega
      have hround : ∀ b, (cap ||| cap >>> i).toNat.testBit b = true ↔
          ∃ j < 2 ^ (m + 1), x.testBit (b + j) = true := by
        intro b
        rw [toNat_smear_round hsmall, hi, Nat.pow_succ, Nat.mul_comm]
        exact testBit_smear_step hcap b
      obtain ⟨w, hw, hbits⟩ := ih hnext (by omega) (by omega) hround
      refine ⟨w, ?_, hbits⟩
      rw [smearLoop, if_pos (UInt64.lt_iff_toNat_lt.mpr hsmall), hw]
    · obtain rfl : m = 6 := by omega
      refine ⟨cap, ?_, hcap⟩
      have hstop : ¬ i < 64 := by
        rw [UInt64.lt_iff_toNat_lt, hi]
        decide
      rw [smearLoop, if_neg hstop]

/-- The loop ends and has smeared the word. -/
theorem smearLoop_eq (cap : UInt64) :
    ∃ w, smearLoop 64 1 cap = some w ∧ w.toNat = smear cap.toNat := by
  have hstart : ∀ b, cap.toNat.testBit b = true ↔
      ∃ j < 2 ^ 0, cap.toNat.testBit (b + j) = true := by
    intro b
    simp
  have hone : (1 : UInt64).toNat = 2 ^ 0 := rfl
  obtain ⟨w, hw, hbits⟩ := @smearLoop_spec _ 64 0 1 cap hone (by omega) (by omega) hstart
  refine ⟨w, hw, Nat.eq_of_testBit_eq fun b => ?_⟩
  rw [Bool.eq_iff_iff, hbits, testBit_smear]

/-! ## The capacity -/

/-- Smearing the predecessor of a size rounds the size up to a power of two. -/
theorem smear_pred {size : ℕ} (hpos : 0 < size) (h : size ≤ 2 ^ 63) :
    smear (size - 1) + 1 = 2 ^ Nat.clog 2 size := by
  have hle : size ≤ 2 ^ Nat.clog 2 size := Nat.le_pow_clog (by decide) size
  have hclog : Nat.clog 2 size ≤ 63 := Nat.clog_le_of_le_pow h
  have hlow : size - 1 = 0 ∨ 2 ^ (Nat.clog 2 size - 1) ≤ size - 1 := by
    rcases Nat.lt_or_ge 1 size with hsize | hsize
    · have hlt : 2 ^ (Nat.clog 2 size - 1) < size := Nat.pow_pred_clog_lt_self (by decide) hsize
      right
      omega
    · left
      omega
  have hzero : size - 1 = 0 → Nat.clog 2 size = 0 := by
    intro h1
    exact Nat.clog_of_right_le_one (by omega) 2
  rw [smear_eq (by omega) hlow (by omega) hzero]
  omega

/-- The words of `fastkv_open` hold the least power of two that is not below the size. -/
theorem openCapacity_eq {mapSize : UInt64} (hpos : 1 ≤ mapSize.toNat)
    (h : mapSize.toNat ≤ 2 ^ 63) :
    ∃ cap, openCapacity mapSize = some cap ∧ cap.toNat = 2 ^ Nat.clog 2 mapSize.toNat := by
  have hne : mapSize ≠ 0 := by
    rintro rfl
    exact absurd hpos (by decide)
  have hpred : (mapSize - 1).toNat = mapSize.toNat - 1 :=
    UInt64.toNat_sub_of_le _ _ (UInt64.le_iff_toNat_le.mpr hpos)
  obtain ⟨w, hw, hsmear⟩ := smearLoop_eq (mapSize - 1)
  have hclog : Nat.clog 2 mapSize.toNat ≤ 63 := Nat.clog_le_of_le_pow h
  have hpow : 2 ^ Nat.clog 2 mapSize.toNat ≤ 2 ^ 63 := Nat.pow_le_pow_right (by decide) hclog
  have hround := smear_pred hpos h
  refine ⟨w + 1, ?_, ?_⟩
  · rw [openCapacity, if_pos hne, hw, Option.map_some]
  · rw [UInt64.toNat_add, hsmear, hpred, UInt64.toNat_one, hround]
    omega

/-- A power of two passes the assertion. -/
theorem htCreateAsserts_of_pow {cap : UInt64} {n : ℕ} (hcap : cap.toNat = 2 ^ n) :
    HtCreateAsserts cap := by
  have hpos := Nat.two_pow_pos n
  have hpred : (cap - 1).toNat = 2 ^ n - 1 := by
    rw [UInt64.toNat_sub_of_le _ _ (UInt64.le_iff_toNat_le.mpr (hcap ▸ hpos)), hcap]
    rfl
  constructor
  · exact UInt64.lt_iff_toNat_lt.mpr (hcap ▸ hpos)
  · apply UInt64.toNat_inj.mp
    rw [UInt64.toNat_and, hpred, hcap, Nat.and_two_pow_sub_one_eq_mod, Nat.mod_self]
    rfl

/-- Both places mask a hash in the same way, and the index is in the table. -/
theorem bucketIdxWord_eq {cap : UInt64} (hpos : 0 < cap.toNat) (key : Bytes) :
    (bucketIdxWord cap key).toNat = maskedHash cap.toNat key ∧
      conflictIdxWord cap key = bucketIdxWord cap key ∧ bucketIdxWord cap key < cap := by
  have hpred : (cap - 1).toNat = cap.toNat - 1 :=
    UInt64.toNat_sub_of_le _ _ (UInt64.le_iff_toNat_le.mpr hpos)
  have hidx : (bucketIdxWord cap key).toNat = maskedHash cap.toNat key := by
    rw [bucketIdxWord, UInt64.toNat_and, hpred, maskedHash]
  have hle : maskedHash cap.toNat key ≤ cap.toNat - 1 := Nat.and_le_right
  refine ⟨hidx, rfl, UInt64.lt_iff_toNat_lt.mpr ?_⟩
  omega

/-- For every size up to `2 ^ 63` the loop ends without wrapping, with the smallest power of two
that is not below the size. It passes the assertion, and for every key both places compute the
index of the model, below the capacity. -/
theorem capacity_smallest_power (mapSize : UInt64) (hpos : 1 ≤ mapSize.toNat)
    (h : mapSize.toNat ≤ 2 ^ 63) :
    ∃ cap, openCapacity mapSize = some cap ∧ cap.toNat = roundCapacity mapSize.toNat ∧
      (∃ n, cap.toNat = 2 ^ n) ∧ mapSize ≤ cap ∧
      (∀ n, mapSize.toNat ≤ 2 ^ n → cap.toNat ≤ 2 ^ n) ∧ HtCreateAsserts cap ∧
      ∀ key, (bucketIdxWord cap key).toNat = maskedHash (roundCapacity mapSize.toNat) key ∧
        conflictIdxWord cap key = bucketIdxWord cap key ∧ bucketIdxWord cap key < cap := by
  obtain ⟨cap, hopen, hcap⟩ := openCapacity_eq hpos h
  have hround : cap.toNat = roundCapacity mapSize.toNat := by
    have hne : mapSize.toNat ≠ 0 := by omega
    rw [hcap, roundCapacity, if_neg hne, smear_pred hpos h]
  refine ⟨cap, hopen, hround, ⟨_, hcap⟩, ?_, ?_, htCreateAsserts_of_pow hcap, ?_⟩
  · rw [UInt64.le_iff_toNat_le, hcap]
    exact Nat.le_pow_clog (by decide) _
  · intro n hn
    rw [hcap]
    exact Nat.pow_le_pow_right (by decide) (Nat.clog_le_of_le_pow hn)
  · intro key
    rw [← hround]
    exact bucketIdxWord_eq (hcap ▸ Nat.two_pow_pos _) key

/-- Of the powers of two, 8 is the smallest that is not below 5. -/
theorem capacity_smallest_power_five : roundCapacity 5 = 8 ∧
    ∃ cap, openCapacity 5 = some cap ∧ cap.toNat = roundCapacity 5 := by
  refine ⟨by decide, ?_⟩
  obtain ⟨cap, hopen, hcap, -⟩ := capacity_smallest_power 5 (by decide) (by decide)
  exact ⟨cap, hopen, hcap⟩

/-- At the top of the range a power of two stays as it is. -/
example : openCapacity 0x8000000000000000 = some 0x8000000000000000 := by decide

end FastKV
