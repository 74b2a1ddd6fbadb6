import Mathlib.Algebra.Order.Ring.Nat
import Mathlib.Data.List.Lex

/-!
# Error codes, slices and size limits

The public types of `include/fastkv`. A slice is a byte string or the null slice;
the two differ because a null value is how the engine writes down a deletion.
Timestamps and lengths are natural numbers; the places where the source's 64-bit or
32-bit arithmetic can lose information reduce them explicitly.
-/

namespace FastKV

/-- The contents of a byte buffer. -/
abbrev Bytes := List UInt8

/-- `fastkv_err_t`. -/
inductive Err
  | ok
  | nomem
  | inval
  | io
  | corrupt
  | full
  | notfound
  | keysize
  | valsize
  | txnRo
  | txnConflict
  | txnClosed
  | cursorEof
  deriving DecidableEq, Repr

/-- `fastkv_slice_t` where the data pointer matters: `none` is `FASTKV_SLICE_NULL`. -/
abbrev Slice := Option Bytes

/-- `FASTKV_TS_INVALID`, the largest 64-bit number. -/
def tsInvalid : ℕ := 2 ^ 64 - 1

/-- `FASTKV_TS_MAX`, the end timestamp of a version that is still live. -/
def tsMax : ℕ := 2 ^ 64 - 2

/-- `FASTKV_MAX_KEY_LEN`. -/
def maxKeyLen : ℕ := 4 * 1024

/-- `FASTKV_MAX_VAL_LEN`. -/
def maxValLen : ℕ := 64 * 1024 * 1024

/-- 64-bit unsigned addition, as the engine's atomic counters compute it. -/
def add64 (a b : ℕ) : ℕ := (a + b) % 2 ^ 64

/-- 64-bit unsigned subtraction, which wraps below zero. -/
def sub64 (a b : ℕ) : ℕ := (a + 2 ^ 64 - b) % 2 ^ 64

/-- A sum that does not reach `2 ^ 64` is not reduced. -/
theorem add64_eq {a b : ℕ} (h : a + b < 2 ^ 64) : add64 a b = a + b := Nat.mod_eq_of_lt h

/-- A difference that stays above zero is not reduced. -/
theorem sub64_eq {a b : ℕ} (hb : b ≤ a) (ha : a < 2 ^ 64) : sub64 a b = a - b := by
  have hsum : a + 2 ^ 64 - b = (a - b) + 2 ^ 64 := by omega
  rw [sub64, hsum, Nat.add_mod_right, Nat.mod_eq_of_lt (by omega)]

/-- The order of byte values, for the lexicographic order of keys. -/
instance linearOrderByte : LinearOrder UInt8 where
  le_refl := UInt8.le_refl
  le_trans _ _ _ := UInt8.le_trans
  le_antisymm _ _ := UInt8.le_antisymm
  le_total := UInt8.le_total
  lt_iff_le_not_ge a b := by
    simp only [UInt8.le_iff_toNat_le, UInt8.lt_iff_toNat_lt]
    omega
  toDecidableLE := inferInstance
  toDecidableEq := inferInstance
  toDecidableLT := inferInstance

end FastKV
