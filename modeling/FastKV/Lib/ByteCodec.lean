import Mathlib.Data.Nat.ModEq
import Mathlib.Tactic.Ring

/-!
# Fixed-width integers in byte strings

Binary formats store unsigned integers in a fixed number of bytes, least
significant byte first. This file gives the encoder, the decoder and the readers
that take a field off the front of a byte string and fail when it is too short.
Nothing here depends on a particular format.
-/

namespace FastKV.Lib

variable {α : Type*}

/-- The first `n` elements of a list and the remainder, if there are that many. -/
def takeExact (n : ℕ) (xs : List α) : Option (List α × List α) :=
  if n ≤ xs.length then some (xs.take n, xs.drop n) else none

/-- Taking exactly the length of a known front gives it back. -/
@[simp] theorem takeExact_append (front rest : List α) :
    takeExact front.length (front ++ rest) = some (front, rest) := by
  simp [takeExact]

/-- A form of `takeExact_append` for a front of a stated length. -/
theorem takeExact_append_of_length {n : ℕ} {front : List α} (rest : List α)
    (h : front.length = n) : takeExact n (front ++ rest) = some (front, rest) := by
  subst h
  exact takeExact_append front rest

/-- A successful take splits the list at the requested position. -/
theorem takeExact_eq_some {n : ℕ} {xs front rest : List α}
    (h : takeExact n xs = some (front, rest)) : xs = front ++ rest ∧ front.length = n := by
  unfold takeExact at h
  split at h
  · simp only [Option.some.injEq, Prod.mk.injEq] at h
    obtain ⟨rfl, rfl⟩ := h
    exact ⟨(List.take_append_drop n xs).symm, by simpa using ‹n ≤ xs.length›⟩
  · cases h

/-- The `width` low-order bytes of `n`, least significant first. -/
def leBytes : ℕ → ℕ → List UInt8
  | 0, _ => []
  | width + 1, n => UInt8.ofNat n :: leBytes width (n / 256)

/-- The number that a little-endian byte string denotes. -/
def leNat : List UInt8 → ℕ
  | [] => 0
  | b :: bs => b.toNat + 256 * leNat bs

/-- The encoder produces exactly the requested number of bytes. -/
@[simp] theorem leBytes_length (width n : ℕ) : (leBytes width n).length = width := by
  induction width generalizing n with
  | zero => rfl
  | succ width ih => simp [leBytes, ih]

/-- Decoding an encoded number reduces it modulo the range of its width. -/
theorem leNat_leBytes_mod (width n : ℕ) : leNat (leBytes width n) = n % 256 ^ width := by
  induction width generalizing n with
  | zero => simp [leBytes, leNat, Nat.mod_one]
  | succ width ih =>
    have hhead : (UInt8.ofNat n).toNat = n % 256 := UInt8.toNat_ofNat'
    rw [leBytes, leNat, ih, hhead, pow_succ' 256 width, Nat.mod_mul]

/-- A number that fits its width is decoded unchanged. -/
theorem leNat_leBytes {width n : ℕ} (h : n < 256 ^ width) : leNat (leBytes width n) = n := by
  rw [leNat_leBytes_mod, Nat.mod_eq_of_lt h]

/-- A byte string denotes a number within the range of its length. -/
theorem leNat_lt (bs : List UInt8) : leNat bs < 256 ^ bs.length := by
  induction bs with
  | nil => simp [leNat]
  | cons b bs ih =>
    have hb := b.toNat_lt
    simp only [leNat, List.length_cons, pow_succ]
    omega

/-- Encoding the number that a byte string denotes gives the string back. -/
theorem leBytes_leNat (bs : List UInt8) : leBytes bs.length (leNat bs) = bs := by
  induction bs with
  | nil => rfl
  | cons b bs ih =>
    have hb := b.toNat_lt
    have hdiv : (b.toNat + 256 * leNat bs) / 256 = leNat bs := by omega
    have hhead : UInt8.ofNat (b.toNat + 256 * leNat bs) = b := by
      apply UInt8.toNat_inj.mp
      rw [UInt8.toNat_ofNat']
      omega
    simp only [List.length_cons, leBytes, leNat, hdiv, hhead, ih]

/-- Read a `width`-byte integer off the front of a byte string. -/
def readLe (width : ℕ) (bs : List UInt8) : Option (ℕ × List UInt8) :=
  (takeExact width bs).map fun (front, rest) => (leNat front, rest)

/-- Reading back an encoded field of the same width. -/
theorem readLe_leBytes {width n : ℕ} (rest : List UInt8) (h : n < 256 ^ width) :
    readLe width (leBytes width n ++ rest) = some (n, rest) := by
  rw [readLe, takeExact_append_of_length rest (leBytes_length width n)]
  simp [leNat_leBytes h]

/-- A successful read consumed exactly the encoding of the number it returned. -/
theorem readLe_eq_some {width n : ℕ} {bs rest : List UInt8}
    (h : readLe width bs = some (n, rest)) : bs = leBytes width n ++ rest ∧ n < 256 ^ width := by
  obtain ⟨⟨front, rest'⟩, hfront, heq⟩ := Option.map_eq_some_iff.mp h
  obtain ⟨hbs, hlen⟩ := takeExact_eq_some hfront
  simp only [Prod.mk.injEq] at heq
  obtain ⟨rfl, rfl⟩ := heq
  subst hlen
  exact ⟨by rw [leBytes_leNat, hbs], leNat_lt front⟩

end FastKV.Lib
