import FastKV.Types
import FastKV.Lib.ByteCodec

/-!
# Checksum and hash

`util/crc32.c` in its table-driven form and `util/hash.c` (wyhash). The records of
the log and of the snapshot carry the checksum; the hash chooses the bucket of a key.
-/

namespace FastKV

open Lib

/-- One shift of `init_table`: divide by the reflected Castagnoli polynomial. -/
def crcTableStep (crc : UInt32) : UInt32 :=
  (crc >>> 1) ^^^ (0x82F63B78 &&& -(crc &&& 1))

/-- `crc32c_table[i]` as `init_table` leaves it. -/
def crc32cTable (i : UInt32) : UInt32 := crcTableStep^[8] i

/-- The loop body of `fastkv_crc32c`. -/
def crc32cByte (crc : UInt32) (b : UInt8) : UInt32 :=
  (crc >>> 8) ^^^ crc32cTable ((crc ^^^ b.toUInt32) &&& 0xFF)

/-- `fastkv_crc32c`: continue the checksum `crc` over a buffer. -/
def crc32c (crc : UInt32) (buf : Bytes) : UInt32 := ~~~(buf.foldl crc32cByte (~~~crc))

/-- The check value of CRC-32C, over the digits `123456789`. -/
example : crc32c 0 [49, 50, 51, 52, 53, 54, 55, 56, 57] = 0xE3069283 := by decide +kernel

/-- `_wymix`: multiply to 128 bits and fold the halves together. -/
def wymix (a b : UInt64) : UInt64 :=
  let r := a.toNat * b.toNat
  UInt64.ofNat (r ^^^ (r >>> 64))

/-- `_wyr8` at an offset. -/
def wyr8 (p : Bytes) (off : ℕ) : UInt64 := UInt64.ofNat (leNat ((p.drop off).take 8))

/-- `_wyr4` at an offset. -/
def wyr4 (p : Bytes) (off : ℕ) : UInt64 := UInt64.ofNat (leNat ((p.drop off).take 4))

/-- A single byte, widened. -/
def wyByte (p : Bytes) (off : ℕ) : UInt64 := UInt64.ofNat (p.getD off 0).toNat

/-- The 48-byte loop of `fastkv_hash64`: offset, bytes left and the three lanes. -/
def wyLoop48 (p : Bytes) : ℕ → ℕ → ℕ → UInt64 → UInt64 → UInt64 → ℕ × ℕ × UInt64
  | 0, off, i, seed, s1, s2 => (off, i, seed ^^^ s1 ^^^ s2)
  | fuel + 1, off, i, seed, s1, s2 =>
    let seed := wymix (wyr8 p off ^^^ 0xe7037ed1a0b428db) (wyr8 p (off + 8) ^^^ seed)
    let s1 := wymix (wyr8 p (off + 16) ^^^ 0x8ebc6af09c88c6e3) (wyr8 p (off + 24) ^^^ s1)
    let s2 := wymix (wyr8 p (off + 32) ^^^ 0x589965cc75374cc3) (wyr8 p (off + 40) ^^^ s2)
    if 48 < i - 48 then wyLoop48 p fuel (off + 48) (i - 48) seed s1 s2
    else (off + 48, i - 48, seed ^^^ s1 ^^^ s2)

/-- The 16-byte loop of `fastkv_hash64`. -/
def wyLoop16 (p : Bytes) : ℕ → ℕ → ℕ → UInt64 → ℕ × ℕ × UInt64
  | 0, off, i, seed => (off, i, seed)
  | fuel + 1, off, i, seed =>
    if 16 < i then
      wyLoop16 p fuel (off + 16) (i - 16)
        (wymix (wyr8 p off ^^^ 0xe7037ed1a0b428db) (wyr8 p (off + 8) ^^^ seed))
    else (off, i, seed)

/-- `fastkv_hash64`. Each loop consumes bytes, so the length is enough fuel for both. -/
def hash64 (p : Bytes) (seed : UInt64) : UInt64 :=
  let len := p.length
  let seed := seed ^^^ 0xa0761d6478bd642f
  let (a, b, seed) :=
    if len ≤ 16 then
      if 4 ≤ len then
        let q := (len >>> 3) <<< 2
        ((wyr4 p 0 <<< 32) ||| wyr4 p q,
          (wyr4 p (len - 4) <<< 32) ||| wyr4 p (len - 4 - q), seed)
      else if 0 < len then
        ((wyByte p 0 <<< 16) ||| (wyByte p (len >>> 1) <<< 8) ||| wyByte p (len - 1), 0, seed)
      else (0, 0, seed)
    else
      let (off, i, seed) := if 48 < len then wyLoop48 p len 0 len seed seed seed else (0, len, seed)
      let (off, i, seed) := wyLoop16 p i off i seed
      (wyr8 p (off + i - 16), wyr8 p (off + i - 8), seed)
  wymix (0xa0761d6478bd642f ^^^ UInt64.ofNat len)
    (wymix (a ^^^ 0xe7037ed1a0b428db) (b ^^^ seed))

/-- `fastkv_hash`, the zero-seed variant. -/
def hash (p : Bytes) : UInt64 := hash64 p 0

end FastKV
