import Mathlib.Data.Char
import FastKV.Io

/-!
# File names

Log segments and snapshots are named by a prefix, a time-ordered identifier of 32
hexadecimal digits and a suffix. The directory scans recognise a name by its prefix and by
the place where the suffix first occurs in it; they do not ask what follows the suffix.
-/

namespace FastKV

/-- The digits `uuid7_hex` writes. -/
def hexDigits : Name :=
  ['0', '1', '2', '3', '4', '5', '6', '7', '8', '9', 'a', 'b', 'c', 'd', 'e', 'f']

/-- `WAL_SEG_ID_LEN` and `SNAP_ID_LEN`. -/
def idLen : ℕ := 32

/-- An identifier that `uuid7_hex` can produce. -/
structure Uuid where
  /-- The digits. -/
  hex : Name
  /-- There are 32 of them. -/
  length_hex : hex.length = idLen
  /-- All of them are hexadecimal. -/
  digits : ∀ c ∈ hex, c ∈ hexDigits

/-- Identifiers are compared by `strcmp` of their digits. -/
instance : LinearOrder Uuid :=
  LinearOrder.lift' Uuid.hex fun a b h => by cases a; cases b; congr

/-- The order of identifiers is the order of their digits. -/
theorem Uuid.lt_iff {a b : Uuid} : a < b ↔ a.hex < b.hex := Iff.rfl

/-- An identifier is read from the beginning of a name. -/
theorem Uuid.take_append (id : Uuid) (rest : Name) : (id.hex ++ rest).take idLen = id.hex := by
  rw [← id.length_hex, List.take_left]

/-- An identifier is not empty. -/
theorem Uuid.hex_ne (id : Uuid) : id.hex ≠ [] := by
  intro h
  have hlen := id.length_hex
  rw [h] at hlen
  cases hlen

/-- No digit is a dot. -/
theorem Uuid.dot_not_mem (id : Uuid) : '.' ∉ id.hex := by
  intro hdot
  exact absurd (id.digits '.' hdot) (by decide)

/-- The identifier that repeats one digit. -/
def Uuid.repeated (c : Char) (hc : c ∈ hexDigits) : Uuid where
  hex := List.replicate idLen c
  length_hex := List.length_replicate
  digits _ h := List.eq_of_mem_replicate h ▸ hc

/-- The identifier of zeros, the name of a first segment in the examples. -/
def firstId : Uuid := Uuid.repeated '0' (by decide)

/-- The identifier of ones. -/
def secondId : Uuid := Uuid.repeated '1' (by decide)

/-- The identifier of twos. -/
def thirdId : Uuid := Uuid.repeated '2' (by decide)

/-- `strstr`: where a string first occurs in another. -/
def strstr (needle : Name) : Name → Option ℕ
  | [] => if needle = [] then some 0 else none
  | c :: cs => if needle.isPrefixOf (c :: cs) then some 0 else (strstr needle cs).map (· + 1)

/-- The name test of the directory scans: the part of a name after its prefix, if the
suffix first occurs 32 characters into it. -/
def matchName (pfx sfx name : Name) : Option Name :=
  if pfx.isPrefixOf name then
    match strstr sfx name with
    | none => none
    | some i => if i - pfx.length = idLen then some (name.drop pfx.length) else none
  else none

/-- A suffix that starts with a dot first occurs where the first dot is, if it is there. -/
theorem strstr_append {front sfx : Name} (hfront : '.' ∉ front) (rest : Name) :
    strstr ('.' :: sfx) (front ++ '.' :: sfx ++ rest) = some front.length := by
  induction front with
  | nil =>
    have hpre : ('.' :: sfx).isPrefixOf ('.' :: sfx ++ rest) = true := by
      rw [List.isPrefixOf_iff_prefix]
      exact List.prefix_append _ _
    rw [List.nil_append, List.cons_append] at *
    simp only [strstr, hpre, if_true, List.length_nil]
  | cons c front ih =>
    have hc : ('.' == c) = false := by
      rw [beq_eq_false_iff_ne]
      exact fun h => hfront (List.mem_cons.mpr (Or.inl h))
    have hrest := ih fun h => hfront (by simp [h])
    simp only [List.cons_append, strstr, List.isPrefixOf, hc, Bool.false_and,
      Bool.false_eq_true, if_false] at hrest ⊢
    rw [hrest]
    rfl

/-- A name made of a prefix, an identifier and a suffix is recognised, whatever follows. -/
theorem matchName_eq {pfx : Name} (hpfx : '.' ∉ pfx) (sfx : Name) (id : Uuid) (rest : Name) :
    matchName pfx ('.' :: sfx) (pfx ++ id.hex ++ '.' :: sfx ++ rest) =
      some (id.hex ++ '.' :: sfx ++ rest) := by
  have hpre : pfx.isPrefixOf (pfx ++ id.hex ++ '.' :: sfx ++ rest) = true := by
    rw [List.isPrefixOf_iff_prefix, List.append_assoc, List.append_assoc]
    exact List.prefix_append _ _
  have hdot : '.' ∉ pfx ++ id.hex := by simp [hpfx, id.dot_not_mem]
  have hlen : (pfx ++ id.hex).length - pfx.length = idLen := by simp [id.length_hex]
  rw [matchName, if_pos hpre, strstr_append hdot]
  simp only [hlen, if_true]
  rw [List.append_assoc, List.append_assoc, List.drop_left, List.append_assoc]

/-- `WAL_FILENAME_PFX`. -/
def walPfx : Name := ['w', 'a', 'l', '-']

/-- `WAL_FILENAME_SFX`. -/
def walSfx : Name := ['.', 'l', 'o', 'g']

/-- `SNAP_FILENAME_PFX`. -/
def snapPfx : Name := ['s', 'n', 'a', 'p', 's', 'h', 'o', 't', '-']

/-- `SNAP_FILENAME_SFX`. -/
def snapSfx : Name := ['.', 'b', 'i', 'n']

/-- The path of a log segment. -/
def segName (id : Name) : Name := walPfx ++ id ++ walSfx

/-- The path of a snapshot. -/
def snapName (id : Name) : Name := snapPfx ++ id ++ snapSfx

/-- The path a snapshot is written to before it is renamed. -/
def snapTmpName (id : Name) : Name := snapName id ++ ['.', 't', 'm', 'p']

end FastKV
