import Mathlib.Data.List.Basic
import Mathlib.Tactic.Common

/-!
# Flat JSON objects

Objects whose members are strings, numbers, booleans and null, as they are written: with the
white space between the tokens and with every string and number as its text. Texts that are not
well formed cannot be built.
-/

namespace FastKV.Lib.Json

/-- A text. -/
abbrev Text := List UInt8

/-! ## Characters -/

/-- Insignificant characters. -/
def IsSpace (b : UInt8) : Prop := b = 0x20 ∨ b = 0x09 ∨ b = 0x0A ∨ b = 0x0D

/-- The digits. -/
def IsDigit (b : UInt8) : Prop := 0x30 ≤ b ∧ b ≤ 0x39

/-- The hexadecimal digits. -/
def IsHex (b : UInt8) : Prop :=
  IsDigit b ∨ (0x41 ≤ b ∧ b ≤ 0x46) ∨ (0x61 ≤ b ∧ b ≤ 0x66)

/-- White space. -/
structure Space where
  /-- The text. -/
  text : Text
  /-- It is insignificant. -/
  spaces : ∀ b ∈ text, IsSpace b

/-- No white space. -/
def Space.empty : Space := ⟨[], fun _ hb => by cases hb⟩

/-- Some digits. -/
structure Digits where
  /-- The text. -/
  text : Text
  /-- There is at least one. -/
  nonempty : text ≠ []
  /-- They are digits. -/
  digits : ∀ d ∈ text, IsDigit d

/-! ## Values -/

/-- A character of a string, as it is written. -/
inductive StringChar
  /-- A character that stands for itself. -/
  | plain (b : UInt8) (hcontrol : 0x20 ≤ b) (hquote : b ≠ 0x22) (hback : b ≠ 0x5C)
  /-- A character behind a backslash. -/
  | escape (c : UInt8) (hc : c ∈ [0x22, 0x5C, 0x2F, 0x62, 0x66, 0x6E, 0x72, 0x74])
  /-- Four hexadecimal digits. -/
  | unicode (ds : Text) (hlen : ds.length = 4) (hds : ∀ d ∈ ds, IsHex d)

/-- The text of a character. -/
def StringChar.text : StringChar → Text
  | .plain b .. => [b]
  | .escape c _ => [0x5C, c]
  | .unicode ds .. => 0x5C :: 0x75 :: ds

/-- What stands between the quotes. -/
def contents (s : List StringChar) : Text := s.flatMap StringChar.text

/-- A number. -/
structure Number where
  /-- Whether there is a minus. -/
  negative : Bool
  /-- The digits before the point. -/
  whole : Digits
  /-- A zero stands alone. -/
  leading : whole.text.head? = some 0x30 → whole.text.length = 1
  /-- The digits behind the point. -/
  fraction : Option Digits
  /-- The exponent: whether the letter is a capital, the sign, if any, whether it is a minus, and
  the digits. -/
  exponent : Option (Bool × Option Bool × Digits)

/-- The text of the digits behind the point. -/
def fractionText : Option Digits → Text
  | none => []
  | some ds => 0x2E :: ds.text

/-- The text of an exponent. -/
def exponentText : Option (Bool × Option Bool × Digits) → Text
  | none => []
  | some (capital, sign, ds) =>
    (if capital then 0x45 else 0x65) ::
      ((sign.map fun minus => if minus then 0x2D else 0x2B).toList ++ ds.text)

/-- The text of a number. -/
def Number.text (n : Number) : Text :=
  (if n.negative then [0x2D] else []) ++ n.whole.text ++ fractionText n.fraction ++
    exponentText n.exponent

/-- A value. -/
inductive Value
  | string (s : List StringChar)
  | number (n : Number)
  | boolean (b : Bool)
  | null

/-- The text of a value. -/
def Value.text : Value → Text
  | .string s => 0x22 :: (contents s ++ [0x22])
  | .number n => n.text
  | .boolean b => if b then [0x74, 0x72, 0x75, 0x65] else [0x66, 0x61, 0x6C, 0x73, 0x65]
  | .null => [0x6E, 0x75, 0x6C, 0x6C]

/-- The value as text: the contents of a string, a literal; null is none. -/
def Value.raw : Value → Option Text
  | .string s => some (contents s)
  | .null => none
  | v => some v.text

/-! ## Objects -/

/-- A member with the white space around its tokens. -/
structure Member where
  /-- In front. -/
  before : Space
  /-- The name. -/
  name : List StringChar
  /-- Before the colon. -/
  beforeColon : Space
  /-- Behind the colon. -/
  afterColon : Space
  /-- The value. -/
  value : Value
  /-- Behind. -/
  after : Space

/-- What stands between the name and the value. -/
def Member.colon (m : Member) : Text := m.beforeColon.text ++ 0x3A :: m.afterColon.text

/-- The text of a member. -/
def Member.text (m : Member) : Text :=
  m.before.text ++ 0x22 :: (contents m.name ++ 0x22 :: (m.colon ++ (m.value.text ++ m.after.text)))

/-- The text of several members. -/
def membersText : List Member → Text
  | [] => []
  | [m] => m.text
  | m :: ms => m.text ++ 0x2C :: membersText ms

/-- A flat object. -/
structure FlatObject where
  /-- White space in front. -/
  before : Space
  /-- White space behind the brace. -/
  inner : Space
  /-- The members. -/
  members : List Member
  /-- White space behind the object. -/
  after : Space

/-- The text of an object. -/
def FlatObject.text (o : FlatObject) : Text :=
  o.before.text ++ 0x7B :: (o.inner.text ++ (membersText o.members ++ 0x7D :: o.after.text))

/-- The value of the first of some members that has a name, as it is written. -/
def lookupMembers (name : Text) : List Member → Option Text
  | [] => none
  | m :: ms => if contents m.name = name then m.value.raw else lookupMembers name ms

/-- The value of the first member that has a name. -/
def FlatObject.lookup (o : FlatObject) (name : Text) : Option Text := lookupMembers name o.members

end FastKV.Lib.Json
