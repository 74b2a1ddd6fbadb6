import FastKV.Types
import Mathlib.Data.List.TakeWhile
import Mathlib.Tactic.Common

/-!
# Fields of JSON objects

`json_extract` of `index/json_index.c`: the text is scanned from one quoted string to the next,
and the first one that reads like the field is taken for its name. What follows is its value. A
read outside the text has no result here.
-/

namespace FastKV

/-! ## The scanner -/

/-- The character that opens and closes a string. -/
def quote : UInt8 := 0x22

/-- The character that begins an escape. -/
def backslash : UInt8 := 0x5C

/-- A loop that moves on while a character meets a condition. -/
def skipWhile (cond : UInt8 → Bool) (json : Bytes) : ℕ → ℕ → Option ℕ
  | 0, _ => none
  | fuel + 1, p =>
    if p < json.length then do
      let b ← json[p]?
      if cond b then skipWhile cond json fuel (p + 1) else pure p
    else pure p

/-- The loop over the contents of a string. The character behind a backslash is skipped without a
look at the end of the text. -/
def skipString (json : Bytes) : ℕ → ℕ → Option ℕ
  | 0, _ => none
  | fuel + 1, p =>
    if p < json.length then do
      let b ← json[p]?
      if b = quote then pure p
      else if b = backslash then skipString json fuel (p + 2)
      else skipString json fuel (p + 1)
    else pure p

/-- `memcmp` of the text with a string. -/
def sameAt (json : Bytes) (p : ℕ) (s : Bytes) : Option Bool :=
  if p + s.length ≤ json.length then some (decide ((json.drop p).take s.length = s)) else none

/-- The test of a name: the field and a closing quote. -/
def nameAt (json field : Bytes) (p : ℕ) : Option Bool :=
  if field.length + 1 ≤ json.length - p then do
    let same ← sameAt json p field
    if same then do
      let b ← json[p + field.length]?
      pure (decide (b = quote))
    else pure false
  else pure false

/-- The characters between a name and its value. -/
def isSeparator (b : UInt8) : Bool := b = 0x3A || b = 0x20 || b = 0x09

/-- The digits. -/
def isDigit (b : UInt8) : Bool := 0x30 ≤ b && b ≤ 0x39

/-- The characters of a number. -/
def isNumberChar (b : UInt8) : Bool :=
  isDigit b || b = 0x2E || b = 0x2D || b = 0x65 || b = 0x45 || b = 0x2B

/-- `true`. -/
def trueText : Bytes := [0x74, 0x72, 0x75, 0x65]

/-- `false`. -/
def falseText : Bytes := [0x66, 0x61, 0x6C, 0x73, 0x65]

/-- The test for one of the two literals. -/
def literalAt (json : Bytes) (b : UInt8) (p : ℕ) (text : Bytes) : Option Bool :=
  if text.head? = some b ∧ text.length ≤ json.length - p then sameAt json p text else pure false

/-- What `json_extract` does behind a name: where the value begins, and its length. -/
def extractValue (json : Bytes) (p : ℕ) : Option (Option (ℕ × ℕ)) := do
  let p ← skipWhile isSeparator json (json.length + 1) p
  if json.length ≤ p then pure none
  else
    let b ← json[p]?
    if b = quote then do
      let q ← skipString json (json.length + 1) (p + 1)
      pure (some (p + 1, q - (p + 1)))
    else if b = 0x2D || isDigit b then do
      let q ← skipWhile isNumberChar json (json.length + 1) p
      pure (some (p, q - p))
    else do
      let isTrue ← literalAt json b p trueText
      if isTrue then pure (some (p, 4))
      else do
        let isFalse ← literalAt json b p falseText
        if isFalse then pure (some (p, 5)) else pure none

/-- The outer loop of `json_extract`. -/
def extractLoop (json field : Bytes) : ℕ → ℕ → Option (Option (ℕ × ℕ))
  | 0, _ => none
  | fuel + 1, p =>
    if p < json.length then do
      let p ← skipWhile (· ≠ quote) json (json.length + 1) p
      if json.length ≤ p then pure none
      else
        let isName ← nameAt json field (p + 1)
        if isName then extractValue json (p + 1 + (field.length + 1))
        else do
          let p ← skipString json (json.length + 1) (p + 1)
          extractLoop json field fuel (if p < json.length then p + 1 else p)
    else pure none

/-- `json_extract`: where the value begins, and its length. -/
def jsonExtract (json field : Bytes) : Option (Option (ℕ × ℕ)) :=
  extractLoop json field (json.length + 1) 0

/-! ## The loops -/

section Loops

variable {json : Bytes}

/-- A character within the text. -/
theorem drop_eq_cons {p : ℕ} (hp : p < json.length) :
    ∃ b, json[p]? = some b ∧ json.drop p = b :: json.drop (p + 1) :=
  ⟨json[p], List.getElem?_eq_getElem hp, List.drop_eq_getElem_cons hp⟩

/-- A loop over characters that meet a condition stops behind the last of them. -/
theorem skipWhile_eq (cond : UInt8 → Bool) (fuel : ℕ) : ∀ p, json.length - p < fuel →
    skipWhile cond json fuel p = some (p + ((json.drop p).takeWhile cond).length) := by
  induction fuel with
  | zero => exact fun p hfuel => absurd hfuel (Nat.not_lt_zero _)
  | succ fuel ih =>
    intro p hfuel
    unfold skipWhile
    split
    · rename_i hlt
      obtain ⟨b, hb, hdrop⟩ := drop_eq_cons hlt
      rw [hb, hdrop]
      cases hcond : cond b with
      | true =>
        rw [List.takeWhile_cons_of_pos hcond, List.length_cons]
        simp only [Option.bind_eq_bind, Option.bind_some, hcond, if_true]
        rw [ih (p + 1) (by omega), Option.some.injEq]
        omega
      | false =>
        rw [List.takeWhile_cons_of_neg (by simp [hcond])]
        simp only [Option.bind_eq_bind, Option.bind_some, hcond]
        rfl
    · rename_i hge
      rw [List.drop_eq_nil_of_le (Nat.not_lt.mp hge)]
      rfl

/-- How far the loop over a string moves in the text that is left. -/
def stringSpan : Bytes → ℕ
  | [] => 0
  | [b] => if b = quote then 0 else if b = backslash then 2 else 1
  | b :: c :: rest =>
    if b = quote then 0
    else if b = backslash then 2 + stringSpan rest
    else 1 + stringSpan (c :: rest)

/-- A character that ends nothing and escapes nothing. -/
theorem stringSpan_plain {b : UInt8} (hquote : b ≠ quote) (hback : b ≠ backslash) (rest : Bytes) :
    stringSpan (b :: rest) = 1 + stringSpan rest := by
  cases rest <;> simp [stringSpan, hquote, hback]

/-- A closing quote. -/
theorem stringSpan_quote (rest : Bytes) : stringSpan (quote :: rest) = 0 := by
  cases rest <;> rfl

/-- A backslash, and what it escapes. -/
theorem stringSpan_backslash (rest : Bytes) :
    stringSpan (backslash :: rest) = 2 + stringSpan rest.tail := by
  cases rest <;> rfl

/-- The loop over a string moves that far. -/
theorem skipString_eq (fuel : ℕ) : ∀ p, json.length - p < fuel →
    skipString json fuel p = some (p + stringSpan (json.drop p)) := by
  induction fuel with
  | zero => exact fun p hfuel => absurd hfuel (Nat.not_lt_zero _)
  | succ fuel ih =>
    intro p hfuel
    unfold skipString
    split
    · rename_i hlt
      obtain ⟨b, hb, hdrop⟩ := drop_eq_cons hlt
      rw [hb, hdrop]
      simp only [Option.bind_eq_bind, Option.bind_some]
      by_cases hquote : b = quote
      · rw [if_pos hquote, hquote, stringSpan_quote]
        rfl
      · rw [if_neg hquote]
        by_cases hback : b = backslash
        · have htail : (json.drop (p + 1)).tail = json.drop (p + 2) := List.tail_drop
          rw [if_pos hback, hback, stringSpan_backslash, htail, ih (p + 2) (by omega),
            Option.some.injEq]
          omega
        · rw [if_neg hback, stringSpan_plain hquote hback, ih (p + 1) (by omega),
            Option.some.injEq]
          omega
    · rename_i hge
      rw [List.drop_eq_nil_of_le (Nat.not_lt.mp hge)]
      rfl

/-- `memcmp` within the text is a test for a prefix. -/
theorem sameAt_eq {p : ℕ} {s : Bytes} (hp : p + s.length ≤ json.length) :
    sameAt json p s = some (decide (s <+: json.drop p)) := by
  have hiff : (json.drop p).take s.length = s ↔ s <+: json.drop p := by
    rw [List.prefix_iff_eq_take]
    exact eq_comm
  rw [sameAt, if_pos hp]
  simp only [hiff]

/-- The test of a name is a test for the field and a quote. -/
theorem nameAt_eq (field : Bytes) (p : ℕ) :
    nameAt json field p = some (decide (field ++ [quote] <+: json.drop p)) := by
  have hlen : (json.drop p).length = json.length - p := List.length_drop
  unfold nameAt
  split
  · rename_i hfits
    rw [sameAt_eq (by omega)]
    simp only [Option.bind_eq_bind, Option.bind_some]
    by_cases hfield : field <+: json.drop p
    · have hfield' := hfield
      obtain ⟨t, ht⟩ := hfield
      have htlen := congrArg List.length ht
      rw [List.length_append, hlen] at htlen
      cases t with
      | nil =>
        rw [List.length_nil] at htlen
        omega
      | cons b t =>
        have hb : json[p + field.length]? = some b := by
          rw [← List.getElem?_drop, ← ht, List.getElem?_append_right (Nat.le_refl _), Nat.sub_self]
          rfl
        have hiff : field ++ [quote] <+: json.drop p ↔ b = quote := by
          rw [← ht, List.prefix_append_right_inj, List.singleton_prefix_cons_iff]
          exact eq_comm
        simp [hb, hiff, hfield']
    · have hnot : ¬ field ++ [quote] <+: json.drop p :=
        fun hprefix => hfield ((List.prefix_append field [quote]).trans hprefix)
      simp [hfield, hnot]
  · rename_i hshort
    have hnot : ¬ field ++ [quote] <+: json.drop p := by
      intro hprefix
      have hle := hprefix.length_le
      rw [List.length_append, hlen, List.length_singleton] at hle
      exact hshort hle
    simp [hnot]

/-- The test for a literal is a test for a prefix. -/
theorem literalAt_eq {b : UInt8} {p : ℕ} {rest text : Bytes} (hdrop : json.drop p = b :: rest)
    (htext : text ≠ []) : literalAt json b p text = some (decide (text <+: json.drop p)) := by
  have hlen : (json.drop p).length = json.length - p := List.length_drop
  unfold literalAt
  split
  · rename_i hfits
    have hpos := List.length_pos_of_ne_nil htext
    exact sameAt_eq (by omega)
  · rename_i hshort
    have hnot : ¬ text <+: json.drop p := by
      intro hprefix
      apply hshort
      constructor
      · obtain ⟨c, text, rfl⟩ := List.exists_cons_of_ne_nil htext
        rw [hdrop, List.cons_prefix_cons] at hprefix
        rw [List.head?_cons, hprefix.1]
      · rw [← hlen]
        exact hprefix.length_le
    simp [hnot]

end Loops

/-! ## The text that is left -/

/-- What follows the first string that reads like the field. Strings before it are passed over,
and so is what stands between them. -/
def found (field s : Bytes) : Option Bytes :=
  match h : s.dropWhile (· ≠ quote) with
  | [] => none
  | _ :: t =>
    if field ++ [quote] <+: t then some (t.drop (field.length + 1))
    else found field (t.drop (stringSpan t + 1))
termination_by s.length
decreasing_by
  have hle := List.length_dropWhile_le (fun b : UInt8 => decide (b ≠ quote)) s
  rw [h, List.length_cons] at hle
  rw [List.length_drop]
  omega

/-- There is no string. -/
theorem found_of_nil {field s : Bytes} (h : s.dropWhile (fun b => decide (b ≠ quote)) = []) :
    found field s = none := by
  rw [found]
  split
  · rfl
  · rename_i hcons
    rw [h] at hcons
    cases hcons

/-- The first string is the field, or is passed over. -/
theorem found_of_cons {field s t : Bytes} {b : UInt8}
    (h : s.dropWhile (fun b => decide (b ≠ quote)) = b :: t) : found field s =
      if field ++ [quote] <+: t then some (t.drop (field.length + 1))
      else found field (t.drop (stringSpan t + 1)) := by
  conv_lhs => rw [found]
  split
  · rename_i hnil
    rw [h] at hnil
    cases hnil
  · rename_i hcons
    rw [h] at hcons
    cases hcons
    rfl

/-- Where the value behind a name begins in the text that is left, and its length. -/
def valueOf (t : Bytes) : Option (ℕ × ℕ) :=
  let gap := (t.takeWhile isSeparator).length
  match t.dropWhile isSeparator with
  | [] => none
  | b :: v =>
    if b = quote then some (gap + 1, stringSpan v)
    else if b = 0x2D || isDigit b then some (gap, ((b :: v).takeWhile isNumberChar).length)
    else if trueText <+: b :: v then some (gap, 4)
    else if falseText <+: b :: v then some (gap, 5)
    else none

section Scan

variable {json : Bytes}

/-- What is left behind the characters that meet a condition. -/
theorem drop_takeWhile (json : Bytes) (cond : UInt8 → Bool) (p : ℕ) :
    json.drop (p + ((json.drop p).takeWhile cond).length) = (json.drop p).dropWhile cond := by
  have h : ((json.drop p).takeWhile cond ++ (json.drop p).dropWhile cond).drop
      ((json.drop p).takeWhile cond).length = (json.drop p).dropWhile cond := List.drop_left
  rwa [List.takeWhile_append_dropWhile, List.drop_drop] at h

/-- The value is found behind a name. -/
theorem extractValue_eq (p : ℕ) : extractValue json p =
    some ((valueOf (json.drop p)).map fun v => (p + v.1, v.2)) := by
  have hfuel : ∀ q, json.length - q < json.length + 1 := by omega
  have hrest := drop_takeWhile json isSeparator p
  unfold extractValue valueOf
  rw [skipWhile_eq isSeparator _ p (hfuel p)]
  generalize ((json.drop p).takeWhile isSeparator).length = gap at hrest ⊢
  simp only [Option.bind_eq_bind, Option.bind_some]
  rw [← hrest]
  by_cases hend : json.length ≤ p + gap
  · rw [if_pos hend, List.drop_eq_nil_of_le hend]
    rfl
  · rw [if_neg hend]
    obtain ⟨b, hb, hdrop⟩ := drop_eq_cons (Nat.not_le.mp hend)
    rw [hb, hdrop]
    simp only [Option.bind_some]
    by_cases hquote : b = quote
    · rw [if_pos hquote, if_pos hquote, skipString_eq _ _ (hfuel _)]
      simp only [Option.bind_some, Option.pure_def, Option.map_some, Option.some.injEq,
        Prod.mk.injEq]
      omega
    · rw [if_neg hquote, if_neg hquote]
      by_cases hnumber : (b = 0x2D || isDigit b) = true
      · rw [if_pos hnumber, if_pos hnumber, skipWhile_eq _ _ _ (hfuel _), hdrop]
        simp only [Option.bind_some, Option.pure_def, Option.map_some, Option.some.injEq,
          Prod.mk.injEq, true_and]
        omega
      · rw [if_neg hnumber, if_neg hnumber, literalAt_eq hdrop (by decide),
          literalAt_eq hdrop (by decide), hdrop]
        simp only [Option.bind_some]
        by_cases htrue : trueText <+: b :: json.drop (p + gap + 1)
        · simp [htrue]
        · by_cases hfalse : falseText <+: b :: json.drop (p + gap + 1)
          · simp [htrue, hfalse]
          · simp [htrue, hfalse]

/-- The scan from some place on. -/
theorem extractLoop_eq (field : Bytes) (fuel : ℕ) : ∀ p, json.length - p < fuel →
    extractLoop json field fuel p = some ((found field (json.drop p)).bind fun t =>
      (valueOf t).map fun v => (json.length - t.length + v.1, v.2)) := by
  induction fuel with
  | zero => exact fun p hfuel => absurd hfuel (Nat.not_lt_zero _)
  | succ fuel ih =>
    intro p hfuel
    have hloop : ∀ q, json.length - q < json.length + 1 := by omega
    have hrest := drop_takeWhile json (fun b => decide (b ≠ quote)) p
    unfold extractLoop
    split
    · rw [skipWhile_eq _ _ p (hloop p)]
      generalize ((json.drop p).takeWhile fun b => decide (b ≠ quote)).length = gap at hrest ⊢
      simp only [Option.bind_eq_bind, Option.bind_some]
      by_cases hend : json.length ≤ p + gap
      · rw [List.drop_eq_nil_of_le hend] at hrest
        rw [if_pos hend, found_of_nil hrest.symm]
        rfl
      · obtain ⟨b, -, hdrop⟩ := drop_eq_cons (Nat.not_le.mp hend)
        rw [hdrop] at hrest
        rw [if_neg hend, nameAt_eq, found_of_cons hrest.symm]
        simp only [Option.bind_some]
        by_cases hname : field ++ [quote] <+: json.drop (p + gap + 1)
        · rw [if_pos hname, if_pos (decide_eq_true hname), extractValue_eq, List.drop_drop,
            Option.bind_some]
          have hle := hname.length_le
          rw [List.length_append, List.length_singleton, List.length_drop] at hle
          have hpos : json.length - (json.drop (p + gap + 1 + (field.length + 1))).length =
              p + gap + 1 + (field.length + 1) := by
            rw [List.length_drop]
            omega
          rw [hpos]
        · rw [if_neg hname, if_neg (by simp [hname]), skipString_eq _ _ (hloop _), List.drop_drop]
          generalize stringSpan (json.drop (p + gap + 1)) = span
          simp only [Option.bind_some]
          have hnext : p + gap + 1 + (span + 1) = p + gap + 1 + span + 1 := rfl
          rw [hnext]
          split
          · rw [ih _ (by omega)]
          · rename_i hlast
            rw [ih _ (by omega), List.drop_eq_nil_of_le (Nat.not_lt.mp hlast),
              List.drop_eq_nil_of_le (by omega)]
    · rename_i hge
      rw [List.drop_eq_nil_of_le (Nat.not_lt.mp hge), found_of_nil rfl]
      rfl

end Scan

/-- The extractor always has a result: it ends, and reads nothing outside the text. -/
theorem jsonExtract_eq (json field : Bytes) : jsonExtract json field =
    some ((found field json).bind fun t =>
      (valueOf t).map fun v => (json.length - t.length + v.1, v.2)) :=
  extractLoop_eq field (json.length + 1) 0 (by omega)

/-! ## Strings -/

/-- The contents of a string, as the loop over it sees them: a backslash takes the next character
with it, and there is no other quote. -/
inductive Chars : Bytes → Prop
  | nil : Chars []
  | plain {b : UInt8} {body : Bytes} (hquote : b ≠ quote) (hback : b ≠ backslash)
      (h : Chars body) : Chars (b :: body)
  | escaped (c : UInt8) {body : Bytes} (h : Chars body) : Chars (backslash :: c :: body)

/-- The loop goes on behind the characters. -/
theorem Chars.span_append {body : Bytes} (h : Chars body) (rest : Bytes) :
    stringSpan (body ++ rest) = body.length + stringSpan rest := by
  induction h with
  | nil => exact (Nat.zero_add _).symm
  | plain hquote hback h ih =>
    rw [List.cons_append, stringSpan_plain hquote hback, ih, List.length_cons]
    omega
  | escaped c h ih =>
    rw [List.cons_append, List.cons_append, stringSpan_backslash, List.tail_cons, ih,
      List.length_cons, List.length_cons]
    omega

section Span

variable {body : Bytes}

/-- The loop stops at the closing quote. -/
theorem Chars.span_closed (h : Chars body) (rest : Bytes) :
    stringSpan (body ++ quote :: rest) = body.length := by
  rw [h.span_append, stringSpan_quote, Nat.add_zero]

/-- Without one it stops at the end. -/
theorem Chars.span_unclosed (h : Chars body) : stringSpan body = body.length := by
  have hspan := h.span_append []
  rwa [List.append_nil] at hspan

/-- Behind a lone backslash it has gone too far. -/
theorem Chars.span_escape (h : Chars body) :
    stringSpan (body ++ [backslash]) = body.length + 2 := h.span_append [backslash]

end Span

/-- A string is closed, or it is not, or it ends in a lone backslash. -/
theorem string_cases (s : Bytes) :
    (∃ body rest, Chars body ∧ s = body ++ quote :: rest) ∨ Chars s ∨
      ∃ body, Chars body ∧ s = body ++ [backslash] := by
  induction hlen : s.length using Nat.strong_induction_on generalizing s with
  | _ n ih =>
    cases s with
    | nil => exact Or.inr (Or.inl .nil)
    | cons b rest =>
      rw [List.length_cons] at hlen
      by_cases hquote : b = quote
      · left
        rw [hquote]
        exact ⟨[], rest, .nil, rfl⟩
      · by_cases hback : b = backslash
        · rw [hback]
          cases rest with
          | nil => exact Or.inr (Or.inr ⟨[], .nil, rfl⟩)
          | cons c rest =>
            rw [List.length_cons] at hlen
            rcases ih rest.length (by omega) rest rfl with
              ⟨body, after, hbody, heq⟩ | hrest | ⟨body, hbody, heq⟩
            · left
              exact ⟨backslash :: c :: body, after, .escaped c hbody, by rw [heq]; rfl⟩
            · right; left
              exact .escaped c hrest
            · right; right
              exact ⟨backslash :: c :: body, .escaped c hbody, by rw [heq]; rfl⟩
        · rcases ih rest.length (by omega) rest rfl with
            ⟨body, after, hbody, heq⟩ | hrest | ⟨body, hbody, heq⟩
          · left
            exact ⟨b :: body, after, .plain hquote hback hbody, by rw [heq]; rfl⟩
          · right; left
            exact .plain hquote hback hrest
          · right; right
            exact ⟨b :: body, .plain hquote hback hbody, by rw [heq]; rfl⟩

/-- The scan passes over closed strings that do not read like the field, and finds the first that
does. -/
inductive Finds (field : Bytes) : Bytes → Bytes → Prop
  | here {gap rest : Bytes} (hgap : quote ∉ gap) :
    Finds field (gap ++ quote :: (field ++ quote :: rest)) rest
  | later {gap body s rest : Bytes} (hgap : quote ∉ gap) (hbody : Chars body)
    (hother : ¬ field ++ [quote] <+: body ++ quote :: s) (h : Finds field s rest) :
    Finds field (gap ++ quote :: (body ++ quote :: s)) rest

section Finds

variable {field s rest : Bytes}

/-- Characters before the first quote. -/
theorem dropWhile_gap {gap : Bytes} (hgap : quote ∉ gap) (t : Bytes) :
    (gap ++ quote :: t).dropWhile (fun b => decide (b ≠ quote)) = quote :: t := by
  rw [List.dropWhile_append_of_pos]
  · simp
  · intro b hb
    simp only [decide_eq_true_eq]
    intro heq
    exact hgap (heq ▸ hb)

/-- A string that is passed over. -/
theorem found_later {gap body : Bytes} (hgap : quote ∉ gap) (hbody : Chars body)
    (hother : ¬ field ++ [quote] <+: body ++ quote :: s) :
    found field (gap ++ quote :: (body ++ quote :: s)) = found field s := by
  have hdrop : (body ++ quote :: s).drop (body.length + 1) = s := by
    rw [← List.drop_drop, List.drop_left]
    rfl
  rw [found_of_cons (dropWhile_gap hgap _), if_neg hother, hbody.span_closed, hdrop]

/-- The string that is found. -/
theorem found_here {gap : Bytes} (hgap : quote ∉ gap) :
    found field (gap ++ quote :: (field ++ quote :: rest)) = some rest := by
  have hprefix : field ++ [quote] <+: field ++ quote :: rest :=
    (List.prefix_append_right_inj _).mpr (List.singleton_prefix_cons_iff.mpr rfl)
  have hdrop : (field ++ quote :: rest).drop (field.length + 1) = rest := by
    rw [← List.drop_drop, List.drop_left]
    rfl
  rw [found_of_cons (dropWhile_gap hgap _), if_pos hprefix, hdrop]

/-- The text up to the first quote. -/
theorem gap_of_dropWhile {t : Bytes} {b : UInt8}
    (h : s.dropWhile (fun b => decide (b ≠ quote)) = b :: t) :
    ∃ gap, quote ∉ gap ∧ s = gap ++ quote :: t := by
  have hquote : b = quote := by
    have hhead := List.head?_dropWhile_not (fun b : UInt8 => decide (b ≠ quote)) s
    rw [h] at hhead
    simpa using hhead
  refine ⟨s.takeWhile fun b => decide (b ≠ quote), ?_, ?_⟩
  · intro hmem
    exact absurd (List.mem_takeWhile_imp hmem) (by simp)
  · have hsplit := List.takeWhile_append_dropWhile (p := fun b : UInt8 => decide (b ≠ quote))
      (l := s)
    rw [h, hquote] at hsplit
    exact hsplit.symm

/-- In a string that is not closed nothing is found. -/
theorem found_unclosed {t : Bytes} (h : t.length ≤ stringSpan t) :
    found field (t.drop (stringSpan t + 1)) = none := by
  rw [List.drop_eq_nil_of_le (by omega)]
  exact found_of_nil rfl

/-- What is found. -/
theorem found_eq_some_iff : found field s = some rest ↔ Finds field s rest := by
  constructor
  · intro h
    induction hlen : s.length using Nat.strong_induction_on generalizing s with
    | _ n ih =>
      cases hcut : s.dropWhile fun b => decide (b ≠ quote) with
      | nil =>
        rw [found_of_nil hcut] at h
        cases h
      | cons b t =>
        obtain ⟨gap, hgap, heq⟩ := gap_of_dropWhile hcut
        rw [found_of_cons hcut] at h
        split at h
        · rename_i hfield
          obtain ⟨t', ht'⟩ := hfield
          rw [Option.some.injEq, ← ht', List.append_assoc, ← List.drop_drop, List.drop_left] at h
          rw [heq, ← ht', ← h, List.append_assoc]
          exact .here hgap
        · rename_i hother
          rcases string_cases t with ⟨body, after, hbody, ht⟩ | ht | ⟨body, hbody, ht⟩
          · rw [ht] at heq hother
            rw [ht, hbody.span_closed, ← List.drop_drop, List.drop_left] at h
            have hlater : Finds field after rest := by
              apply ih after.length _ h rfl
              rw [← hlen, heq]
              simp only [List.length_append, List.length_cons]
              omega
            rw [heq]
            exact .later hgap hbody hother hlater
          · rw [found_unclosed (Nat.le_of_eq ht.span_unclosed.symm)] at h
            cases h
          · have hover := hbody.span_escape
            rw [← ht] at hover
            have hlength := congrArg List.length ht
            rw [List.length_append, List.length_singleton] at hlength
            rw [found_unclosed (by omega)] at h
            cases h
  · intro h
    induction h with
    | here hgap => exact found_here hgap
    | later hgap hbody hother _ ih => rw [found_later hgap hbody hother, ih]

end Finds

/-- What is left is part of the text. -/
theorem Finds.length_le {field s rest : Bytes} (h : Finds field s rest) :
    rest.length ≤ s.length := by
  induction h with
  | here hgap =>
    simp only [List.length_append, List.length_cons]
    omega
  | later hgap hbody hother h ih =>
    simp only [List.length_append, List.length_cons]
    omega

/-! ## Values -/

/-- A string behind separators. -/
theorem valueOf_string {gap : Bytes} (hgap : ∀ b ∈ gap, isSeparator b = true) (v : Bytes) :
    valueOf (gap ++ quote :: v) = some (gap.length + 1, stringSpan v) := by
  have htake : (gap ++ quote :: v).takeWhile isSeparator = gap := by
    rw [List.takeWhile_append_of_pos hgap, List.takeWhile_cons_of_neg (by decide),
      List.append_nil]
  have hdrop : (gap ++ quote :: v).dropWhile isSeparator = quote :: v := by
    rw [List.dropWhile_append_of_pos hgap, List.dropWhile_cons_of_neg (by decide)]
  simp only [valueOf, htake, hdrop, if_true]

/-- A value lies within the text, or is a string. -/
theorem valueOf_cases {t : Bytes} {i n : ℕ} (h : valueOf t = some (i, n)) :
    i + n ≤ t.length ∨ ∃ gap v, (∀ b ∈ gap, isSeparator b = true) ∧ t = gap ++ quote :: v := by
  have hsplit := List.takeWhile_append_dropWhile (p := isSeparator) (l := t)
  unfold valueOf at h
  generalize hrest : t.dropWhile isSeparator = rest at h hsplit
  cases rest with
  | nil => cases h
  | cons b v =>
    have hlen := congrArg List.length hsplit
    rw [List.length_append] at hlen
    simp only at h
    split at h
    · rename_i hquote
      right
      refine ⟨t.takeWhile isSeparator, v, fun c hc => List.mem_takeWhile_imp hc, ?_⟩
      rw [← hquote, hsplit]
    · left
      split at h
      · cases h
        have hle := (List.takeWhile_prefix (l := b :: v) isNumberChar).length_le
        omega
      · split at h
        · rename_i htrue
          cases h
          have hle := htrue.length_le
          have hfour : trueText.length = 4 := rfl
          omega
        · split at h
          · rename_i hfalse
            cases h
            have hle := hfalse.length_le
            have hfive : falseText.length = 5 := rfl
            omega
          · cases h

/-! ## Staying inside -/

/-- The extractor ends, reads nothing outside the text, and returns a part of it. -/
def StaysInside (json field : Bytes) : Prop :=
  ∃ r, jsonExtract json field = some r ∧
    ∀ start len, r = some (start, len) → start + len ≤ json.length

/-- The string behind the name has no closing quote, and the text ends in its last escape, which
has no character. -/
def EndsInEscape (json field : Bytes) : Prop :=
  ∃ gap body, Finds field json (gap ++ quote :: (body ++ [backslash])) ∧
    (∀ b ∈ gap, isSeparator b = true) ∧ Chars body

/-- The extractor stays inside exactly the texts that do not end in an escape of the value. -/
theorem staysInside_iff (json field : Bytes) :
    StaysInside json field ↔ ¬ EndsInEscape json field := by
  constructor
  · rintro ⟨r, hr, hinside⟩ ⟨gap, body, hfinds, hgap, hbody⟩
    have hle := hfinds.length_le
    rw [jsonExtract_eq, found_eq_some_iff.mpr hfinds, Option.bind_some, valueOf_string hgap,
      hbody.span_escape, Option.some.injEq] at hr
    have hover := hinside _ _ hr.symm
    simp only [List.length_append, List.length_cons, List.length_nil] at hle hover
    omega
  · intro hends
    refine ⟨_, jsonExtract_eq json field, fun start len hr => ?_⟩
    obtain ⟨t, ht, hvalue⟩ := Option.bind_eq_some_iff.mp hr
    have hfinds := found_eq_some_iff.mp ht
    have hle := hfinds.length_le
    obtain ⟨⟨i, n⟩, hin, heq⟩ := Option.map_eq_some_iff.mp hvalue
    rw [Prod.mk.injEq] at heq
    rcases valueOf_cases hin with hlen | ⟨gap, v, hgap, rfl⟩
    · omega
    · rw [valueOf_string hgap, Option.some.injEq, Prod.mk.injEq] at hin
      simp only [List.length_append, List.length_cons] at hle heq
      rcases string_cases v with ⟨body, after, hbody, rfl⟩ | hv | ⟨body, hbody, rfl⟩
      · rw [hbody.span_closed] at hin
        simp only [List.length_append, List.length_cons] at hle heq
        omega
      · rw [hv.span_unclosed] at hin
        omega
      · exact absurd ⟨gap, body, hfinds, hgap, hbody⟩ hends

/-- `{"a":"x\`, a text that ends in the middle of a value. -/
theorem jsonExtract_overruns : ¬ ∀ json field : Bytes, StaysInside json field := by
  intro hall
  obtain ⟨r, hr, hinside⟩ := hall [0x7B, 0x22, 0x61, 0x22, 0x3A, 0x22, 0x78, 0x5C] [0x61]
  have heq : jsonExtract [0x7B, 0x22, 0x61, 0x22, 0x3A, 0x22, 0x78, 0x5C] [0x61] =
    some (some (6, 3)) := by decide
  rw [heq, Option.some.injEq] at hr
  exact absurd (hinside 6 3 hr.symm) (by decide)

end FastKV
