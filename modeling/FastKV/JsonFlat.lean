import FastKV.JsonExtract
import FastKV.Lib.FlatJson

/-!
# Fields of flat objects

What `json_extract` makes of a well-formed flat object. The scan does not tell a name from a
value, so a string value that reads like the field hides the member that has it for a name; and
behind the name it passes over spaces, tabs and the colon only, not over line breaks. Apart from
that it returns the value of the first member with the name.
-/

namespace FastKV

open Lib.Json

/-! ## The text that is returned -/

/-- What `json_extract` returns, as text. -/
def extracted (json field : Bytes) : Option (Option Bytes) :=
  (jsonExtract json field).map fun r => r.map fun v => (json.drop v.1).take v.2

/-- The value behind a name, as text. -/
def valueText (t : Bytes) : Option Bytes := (valueOf t).map fun v => (t.drop v.1).take v.2

/-- What is left is the end of the text. -/
theorem Finds.suffix {field s rest : Bytes} (h : Finds field s rest) : rest <:+ s := by
  induction h with
  | here hgap =>
    rename_i gap rest
    exact ⟨gap ++ quote :: (field ++ [quote]), by simp⟩
  | later hgap hbody hother h ih =>
    rename_i gap body s rest
    apply ih.trans
    exact ⟨gap ++ quote :: (body ++ [quote]), by simp⟩

/-- The text behind the first string that reads like the field decides. -/
theorem extracted_eq (json field : Bytes) :
    extracted json field = some ((found field json).bind valueText) := by
  rw [extracted, jsonExtract_eq, Option.map_some, Option.some.injEq]
  cases hfound : found field json with
  | none => rfl
  | some t =>
    have hsuffix := List.suffix_iff_eq_drop.mp (found_eq_some_iff.mp hfound).suffix
    simp only [Option.bind_some, valueText, Option.map_map]
    congr 1
    funext v
    simp only [Function.comp_apply]
    rw [← List.drop_drop, ← hsuffix]

/-! ## Strings and gaps -/

section Pieces

variable {field : Bytes}

/-- Contents one after the other. -/
theorem Chars.append {body body' : Bytes} (h : Chars body) (h' : Chars body') :
    Chars (body ++ body') := by
  induction h with
  | nil => exact h'
  | plain hquote hback h ih => exact .plain hquote hback ih
  | escaped c h ih => exact .escaped c ih

/-- Characters that are neither quotes nor backslashes. -/
theorem chars_of_forall {body : Bytes} (h : ∀ b ∈ body, b ≠ quote ∧ b ≠ backslash) :
    Chars body := by
  induction body with
  | nil => exact .nil
  | cons b body ih =>
    have hb := h b List.mem_cons_self
    exact .plain hb.1 hb.2 (ih fun c hc => h c (List.mem_cons_of_mem _ hc))

/-- No hexadecimal digit is a quote or a backslash. -/
theorem isHex_ne {d : UInt8} (h : IsHex d) : d ≠ quote ∧ d ≠ backslash := by
  constructor
  · rintro rfl
    revert h
    unfold IsHex Lib.Json.IsDigit quote
    decide
  · rintro rfl
    revert h
    unfold IsHex Lib.Json.IsDigit backslash
    decide

/-- The contents of a string are characters. -/
theorem chars_contents (s : List StringChar) : Chars (contents s) := by
  induction s with
  | nil => exact .nil
  | cons c s ih =>
    have hcons : contents (c :: s) = c.text ++ contents s := List.flatMap_cons ..
    rw [hcons]
    apply Chars.append _ ih
    cases c with
    | plain b hcontrol hquote hback => exact .plain hquote hback .nil
    | escape c hc => exact .escaped c .nil
    | unicode ds hlen hds => exact .escaped _ (chars_of_forall fun d hd => isHex_ne (hds d hd))

/-- A string reads like the field exactly if its contents are the field. -/
theorem field_prefix_iff (hfield : Chars field) {body : Bytes} (hbody : Chars body)
    (rest : Bytes) : field ++ [quote] <+: body ++ quote :: rest ↔ body = field := by
  constructor
  · rintro ⟨t, ht⟩
    rw [List.append_assoc, List.singleton_append] at ht
    have hlen := hfield.span_closed t
    rw [ht, hbody.span_closed] at hlen
    exact (List.append_inj ht hlen.symm).1.symm
  · rintro rfl
    exact (List.prefix_append_right_inj _).mpr (List.singleton_prefix_cons_iff.mpr rfl)

/-- What stands before the strings is passed over. -/
theorem found_gap {gap : Bytes} (hgap : quote ∉ gap) (s : Bytes) :
    found field (gap ++ s) = found field s := by
  have hdrop : (gap ++ s).dropWhile (fun b => decide (b ≠ quote)) =
      s.dropWhile (fun b => decide (b ≠ quote)) := by
    apply List.dropWhile_append_of_pos
    intro b hb
    rw [decide_eq_true_eq]
    rintro rfl
    exact hgap hb
  cases hcut : s.dropWhile (fun b => decide (b ≠ quote)) with
  | nil => rw [found_of_nil hcut, found_of_nil (hdrop.trans hcut)]
  | cons b t => rw [found_of_cons hcut, found_of_cons (hdrop.trans hcut)]

/-- White space has no quotes. -/
theorem quote_not_mem_space (sp : Space) : quote ∉ sp.text := by
  intro hmem
  have h := sp.spaces quote hmem
  revert h
  unfold IsSpace quote
  decide

/-- What stands between a name and its value has none. -/
theorem quote_not_mem_colon (m : Member) : quote ∉ m.colon := by
  intro hmem
  rcases List.mem_append.mp hmem with h | h
  · exact quote_not_mem_space _ h
  · rcases List.mem_cons.mp h with h | h
    · exact absurd h (by decide)
    · exact quote_not_mem_space _ h

/-- A digit is a character of numbers. -/
theorem isDigit_of {b : UInt8} (h : Lib.Json.IsDigit b) : isDigit b = true := by
  simp [isDigit, h.1, h.2]

/-- So are the digits of a number. -/
theorem isNumberChar_digits {ds : Digits} {b : UInt8} (hb : b ∈ ds.text) :
    isNumberChar b = true := by
  simp [isNumberChar, isDigit_of (ds.digits b hb)]

/-- The characters of a number. -/
theorem isNumberChar_of_mem (n : Number) {b : UInt8} (hb : b ∈ n.text) :
    isNumberChar b = true := by
  unfold Number.text at hb
  rcases List.mem_append.mp hb with hb | hb
  · rcases List.mem_append.mp hb with hb | hb
    · rcases List.mem_append.mp hb with hb | hb
      · split at hb
        · rw [List.mem_singleton.mp hb]
          decide
        · cases hb
      · exact isNumberChar_digits hb
    · cases hfraction : n.fraction with
      | none =>
        rw [hfraction] at hb
        cases hb
      | some ds =>
        rw [hfraction] at hb
        rcases List.mem_cons.mp hb with rfl | hb
        · decide
        · exact isNumberChar_digits hb
  · cases hexponent : n.exponent with
    | none =>
      rw [hexponent] at hb
      cases hb
    | some e =>
      obtain ⟨capital, sign, ds⟩ := e
      rw [hexponent] at hb
      rcases List.mem_cons.mp hb with rfl | hb
      · cases capital <;> decide
      · rcases List.mem_append.mp hb with hb | hb
        · cases sign with
          | none => cases hb
          | some minus =>
            rw [List.mem_singleton.mp hb]
            cases minus <;> decide
        · exact isNumberChar_digits hb

/-- A value that is not a string has no quotes. -/
theorem quote_not_mem_value {v : Value} (hv : ∀ s, v ≠ .string s) : quote ∉ v.text := by
  intro hmem
  cases v with
  | string s => exact hv s rfl
  | number n => exact absurd (isNumberChar_of_mem n hmem) (by decide)
  | boolean b => cases b <;> exact absurd hmem (by decide)
  | null => exact absurd hmem (by decide)

/-- The first character of a number. -/
theorem number_head (n : Number) :
    ∃ b v, n.text = b :: v ∧ (b = 0x2D || isDigit b) = true := by
  obtain ⟨d, ds, hds⟩ := List.exists_cons_of_ne_nil n.whole.nonempty
  have hmem : d ∈ n.whole.text := by
    rw [hds]
    exact List.mem_cons_self
  have hd : isDigit d = true := isDigit_of (n.whole.digits d hmem)
  unfold Number.text
  cases n.negative with
  | true => exact ⟨_, _, rfl, rfl⟩
  | false =>
    rw [hds]
    exact ⟨d, _, rfl, by simp [hd]⟩

end Pieces

/-! ## Values -/

section Values

/-- What follows a value: white space, and a comma or the brace. -/
def Ends (t : Bytes) : Prop :=
  ∃ (sp : Space) (c : UInt8) (v : Bytes), t = sp.text ++ c :: v ∧ (c = 0x2C ∨ c = 0x7D)

/-- The loop behind a name stops at the first character that is no separator. -/
theorem dropWhile_stop {cond : UInt8 → Bool} {gap : Bytes} (h : ∃ b ∈ gap, cond b = false)
    (t : Bytes) : ∃ b v, (gap ++ t).dropWhile cond = b :: v ∧ b ∈ gap ∧ cond b = false := by
  induction gap with
  | nil =>
    obtain ⟨b, hb, -⟩ := h
    cases hb
  | cons c gap ih =>
    cases hc : cond c with
    | false =>
      refine ⟨c, gap ++ t, ?_, List.mem_cons_self, hc⟩
      rw [List.cons_append, List.dropWhile_cons_of_neg (by simp [hc])]
    | true =>
      obtain ⟨b, hb, hcond⟩ := h
      rcases List.mem_cons.mp hb with rfl | hb
      · rw [hc] at hcond
        cases hcond
      · obtain ⟨b', v, heq, hmem, hcond'⟩ := ih ⟨b, hb, hcond⟩
        refine ⟨b', v, ?_, List.mem_cons_of_mem _ hmem, hcond'⟩
        rw [List.cons_append, List.dropWhile_cons_of_pos hc, heq]

/-- Line breaks and punctuation begin no value. -/
theorem valueOf_none {t v : Bytes} {b : UInt8} (h : t.dropWhile isSeparator = b :: v)
    (hb : b = 0x0A ∨ b = 0x0D ∨ b = 0x2C ∨ b = 0x7D ∨ b = 0x6E) : valueOf t = none := by
  unfold valueOf
  rw [h]
  rcases hb with rfl | rfl | rfl | rfl | rfl <;> simp [quote, isDigit, trueText, falseText]

/-- White space that separates nothing is a line break. -/
theorem lineBreak_of_space {b : UInt8} (hspace : IsSpace b) (hb : isSeparator b = false) :
    b = 0x0A ∨ b = 0x0D := by
  rcases hspace with rfl | rfl | rfl | rfl
  · cases hb
  · cases hb
  · exact Or.inl rfl
  · exact Or.inr rfl

/-- Behind a value there is no value. -/
theorem Ends.valueOf {t : Bytes} (h : Ends t) : valueOf t = none := by
  obtain ⟨sp, c, v, rfl, hc⟩ := h
  have hstop : isSeparator c = false := by
    rcases hc with rfl | rfl <;> rfl
  obtain ⟨b, v', hdrop, hmem, hb⟩ :=
    dropWhile_stop ⟨c, List.mem_append_right sp.text (List.mem_singleton_self c), hstop⟩ v
  rw [List.append_assoc, List.singleton_append] at hdrop
  apply valueOf_none hdrop
  rcases List.mem_append.mp hmem with hmem | hmem
  · rcases lineBreak_of_space (sp.spaces b hmem) hb with rfl | rfl <;> simp
  · rw [List.mem_singleton.mp hmem]
    rcases hc with rfl | rfl <;> simp

/-- The characters behind a value belong to no number. -/
theorem Ends.takeWhile {t : Bytes} (h : Ends t) : t.takeWhile isNumberChar = [] := by
  obtain ⟨sp, c, v, rfl, hc⟩ := h
  cases hsp : sp.text with
  | nil =>
    rw [List.nil_append, List.takeWhile_cons_of_neg]
    rcases hc with rfl | rfl <;> decide
  | cons b text =>
    rw [List.cons_append, List.takeWhile_cons_of_neg]
    have hspace := sp.spaces b (by rw [hsp]; exact List.mem_cons_self)
    rcases hspace with rfl | rfl | rfl | rfl <;> decide

/-- Around the colon of a member there are only spaces and tabs. -/
def InLine (m : Member) : Prop :=
  ∀ b ∈ m.beforeColon.text ++ m.afterColon.text, b = 0x20 ∨ b = 0x09

/-- Then all that is between name and value is passed over. -/
theorem InLine.separators {m : Member} (h : InLine m) :
    ∀ b ∈ m.colon, isSeparator b = true := by
  intro b hb
  have hmem : b = 0x3A ∨ b ∈ m.beforeColon.text ++ m.afterColon.text := by
    simp only [Member.colon, List.mem_append, List.mem_cons] at hb ⊢
    tauto
  rcases hmem with rfl | hmem
  · rfl
  · rcases h b hmem with rfl | rfl <;> rfl

/-- Otherwise the value is not reached. -/
theorem valueOf_broken {m : Member} (h : ¬ InLine m) (t : Bytes) :
    valueOf (m.colon ++ t) = none := by
  have hspace : ∀ b ∈ m.colon, b = 0x3A ∨ IsSpace b := by
    intro b hb
    rcases List.mem_append.mp hb with hb | hb
    · exact Or.inr (m.beforeColon.spaces b hb)
    · exact (List.mem_cons.mp hb).imp_right (m.afterColon.spaces b)
  have hstop : ∃ b ∈ m.colon, isSeparator b = false := by
    by_contra hall
    apply h
    intro b hb
    have hmem : b ∈ m.colon := by
      simp only [Member.colon, List.mem_append, List.mem_cons] at hb ⊢
      tauto
    have hb' : IsSpace b := by
      rcases List.mem_append.mp hb with hb | hb
      · exact m.beforeColon.spaces b hb
      · exact m.afterColon.spaces b hb
    cases hsep : isSeparator b with
    | false => exact absurd ⟨b, hmem, hsep⟩ hall
    | true =>
      rcases hb' with rfl | rfl | rfl | rfl
      · exact Or.inl rfl
      · exact Or.inr rfl
      · cases hsep
      · cases hsep
  obtain ⟨b, v, hdrop, hmem, hb⟩ := dropWhile_stop hstop t
  apply valueOf_none hdrop
  rcases hspace b hmem with rfl | hspace
  · cases hb
  · rcases lineBreak_of_space hspace hb with rfl | rfl <;> simp

/-- Separators are passed over. -/
theorem valueText_gap {gap : Bytes} (hgap : ∀ b ∈ gap, isSeparator b = true) {b : UInt8}
    (hb : isSeparator b = false) (v : Bytes) :
    valueText (gap ++ b :: v) = valueText (b :: v) := by
  have hskip : (gap ++ b :: v).dropWhile isSeparator = b :: v := by
    rw [List.dropWhile_append_of_pos hgap, List.dropWhile_cons_of_neg (by simp [hb])]
  have htake : (gap ++ b :: v).takeWhile isSeparator = gap := by
    rw [List.takeWhile_append_of_pos hgap, List.takeWhile_cons_of_neg (by simp [hb]),
      List.append_nil]
  have hskip' : (b :: v).dropWhile isSeparator = b :: v :=
    List.dropWhile_cons_of_neg (by simp [hb])
  have htake' : (b :: v).takeWhile isSeparator = [] := List.takeWhile_cons_of_neg (by simp [hb])
  have hdrop : ∀ n, (gap ++ b :: v).drop (gap.length + n) = (b :: v).drop n := by
    intro n
    rw [← List.drop_drop, List.drop_left]
  unfold valueText valueOf
  rw [hskip, htake, hskip', htake']
  simp only [List.length_nil, Nat.zero_add]
  split
  · exact congrArg some (congrArg (List.take _) (hdrop 1))
  · split
    · exact congrArg some (congrArg (List.take _) (hdrop 0))
    · split
      · exact congrArg some (congrArg (List.take _) (hdrop 0))
      · split
        · exact congrArg some (congrArg (List.take _) (hdrop 0))
        · rfl

/-- The first character of a number is no separator and no quote. -/
theorem number_start {b : UInt8} (hb : (b = 0x2D || isDigit b) = true) :
    isSeparator b = false ∧ b ≠ quote := by
  constructor
  · by_contra hsep
    simp only [isSeparator, Bool.not_eq_false, Bool.or_eq_true, decide_eq_true_eq] at hsep
    rcases hsep with (rfl | rfl) | rfl <;> exact absurd hb (by decide)
  · rintro rfl
    exact absurd hb (by decide)

/-- A number is read to its end. -/
theorem valueText_number (n : Number) {t : Bytes} (ht : Ends t) :
    valueText (n.text ++ t) = some n.text := by
  obtain ⟨b, v, hn, hb⟩ := number_head n
  obtain ⟨hsep, hquote⟩ := number_start hb
  have hall : ∀ c ∈ n.text, isNumberChar c = true := fun c hc => isNumberChar_of_mem n hc
  have htake : (n.text ++ t).takeWhile isNumberChar = n.text := by
    rw [List.takeWhile_append_of_pos hall, ht.takeWhile, List.append_nil]
  rw [hn, List.cons_append] at htake
  unfold valueText valueOf
  rw [hn, List.cons_append, List.dropWhile_cons_of_neg (by simp [hsep]),
    List.takeWhile_cons_of_neg (by simp [hsep])]
  simp only [if_neg hquote, hb, if_true, htake, List.length_nil, Option.map_some, List.drop_zero,
    Option.some.injEq]
  rw [← List.cons_append, List.take_left]

/-- In one line the value is found. -/
theorem valueText_inLine {m : Member} (h : InLine m) {t : Bytes} (ht : Ends t) :
    valueText (m.colon ++ (m.value.text ++ t)) = m.value.raw := by
  have hgap := h.separators
  cases m.value with
  | string s =>
    have htext : (Value.string s).text ++ t = quote :: (contents s ++ quote :: t) := by
      simp [Value.text, quote]
    rw [valueText, htext, valueOf_string hgap, (chars_contents s).span_closed, Option.map_some,
      ← List.drop_drop, List.drop_left]
    simp [Value.raw]
  | number n =>
    obtain ⟨b, v, hn, hb⟩ := number_head n
    have hvalue := valueText_number n ht
    rw [Value.text, hn, List.cons_append, valueText_gap hgap (number_start hb).1,
      ← List.cons_append, ← hn, hvalue]
    rfl
  | boolean b =>
    cases b with
    | true => exact valueText_gap hgap (by decide) _
    | false => exact valueText_gap hgap (by decide) _
  | null => exact valueText_gap hgap (by decide) _

end Values

/-! ## Members -/

section Members

variable {field : Bytes} {m : Member}

/-- The value of the member is a string that reads like the field. -/
def HidesField (field : Bytes) (m : Member) : Prop :=
  ∃ s, m.value = .string s ∧ contents s = field

/-- A member with another name is passed over up to its value. -/
theorem found_name (hfield : Chars field) (hname : contents m.name ≠ field) (rest : Bytes) :
    found field (m.text ++ rest) =
      found field (m.value.text ++ (m.after.text ++ rest)) := by
  have hother : ¬ field ++ [quote] <+:
      contents m.name ++ quote :: (m.colon ++ (m.value.text ++ (m.after.text ++ rest))) :=
    fun h => hname ((field_prefix_iff hfield (chars_contents m.name) _).mp h)
  have htext : m.text ++ rest = m.before.text ++ quote :: (contents m.name ++
      quote :: (m.colon ++ (m.value.text ++ (m.after.text ++ rest)))) := by
    simp [Member.text, quote]
  rw [htext, found_later (quote_not_mem_space _) (chars_contents m.name) hother,
    found_gap (quote_not_mem_colon m)]

/-- And so is the value, unless it reads like the field. -/
theorem found_member (hfield : Chars field) (hname : contents m.name ≠ field)
    (hvalue : ¬ HidesField field m) (rest : Bytes) :
    found field (m.text ++ rest) = found field rest := by
  rw [found_name hfield hname]
  by_cases hstring : ∃ s, m.value = .string s
  · obtain ⟨s, hs⟩ := hstring
    have hother : ¬ field ++ [quote] <+: contents s ++ quote :: (m.after.text ++ rest) :=
      fun h => hvalue ⟨s, hs, (field_prefix_iff hfield (chars_contents s) _).mp h⟩
    have htext : m.value.text ++ (m.after.text ++ rest) =
        [] ++ quote :: (contents s ++ quote :: (m.after.text ++ rest)) := by
      simp [hs, Value.text, quote]
    rw [htext, found_later (by simp) (chars_contents s) hother,
      found_gap (quote_not_mem_space _)]
  · rw [found_gap (quote_not_mem_value fun s hs => hstring ⟨s, hs⟩),
      found_gap (quote_not_mem_space _)]

/-- Where a value reads like the field the scan stops behind it. -/
theorem found_hidden (hfield : Chars field) (hname : contents m.name ≠ field)
    (hvalue : HidesField field m) (rest : Bytes) :
    found field (m.text ++ rest) = some (m.after.text ++ rest) := by
  obtain ⟨s, hs, rfl⟩ := hvalue
  have htext : m.value.text ++ (m.after.text ++ rest) =
      [] ++ quote :: (contents s ++ quote :: (m.after.text ++ rest)) := by
    simp [hs, Value.text, quote]
  rw [found_name hfield hname, htext]
  exact found_here (by simp)

/-- A member with the field for a name is found. -/
theorem found_named (hname : contents m.name = field) (rest : Bytes) :
    found field (m.text ++ rest) =
      some (m.colon ++ (m.value.text ++ (m.after.text ++ rest))) := by
  have htext : m.text ++ rest = m.before.text ++ quote :: (field ++
      quote :: (m.colon ++ (m.value.text ++ (m.after.text ++ rest)))) := by
    simp [Member.text, quote, hname]
  rw [htext]
  exact found_here (quote_not_mem_space _)

/-- What stands behind the first of some members. -/
def tailText (after : Space) : List Member → Bytes
  | [] => 0x7D :: after.text
  | m :: ms => 0x2C :: (membersText (m :: ms) ++ 0x7D :: after.text)

/-- The first member and what stands behind it. -/
theorem membersText_cons (ms : List Member) (after : Space) :
    membersText (m :: ms) ++ 0x7D :: after.text = m.text ++ tailText after ms := by
  cases ms with
  | nil => rfl
  | cons m' ms => simp [membersText, tailText]

/-- A value ends there. -/
theorem ends_tailText (after : Space) (ms : List Member) :
    Ends (m.after.text ++ tailText after ms) := by
  cases ms with
  | nil => exact ⟨m.after, _, _, rfl, Or.inr rfl⟩
  | cons m' ms => exact ⟨m.after, _, _, rfl, Or.inl rfl⟩

/-- The scan starts again there. -/
theorem found_tailText (after : Space) (ms : List Member) :
    found field (tailText after ms) = found field (membersText ms ++ 0x7D :: after.text) := by
  cases ms with
  | nil => rfl
  | cons m' ms =>
    have hcomma : quote ∉ ([0x2C] : Bytes) := by decide
    exact found_gap hcomma _

/-- Without members nothing is found. -/
theorem found_nil (after : Space) : found field (membersText [] ++ 0x7D :: after.text) = none := by
  have hgap : quote ∉ (0x7D : UInt8) :: after.text := by
    intro hmem
    rcases List.mem_cons.mp hmem with h | h
    · exact absurd h (by decide)
    · exact quote_not_mem_space _ h
  have h : found field (0x7D :: after.text ++ []) = found field [] := found_gap hgap []
  rw [List.append_nil] at h
  rw [membersText, List.nil_append, h]
  exact found_of_nil rfl

/-- The members before the first that has the field for a name, and that member, are so. -/
def AtFirst (field : Bytes) (holds : List Member → Member → Prop) (ms : List Member) : Prop :=
  ∀ pre w post, ms = pre ++ w :: post → (∀ m ∈ pre, contents m.name ≠ field) →
    contents w.name = field → holds pre w

/-- The first member that has the name has a value only if no value before it reads like the field
and its colon is in one line. -/
def Reached (field : Bytes) : List Member → Prop :=
  AtFirst field fun pre w => w.value ≠ .null → (∀ m ∈ pre, ¬ HidesField field m) ∧ InLine w

/-- The first of some members has the name. -/
theorem atFirst_named (hname : contents m.name = field)
    {holds : List Member → Member → Prop} (ms : List Member) :
    AtFirst field holds (m :: ms) ↔ holds [] m := by
  constructor
  · intro h
    exact h [] m ms rfl (by simp) hname
  · intro h pre w post heq hpre _
    cases pre with
    | nil =>
      cases heq
      exact h
    | cons m' pre =>
      cases heq
      exact absurd hname (hpre m List.mem_cons_self)

/-- It has another name. -/
theorem atFirst_cons (hname : contents m.name ≠ field)
    {holds : List Member → Member → Prop} (ms : List Member) :
    AtFirst field holds (m :: ms) ↔ AtFirst field (fun pre => holds (m :: pre)) ms := by
  constructor
  · intro h pre w post heq hpre hw
    apply h (m :: pre) w post (by rw [heq]; rfl) _ hw
    intro m' hm'
    rcases List.mem_cons.mp hm' with rfl | hm'
    · exact hname
    · exact hpre m' hm'
  · intro h pre w post heq hpre hw
    cases pre with
    | nil =>
      cases heq
      exact absurd hw hname
    | cons m' pre =>
      cases heq
      exact h pre w post rfl (fun m' hm' => hpre m' (List.mem_cons_of_mem _ hm')) hw

/-- The same of other members. -/
theorem atFirst_congr {holds holds' : List Member → Member → Prop}
    (h : ∀ pre w, holds pre w ↔ holds' pre w) (ms : List Member) :
    AtFirst field holds ms ↔ AtFirst field holds' ms := by
  simp only [AtFirst, h]

/-- Null has no text, and is alone in that. -/
theorem raw_eq_none_iff (v : Value) : v.raw = none ↔ v = .null := by
  cases v <;> simp [Value.raw]

/-- There is no value if the first member with the name is null. -/
theorem lookupMembers_eq_none_iff (ms : List Member) :
    lookupMembers field ms = none ↔ AtFirst field (fun _ w => w.value = .null) ms := by
  induction ms with
  | nil => simp [lookupMembers, AtFirst]
  | cons m ms ih =>
    unfold lookupMembers
    split
    · rename_i hname
      rw [atFirst_named hname, raw_eq_none_iff]
    · rename_i hname
      rw [atFirst_cons hname, ih]

/-- Which members let the scan reach the value. -/
theorem found_members_iff (hfield : Chars field) (after : Space) (ms : List Member) :
    (found field (membersText ms ++ 0x7D :: after.text)).bind valueText =
      lookupMembers field ms ↔ Reached field ms := by
  induction ms with
  | nil =>
    rw [found_nil]
    simp [lookupMembers, Reached, AtFirst]
  | cons m ms ih =>
    rw [membersText_cons, lookupMembers, Reached]
    by_cases hname : contents m.name = field
    · rw [if_pos hname, found_named hname, Option.bind_some, atFirst_named hname]
      by_cases hline : InLine m
      · rw [valueText_inLine hline (ends_tailText after ms)]
        simp [hline]
      · rw [valueText, valueOf_broken hline, Option.map_none, eq_comm, raw_eq_none_iff]
        simp only [hline, and_false, imp_false, not_not]
    · rw [if_neg hname, atFirst_cons hname]
      by_cases hhides : HidesField field m
      · rw [found_hidden hfield hname hhides, Option.bind_some, valueText,
          (ends_tailText after ms).valueOf, Option.map_none, eq_comm, lookupMembers_eq_none_iff]
        apply atFirst_congr
        intro pre w
        constructor
        · intro hnull hvalue
          exact absurd hnull hvalue
        · intro h
          by_contra hvalue
          exact (h hvalue).1 m List.mem_cons_self hhides
      · rw [found_member hfield hname hhides, found_tailText, ih, Reached]
        apply atFirst_congr
        intro pre w
        simp only [List.forall_mem_cons, hhides, not_false_eq_true, true_and]

end Members

/-! ## Objects -/

/-- For a flat object and a field without quotes and backslashes the extractor returns what the
object has for the field, exactly if no string value before the first member with that name reads
like the field and that member has only spaces and tabs around its colon, or its value is null. -/
theorem extracted_iff (o : FlatObject) {field : Bytes} (hquote : quote ∉ field)
    (hback : backslash ∉ field) :
    extracted o.text field = some (o.lookup field) ↔ Reached field o.members := by
  have hfield : Chars field := chars_of_forall fun b hb =>
    ⟨fun heq => hquote (heq ▸ hb), fun heq => hback (heq ▸ hb)⟩
  have hbrace : quote ∉ ([0x7B] : Bytes) := by decide
  have htext : o.text = o.before.text ++ ([0x7B] ++ (o.inner.text ++
      (membersText o.members ++ 0x7D :: o.after.text))) := rfl
  rw [extracted_eq, htext, found_gap (quote_not_mem_space _), found_gap hbrace,
    found_gap (quote_not_mem_space _), Option.some.injEq]
  exact found_members_iff hfield o.after o.members

/-! ## An object with two members -/

/-- The string of one letter. -/
def letter (b : UInt8) (h : 0x20 ≤ b ∧ b ≠ 0x22 ∧ b ≠ 0x5C) : List StringChar :=
  [.plain b h.1 h.2.1 h.2.2]

/-- Two members, `a` with a letter for a value and `b` with a string. -/
def twoMembers (value : List StringChar) : FlatObject where
  before := .empty
  inner := .empty
  members :=
    [⟨.empty, letter 0x61 (by decide), .empty, .empty, .string value, .empty⟩,
      ⟨.empty, letter 0x62 (by decide), .empty, .empty, .string (letter 0x63 (by decide)),
        .empty⟩]
  after := .empty

/-- The second member is found behind a value that does not read like its name. -/
theorem extracted_second : extracted (twoMembers (letter 0x64 (by decide))).text [0x62] =
    some ((twoMembers (letter 0x64 (by decide))).lookup [0x62]) := by
  refine (extracted_iff _ (by decide) (by decide)).mpr
    ((atFirst_cons (by decide) _).mpr ((atFirst_named (by decide) _).mpr fun _ => ⟨?_, ?_⟩))
  · intro m hm
    rw [List.mem_singleton.mp hm]
    rintro ⟨s, hs, hcontents⟩
    cases hs
    exact absurd hcontents (by decide)
  · intro b hb
    cases hb

/-- Behind a value that reads like its name it is not. -/
theorem extracted_hidden : ¬ ∀ (o : FlatObject) (field : Bytes), quote ∉ field →
    backslash ∉ field → extracted o.text field = some (o.lookup field) := by
  intro hall
  exact absurd (hall (twoMembers (letter 0x62 (by decide))) [0x62] (by decide) (by decide))
    (by decide)

end FastKV
