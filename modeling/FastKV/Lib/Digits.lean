import Mathlib.Data.Nat.Digits.Defs
import Mathlib.Data.List.Lex

/-!
# Digit strings of fixed width

Strings of the same length over the digits of a base, the most significant digit first, are
ordered as the numbers they denote. A string may be written with other symbols as long as these
are ordered like the digits.
-/

namespace FastKV.Lib

/-- The number that a digit string denotes. -/
def number (base : ℕ) (ds : List ℕ) : ℕ := Nat.ofDigits base ds.reverse

variable {base : ℕ}

/-- The first digit is the most significant one. -/
theorem number_cons (d : ℕ) (ds : List ℕ) :
    number base (d :: ds) = number base ds + base ^ ds.length * d := by
  rw [number, List.reverse_cons, Nat.ofDigits_append, List.length_reverse, Nat.ofDigits_singleton]
  rfl

/-- Two strings in a row. -/
theorem number_append (ds es : List ℕ) :
    number base (ds ++ es) = number base es + base ^ es.length * number base ds := by
  rw [number, List.reverse_append, Nat.ofDigits_append, List.length_reverse]
  rfl

/-- A number has the width of its string. -/
theorem number_lt (hbase : 1 < base) {ds : List ℕ} (hds : ∀ d ∈ ds, d < base) :
    number base ds < base ^ ds.length := by
  have hlt := Nat.ofDigits_lt_base_pow_length hbase (l := ds.reverse)
    fun d hd => hds d (List.mem_reverse.mp hd)
  rwa [List.length_reverse] at hlt

/-- Strings of the same length are ordered as their numbers. -/
theorem lt_iff_number_lt (hbase : 1 < base) {ds : List ℕ} : ∀ {es : List ℕ},
    ds.length = es.length → (∀ d ∈ ds, d < base) → (∀ e ∈ es, e < base) →
      (ds < es ↔ number base ds < number base es) := by
  induction ds with
  | nil =>
    intro es hlen _ _
    rw [List.eq_nil_of_length_eq_zero hlen.symm]
    simp
  | cons d ds ih =>
    intro es hlen hds hes
    cases es with
    | nil => cases hlen
    | cons e es =>
      have hlen' : ds.length = es.length := Nat.succ.inj hlen
      have hds' : ∀ d ∈ ds, d < base := fun d hd => hds d (List.mem_cons_of_mem _ hd)
      have hes' : ∀ e ∈ es, e < base := fun e he => hes e (List.mem_cons_of_mem _ he)
      have hlt := number_lt hbase hds'
      have hlt' := number_lt hbase hes'
      rw [List.cons_lt_cons_iff, ih hlen' hds' hes', number_cons, number_cons, hlen']
      rw [hlen'] at hlt
      constructor
      · rintro (hde | ⟨rfl, hrest⟩)
        · calc number base ds + base ^ es.length * d
              < base ^ es.length + base ^ es.length * d := by omega
            _ = base ^ es.length * (d + 1) := by rw [Nat.mul_succ, Nat.add_comm]
            _ ≤ base ^ es.length * e := Nat.mul_le_mul_left _ hde
            _ ≤ number base es + base ^ es.length * e := Nat.le_add_left _ _
        · omega
      · intro hnum
        rcases lt_trichotomy d e with hde | rfl | hde
        · exact Or.inl hde
        · exact Or.inr ⟨rfl, by omega⟩
        · have hle : base ^ es.length * e + base ^ es.length ≤ base ^ es.length * d := by
            rw [← Nat.mul_succ]
            exact Nat.mul_le_mul_left _ hde
          omega

/-- Strings written with symbols that are ordered like the digits. -/
theorem map_lt_map_iff {α : Type*} [LinearOrder α] {f : ℕ → α}
    (hf : ∀ d < base, ∀ e < base, (f d < f e ↔ d < e)) {ds : List ℕ} : ∀ {es : List ℕ},
    ds.length = es.length → (∀ d ∈ ds, d < base) → (∀ e ∈ es, e < base) →
      (ds.map f < es.map f ↔ ds < es) := by
  induction ds with
  | nil =>
    intro es hlen _ _
    rw [List.eq_nil_of_length_eq_zero hlen.symm]
    simp
  | cons d ds ih =>
    intro es hlen hds hes
    cases es with
    | nil => cases hlen
    | cons e es =>
      have hd := hds d List.mem_cons_self
      have he := hes e List.mem_cons_self
      have heq : f d = f e ↔ d = e := by
        constructor
        · intro hfe
          have h1 := hf d hd e he
          have h2 := hf e he d hd
          rw [hfe] at h1
          rw [hfe] at h2
          simp only [lt_self_iff_false, false_iff, not_lt] at h1 h2
          omega
        · exact fun hde => by rw [hde]
      rw [List.map_cons, List.map_cons, List.cons_lt_cons_iff, List.cons_lt_cons_iff,
        hf d hd e he, heq, ih (Nat.succ.inj hlen) (fun d hd => hds d (List.mem_cons_of_mem _ hd))
          fun e he => hes e (List.mem_cons_of_mem _ he)]

/-- The string of fixed width for a number. -/
def digitsOf (base : ℕ) : ℕ → ℕ → List ℕ
  | 0, _ => []
  | width + 1, n => n / base ^ width % base :: digitsOf base width n

/-- It has that width. -/
@[simp] theorem length_digitsOf (width n : ℕ) : (digitsOf base width n).length = width := by
  induction width with
  | zero => rfl
  | succ width ih => rw [digitsOf, List.length_cons, ih]

/-- Its digits are digits. -/
theorem digitsOf_lt (hbase : 0 < base) {width n d : ℕ} (hd : d ∈ digitsOf base width n) :
    d < base := by
  induction width with
  | zero => cases hd
  | succ width ih =>
    rcases List.mem_cons.mp hd with rfl | hd
    · exact Nat.mod_lt _ hbase
    · exact ih hd

/-- It denotes the number, as far as the width goes. -/
theorem number_digitsOf (width n : ℕ) : number base (digitsOf base width n) = n % base ^ width := by
  induction width with
  | zero =>
    rw [Nat.pow_zero, Nat.mod_one]
    rfl
  | succ width ih =>
    rw [digitsOf, number_cons, ih, length_digitsOf, Nat.mod_pow_succ]

/-- Digits of a square base are pairs of digits. -/
theorem number_pairs (ds : List ℕ) :
    number base (ds.flatMap fun d => [d / base, d % base]) = number (base * base) ds := by
  induction ds with
  | nil => rfl
  | cons d ds ih =>
    have hlen : (ds.flatMap fun d => [d / base, d % base]).length = 2 * ds.length := by
      simp [List.length_flatMap, Nat.mul_comm]
    have hsplit : d % base + base * (d / base) = d := Nat.mod_add_div d base
    rw [List.flatMap_cons, number_append, ih, hlen, number_cons, number_cons, number_cons, pow_mul,
      pow_two]
    have hdigit : number base [] + base ^ ([] : List ℕ).length * (d % base) +
        base ^ [d % base].length * (d / base) = d := by
      simpa [number] using hsplit
    rw [hdigit]

end FastKV.Lib
