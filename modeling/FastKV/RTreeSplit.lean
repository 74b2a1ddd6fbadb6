import FastKV.RTree
import Mathlib.Algebra.Order.Ring.Basic
import Mathlib.Data.List.Perm.Basic
import Mathlib.Data.Nat.Cast.Order.Ring

/-!
# Splitting a full node

The areas of rectangles decide which entries of a full node go to which half, but whatever
they are, the seeds are two different entries, and every entry goes to exactly one half if the
split comes to its end. Both halves have enough entries, so neither has more than a node may
hold. In exact arithmetic a next entry is picked as long as one is left, so every split comes
to its end; in the arithmetic of doubles the areas of large rectangles overflow, and then
differences are NaN and no entry is picked.
-/

namespace FastKV.RTree

open Lib Doubles

variable {α β : Type} {n : ℕ}

section Split

variable [LinearOrder α] [Doubles α]

/-! ## The child that takes an entry -/

/-- The loop ends with the best entry so far or with one that it has seen. -/
theorem chooseLoop_lt (e : Rect α n) (es : List (REntry α n β)) :
    ∀ (i best : ℕ) (bestEnlarge bestArea : Num α) {total : ℕ}, best < total →
      i + es.length ≤ total → chooseLoop e es i best bestEnlarge bestArea < total := by
  induction es with
  | nil => exact fun _ _ _ _ _ hbest _ => hbest
  | cons c es ih =>
    intro i best bestEnlarge bestArea total hbest hlen
    rw [List.length_cons] at hlen
    unfold chooseLoop
    simp only
    split
    · exact ih _ _ _ _ (by omega) (by omega)
    · exact ih _ _ _ _ hbest (by omega)

/-- A child is chosen if there is one. -/
theorem chooseChild_lt {es : List (REntry α n β)} (h : es ≠ []) (e : Rect α n) :
    chooseChild es e < es.length := by
  have hpos := List.length_pos_iff.mpr h
  exact chooseLoop_lt e es 0 0 _ _ hpos (by omega)

/-! ## The seeds -/

/-- The loops go through pairs of different indices. -/
theorem mem_seedPairs {total i j : ℕ} (h : (i, j) ∈ seedPairs total) : i < j ∧ j < total := by
  simp only [seedPairs, List.mem_flatMap, List.mem_range, List.mem_map, Prod.mk.injEq] at h
  obtain ⟨i', hi, j', hj, rfl, rfl⟩ := h
  rw [List.mem_range'_1] at hj
  omega

/-- The loops end with a pair of different indices. -/
theorem seedLoop_lt (all : List (REntry α n β)) (pairs : List (ℕ × ℕ)) :
    ∀ (worst : Num α) (s : ℕ × ℕ), (∀ p ∈ pairs, p.1 < p.2 ∧ p.2 < all.length) →
      s.1 < s.2 ∧ s.2 < all.length →
        (seedLoop all pairs worst s).1 < (seedLoop all pairs worst s).2 ∧
          (seedLoop all pairs worst s).2 < all.length := by
  induction pairs with
  | nil => exact fun _ _ _ hs => hs
  | cons p pairs ih =>
    obtain ⟨i, j⟩ := p
    intro worst s hpairs hs
    have hrest : ∀ p ∈ pairs, p.1 < p.2 ∧ p.2 < all.length :=
      fun p hp => hpairs p (List.mem_cons_of_mem _ hp)
    have hij : i < j ∧ j < all.length := hpairs (i, j) List.mem_cons_self
    have hi : all[i]? = some all[i] := List.getElem?_eq_getElem (hij.1.trans hij.2)
    have hj : all[j]? = some all[j] := List.getElem?_eq_getElem hij.2
    rw [seedLoop, hi, hj]
    simp only
    split
    · exact ih _ _ hrest hij
    · exact ih _ _ hrest hs

/-- The seeds are two different entries. -/
theorem seeds_lt {all : List (REntry α n β)} (h : 2 ≤ all.length) :
    (seeds all).1 < (seeds all).2 ∧ (seeds all).2 < all.length := by
  apply seedLoop_lt
  · exact fun p hp => mem_seedPairs hp
  · constructor
    · exact (by omega : 0 < all.length - 1)
    · exact (by omega : all.length - 1 < all.length)

/-! ## The distribution -/

/-- What is picked is one of the entries. -/
theorem pickLoop_lt (g : Halves α n β) (es : List (REntry α n β)) :
    ∀ (i : ℕ) (pick : Option ℕ) (bestDiff : Num α) {total q : ℕ}, (∀ p ∈ pick, p < total) →
      i + es.length ≤ total → pickLoop g es i pick bestDiff = some q → q < total := by
  induction es with
  | nil => exact fun _ _ _ _ _ hpick _ hq => hpick _ hq
  | cons e es ih =>
    intro i pick bestDiff total q hpick hlen hq
    rw [List.length_cons] at hlen
    unfold pickLoop at hq
    simp only at hq
    split at hq
    · exact ih _ _ _ (fun p hp => by cases hp; omega) (by omega) hq
    · exact ih _ _ _ hpick (by omega) hq

/-- Once an entry is picked, one stays picked. -/
theorem pickLoop_isSome (g : Halves α n β) (es : List (REntry α n β)) :
    ∀ (i p : ℕ) (bestDiff : Num α), (pickLoop g es i (some p) bestDiff).isSome := by
  induction es with
  | nil => exact fun _ _ _ => rfl
  | cons e es ih =>
    intro i p bestDiff
    unfold pickLoop
    simp only
    split
    · exact ih _ _ _
    · exact ih _ _ _

/-- The entries of both halves. -/
def Halves.entries (g : Halves α n β) : List (REntry α n β) := g.left ++ g.right

/-- An entry is put into one half. -/
theorem Halves.add_entries (g : Halves α n β) (e : REntry α n β) :
    (g.add e).entries.Perm (e :: g.entries) := by
  unfold Halves.add Halves.entries
  simp only
  split
  · rw [List.append_assoc]
    exact List.perm_middle
  · rw [← List.append_assoc]
    exact List.perm_append_singleton _ _

/-- No half loses an entry. -/
theorem Halves.add_length (g : Halves α n β) (e : REntry α n β) :
    g.left.length ≤ (g.add e).left.length ∧ g.right.length ≤ (g.add e).right.length := by
  unfold Halves.add
  simp only
  split
  · simp
  · simp

/-- What a distribution that comes to its end does: it puts every entry that is left into one
half, and both halves get enough entries if there are enough. -/
structure Halves.Distributes (g : Halves α n β) (rest : List (REntry α n β)) (g' : Halves α n β) :
    Prop where
  /-- No entry is lost or duplicated. -/
  entries : g'.entries.Perm (g.entries ++ rest)
  /-- The left half does not lose an entry. -/
  left : g.left.length ≤ g'.left.length
  /-- Neither does the right half. -/
  right : g.right.length ≤ g'.right.length
  /-- Both halves get enough entries. -/
  fill : rtMin ≤ g.left.length + rest.length → rtMin ≤ g.right.length + rest.length →
    2 * rtMin ≤ g.left.length + g.right.length + rest.length →
      rtMin ≤ g'.left.length ∧ rtMin ≤ g'.right.length

/-- The first entry is put into one half, and then the others are. -/
theorem Halves.Distributes.step {g g' : Halves α n β} {rest : List (REntry α n β)} {pick : ℕ}
    (hlt : pick < rest.length) (h : (g.add rest[pick]).Distributes (rest.eraseIdx pick) g')
    (hleft : g.left.length + rest.length ≠ rtMin) (hright : g.right.length + rest.length ≠ rtMin) :
    g.Distributes rest g' := by
  have hlen : (rest.eraseIdx pick).length + 1 = rest.length := by
    rw [List.length_eraseIdx_of_lt hlt]
    omega
  obtain ⟨hleft', hright'⟩ := g.add_length rest[pick]
  have hsum := (g.add_entries rest[pick]).length_eq
  simp only [Halves.entries, List.length_append, List.length_cons] at hsum
  refine ⟨?_, hleft'.trans h.left, hright'.trans h.right, fun hl hr htotal => ?_⟩
  · have hmove : (rest[pick] :: g.entries ++ rest.eraseIdx pick).Perm
        (g.entries ++ (rest[pick] :: rest.eraseIdx pick)) := List.perm_middle.symm
    exact h.entries.trans (((g.add_entries rest[pick]).append_right _).trans
      (hmove.trans ((List.getElem_cons_eraseIdx_perm hlt).append_left _)))
  · exact h.fill (by omega) (by omega) (by omega)

/-- The distribution loop. -/
theorem distribute_spec (remaining : ℕ) : ∀ (rest : List (REntry α n β)) (g g' : Halves α n β),
    rest.length = remaining → distribute remaining rest g = some g' → g.Distributes rest g' := by
  induction remaining with
  | zero =>
    intro rest g g' hrest hg
    rw [List.eq_nil_of_length_eq_zero hrest]
    obtain rfl : g = g' := Option.some.inj hg
    refine ⟨?_, Nat.le_refl _, Nat.le_refl _, fun hl hr _ => ⟨hl, hr⟩⟩
    rw [List.append_nil]
  | succ remaining ih =>
    intro rest g g' hrest hg
    unfold distribute at hg
    split at hg
    · rename_i hall
      obtain rfl := Option.some.inj hg
      refine ⟨?_, by simp, Nat.le_refl _, fun _ _ _ => ?_⟩
      · simp only [Halves.entries, List.append_assoc]
        exact List.Perm.append_left _ List.perm_append_comm
      · simp only [List.length_append]
        omega
    · split at hg
      · rename_i hall
        obtain rfl := Option.some.inj hg
        refine ⟨?_, Nat.le_refl _, by simp, fun _ _ _ => ?_⟩
        · simp only [Halves.entries, List.append_assoc]
          exact List.Perm.refl _
        · simp only [List.length_append]
          omega
      · cases hpick : pickLoop g rest 0 none (coord (negDblMax : α)) with
        | none =>
          simp only [hpick] at hg
          cases hg
        | some pick =>
          have hlt : pick < rest.length :=
            pickLoop_lt g rest 0 none _ (fun p hp => absurd hp (Option.not_mem_none p))
              (by omega) hpick
          simp only [hpick, List.getElem?_eq_getElem hlt] at hg
          have hlen : (rest.eraseIdx pick).length = remaining := by
            rw [List.length_eraseIdx_of_lt hlt]
            omega
          rw [← hrest] at *
          exact (ih _ _ _ hlen hg).step hlt ‹_› ‹_›

/-- A split puts two different entries into the halves and distributes the others. -/
theorem linearSplit_eq {full : List (REntry α n β)} (h : full ≠ []) (newE : REntry α n β) :
    ∃ a b rest, (a :: b :: rest).Perm (full ++ [newE]) ∧ rest.length + 1 = full.length ∧
      linearSplit full newE = (distribute rest.length rest ⟨[a], [b], a.rect, b.rect⟩).map
        fun g => (g.left, g.right) := by
  have htwo : 2 ≤ (full ++ [newE]).length := by
    have hpos := List.length_pos_iff.mpr h
    rw [List.length_append, List.length_singleton]
    omega
  have htotal : (full ++ [newE]).length = full.length + 1 := by simp
  obtain ⟨hlt, hlen⟩ := seeds_lt htwo
  generalize hall : full ++ [newE] = all at htwo hlt hlen htotal
  generalize hseeds : seeds all = s at hlt hlen
  obtain ⟨s₁, s₂⟩ := s
  simp only at hlt hlen
  have hlen₁ : s₁ < (all.eraseIdx s₂).length := by
    rw [List.length_eraseIdx_of_lt hlen]
    omega
  have hget₁ : all[s₁]? = some all[s₁] := List.getElem?_eq_getElem (hlt.trans hlen)
  have hget₂ : all[s₂]? = some all[s₂] := List.getElem?_eq_getElem hlen
  have hsame : (all.eraseIdx s₂)[s₁] = all[s₁] := List.getElem_eraseIdx_of_lt hlen₁ hlt
  have hrest : ((all.eraseIdx s₂).eraseIdx s₁).length = all.length - 2 := by
    rw [List.length_eraseIdx_of_lt hlen₁, List.length_eraseIdx_of_lt hlen]
    omega
  refine ⟨all[s₁], all[s₂], (all.eraseIdx s₂).eraseIdx s₁, ?_, by omega, ?_⟩
  · have hfirst := List.getElem_cons_eraseIdx_perm hlen₁
    rw [hsame] at hfirst
    exact (List.Perm.swap _ _ _).trans
      ((hfirst.cons _).trans (List.getElem_cons_eraseIdx_perm hlen))
  · unfold linearSplit
    simp only [hall, hseeds, hget₁, hget₂, hrest]

/-- A split that comes to its end loses no entry and leaves no half empty; if the node was full,
both halves have enough entries. -/
theorem linearSplit_spec {full left right : List (REntry α n β)} {newE : REntry α n β}
    (h : full ≠ []) (hsplit : linearSplit full newE = some (left, right)) :
    (left ++ right).Perm (full ++ [newE]) ∧ 0 < left.length ∧ 0 < right.length ∧
      (full.length = rtMax → rtMin ≤ left.length ∧ rtMin ≤ right.length) := by
  obtain ⟨a, b, rest, hperm, hlen, heq⟩ := linearSplit_eq h newE
  rw [heq, Option.map_eq_some_iff] at hsplit
  obtain ⟨g, hg, hhalves⟩ := hsplit
  obtain ⟨hentries, hleft, hright, hfill⟩ := distribute_spec _ _ _ _ rfl hg
  cases hhalves
  refine ⟨hentries.trans hperm, hleft, hright, fun hfull => ?_⟩
  have hmax : rtMax = 9 := rfl
  have hmin : rtMin = 3 := rfl
  simp only [List.length_singleton] at hfill
  exact hfill (by omega) (by omega) (by omega)

/-! ## Splits that leave their arrays -/

/-- No entry is picked if no difference is larger than the smallest double. -/
theorem pickLoop_none (g : Halves α n β) {bestDiff : Num α} {es : List (REntry α n β)}
    (h : ∀ e ∈ es, lt bestDiff (fabs (sub (g.growth e).1 (g.growth e).2)) = false) :
    ∀ i, pickLoop g es i none bestDiff = none := by
  induction es with
  | nil => exact fun _ => rfl
  | cons e es ih =>
    intro i
    unfold pickLoop
    simp only [h e List.mem_cons_self, Bool.false_eq_true, if_false]
    exact ih (fun e he => h e (List.mem_cons_of_mem _ he)) _

/-- How much a rectangle grows by itself. -/
def selfGrowth (r : Rect α n) : Num α := sub (rectEnlargedArea r r) (rectArea r)

/-- Entries with the same rectangle cannot be split if the growth of the rectangle by itself has
no difference from itself, as with NaN. -/
theorem linearSplit_eq_none {r : Rect α n}
    (hnan : lt (coord (negDblMax : α)) (fabs (sub (selfGrowth r) (selfGrowth r))) = false)
    {full : List (REntry α n β)} {newE : REntry α n β} (hfull : full.length = rtMax)
    (hrects : ∀ e ∈ full ++ [newE], e.rect = r) : linearSplit full newE = none := by
  have hne : full ≠ [] := by
    rintro rfl
    cases hfull
  obtain ⟨a, b, rest, hperm, hlen, heq⟩ := linearSplit_eq hne newE
  have hsame : ∀ e ∈ a :: b :: rest, e.rect = r := fun e he => hrects e (hperm.mem_iff.mp he)
  have hrest : rest.length = 7 + 1 := by
    rw [hfull] at hlen
    exact Nat.succ.inj hlen
  have hgrowth : ∀ e ∈ rest, lt (coord (negDblMax : α))
      (fabs (sub (Halves.growth ⟨[a], [b], a.rect, b.rect⟩ e).1
        (Halves.growth ⟨[a], [b], a.rect, b.rect⟩ e).2)) = false := by
    intro e he
    rw [Halves.growth, hsame a (by simp), hsame b (by simp), hsame e (by simp [he])]
    exact hnan
  have hpick := pickLoop_none ⟨[a], [b], a.rect, b.rect⟩ hgrowth 0
  rw [heq, hrest]
  unfold distribute
  simp only [List.length_singleton]
  rw [if_neg (by decide), if_neg (by decide), hpick]
  rfl

end Split

/-! ## Exact arithmetic -/

section Exact

variable [CommRing α] [LinearOrder α] [IsStrictOrderedRing α]

/-- The negated largest double is negative. -/
theorem negDblMax_neg : (negDblMax : α) < 0 := by
  have hpos : 0 < largest := by
    unfold largest
    apply Nat.mul_pos
    · decide
    · apply Nat.pow_pos
      decide
  exact neg_neg_of_pos (Nat.cast_pos.mpr hpos)

/-- An entry is picked if one is left: no difference is negative. -/
theorem exists_pick (g : Halves α n β) {es : List (REntry α n β)} (h : es ≠ []) :
    (pickLoop g es 0 none (coord (negDblMax : α))).isSome := by
  obtain ⟨e, es, rfl⟩ := List.exists_cons_of_ne_nil h
  have hdiff : lt (coord (negDblMax : α)) (fabs (sub (g.growth e).1 (g.growth e).2)) = true :=
    decide_eq_true (negDblMax_neg.trans_le (abs_nonneg (α := α) _))
  unfold pickLoop
  simp only [if_pos hdiff]
  exact pickLoop_isSome _ _ _ _ _

/-- The distribution comes to its end. -/
theorem distribute_isSome (remaining : ℕ) : ∀ (rest : List (REntry α n β)) (g : Halves α n β),
    rest.length = remaining → (distribute remaining rest g).isSome := by
  induction remaining with
  | zero => exact fun _ _ _ => rfl
  | succ remaining ih =>
    intro rest g hrest
    have hne : rest ≠ [] := by
      rintro rfl
      cases hrest
    obtain ⟨pick, hpick⟩ := Option.isSome_iff_exists.mp (exists_pick g hne)
    have hlt : pick < rest.length := by
      apply pickLoop_lt g rest 0 none _ (fun p hp => absurd hp (Option.not_mem_none p)) _ hpick
      omega
    unfold distribute
    split
    · rfl
    · split
      · rfl
      · simp only [hpick, List.getElem?_eq_getElem hlt]
        apply ih
        rw [List.length_eraseIdx_of_lt hlt]
        omega

/-- Every split comes to its end. -/
theorem linearSplit_isSome {full : List (REntry α n β)} (h : full ≠ []) (newE : REntry α n β) :
    (linearSplit full newE).isSome := by
  obtain ⟨a, b, rest, -, -, heq⟩ := linearSplit_eq h newE
  rw [heq, Option.isSome_map]
  exact distribute_isSome _ _ _ rfl

end Exact

end FastKV.RTree
