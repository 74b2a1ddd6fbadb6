import Mathlib.Data.Finset.Card
import Mathlib.Logic.Function.Basic
import Mathlib.Tactic.Common

/-!
# First free place

Users look for a place in a row of `n`: each of them tries one place after the other and stays
at the first one that is free. A user moves from one place to the next only because somebody
else is there, so fewer and fewer users get further and further. As long as at most `n` users
are present, none of them runs out of places, whatever the order of their steps and no matter
how often places become free behind their backs.
-/

namespace FastKV.Lib

variable {ι : Type*} {n : ℕ} {place place' : ι → Option ℕ}

/-- The user is present and has got to the place `k` or further. -/
def Reached (place : ι → Option ℕ) (k : ℕ) (t : ι) : Prop := ∃ p, place t = some p ∧ k ≤ p

/-- At most `n - k` users have got to the place `k` or further. -/
def Spread (n : ℕ) (place : ι → Option ℕ) : Prop :=
  ∀ (k : ℕ) (users : Finset ι), users.Nonempty → (∀ t ∈ users, Reached place k t) →
    users.card + k ≤ n

/-- At most `n` users are present. -/
def Few (n : ℕ) (place : ι → Option ℕ) : Prop :=
  ∀ users : Finset ι, (∀ t ∈ users, place t ≠ none) → users.card ≤ n

/-- Nobody has run out of places. -/
theorem Spread.lt (h : Spread n place) {t : ι} {p : ℕ} (hp : place t = some p) : p < n := by
  have hcount := h p {t} (Finset.singleton_nonempty t) fun u hu => by
    rw [Finset.mem_singleton.mp hu]
    exact ⟨p, hp, Nat.le_refl p⟩
  rw [Finset.card_singleton] at hcount
  omega

/-- Nobody is present. -/
theorem Spread.empty (h : ∀ t, place t = none) : Spread n place := by
  rintro k users ⟨t, ht⟩ hall
  obtain ⟨p, hp, -⟩ := hall t ht
  rw [h t] at hp
  cases hp

/-- Users stay where they are or leave. -/
theorem Spread.mono (h : Spread n place)
    (hle : ∀ t p, place' t = some p → Reached place p t) : Spread n place' := by
  intro k users hne hall
  refine h k users hne fun t ht => ?_
  obtain ⟨p, hp, hkp⟩ := hall t ht
  obtain ⟨q, hq, hpq⟩ := hle t p hp
  exact ⟨q, hq, hkp.trans hpq⟩

/-- A user arrives. -/
theorem Spread.enter (h : Spread n place) {t : ι}
    (hothers : ∀ u, u ≠ t → place' u = place u) (hplace : place' t = some 0)
    (hfew : Few n place') : Spread n place' := by
  intro k users hne hall
  cases k with
  | zero =>
    refine hfew users fun u hu => ?_
    obtain ⟨p, hp, -⟩ := hall u hu
    simp [hp]
  | succ k =>
    refine h (k + 1) users hne fun u hu => ?_
    obtain ⟨p, hp, hkp⟩ := hall u hu
    by_cases hut : u = t
    · rw [hut, hplace] at hp
      cases hp
      omega
    · exact ⟨p, by rw [← hothers u hut, hp], hkp⟩

/-- A user moves on from a place at which somebody else is. -/
theorem Spread.climb (h : Spread n place) {t u : ι} {k : ℕ}
    (hothers : ∀ v, v ≠ t → place' v = place v) (hplace : place' t = some (k + 1))
    (ht : place t = some k) (hut : u ≠ t) (hu : place u = some k) : Spread n place' := by
  classical
  intro j users hne hall
  have hold : ∀ v ∈ users, v ≠ t → Reached place j v := by
    intro v hv hvt
    obtain ⟨p, hp, hjp⟩ := hall v hv
    exact ⟨p, by rw [← hothers v hvt, hp], hjp⟩
  by_cases hmem : t ∈ users
  · obtain ⟨p, hp, hjp⟩ := hall t hmem
    rw [hplace] at hp
    cases hp
    by_cases hjk : j ≤ k
    · refine h j users hne fun v hv => ?_
      by_cases hvt : v = t
      · exact ⟨k, by rw [hvt, ht], hjk⟩
      · exact hold v hv hvt
    · -- everybody counted is past `k`, so the user at `k` is one more
      have hj : j = k + 1 := by omega
      have hnot : u ∉ users := by
        intro hmem'
        obtain ⟨q, hq, hjq⟩ := hold u hmem' hut
        rw [hu] at hq
        cases hq
        omega
      have hcount := h k (Insert.insert u users) (Finset.insert_nonempty u users) fun v hv => by
        rcases Finset.mem_insert.mp hv with rfl | hv
        · exact ⟨k, hu, Nat.le_refl k⟩
        · by_cases hvt : v = t
          · exact ⟨k, by rw [hvt, ht], Nat.le_refl k⟩
          · obtain ⟨q, hq, hjq⟩ := hold v hv hvt
            exact ⟨q, hq, by omega⟩
      rw [Finset.card_insert_of_notMem hnot] at hcount
      omega
  · exact h j users hne fun v hv => hold v hv fun hvt => hmem (hvt ▸ hv)

end FastKV.Lib
