import Mathlib.Data.List.Basic
import Mathlib.Tactic.Common

/-!
# Writing through a bounded buffer

A writer copies data into a buffer of fixed capacity and empties the buffer into a sink
whenever it is full and more data remains. Emptying may fail; the data that was already
copied then stays in the buffer. The rules here say what a write does to the stream of
everything accepted so far, for any sink.
-/

namespace FastKV.Lib

variable {α σ ε : Type*}

/-- A buffer inside a state of type `σ`, emptied by an operation that reports an `ε`. -/
structure Buffer (α σ ε : Type*) where
  /-- Number of elements the buffer holds. -/
  cap : ℕ
  /-- The data waiting in the buffer. -/
  contents : σ → List α
  /-- Copy data to the end of the buffer. -/
  push : List α → σ → σ
  /-- Empty the buffer into the sink. -/
  flush : σ → ε × σ
  /-- The report of a flush that succeeded. -/
  ok : ε

/-- The copy loop: fill the free space, and flush first when there is none. Every round
copies something, so the length of the data is enough fuel. -/
def Buffer.write [DecidableEq ε] (B : Buffer α σ ε) : ℕ → List α → σ → ε × σ
  | 0, _, s => (B.ok, s)
  | _, [], s => (B.ok, s)
  | fuel + 1, d :: ds, s =>
    let space := B.cap - (B.contents s).length
    if space = 0 then
      let (rc, s) := B.flush s
      if rc = B.ok then B.write fuel ((d :: ds).drop B.cap) (B.push ((d :: ds).take B.cap) s)
      else (rc, s)
    else B.write fuel ((d :: ds).drop space) (B.push ((d :: ds).take space) s)

/-- What a sink owes its buffer: `stream` is everything accepted so far and `Inv` is kept
by every step. -/
structure Buffer.Lawful (B : Buffer α σ ε) (stream : σ → List α) (Inv : σ → Prop) : Prop where
  /-- The buffer is not of size zero. -/
  cap_pos : 0 < B.cap
  /-- Pushed data waits in the buffer. -/
  contents_push : ∀ d s, B.contents (B.push d s) = B.contents s ++ d
  /-- Pushed data is accepted. -/
  stream_push : ∀ d s, stream (B.push d s) = stream s ++ d
  /-- Pushing keeps the invariant. -/
  inv_push : ∀ d s, Inv s → Inv (B.push d s)
  /-- A flush accepts nothing and loses nothing. -/
  stream_flush : ∀ s, Inv s → stream (B.flush s).2 = stream s
  /-- A flush keeps the invariant. -/
  inv_flush : ∀ s, Inv s → Inv (B.flush s).2
  /-- A successful flush leaves an empty buffer. -/
  contents_flush : ∀ s, Inv s → (B.flush s).1 = B.ok → B.contents (B.flush s).2 = []
  /-- A failed flush leaves the buffer as it is. -/
  contents_fail : ∀ s, Inv s → (B.flush s).1 ≠ B.ok → B.contents (B.flush s).2 = B.contents s

/-- What a write has done when it returns: it accepted all of the data, or it failed and
accepted a proper prefix. -/
structure Buffer.Written (B : Buffer α σ ε) (stream : σ → List α) (Inv : σ → Prop)
    (data : List α) (s : σ) (r : ε × σ) : Prop where
  /-- The invariant is kept. -/
  inv : Inv r.2
  /-- The buffer does not overflow. -/
  le_cap : (B.contents r.2).length ≤ B.cap
  /-- Success accepts everything. -/
  stream_ok : r.1 = B.ok → stream r.2 = stream s ++ data
  /-- Failure accepts a proper prefix. -/
  stream_fail : r.1 ≠ B.ok → ∃ n < data.length, stream r.2 = stream s ++ data.take n

section Write

variable {B : Buffer α σ ε} {stream : σ → List α} {Inv : σ → Prop}

/-- One round of the loop followed by a write of the remaining data. -/
theorem Buffer.Written.round {data : List α} {s : σ} {space : ℕ} {r : ε × σ}
    (hB : B.Lawful stream Inv) (h : B.Written stream Inv (data.drop space)
      (B.push (data.take space) s) r) : B.Written stream Inv data s r where
  inv := h.inv
  le_cap := h.le_cap
  stream_ok hok := by
    rw [h.stream_ok hok, hB.stream_push, List.append_assoc, List.take_append_drop]
  stream_fail hfail := by
    obtain ⟨n, hn, hstream⟩ := h.stream_fail hfail
    rw [List.length_drop] at hn
    refine ⟨space + n, by omega, ?_⟩
    rw [hstream, hB.stream_push, List.append_assoc, List.take_add]

variable [DecidableEq ε]

/-- Writing nothing succeeds. -/
@[simp] theorem Buffer.write_nil (fuel : ℕ) (s : σ) : B.write fuel [] s = (B.ok, s) := by
  cases fuel <;> rfl

/-- A full buffer that cannot be emptied accepts nothing. -/
theorem Buffer.write_of_full {fuel : ℕ} {data : List α} {s : σ} (hdata : data ≠ [])
    (hfuel : data.length ≤ fuel) (hfull : B.cap ≤ (B.contents s).length)
    (hfail : (B.flush s).1 ≠ B.ok) : B.write fuel data s = B.flush s := by
  obtain ⟨d, ds, rfl⟩ := List.exists_cons_of_ne_nil hdata
  cases fuel with
  | zero => simp at hfuel
  | succ fuel =>
    have hspace : B.cap - (B.contents s).length = 0 := by omega
    simp only [Buffer.write, hspace, if_true, hfail, if_false]

/-- Data that fits is copied without a flush. -/
theorem Buffer.write_of_fits (hnil : ∀ s, B.push [] s = s) {fuel : ℕ} {data : List α} {s : σ}
    (hfuel : data.length ≤ fuel) (hfits : (B.contents s).length + data.length ≤ B.cap) :
    B.write fuel data s = (B.ok, B.push data s) := by
  cases data with
  | nil => rw [Buffer.write_nil, hnil]
  | cons d ds =>
    cases fuel with
    | zero => simp at hfuel
    | succ fuel =>
      rw [List.length_cons] at hfits
      have hspace : B.cap - (B.contents s).length ≠ 0 := by omega
      have hle : (d :: ds).length ≤ B.cap - (B.contents s).length := by
        rw [List.length_cons]
        omega
      simp only [Buffer.write, hspace, if_false, List.drop_eq_nil_of_le hle,
        List.take_of_length_le hle, Buffer.write_nil]

/-- The specification of the copy loop. -/
theorem Buffer.write_spec (hB : B.Lawful stream Inv) (fuel : ℕ) :
    ∀ (data : List α) (s : σ), data.length ≤ fuel → Inv s → (B.contents s).length ≤ B.cap →
      B.Written stream Inv data s (B.write fuel data s) := by
  induction fuel with
  | zero =>
    intro data s hfuel hinv hcap
    obtain rfl := List.eq_nil_of_length_eq_zero (Nat.le_zero.mp hfuel)
    exact ⟨hinv, hcap, fun _ => by simp [Buffer.write], fun h => absurd rfl h⟩
  | succ fuel ih =>
    intro data s hfuel hinv hcap
    cases data with
    | nil => exact ⟨hinv, hcap, fun _ => by simp [Buffer.write], fun h => absurd rfl h⟩
    | cons d ds =>
      have hpos := hB.cap_pos
      simp only [Buffer.write]
      split
      · split
        · rename_i hok
          have hempty := hB.contents_flush s hinv hok
          have hrest := ih ((d :: ds).drop B.cap) (B.push ((d :: ds).take B.cap) (B.flush s).2)
            (by simp only [List.length_drop]; omega)
            (hB.inv_push _ _ (hB.inv_flush s hinv))
            (by rw [hB.contents_push, hempty, List.nil_append]; exact List.length_take_le _ _)
          have hround := hrest.round hB
          refine ⟨hround.inv, hround.le_cap, fun h => ?_, fun h => ?_⟩
          · rw [hround.stream_ok h, hB.stream_flush s hinv]
          · obtain ⟨n, hn, hstream⟩ := hround.stream_fail h
            exact ⟨n, hn, by rw [hstream, hB.stream_flush s hinv]⟩
        · rename_i hfail
          refine ⟨hB.inv_flush s hinv, ?_, fun h => absurd h hfail, fun _ => ?_⟩
          · rw [hB.contents_fail s hinv hfail]
            exact hcap
          · exact ⟨0, by simp, by simp [hB.stream_flush s hinv]⟩
      · rename_i hspace
        refine (ih _ _ ?_ (hB.inv_push _ _ hinv) ?_).round hB
        · simp only [List.length_drop]
          simp only [List.length_cons] at hfuel ⊢
          omega
        · rw [hB.contents_push, List.length_append, List.length_take]
          omega

/-- A write succeeds when no flush can fail. -/
theorem Buffer.write_ok (hpush : ∀ d s, Inv s → Inv (B.push d s))
    (hflush : ∀ s, Inv s → (B.flush s).1 = B.ok ∧ Inv (B.flush s).2) (fuel : ℕ) :
    ∀ (data : List α) (s : σ), Inv s →
      (B.write fuel data s).1 = B.ok ∧ Inv (B.write fuel data s).2 := by
  induction fuel with
  | zero => exact fun _ _ h => ⟨rfl, h⟩
  | succ fuel ih =>
    intro data s hinv
    cases data with
    | nil => exact ⟨rfl, hinv⟩
    | cons d ds =>
      simp only [Buffer.write]
      split
      · rw [if_pos (hflush s hinv).1]
        exact ih _ _ (hpush _ _ (hflush s hinv).2)
      · exact ih _ _ (hpush _ _ hinv)

/-- A write that fails ends with the flush that failed. -/
theorem Buffer.write_fails (fuel : ℕ) : ∀ (data : List α) (s : σ),
    (B.write fuel data s).1 ≠ B.ok → ∃ s', B.write fuel data s = B.flush s' := by
  induction fuel with
  | zero => exact fun _ _ hfail => absurd rfl hfail
  | succ fuel ih =>
    intro data s hfail
    cases data with
    | nil => exact absurd rfl hfail
    | cons d ds =>
      unfold Buffer.write at hfail ⊢
      dsimp only at hfail ⊢
      split at hfail
      · split at hfail
        · rename_i hspace hok
          rw [if_pos hspace, if_pos hok]
          exact ih _ _ hfail
        · rename_i hspace hok
          rw [if_pos hspace, if_neg hok]
          exact ⟨s, rfl⟩
      · rename_i hspace
        rw [if_neg hspace]
        exact ih _ _ hfail

/-- A property that pushing and flushing keep is kept by a write. -/
theorem Buffer.write_keeps {P : σ → Prop} (hpush : ∀ d s, P s → P (B.push d s))
    (hflush : ∀ s, P s → P (B.flush s).2) (fuel : ℕ) :
    ∀ (data : List α) (s : σ), P s → P (B.write fuel data s).2 := by
  induction fuel with
  | zero => exact fun _ s h => h
  | succ fuel ih =>
    intro data s h
    cases data with
    | nil => exact h
    | cons d ds =>
      unfold Buffer.write
      dsimp only
      split
      · split
        · exact ih _ _ (hpush _ _ (hflush s h))
        · exact hflush s h
      · exact ih _ _ (hpush _ _ h)

end Write

end FastKV.Lib
