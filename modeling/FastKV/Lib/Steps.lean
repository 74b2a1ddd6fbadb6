import Mathlib.Data.List.Basic
import Mathlib.Tactic.Common

/-!
# Runs of interleaved steps

Threads that share a state are modelled by one function that executes a labelled step; a
schedule is the list of the labels. Invariants are proved for schedules whose steps all meet
a condition on the state in which they are taken, and for as long as a counter that grows by
at most one in every step stays below a bound.
-/

namespace FastKV.Lib

variable {σ α : Type*} (step : σ → α → σ)

/-- The state after a schedule. -/
def exec (s : σ) (as : List α) : σ := as.foldl step s

/-- Every step of a schedule meets a condition on the state in which it is taken. -/
def Permitted (P : σ → α → Prop) : σ → List α → Prop
  | _, [] => True
  | s, a :: as => P s a ∧ Permitted P (step s a) as

variable {step} {P : σ → α → Prop} {I : σ → Prop} {bound : ℕ}

/-- The empty schedule. -/
@[simp] theorem exec_nil (s : σ) : exec step s [] = s := rfl

/-- The first step of a schedule. -/
@[simp] theorem exec_cons (s : σ) (a : α) (as : List α) :
    exec step s (a :: as) = exec step (step s a) as := rfl

/-- One schedule after the other. -/
theorem exec_append (s : σ) (as bs : List α) :
    exec step s (as ++ bs) = exec step (exec step s as) bs := List.foldl_append ..

/-- Steps that do nothing, in a row. -/
theorem exec_stuck {s : σ} (as : List α) (h : ∀ a ∈ as, step s a = s) : exec step s as = s := by
  induction as with
  | nil => rfl
  | cons a as ih =>
    rw [exec_cons, h a List.mem_cons_self]
    exact ih fun b hb => h b (List.mem_cons_of_mem _ hb)

/-- The condition on two schedules in a row. -/
theorem permitted_append (as : List α) : ∀ {s : σ} {bs : List α},
    Permitted step P s (as ++ bs) ↔ Permitted step P s as ∧
    Permitted step P (exec step s as) bs := by
  induction as with
  | nil => exact fun {s bs} => ⟨fun h => ⟨trivial, h⟩, fun h => h.2⟩
  | cons a as ih =>
    intro s bs
    constructor
    · rintro ⟨ha, h⟩
      obtain ⟨has, hbs⟩ := ih.mp h
      exact ⟨⟨ha, has⟩, hbs⟩
    · rintro ⟨⟨ha, has⟩, hbs⟩
      exact ⟨ha, ih.mpr ⟨has, hbs⟩⟩

/-- Two conditions at once. -/
theorem Permitted.and {Q : σ → α → Prop} (as : List α) : ∀ {s : σ}, Permitted step P s as →
    Permitted step Q s as → Permitted step (fun s a => P s a ∧ Q s a) s as := by
  induction as with
  | nil => exact fun _ _ => trivial
  | cons a as ih => exact fun h h' => ⟨⟨h.1, h'.1⟩, ih h.2 h'.2⟩

/-- Steps that meet the condition in every state. -/
theorem Permitted.of_forall (as : List α) : ∀ (s : σ), (∀ a ∈ as, ∀ s, P s a) →
    Permitted step P s as := by
  induction as with
  | nil => exact fun _ _ => trivial
  | cons a as ih =>
    exact fun s h => ⟨h a List.mem_cons_self s, ih _ fun b hb => h b (List.mem_cons_of_mem _ hb)⟩

/-- A property that every permitted step keeps holds after every permitted schedule. -/
theorem exec_invariant (hstep : ∀ s a, I s → P s a → I (step s a)) (as : List α) :
    ∀ {s : σ}, I s → Permitted step P s as → I (exec step s as) := by
  induction as with
  | nil => exact fun h _ => h
  | cons a as ih => exact fun h hp => ih (hstep _ a h hp.1) hp.2

/-- If a step keeps a property exactly when it is permitted, the property holds all along a
schedule exactly when all its steps are permitted. -/
theorem permitted_iff_take {G : σ → Prop} (hstep : ∀ s a, I s → P s a → I (step s a))
    (hgood : ∀ s a, I s → G s → (G (step s a) ↔ P s a)) (as : List α) :
    ∀ {s : σ}, I s → G s → ((∀ n, G (exec step s (as.take n))) ↔ Permitted step P s as) := by
  induction as with
  | nil =>
    intro s _ hG
    refine ⟨fun _ => trivial, fun _ n => ?_⟩
    rw [List.take_nil]
    exact hG
  | cons a as ih =>
    intro s hI hG
    constructor
    · intro h
      have hfirst : G (step s a) := h 1
      have hp : P s a := (hgood s a hI hG).mp hfirst
      exact ⟨hp, (ih (hstep s a hI hp) hfirst).mp fun n => h (n + 1)⟩
    · rintro ⟨ha, has⟩ n
      have hfirst : G (step s a) := (hgood s a hI hG).mpr ha
      cases n with
      | zero => exact hG
      | succ n => exact (ih (hstep s a hI ha) hfirst).mpr has n

/-- A property that every permitted step keeps while the counter has room for `n` more holds
after every permitted schedule that is too short to use up the room. -/
theorem exec_induction_of_growth (counter : σ → ℕ) (n : ℕ)
    (hcounter : ∀ s a, I s → counter s + n < bound → counter (step s a) ≤ counter s + n)
    (hstep : ∀ s a, I s → counter s + n < bound → P s a → I (step s a)) (as : List α) :
    ∀ {s : σ}, I s → counter s + n * as.length < bound → Permitted step P s as →
      I (exec step s as) ∧ counter (exec step s as) ≤ counter s + n * as.length := by
  induction as with
  | nil => exact fun h _ _ => ⟨h, Nat.le_refl _⟩
  | cons a as ih =>
    intro s h hbound hp
    rw [List.length_cons, Nat.mul_succ] at hbound
    have hle := hcounter s a h (by omega)
    obtain ⟨hI, hlast⟩ := ih (hstep s a h (by omega) hp.1) (by omega) hp.2
    refine ⟨hI, Nat.le_trans hlast ?_⟩
    rw [List.length_cons, Nat.mul_succ]
    omega

/-- The same for a counter that grows by at most one in every step. -/
theorem exec_induction (counter : σ → ℕ)
    (hcounter : ∀ s a, I s → counter s + 1 < bound → counter (step s a) ≤ counter s + 1)
    (hstep : ∀ s a, I s → counter s + 1 < bound → P s a → I (step s a)) (as : List α) :
    ∀ {s : σ}, I s → counter s + as.length < bound → Permitted step P s as →
      I (exec step s as) ∧ counter (exec step s as) ≤ counter s + as.length := by
  intro s h hbound hp
  have hrun := exec_induction_of_growth counter 1 hcounter hstep as h (by omega) hp
  rwa [Nat.one_mul] at hrun

/-! ## Simulation -/

/-- A system whose every step is matched by steps of another one, no more than one and with the
same visible part, is matched by it in whole runs. -/
theorem exec_simulated {τ β ω : Type*} {step' : τ → β → τ} {R : σ → τ → Prop}
    (visible : α → List ω) (visible' : β → List ω)
    (hstep : ∀ s t a, R s t → ∃ bs : List β, R (step s a) (exec step' t bs) ∧ bs.length ≤ 1 ∧
      bs.flatMap visible' = visible a) (as : List α) :
    ∀ {s : σ} {t : τ}, R s t → ∃ bs : List β, R (exec step s as) (exec step' t bs) ∧
      bs.length ≤ as.length ∧ bs.flatMap visible' = as.flatMap visible := by
  induction as with
  | nil => exact fun h => ⟨[], h, Nat.le_refl _, rfl⟩
  | cons a as ih =>
    intro s t h
    obtain ⟨first, hR, hlen, hvisible⟩ := hstep s t a h
    obtain ⟨rest, hR', hlen', hvisible'⟩ := ih hR
    refine ⟨first ++ rest, ?_, ?_, ?_⟩
    · rw [exec_cons, exec_append]
      exact hR'
    · rw [List.length_append, List.length_cons]
      omega
    · rw [List.flatMap_append, List.flatMap_cons, hvisible, hvisible']

end FastKV.Lib
