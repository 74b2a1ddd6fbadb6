import FastKV.Lib.Steps
import Mathlib.Logic.Relation

/-!
# Locks with ranks

Threads that acquire and release locks, each for itself or shared with others, and that now and
then wait for something outside. A thread that takes its locks in the order of their ranks, and
gives the last one back first, can only wait for a thread that waits for a lock of a higher
rank. So every thread that is kept waiting is at the end of a chain that begins with a thread
that can go on, and there is no deadlock. Joining a thread is acquiring a lock that the thread
has held since it began.
-/

namespace FastKV.Lib

variable {L : Type*} [DecidableEq L]

/-- What a thread does next. -/
inductive LockEvent (L : Type*)
  /-- It acquires a lock, perhaps shared with others. -/
  | acquire (l : L) (shared : Bool)
  /-- It releases a lock. -/
  | release (l : L)
  /-- It waits for something outside. -/
  | wait
  deriving DecidableEq

/-- A thread with the locks it has, the last one first, and what it is going to do. -/
structure LockThread (L : Type*) where
  /-- The locks it has, and whether they are shared. -/
  held : List (L × Bool)
  /-- What it does next. -/
  todo : List (LockEvent L)

/-- A step of the threads. -/
inductive LockStep (L : Type*)
  /-- A thread goes on. -/
  | go (i : ℕ)
  /-- A thread that has nothing to do begins something. -/
  | start (i : ℕ) (todo : List (LockEvent L))
  /-- There is a new thread. -/
  | spawn (t : LockThread L)

/-- Two holders of a lock that do not go together. -/
def Conflict (l : L) (shared : Bool) (h : L × Bool) : Prop := h.1 = l ∧ (shared && h.2) = false

instance (l : L) (shared : Bool) (h : L × Bool) : Decidable (Conflict l shared h) :=
  inferInstanceAs (Decidable (_ ∧ _))

/-- Nobody is in the way. -/
def Grants (s : List (LockThread L)) (l : L) (shared : Bool) : Prop :=
  ∀ t ∈ s, ∀ h ∈ t.held, ¬ Conflict l shared h

instance (s : List (LockThread L)) (l : L) (shared : Bool) : Decidable (Grants s l shared) :=
  inferInstanceAs (Decidable (∀ t ∈ s, ∀ h ∈ t.held, _))

/-- Execute a step. A thread that is not granted a lock stays where it is. -/
def lockStep (s : List (LockThread L)) : LockStep L → List (LockThread L)
  | .go i =>
    match s[i]? with
    | none => s
    | some t =>
      match t.todo with
      | [] => s
      | .acquire l shared :: todo =>
        if Grants s l shared then s.set i ⟨(l, shared) :: t.held, todo⟩ else s
      | .release l :: todo => s.set i ⟨t.held.eraseP fun h => decide (h.1 = l), todo⟩
      | .wait :: todo => s.set i ⟨t.held, todo⟩
  | .start i todo =>
    match s[i]? with
    | none => s
    | some t => if t.todo = [] ∧ t.held = [] then s.set i ⟨[], todo⟩ else s
  | .spawn t => s ++ [t]

/-! ## The order of the locks -/

section Ordered

variable (rank : L → ℕ)

/-- Locks are acquired in the order of their ranks, the last one is released first, and in the
end there is none left. -/
def Ordered : List L → List (LockEvent L) → Prop
  | held, [] => held = []
  | held, .acquire l _ :: todo => (∀ h ∈ held, rank h < rank l) ∧ Ordered (l :: held) todo
  | held, .release l :: todo => ∃ rest, held = l :: rest ∧ Ordered rest todo
  | held, .wait :: todo => Ordered held todo

/-- A part of a program that needs locks above a rank only and gives all of them back. -/
def Balanced (r : ℕ) (part : List (LockEvent L)) : Prop :=
  ∀ held todo, (∀ h ∈ held, rank h ≤ r) → Ordered rank held todo → Ordered rank held (part ++ todo)

/-- What is done under a lock. -/
def within (l : L) (shared : Bool) (body : List (LockEvent L)) : List (LockEvent L) :=
  .acquire l shared :: (body ++ [.release l])

variable {rank} {r : ℕ}

omit [DecidableEq L] in
/-- Nothing at all. -/
theorem Balanced.nil : Balanced rank r [] := fun _ _ _ h => h

omit [DecidableEq L] in
/-- One part after the other. -/
theorem Balanced.append {p q : List (LockEvent L)} (hp : Balanced rank r p)
    (hq : Balanced rank r q) : Balanced rank r (p ++ q) := by
  intro held todo hheld h
  rw [List.append_assoc]
  exact hp held _ hheld (hq held _ hheld h)

omit [DecidableEq L] in
/-- Waiting for something outside. -/
theorem Balanced.wait : Balanced rank r [.wait] := fun _ _ _ h => h

omit [DecidableEq L] in
/-- A lock of a higher rank, and under it locks of a still higher one. -/
theorem Balanced.within {l : L} {shared : Bool} {body : List (LockEvent L)} (hl : r < rank l)
    (hbody : Balanced rank (rank l) body) : Balanced rank r (Lib.within l shared body) := by
  intro held todo hheld h
  have habove : ∀ x ∈ held, rank x < rank l := fun x hx => Nat.lt_of_le_of_lt (hheld x hx) hl
  rw [Lib.within, List.cons_append, List.append_assoc]
  refine ⟨habove, hbody _ _ ?_ ⟨held, rfl, h⟩⟩
  intro x hx
  rcases List.mem_cons.mp hx with rfl | hx
  · exact Nat.le_refl _
  · exact Nat.le_of_lt (habove x hx)

omit [DecidableEq L] in
/-- The same for each element of a list. -/
theorem Balanced.flatMap {X : Type*} {f : X → List (LockEvent L)} (xs : List X)
    (h : ∀ x ∈ xs, Balanced rank r (f x)) : Balanced rank r (xs.flatMap f) := by
  induction xs with
  | nil => exact Balanced.nil
  | cons x xs ih =>
    rw [List.flatMap_cons]
    exact (h x List.mem_cons_self).append (ih fun y hy => h y (List.mem_cons_of_mem _ hy))

omit [DecidableEq L] in
/-- One of two parts. -/
theorem Balanced.ite {c : Prop} [Decidable c] {p q : List (LockEvent L)} (hp : Balanced rank r p)
    (hq : Balanced rank r q) : Balanced rank r (if c then p else q) := by
  split
  · exact hp
  · exact hq

omit [DecidableEq L] in
/-- A part that begins and ends without locks. -/
theorem Balanced.ordered {p : List (LockEvent L)} (hp : Balanced rank r p) : Ordered rank [] p := by
  have h := hp [] [] (fun x hx => absurd hx List.not_mem_nil) rfl
  rwa [List.append_nil] at h

omit [DecidableEq L] in
/-- A part of a thread that can be joined, up to the end of the thread. -/
theorem Balanced.ordered_of_joined {l : L} {p : List (LockEvent L)} (hl : rank l ≤ r)
    (hp : Balanced rank r p) : Ordered rank [l] (p ++ [.release l]) :=
  hp [l] _ (fun x hx => by rwa [List.mem_singleton.mp hx]) ⟨[], rfl, rfl⟩

/-- All threads keep to the order. -/
def AllOrdered (rank : L → ℕ) (s : List (LockThread L)) : Prop :=
  ∀ t ∈ s, Ordered rank (t.held.map Prod.fst) t.todo

/-- Programs that keep to the order. -/
def StartsOrdered (rank : L → ℕ) (_ : List (LockThread L)) : LockStep L → Prop
  | .go _ => True
  | .start _ todo => Ordered rank [] todo
  | .spawn t => Ordered rank (t.held.map Prod.fst) t.todo

omit [DecidableEq L] in
/-- One thread has changed. -/
theorem AllOrdered.set {s : List (LockThread L)} (h : AllOrdered rank s) {i : ℕ}
    {t : LockThread L} (ht : Ordered rank (t.held.map Prod.fst) t.todo) :
    AllOrdered rank (s.set i t) := by
  intro u hu
  rcases List.mem_or_eq_of_mem_set hu with hu | rfl
  · exact h u hu
  · exact ht

/-- Every step keeps the threads in order. -/
theorem AllOrdered.step {s : List (LockThread L)} (h : AllOrdered rank s) {a : LockStep L}
    (ha : StartsOrdered rank s a) : AllOrdered rank (lockStep s a) := by
  cases a with
  | go i =>
    simp only [lockStep]
    cases hi : s[i]? with
    | none => exact h
    | some t =>
      have ht := h t (List.mem_of_getElem? hi)
      obtain ⟨held, todo⟩ := t
      cases todo with
      | nil => exact h
      | cons e todo =>
        cases e with
        | acquire l shared =>
          simp only
          split
          · exact h.set ht.2
          · exact h
        | release l =>
          obtain ⟨rest, hrest, hordered⟩ := ht
          refine h.set ?_
          cases held with
          | nil => cases hrest
          | cons x held =>
            obtain ⟨hx, hheld⟩ := List.cons.inj hrest
            rw [List.eraseP_cons_of_pos (by simpa using hx), hheld]
            exact hordered
        | wait => exact h.set ht
  | start i todo =>
    simp only [lockStep]
    split
    · exact h
    · split
      · exact h.set ha
      · exact h
  | spawn t =>
    intro u hu
    rcases List.mem_append.mp hu with hu | hu
    · exact h u hu
    · rw [List.mem_singleton.mp hu]
      exact ha

end Ordered

/-! ## Who waits for whom -/

/-- A thread is refused a lock that another thread has. -/
def WaitsFor (s : List (LockThread L)) (i j : ℕ) : Prop :=
  ∃ t u l shared todo, s[i]? = some t ∧ t.todo = .acquire l shared :: todo ∧ s[j]? = some u ∧
    ∃ h ∈ u.held, Conflict l shared h

/-- A thread has something to do, and nobody is in its way. -/
def CanGo (s : List (LockThread L)) (j : ℕ) : Prop :=
  ∃ t e todo, s[j]? = some t ∧ t.todo = e :: todo ∧
    ∀ l shared, e = .acquire l shared → Grants s l shared

section Chains

variable {rank : L → ℕ} {s : List (LockThread L)}

/-- A thread that is in the middle of something can go on, or waits for a thread that is in the
middle of something and whose lock has a higher rank than the locks it has itself. -/
theorem AllOrdered.next (h : AllOrdered rank s) {i : ℕ} {t : LockThread L} (hi : s[i]? = some t)
    (hbusy : t.todo ≠ []) :
    CanGo s i ∨ ∃ l shared todo j u, t.todo = .acquire l shared :: todo ∧
      (∀ x ∈ t.held, rank x.1 < rank l) ∧ WaitsFor s i j ∧ s[j]? = some u ∧ u.todo ≠ [] ∧
      ∃ x ∈ u.held, x.1 = l := by
  cases htodo : t.todo with
  | nil => exact absurd htodo hbusy
  | cons e todo =>
    have ht := h t (List.mem_of_getElem? hi)
    rw [htodo] at ht
    cases e with
    | acquire l shared =>
      by_cases hgrants : Grants s l shared
      · refine Or.inl ⟨t, _, todo, hi, htodo, fun l' shared' heq => ?_⟩
        cases heq
        exact hgrants
      · simp only [Grants, not_forall, not_not] at hgrants
        obtain ⟨u, hu, x, hx, hconflict⟩ := hgrants
        obtain ⟨j, hj⟩ := List.mem_iff_getElem?.mp hu
        refine Or.inr ⟨l, shared, todo, j, u, rfl, fun y hy => ht.1 y.1 (List.mem_map_of_mem hy),
          ⟨t, u, l, shared, todo, hi, htodo, hj, x, hx, hconflict⟩, hj, ?_, x, hx, hconflict.1⟩
        -- Whoever has a lock has still to give it back.
        intro hdone
        have hordered := h u hu
        rw [hdone] at hordered
        rw [List.map_eq_nil_iff.mp hordered] at hx
        cases hx
    | release l => exact Or.inl ⟨t, _, todo, hi, htodo, fun _ _ heq => by cases heq⟩
    | wait => exact Or.inl ⟨t, _, todo, hi, htodo, fun _ _ heq => by cases heq⟩

/-- Every thread that is in the middle of something waits, through a chain of threads, for one
that can go on. -/
theorem AllOrdered.chain (h : AllOrdered rank s) (bound : ℕ) (hbound : ∀ l, rank l ≤ bound)
    {i : ℕ} {t : LockThread L} (hi : s[i]? = some t) (hbusy : t.todo ≠ []) :
    ∃ j, Relation.ReflTransGen (WaitsFor s) i j ∧ CanGo s j := by
  -- The ranks go up along the chain.
  have hclimb : ∀ n i t l, s[i]? = some t → t.todo ≠ [] → (∃ x ∈ t.held, x.1 = l) →
      bound ≤ rank l + n → ∃ j, Relation.ReflTransGen (WaitsFor s) i j ∧ CanGo s j := by
    intro n
    induction n with
    | zero =>
      intro i t l hi hbusy hheld hn
      rcases h.next hi hbusy with hgo | ⟨l', -, -, -, -, -, habove, -⟩
      · exact ⟨i, .refl, hgo⟩
      · obtain ⟨x, hx, rfl⟩ := hheld
        have hlt := habove x hx
        have hle := hbound l'
        omega
    | succ n ih =>
      intro i t l hi hbusy hheld hn
      rcases h.next hi hbusy with hgo | ⟨l', -, -, j, u, -, habove, hwaits, hj, hubusy, hu⟩
      · exact ⟨i, .refl, hgo⟩
      · obtain ⟨x, hx, rfl⟩ := hheld
        have hlt := habove x hx
        obtain ⟨k, hchain, hgo⟩ := ih j u l' hj hubusy hu (by omega)
        exact ⟨k, .head hwaits hchain, hgo⟩
  rcases h.next hi hbusy with hgo | ⟨l, -, -, j, u, -, -, hwaits, hj, hubusy, hu⟩
  · exact ⟨i, .refl, hgo⟩
  · obtain ⟨k, hchain, hgo⟩ := hclimb bound j u l hj hubusy hu (Nat.le_add_left ..)
    exact ⟨k, .head hwaits hchain, hgo⟩

/-- A thread waits, perhaps through others, for a thread in the middle of something. -/
def Behind (s : List (LockThread L)) (k i : ℕ) : Prop := Relation.ReflTransGen (WaitsFor s) i k

section Stuck

variable {k : ℕ} (hk : ∃ t, s[k]? = some t ∧ t.todo ≠ [])

include hk

omit [DecidableEq L] in
/-- Such a thread is in the middle of something itself, and is the last one or waits for one
like it. -/
theorem Behind.busy {i : ℕ} (hi : Behind s k i) : (∃ t, s[i]? = some t ∧ t.todo ≠ []) ∧
    (i = k ∨ ∃ j, Behind s k j ∧ WaitsFor s i j) := by
  rcases hi.cases_head with rfl | ⟨j, hij, hjk⟩
  · exact ⟨hk, Or.inl rfl⟩
  · obtain ⟨t, -, l, shared, todo, ht, htodo, -⟩ := id hij
    exact ⟨⟨t, ht, by rw [htodo]; simp⟩, Or.inr ⟨j, hjk, hij⟩⟩

/-- A step of another thread changes nothing for the threads that wait. -/
theorem behind_step {s' : List (LockThread L)} {b : LockStep L}
    (hsame : ∀ i, Behind s k i → s'[i]? = s[i]?) (hb : b ≠ .go k) {i : ℕ} (hi : Behind s k i) :
    (lockStep s' b)[i]? = s[i]? := by
  have hother : ∀ {m : ℕ} {u : LockThread L}, m ≠ i → (s'.set m u)[i]? = s[i]? :=
    fun hm => (List.getElem?_set_ne hm).trans (hsame i hi)
  obtain ⟨⟨t, ht, htodo⟩, hwaits⟩ := hi.busy hk
  cases b with
  | go m =>
    by_cases hm : m = i
    · subst hm
      have hne : m ≠ k := by rintro rfl; exact hb rfl
      obtain ⟨j, hjk, t', u, l, shared, todo, ht', htodo', hj, x, hx, hconflict⟩ :=
        hwaits.resolve_left hne
      have hrefused : ¬ Grants s' l shared := fun hgrants =>
        hgrants u (List.mem_of_getElem? ((hsame j hjk).trans hj)) x hx hconflict
      have hm' : s'[m]? = some t' := (hsame m hi).trans ht'
      simp only [lockStep, hm', htodo', if_neg hrefused]
      exact ht'.symm
    · simp only [lockStep]
      split
      · exact hsame i hi
      · split
        · exact hsame i hi
        · split
          · exact hother hm
          · exact hsame i hi
        · exact hother hm
        · exact hother hm
  | start m todo =>
    by_cases hm : m = i
    · subst hm
      have hm' : s'[m]? = some t := (hsame m hi).trans ht
      simp only [lockStep, hm']
      rw [if_neg fun h => htodo h.1]
      exact hsame m hi
    · simp only [lockStep]
      split
      · exact hsame i hi
      · split
        · exact hother hm
        · exact hsame i hi
  | spawn u =>
    have hlt : i < s'.length := (List.getElem?_eq_some_iff.mp ((hsame i hi).trans ht)).1
    exact (List.getElem?_append_left hlt).trans (hsame i hi)

/-- As long as a thread in the middle of something makes no step, nothing changes for the threads
that wait for it. -/
theorem stuck_behind (bs : List (LockStep L)) (hbs : ∀ b ∈ bs, b ≠ .go k) :
    ∀ i, Behind s k i → (exec lockStep s bs)[i]? = s[i]? :=
  exec_invariant (I := fun s' => ∀ i, Behind s k i → s'[i]? = s[i]?)
    (P := fun _ b => b ≠ .go k) (fun _ _ hsame hb _ hi => behind_step hk hsame hb hi) bs
    (fun _ _ => rfl) (Permitted.of_forall bs s fun b hb _ => hbs b hb)

end Stuck

end Chains

end FastKV.Lib
