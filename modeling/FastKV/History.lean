import Mathlib.Data.List.Induction
import FastKV.System

/-!
# The history of a database

Commits and checkpoints in the order in which they took effect. The timestamps are meant to
agree with this order, and then the last checkpoint together with the records since then
accounts for everything.
-/

namespace FastKV

/-- The records of a commit. -/
def Event.records : Event → List Record
  | .commit ts writes => writes.map fun e => e.record ts
  | .checkpoint _ _ => []

/-- Timestamp and identifier of the last checkpoint, and the records since then. -/
def Event.follow : Option (ℕ × Uuid) × List Record → Event → Option (ℕ × Uuid) × List Record
  | (last, pending), .commit ts writes => (last, pending ++ (Event.commit ts writes).records)
  | _, .checkpoint ts id => (some (ts, id), [])

/-- The last checkpoint of a history and the records since then. -/
def followed (history : List Event) : Option (ℕ × Uuid) × List Record :=
  history.foldl Event.follow (none, [])

/-- The order that timestamps should have: commits are not later than the checkpoints after
them, and later than the checkpoints before them. -/
def Event.Before : Event → Event → Prop
  | .commit ts _, .checkpoint ts' _ => ts ≤ ts'
  | .checkpoint ts _, .commit ts' _ => ts < ts'
  | .checkpoint ts _, .checkpoint ts' _ => ts ≤ ts'
  | .commit _ _, .commit _ _ => True

/-- A history up to the given time. -/
structure Chronicle (clock : ℕ) (history : List Event) : Prop where
  /-- Timestamps are in order. -/
  ordered : history.Pairwise Event.Before
  /-- Commits are older than the clock and have written something. -/
  commits : ∀ ts writes, .commit ts writes ∈ history → ts < clock ∧ writes ≠ []
  /-- Checkpoints are not newer than the clock. -/
  checkpoints : ∀ ts id, .checkpoint ts id ∈ history → ts ≤ clock

@[simp] theorem followed_append (history : List Event) (e : Event) :
    followed (history ++ [e]) = Event.follow (followed history) e := by
  simp [followed, List.foldl_append]

/-- The last checkpoint is in the history. -/
theorem mem_of_followed {history : List Event} {ts : ℕ} {id : Uuid}
    (h : (followed history).1 = some (ts, id)) : .checkpoint ts id ∈ history := by
  induction history using List.reverseRecOn with
  | nil => cases h
  | append_singleton history e ih =>
    rw [followed_append] at h
    cases e with
    | commit ts' writes => exact List.mem_append_left _ (ih h)
    | checkpoint ts' id' =>
      simp only [Event.follow, Option.some.injEq, Prod.mk.injEq] at h
      simp [h.1, h.2]

/-- The records since a checkpoint that is the last one. -/
theorem followed_of_last (before : List Event) (ts : ℕ) (id : Uuid) {after : List Event}
    (hlast : ∀ ts' id', .checkpoint ts' id' ∉ after) :
    followed (before ++ .checkpoint ts id :: after) =
      (some (ts, id), after.flatMap Event.records) := by
  induction after using List.reverseRecOn with
  | nil => simp [Event.follow]
  | append_singleton after e ih =>
    have hrest := ih fun ts' id' hmem => hlast ts' id' (List.mem_append_left _ hmem)
    rw [show before ++ .checkpoint ts id :: (after ++ [e]) =
      (before ++ .checkpoint ts id :: after) ++ [e] by simp, followed_append, hrest]
    cases e with
    | commit ts' writes => simp [Event.follow]
    | checkpoint ts' id' => exact absurd (by simp) (hlast ts' id')

section Chronicle

variable {clock clock' : ℕ} {history : List Event}

/-- Time passes. -/
theorem Chronicle.mono (h : Chronicle clock history) (hle : clock ≤ clock') :
    Chronicle clock' history :=
  ⟨h.ordered, fun ts writes hmem => ⟨(h.commits ts writes hmem).1.trans_le hle,
    (h.commits ts writes hmem).2⟩, fun ts id hmem => (h.checkpoints ts id hmem).trans hle⟩

/-- A commit at the clock, later than all checkpoints. -/
theorem Chronicle.commit (h : Chronicle clock history)
    (hcut : ∀ ts id, .checkpoint ts id ∈ history → ts < clock) {writes : List WriteEntry}
    (hwrites : writes ≠ []) (hlt : clock < clock') :
    Chronicle clock' (history ++ [.commit clock writes]) := by
  have hold := h.mono hlt.le
  refine ⟨List.pairwise_append.mpr ⟨h.ordered, by simp, fun e he e' he' => ?_⟩,
    fun ts ws hmem => ?_, fun ts id hmem => ?_⟩
  · cases List.mem_singleton.mp he'
    cases e with
    | commit ts ws => trivial
    | checkpoint ts id => exact hcut ts id he
  · rcases List.mem_append.mp hmem with hmem | hmem
    · exact hold.commits ts ws hmem
    · cases List.mem_singleton.mp hmem
      exact ⟨hlt, hwrites⟩
  · exact hold.checkpoints ts id (by simpa using hmem)

/-- A checkpoint at the clock. -/
theorem Chronicle.checkpoint (h : Chronicle clock history) (id : Uuid) :
    Chronicle clock (history ++ [.checkpoint clock id]) := by
  refine ⟨List.pairwise_append.mpr ⟨h.ordered, by simp, fun e he e' he' => ?_⟩,
    fun ts ws hmem => h.commits ts ws (by simpa using hmem), fun ts id' hmem => ?_⟩
  · cases List.mem_singleton.mp he'
    cases e with
    | commit ts ws => exact (h.commits ts ws he).1.le
    | checkpoint ts id' => exact h.checkpoints ts id' he
  · rcases List.mem_append.mp hmem with hmem | hmem
    · exact h.checkpoints ts id' hmem
    · cases List.mem_singleton.mp hmem
      exact Nat.le_refl _

/-- Every event is not later than the last checkpoint, or a commit since then. -/
theorem Chronicle.dated (h : Chronicle clock history) :
    (∀ ts writes, .commit ts writes ∈ history →
      (∃ last ∈ (followed history).1, ts ≤ last.1) ∨ ∃ r ∈ (followed history).2, r.ts = ts) ∧
    ∀ ts id, .checkpoint ts id ∈ history → ∃ last ∈ (followed history).1, ts ≤ last.1 := by
  induction history using List.reverseRecOn with
  | nil => simp
  | append_singleton history e ih =>
    obtain ⟨hordered, -, hbefore⟩ := List.pairwise_append.mp h.ordered
    obtain ⟨hcommits, hcheckpoints⟩ := ih ⟨hordered,
      fun ts ws hmem => h.commits ts ws (List.mem_append_left _ hmem),
      fun ts id hmem => h.checkpoints ts id (List.mem_append_left _ hmem)⟩
    rw [followed_append]
    cases e with
    | commit ts writes =>
      refine ⟨fun ts' ws hmem => ?_, fun ts' id hmem => hcheckpoints ts' id (by simpa using hmem)⟩
      rcases List.mem_append.mp hmem with hmem | hmem
      · refine (hcommits ts' ws hmem).imp_right fun ⟨r, hr, hts⟩ => ⟨r, ?_, hts⟩
        exact List.mem_append_left _ hr
      · cases List.mem_singleton.mp hmem
        obtain ⟨e, es, rfl⟩ := List.exists_cons_of_ne_nil (h.commits ts writes (by simp)).2
        exact Or.inr ⟨e.record ts, List.mem_append_right _ (by simp [Event.records]), rfl⟩
    | checkpoint ts id =>
      refine ⟨fun ts' ws hmem => Or.inl ⟨(ts, id), rfl, ?_⟩,
        fun ts' id' hmem => ⟨(ts, id), rfl, ?_⟩⟩
      · exact hbefore _ (by simpa using hmem) _ (List.mem_singleton.mpr rfl)
      · rcases List.mem_append.mp hmem with hmem | hmem
        · exact hbefore _ hmem _ (List.mem_singleton.mpr rfl)
        · cases List.mem_singleton.mp hmem
          exact Nat.le_refl _

/-- A clock that is later than the last checkpoint and the records since then is later than
everything. -/
theorem Chronicle.reopen (h : Chronicle clock history)
    (hlast : ∀ last ∈ (followed history).1, last.1 < clock')
    (hpending : ∀ r ∈ (followed history).2, r.ts < clock') : Chronicle clock' history := by
  obtain ⟨hcommits, hcheckpoints⟩ := h.dated
  refine ⟨h.ordered, fun ts writes hmem => ⟨?_, (h.commits ts writes hmem).2⟩, fun ts id hmem => ?_⟩
  · rcases hcommits ts writes hmem with ⟨last, hmem', hle⟩ | ⟨r, hr, rfl⟩
    · exact hle.trans_lt (hlast last hmem')
    · exact hpending r hr
  · obtain ⟨last, hmem', hle⟩ := hcheckpoints ts id hmem
    exact hle.trans (hlast last hmem').le

end Chronicle

end FastKV
