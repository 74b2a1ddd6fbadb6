import Mathlib.Algebra.Order.Group.Multiset
import Mathlib.Data.Finset.Erase
import Mathlib.Data.Finset.Insert

/-!
# Owned memory

Programs that allocate and free blocks. A program that frees a block which is not allocated is
stuck, so one that runs to its end frees no block twice. Allocations may fail, and which of them
do is part of the heap.

`Runs pre mem c Q` says of a program what it does to the blocks it owns. The rest of the heap is
in the definition: it is arbitrary, and it is there unchanged in the end. So the frame rule holds
for every program, and rules for single calls are put together by `Runs.bind`.
-/

namespace FastKV.Lib

/-- The allocated blocks, and the outcomes of the next allocations; after the last one they
succeed. -/
structure Heap where
  /-- The blocks that are allocated. -/
  live : Finset ℕ
  /-- An address beyond them. -/
  next : ℕ
  /-- The outcomes. -/
  answers : List Bool
  /-- New blocks are new. -/
  fresh : ∀ b ∈ live, b < next

/-- A program, with no result when it is stuck. -/
abbrev Prog (α : Type) := StateT Heap Option α

/-- The heap with one more block. -/
def Heap.grown (h : Heap) : Heap where
  live := Insert.insert h.next h.live
  next := h.next + 1
  answers := h.answers.tail
  fresh b hb := by
    rcases Finset.mem_insert.mp hb with rfl | hb
    · exact Nat.lt_succ_self _
    · exact Nat.lt_succ_of_lt (h.fresh b hb)

/-- The heap without a block. -/
def Heap.freed (h : Heap) (b : ℕ) : Heap :=
  { h with live := h.live.erase b, fresh := fun _ hc => h.fresh _ (Finset.mem_of_mem_erase hc) }

/-- Allocate a block, or return a null pointer. -/
def malloc : Prog (Option ℕ) := fun h =>
  if h.answers.headD true then some (some h.next, h.grown)
  else some (none, { h with answers := h.answers.tail })

/-- Free a block. There is nothing to free behind a null pointer. -/
def free : Option ℕ → Prog Unit
  | none => pure ()
  | some b => fun h => if b ∈ h.live then some ((), h.freed b) else none

variable {α β : Type}

/-- Started with the blocks `pre` among others and the outcomes `mem`, the program runs to its
end, and then the other blocks are as before and `Q` holds of the result, the outcomes that are
left and the blocks that it owns now. -/
def Runs (pre : Multiset ℕ) (mem : List Bool) (c : Prog α)
    (Q : α → List Bool → Multiset ℕ → Prop) : Prop :=
  ∀ (h : Heap) (rest : Multiset ℕ), h.answers = mem → h.live.val = pre + rest →
    ∃ a h' post, c h = some (a, h') ∧ Q a h'.answers post ∧ h'.live.val = post + rest

variable {pre : Multiset ℕ} {mem : List Bool} {c : Prog α} {Q : α → List Bool → Multiset ℕ → Prop}

/-- A weaker condition on the result. -/
theorem Runs.mono {Q' : α → List Bool → Multiset ℕ → Prop} (h : Runs pre mem c Q)
    (hQ : ∀ a mem' post, Q a mem' post → Q' a mem' post) : Runs pre mem c Q' := by
  intro heap rest hmem hlive
  obtain ⟨a, heap', post, hrun, hpost, hlive'⟩ := h heap rest hmem hlive
  exact ⟨a, heap', post, hrun, hQ a _ _ hpost, hlive'⟩

/-- A program that does nothing. -/
theorem Runs.pure {a : α} (h : Q a mem pre) : Runs pre mem (Pure.pure a) Q :=
  fun heap _ hmem hlive => ⟨a, heap, pre, rfl, hmem ▸ h, hlive⟩

/-- One program after another. -/
theorem Runs.bind {f : α → Prog β} {R : β → List Bool → Multiset ℕ → Prop} (h : Runs pre mem c Q)
    (hf : ∀ a mem' post, Q a mem' post → Runs post mem' (f a) R) : Runs pre mem (c >>= f) R := by
  intro heap rest hmem hlive
  obtain ⟨a, heap', post, hrun, hpost, hlive'⟩ := h heap rest hmem hlive
  obtain ⟨b, heap'', post', hrun', hpost', hlive''⟩ := hf a _ _ hpost heap' rest rfl hlive'
  refine ⟨b, heap'', post', ?_, hpost', hlive''⟩
  change (c heap).bind _ = _
  rw [hrun]
  exact hrun'

/-- Blocks that a program does not know stay as they are. -/
theorem Runs.frame (h : Runs pre mem c Q) (others : Multiset ℕ) :
    Runs (pre + others) mem c fun a mem' post =>
      ∃ post', post = post' + others ∧ Q a mem' post' := by
  intro heap rest hmem hlive
  rw [add_assoc] at hlive
  obtain ⟨a, heap', post, hrun, hpost, hlive'⟩ := h heap (others + rest) hmem hlive
  exact ⟨a, heap', post + others, hrun, ⟨post, rfl, hpost⟩, by rw [hlive', add_assoc]⟩

/-- The result of a program on a heap. -/
theorem Runs.result {heap : Heap} (h : Runs 0 heap.answers c Q) : ∃ a heap' post,
    c heap = some (a, heap') ∧ Q a heap'.answers post ∧ heap'.live.val = post + heap.live.val :=
  h heap heap.live.val rfl (zero_add _).symm

/-- The block behind a pointer, if any. -/
def behind (p : Option ℕ) : Multiset ℕ := p.elim 0 fun b => {b}

@[simp] theorem behind_none : behind none = 0 := rfl

@[simp] theorem behind_some (b : ℕ) : behind (some b) = {b} := rfl

/-- An allocation succeeds or fails. -/
theorem runs_malloc (pre : Multiset ℕ) (mem : List Bool) : Runs pre mem malloc fun p mem' post =>
    post = behind p + pre ∧ mem' = mem.tail ∧ p.isSome = mem.headD true := by
  rintro heap rest rfl hlive
  unfold malloc
  cases hanswer : heap.answers.headD true with
  | true =>
    refine ⟨some heap.next, heap.grown, heap.next ::ₘ pre, if_pos rfl, ⟨rfl, rfl, rfl⟩, ?_⟩
    have hnew : heap.next ∉ heap.live := fun hmem => absurd (heap.fresh _ hmem) (lt_irrefl _)
    rw [Heap.grown, Finset.insert_val, Multiset.ndinsert_of_notMem hnew, hlive, Multiset.cons_add]
  | false =>
    exact ⟨none, { heap with answers := heap.answers.tail }, pre, if_neg (by simp),
      ⟨(zero_add _).symm, rfl, rfl⟩, hlive⟩

/-- What is behind a pointer can be freed by those who own it. -/
theorem runs_free (p : Option ℕ) (pre : Multiset ℕ) (mem : List Bool) :
    Runs (behind p + pre) mem (free p) fun _ mem' post => post = pre ∧ mem' = mem := by
  cases p with
  | none =>
    rw [behind_none, zero_add]
    exact Runs.pure ⟨rfl, rfl⟩
  | some b =>
    rintro heap rest rfl hlive
    rw [behind_some, Multiset.singleton_add, Multiset.cons_add] at hlive
    have hmem : b ∈ heap.live := by
      rw [← Finset.mem_val, hlive]
      exact Multiset.mem_cons_self _ _
    refine ⟨(), heap.freed b, pre, if_pos hmem, ⟨rfl, rfl⟩, ?_⟩
    rw [Heap.freed, Finset.erase_val, hlive, Multiset.erase_cons_head]

end FastKV.Lib
