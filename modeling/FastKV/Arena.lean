import FastKV.Types

/-!
# Arenas

`mem/arena.c`, and the allocator below it. The write set of a transaction lies in an arena: blocks
from which regions are cut off one behind the other. A region that does not fit into the newest
block goes to a block of its own or a new one of the usual size, and only then memory can be
short. Which allocations succeed is an input.
-/

namespace FastKV

/-- `fkv_malloc`, given the outcomes of the next allocations; after the last one they succeed. -/
def fkvMalloc (mem : List Bool) : Bool × List Bool := (mem.headD true, mem.tail)

/-- `fastkv_arena_block_t` without its bytes. -/
structure ArenaBlock where
  /-- Number of bytes. -/
  cap : ℕ
  /-- Bytes that have been handed out. -/
  used : ℕ
  deriving DecidableEq

/-- `fastkv_arena_t`. -/
structure Arena where
  /-- The newest block. -/
  head : ArenaBlock
  /-- The other ones, newest first. -/
  older : List ArenaBlock
  /-- Usual size of a block. -/
  blockSize : ℕ
  /-- Bytes asked for so far. -/
  totalAllocated : ℕ
  deriving DecidableEq

/-- `FASTKV_ARENA_DEFAULT_BLOCK`. -/
def arenaDefaultBlock : ℕ := 64 * 1024

/-- `sizeof(fastkv_arena_block_t)`: a pointer and two sizes stand in front of the bytes. -/
def arenaBlockHeader : ℕ := 24

/-- `_Alignof(max_align_t)`, of which the address of every allocated block is a multiple. -/
def maxAlign : ℕ := 16

/-- `block_new`. -/
def blockNew (cap : ℕ) (mem : List Bool) : Option ArenaBlock × List Bool :=
  let (ok, mem) := fkvMalloc mem
  (if ok then some ⟨cap, 0⟩ else none, mem)

/-- `fastkv_arena_create`. -/
def arenaCreate (blockSize : ℕ) (mem : List Bool) : Option Arena × List Bool :=
  let blockSize := if blockSize = 0 then arenaDefaultBlock else blockSize
  match fkvMalloc mem with
  | (false, mem) => (none, mem)
  | (true, mem) =>
    match blockNew blockSize mem with
    | (none, mem) => (none, mem)
    | (some base, mem) => (some ⟨base, [], blockSize, 0⟩, mem)

/-- Where the next region of a block begins. Its address is aligned, not its offset. -/
def ArenaBlock.offset (b : ArenaBlock) (align : ℕ) : ℕ :=
  (arenaBlockHeader + b.used + (align - 1)) / align * align - arenaBlockHeader

/-- `fastkv_arena_alloc_aligned`: the offset of the region in the newest block. -/
def arenaAllocAligned (arena : Arena) (size align : ℕ) (mem : List Bool) :
    Option ℕ × Arena × List Bool :=
  let offset := arena.head.offset align
  let totalAllocated := arena.totalAllocated + size
  if arena.head.cap < offset + size then
    match blockNew (if arena.blockSize < size then size + align else arena.blockSize) mem with
    | (none, mem) => (none, arena, mem)
    | (some nb, mem) =>
      (some 0, { arena with
        head := { nb with used := size }, older := arena.head :: arena.older, totalAllocated }, mem)
  else
    (some offset,
      { arena with head := { arena.head with used := offset + size }, totalAllocated }, mem)

/-- `fastkv_arena_alloc`. -/
def arenaAlloc (arena : Arena) (size : ℕ) (mem : List Bool) : Option ℕ × Arena × List Bool :=
  arenaAllocAligned arena size maxAlign mem

/-- `fastkv_arena_dup`, with room for a final zero. -/
def arenaDup (arena : Arena) (buf : Bytes) (mem : List Bool) : Slice × Arena × List Bool :=
  let (dst, arena, mem) := arenaAlloc arena (buf.length + 1) mem
  (dst.map fun _ => buf, arena, mem)

/-- Whether a copy goes to the newest block. -/
def Arena.hasRoom (arena : Arena) (buf : Bytes) : Bool :=
  decide (arena.head.offset maxAlign + (buf.length + 1) ≤ arena.head.cap)

/-- A copy fails only if it needs a block and does not get one. -/
theorem arenaDup_eq (arena : Arena) (buf : Bytes) (mem : List Bool) :
    (arenaDup arena buf mem).1 =
        (if arena.hasRoom buf || (fkvMalloc mem).1 then some buf else none) ∧
      (arenaDup arena buf mem).2.2 = if arena.hasRoom buf then mem else (fkvMalloc mem).2 := by
  unfold arenaDup arenaAlloc arenaAllocAligned Arena.hasRoom blockNew
  simp only
  by_cases hroom : arena.head.offset maxAlign + (buf.length + 1) ≤ arena.head.cap
  · rw [if_neg (not_lt.mpr hroom), decide_eq_true hroom]
    exact ⟨rfl, rfl⟩
  · rw [if_pos (not_le.mp hroom), decide_eq_false hroom]
    generalize fkvMalloc mem = outcome
    obtain ⟨ok, mem⟩ := outcome
    cases ok <;> exact ⟨rfl, rfl⟩

end FastKV
