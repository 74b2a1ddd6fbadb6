import FastKV.Arena
import FastKV.Lib.Steps
import Mathlib.Data.Nat.Bitwise

/-!
# Regions of an arena

`mem/arena.c` once more, with the addresses of the blocks in 64-bit words. A block begins at a
multiple of 16 and its bytes stand behind a header of 24, so offsets are aligned by their absolute
addresses. Only the path that chains a new block takes the offset to be zero: there a region
begins 8 bytes behind a multiple of 16.
-/

namespace FastKV

open Lib

/-! ## Addresses -/

/-- `fastkv_arena_block_t` at its address. -/
structure MemBlock where
  /-- Where the allocator has put it. -/
  addr : UInt64
  /-- Number of bytes behind the header. -/
  cap : UInt64
  /-- Bytes that have been handed out. -/
  used : UInt64
  deriving DecidableEq

/-- The address of `data`. -/
def MemBlock.data (b : MemBlock) : UInt64 := b.addr + 24

/-- The argument of `fkv_malloc` in `block_new`. -/
def blockBytes (cap : UInt64) : UInt64 := 24 + cap

/-- A region that was handed out. -/
structure Region where
  /-- Where it begins. -/
  addr : UInt64
  /-- Its length. -/
  size : UInt64
  /-- The alignment that was asked for. -/
  align : UInt64
  deriving DecidableEq

/-- `fastkv_arena_t`, with the regions handed out since the last reset, newest first. -/
structure ArenaMem where
  /-- The newest block. -/
  head : MemBlock
  /-- The other ones, newest first. -/
  older : List MemBlock
  /-- Usual size of a block. -/
  blockSize : UInt64
  /-- Bytes asked for so far. -/
  totalAllocated : UInt64
  /-- The regions. -/
  regions : List Region
  deriving DecidableEq

/-- All blocks. -/
def ArenaMem.blocks (s : ArenaMem) : List MemBlock := s.head :: s.older

/-- What an allocator may return for a number of bytes: a multiple of 16 in the lower half of the
address space, apart from the blocks that are live. -/
def MayReturn (live : List MemBlock) (bytes addr : UInt64) : Prop :=
  16 ∣ addr.toNat ∧ 0 < addr.toNat ∧ addr.toNat + bytes.toNat ≤ 2 ^ 63 ∧
    ∀ b ∈ live, addr.toNat + bytes.toNat ≤ b.addr.toNat ∨
      b.addr.toNat + (blockBytes b.cap).toNat ≤ addr.toNat

instance (live : List MemBlock) (bytes addr : UInt64) : Decidable (MayReturn live bytes addr) :=
  inferInstanceAs (Decidable (_ ∧ _ ∧ _ ∧ _))

/-- The size of the blocks of an arena that is created with this argument. -/
def usualSize (blockSize : UInt64) : UInt64 := if blockSize = 0 then 64 * 1024 else blockSize

/-- `fastkv_arena_create`; `ok` tells whether there is memory for the arena itself, and `mem` is
what the allocator returns for the first block. -/
def arenaCreateMem (blockSize : UInt64) (ok : Bool) (mem : Option UInt64) : Option ArenaMem :=
  if ok = false then none
  else
    match mem with
    | none => none
    | some addr =>
      if MayReturn [] (blockBytes (usualSize blockSize)) addr then
        some ⟨⟨addr, usualSize blockSize, 0⟩, [], usualSize blockSize, 0, []⟩
      else none

/-- `aligned` in `fastkv_arena_alloc_aligned`. -/
def alignUp (base align : UInt64) : UInt64 := (base + (align - 1)) &&& ~~~(align - 1)

/-- `offset` in `fastkv_arena_alloc_aligned`, before a block is chained. -/
def MemBlock.offset (b : MemBlock) (align : UInt64) : UInt64 :=
  alignUp (b.data + b.used) align - b.data

/-- Whether a region fits into the newest block, as `fastkv_arena_alloc_aligned` tests it. -/
def ArenaMem.fits (s : ArenaMem) (size align : UInt64) : Bool :=
  decide (s.head.offset align + size ≤ s.head.cap)

/-- `new_cap` in `fastkv_arena_alloc_aligned`. -/
def ArenaMem.newCap (s : ArenaMem) (size align : UInt64) : UInt64 :=
  if s.blockSize < size then size + align else s.blockSize

/-- Hand out a region at an offset of the newest block. -/
def ArenaMem.handOut (s : ArenaMem) (offset size align : UInt64) : ArenaMem :=
  { s with
    head := { s.head with used := offset + size }
    totalAllocated := s.totalAllocated + size
    regions := ⟨s.head.data + offset, size, align⟩ :: s.regions }

/-- `fastkv_arena_alloc_aligned`; `mem` is what the allocator returns for a new block. -/
def arenaAllocMem (s : ArenaMem) (size align : UInt64) (mem : Option UInt64) : ArenaMem :=
  if s.fits size align then s.handOut (s.head.offset align) size align
  else
    match mem with
    | none => s
    | some addr =>
      if MayReturn s.blocks (blockBytes (s.newCap size align)) addr then
        ArenaMem.handOut { s with head := ⟨addr, s.newCap size align, 0⟩, older := s.blocks } 0 size
          align
      else s

/-- `fastkv_arena_reset`. -/
def arenaResetMem (s : ArenaMem) : ArenaMem :=
  { s with
    head := { s.blocks.getLast (List.cons_ne_nil _ _) with used := 0 }
    older := []
    totalAllocated := 0
    regions := [] }

/-- The arguments of an allocation. -/
structure ArenaRequest where
  /-- Number of bytes. -/
  size : UInt64
  /-- Alignment. -/
  align : UInt64
  /-- The number of bytes is at most `2 ^ 32`. -/
  size_le : size.toNat ≤ 2 ^ 32
  /-- The alignment is a power of two up to 16. -/
  align_pow : ∃ k ≤ 4, align.toNat = 2 ^ k

/-- Calls of the functions of an arena. -/
inductive ArenaStep
  /-- `fastkv_arena_alloc_aligned`. -/
  | allocAligned (r : ArenaRequest) (mem : Option UInt64)
  /-- `fastkv_arena_alloc`. -/
  | alloc (size : UInt64) (size_le : size.toNat ≤ 2 ^ 32) (mem : Option UInt64)
  /-- `fastkv_arena_reset`. -/
  | reset

/-- Execute a call. -/
def arenaStep (s : ArenaMem) : ArenaStep → ArenaMem
  | .allocAligned r mem => arenaAllocMem s r.size r.align mem
  | .alloc size _ mem => arenaAllocMem s size 16 mem
  | .reset => arenaResetMem s

/-! ## What a caller relies on -/

/-- The regions are aligned, inside a block and apart. -/
structure ArenaMem.Good (s : ArenaMem) : Prop where
  /-- An address is a multiple of the alignment that was asked for. -/
  aligned : ∀ r ∈ s.regions, r.align.toNat ∣ r.addr.toNat
  /-- A region lies behind the header of a live block and not beyond its memory. -/
  inside : ∀ r ∈ s.regions, ∃ b ∈ s.blocks, b.addr.toNat + 24 ≤ r.addr.toNat ∧
    r.addr.toNat + r.size.toNat ≤ b.addr.toNat + (blockBytes b.cap).toNat
  /-- Regions do not overlap. -/
  apart : s.regions.Pairwise fun r r' => r.addr.toNat + r.size.toNat ≤ r'.addr.toNat ∨
    r'.addr.toNat + r'.size.toNat ≤ r.addr.toNat

/-! ## Rounding up -/

/-- Clearing the low bits of a number. -/
theorem and_not_low {x k : ℕ} (hx : x < 2 ^ 64) (hk : k ≤ 64) :
    x &&& (2 ^ 64 - 1 - (2 ^ k - 1)) = x / 2 ^ k * 2 ^ k := by
  have hpos := Nat.two_pow_pos k
  have hle : 2 ^ k ≤ 2 ^ 64 := Nat.pow_le_pow_right (by omega) hk
  have hmask : 2 ^ 64 - 1 - (2 ^ k - 1) = 2 ^ 64 - (2 ^ k - 1 + 1) := by omega
  apply Nat.eq_of_testBit_eq
  intro i
  rw [hmask, Nat.testBit_and, Nat.testBit_two_pow_sub_succ (by omega),
    Nat.testBit_two_pow_sub_one, Nat.mul_comm, Nat.testBit_two_pow_mul, Nat.testBit_div_two_pow]
  by_cases hi : i < k
  · simp [hi, Nat.not_le.mpr hi]
  · have hge : k ≤ i := Nat.not_lt.mp hi
    by_cases h64 : i < 64
    · simp [hi, hge, h64]
    · have hzero : x.testBit i = false :=
        Nat.testBit_lt_two_pow (hx.trans_le (Nat.pow_le_pow_right (by omega) (by omega)))
      simp [hge, hzero]

/-- The masked sum is the next multiple of the alignment. -/
theorem toNat_alignUp {base align : UInt64} {k : ℕ} (hk : k ≤ 4) (halign : align.toNat = 2 ^ k)
    (hbase : base.toNat + 16 ≤ 2 ^ 64) : ∃ m, (alignUp base align).toNat = m * 2 ^ k ∧
      base.toNat ≤ m * 2 ^ k ∧ m * 2 ^ k < base.toNat + 2 ^ k := by
  have hpos := Nat.two_pow_pos k
  have hle : 2 ^ k ≤ 2 ^ 4 := Nat.pow_le_pow_right (by omega) hk
  have hpred : (align - 1).toNat = 2 ^ k - 1 := by
    rw [UInt64.toNat_sub_of_le _ _ (UInt64.le_iff_toNat_le.mpr (halign ▸ hpos)), halign]
    rfl
  have hsum : (base + (align - 1)).toNat = base.toNat + (2 ^ k - 1) := by
    rw [UInt64.toNat_add, hpred]
    omega
  have hmask : (~~~(align - 1)).toNat = 2 ^ 64 - 1 - (2 ^ k - 1) := by
    rw [UInt64.toNat_not, hpred]
    rfl
  refine ⟨(base.toNat + (2 ^ k - 1)) / 2 ^ k, ?_, ?_, ?_⟩
  · rw [alignUp, UInt64.toNat_and, hsum, hmask, and_not_low (by omega) (by omega)]
  · have hmod := Nat.div_add_mod (base.toNat + (2 ^ k - 1)) (2 ^ k)
    have hlt := Nat.mod_lt (base.toNat + (2 ^ k - 1)) hpos
    rw [Nat.mul_comm] at hmod
    omega
  · have hdiv := Nat.div_mul_le_self (base.toNat + (2 ^ k - 1)) (2 ^ k)
    omega

/-! ## The invariant -/

/-- A block is aligned and lies in the lower half of the address space. -/
structure MemBlock.Placed (b : MemBlock) : Prop where
  /-- Its address. -/
  aligned : 16 ∣ b.addr.toNat
  /-- Its end. -/
  bound : b.addr.toNat + 24 + b.cap.toNat ≤ 2 ^ 63
  /-- Not more than all bytes have been handed out. -/
  used_le : b.used.toNat ≤ b.cap.toNat

section Placed

variable {b : MemBlock} {align : UInt64} {k : ℕ}

/-- The memory of a block is its header and its bytes. -/
theorem MemBlock.Placed.toNat_bytes (h : b.Placed) :
    (blockBytes b.cap).toNat = 24 + b.cap.toNat := by
  have hbound := h.bound
  rw [blockBytes, UInt64.toNat_add]
  show (24 + b.cap.toNat) % 2 ^ 64 = _
  omega

/-- The address of the bytes. -/
theorem MemBlock.Placed.toNat_data (h : b.Placed) : b.data.toNat = b.addr.toNat + 24 := by
  have hbound := h.bound
  rw [MemBlock.data, UInt64.toNat_add]
  show (b.addr.toNat + 24) % 2 ^ 64 = _
  omega

/-- The address of a byte. -/
theorem MemBlock.Placed.toNat_data_add (h : b.Placed) {offset : UInt64}
    (hle : offset.toNat ≤ b.cap.toNat) :
    (b.data + offset).toNat = b.addr.toNat + 24 + offset.toNat := by
  have hbound := h.bound
  rw [UInt64.toNat_add, h.toNat_data]
  omega

/-- The offset of the next region: behind those handed out, at the next aligned address. -/
theorem MemBlock.Placed.offset_spec (h : b.Placed) (hk : k ≤ 4) (halign : align.toNat = 2 ^ k) :
    b.used.toNat ≤ (b.offset align).toNat ∧ (b.offset align).toNat < b.used.toNat + 2 ^ k ∧
      2 ^ k ∣ b.addr.toNat + 24 + (b.offset align).toNat := by
  have hbound := h.bound
  have hused := h.used_le
  have hbase : (b.data + b.used).toNat = b.addr.toNat + 24 + b.used.toNat := h.toNat_data_add hused
  obtain ⟨m, hm, hle, hlt⟩ := @toNat_alignUp (b.data + b.used) align k hk halign (by omega)
  have hoffset : (b.offset align).toNat = m * 2 ^ k - (b.addr.toNat + 24) := by
    have hdata : b.data ≤ alignUp (b.data + b.used) align := by
      rw [UInt64.le_iff_toNat_le, h.toNat_data, hm]
      omega
    rw [MemBlock.offset, UInt64.toNat_sub_of_le _ _ hdata, hm, h.toNat_data]
  refine ⟨by omega, by omega, m, ?_⟩
  rw [Nat.mul_comm (2 ^ k)]
  omega

end Placed

/-- Two blocks have no byte in common. -/
def MemBlock.Apart (b b' : MemBlock) : Prop :=
  b.addr.toNat + 24 + b.cap.toNat ≤ b'.addr.toNat ∨
    b'.addr.toNat + 24 + b'.cap.toNat ≤ b.addr.toNat

/-- Two regions have no byte in common. -/
def Region.Apart (r r' : Region) : Prop :=
  r.addr.toNat + r.size.toNat ≤ r'.addr.toNat ∨ r'.addr.toNat + r'.size.toNat ≤ r.addr.toNat

/-- The region lies in what a block has handed out. -/
def Region.In (r : Region) (b : MemBlock) : Prop :=
  b.addr.toNat + 24 ≤ r.addr.toNat ∧ r.addr.toNat + r.size.toNat ≤ b.addr.toNat + 24 + b.used.toNat

/-- The invariant of an arena. -/
structure ArenaMem.Sound (s : ArenaMem) : Prop where
  /-- The blocks are where an allocator puts them. -/
  placed : ∀ b ∈ s.blocks, b.Placed
  /-- They are apart. -/
  disjoint : s.blocks.Pairwise MemBlock.Apart
  /-- The number of bytes of a block of the usual size is a word. -/
  size : 24 + s.blockSize.toNat < 2 ^ 64
  /-- Every region was handed out by a block. -/
  inside : ∀ r ∈ s.regions, ∃ b ∈ s.blocks, r.In b
  /-- Regions are apart. -/
  apart : s.regions.Pairwise Region.Apart

section Sound

variable {s : ArenaMem}

/-- A region is handed out behind the others of the newest block. -/
theorem ArenaMem.Sound.handOut (h : s.Sound) {offset size : UInt64} (align : UInt64)
    (hused : s.head.used.toNat ≤ offset.toNat)
    (hfits : offset.toNat + size.toNat ≤ s.head.cap.toNat) :
    (s.handOut offset size align).Sound ∧
      (s.head.data + offset).toNat = s.head.addr.toNat + 24 + offset.toNat := by
  have hhead : s.head.Placed := h.placed s.head List.mem_cons_self
  have hbound := hhead.bound
  have haddr : (s.head.data + offset).toNat = s.head.addr.toNat + 24 + offset.toNat :=
    hhead.toNat_data_add (by omega)
  have hsum : (offset + size).toNat = offset.toNat + size.toNat := by
    rw [UInt64.toNat_add]
    omega
  obtain ⟨hapart, hrest⟩ := List.pairwise_cons.mp h.disjoint
  refine ⟨⟨?_, ?_, h.size, ?_, ?_⟩, haddr⟩
  · intro b hb
    rcases List.mem_cons.mp hb with rfl | hb
    · exact ⟨hhead.aligned, hbound, hsum.trans_le hfits⟩
    · exact h.placed b (List.mem_cons_of_mem _ hb)
  · exact List.pairwise_cons.mpr ⟨hapart, hrest⟩
  · intro r hr
    rcases List.mem_cons.mp hr with rfl | hr
    · refine ⟨_, List.mem_cons_self, ?_, ?_⟩
      · rw [haddr]
        exact Nat.le_add_right _ _
      · show (s.head.data + offset).toNat + size.toNat ≤
          s.head.addr.toNat + 24 + (offset + size).toNat
        omega
    · obtain ⟨b, hb, hlow, hhigh⟩ := h.inside r hr
      rcases List.mem_cons.mp hb with rfl | hb
      · refine ⟨_, List.mem_cons_self, hlow, ?_⟩
        show _ ≤ s.head.addr.toNat + 24 + (offset + size).toNat
        omega
      · exact ⟨b, List.mem_cons_of_mem _ hb, hlow, hhigh⟩
  · refine List.pairwise_cons.mpr ⟨fun r hr => ?_, h.apart⟩
    show (s.head.data + offset).toNat + size.toNat ≤ r.addr.toNat ∨
      r.addr.toNat + r.size.toNat ≤ (s.head.data + offset).toNat
    obtain ⟨b, hb, hlow, hhigh⟩ := h.inside r hr
    rcases List.mem_cons.mp hb with rfl | hb
    · right
      omega
    · have hused := (h.placed b (List.mem_cons_of_mem _ hb)).used_le
      rcases hapart b hb with hlt | hlt
      · left
        omega
      · right
        omega

/-- A new block is chained. -/
theorem ArenaMem.Sound.chain (h : s.Sound) {cap addr : UInt64} (hcap : 24 + cap.toNat < 2 ^ 64)
    (hmem : MayReturn s.blocks (blockBytes cap) addr) :
    ArenaMem.Sound { s with head := ⟨addr, cap, 0⟩, older := s.blocks } := by
  have hbytes : (blockBytes cap).toNat = 24 + cap.toNat := by
    rw [blockBytes, UInt64.toNat_add]
    show (24 + cap.toNat) % 2 ^ 64 = _
    omega
  obtain ⟨haligned, -, hbound, hlive⟩ := hmem
  rw [hbytes] at hbound hlive
  refine ⟨?_, ?_, h.size, ?_, h.apart⟩
  · intro b hb
    rcases List.mem_cons.mp hb with rfl | hb
    · exact ⟨haligned, by show addr.toNat + 24 + cap.toNat ≤ _; omega, Nat.zero_le _⟩
    · exact h.placed b hb
  · refine List.pairwise_cons.mpr ⟨fun b hb => ?_, h.disjoint⟩
    show addr.toNat + 24 + cap.toNat ≤ b.addr.toNat ∨ b.addr.toNat + 24 + b.cap.toNat ≤ addr.toNat
    have hb' := hlive b hb
    rw [(h.placed b hb).toNat_bytes] at hb'
    omega
  · intro r hr
    obtain ⟨b, hb, hin⟩ := h.inside r hr
    exact ⟨b, List.mem_cons_of_mem _ hb, hin⟩

/-- A reset keeps the first block. -/
theorem ArenaMem.Sound.reset (h : s.Sound) : (arenaResetMem s).Sound := by
  have hlast := h.placed _ (List.getLast_mem (List.cons_ne_nil s.head s.older))
  refine ⟨fun b hb => ?_, List.pairwise_singleton _ _, h.size, fun r hr => ?_, List.Pairwise.nil⟩
  · obtain rfl := List.mem_singleton.mp hb
    exact ⟨hlast.aligned, hlast.bound, Nat.zero_le _⟩
  · cases hr

end Sound

/-! ## Allocations -/

/-- An allocation chains a new block. -/
def ArenaMem.Chains (s : ArenaMem) (size align : UInt64) (mem : Option UInt64) : Prop :=
  s.fits size align = false ∧
    ∃ addr, mem = some addr ∧ MayReturn s.blocks (blockBytes (s.newCap size align)) addr

/-- The number of bytes of a block of the usual size is a word, and an allocation that asks for
the largest alignment does not chain a new block. -/
def ArenaMem.Spared (s : ArenaMem) : ArenaStep → Prop
  | .allocAligned r mem =>
    24 + s.blockSize.toNat < 2 ^ 64 ∧ ¬ (r.align = 16 ∧ s.Chains r.size r.align mem)
  | .alloc size _ mem => 24 + s.blockSize.toNat < 2 ^ 64 ∧ ¬ s.Chains size 16 mem
  | .reset => True

section Allocations

variable {s : ArenaMem} {size align : UInt64} {k : ℕ}

/-- A region that fits. -/
theorem arenaAllocMem_of_fits (hfits : s.fits size align = true) (mem : Option UInt64) :
    arenaAllocMem s size align mem = s.handOut (s.head.offset align) size align := if_pos hfits

/-- A region in a new block. -/
theorem arenaAllocMem_of_chains (hfits : s.fits size align = false) {addr : UInt64}
    (hmay : MayReturn s.blocks (blockBytes (s.newCap size align)) addr) :
    arenaAllocMem s size align (some addr) = ArenaMem.handOut
      { s with head := ⟨addr, s.newCap size align, 0⟩, older := s.blocks } 0 size align := by
  simp only [arenaAllocMem, hfits, Bool.false_eq_true, if_false, if_pos hmay]

/-- The capacity of a new block is enough for the region. -/
theorem ArenaMem.Sound.newCap (h : s.Sound) (hsize : size.toNat ≤ 2 ^ 32)
    (halign : align.toNat ≤ 2 ^ 4) : size.toNat ≤ (s.newCap size align).toNat ∧
      24 + (s.newCap size align).toNat < 2 ^ 64 := by
  have hblock := h.size
  unfold ArenaMem.newCap
  split
  · rw [UInt64.toNat_add]
    omega
  · rename_i hle
    rw [UInt64.lt_iff_toNat_lt] at hle
    omega

/-- What an allocation does: it hands out a region at an aligned address of the newest block, it
hands out the first bytes of a new block, or it fails. -/
theorem ArenaMem.Sound.alloc (h : s.Sound) (hsize : size.toNat ≤ 2 ^ 32) (hk : k ≤ 4)
    (halign : align.toNat = 2 ^ k) (mem : Option UInt64) :
    (arenaAllocMem s size align mem).Sound ∧
      ((∃ addr, (arenaAllocMem s size align mem).regions = ⟨addr, size, align⟩ :: s.regions ∧
          ¬ s.Chains size align mem ∧ 2 ^ k ∣ addr.toNat) ∨
        (∃ addr, (arenaAllocMem s size align mem).regions = ⟨addr, size, align⟩ :: s.regions ∧
          s.Chains size align mem ∧ addr.toNat % 16 = 8) ∨
        (arenaAllocMem s size align mem = s ∧ ¬ s.Chains size align mem)) := by
  have hpow : 2 ^ k ≤ 2 ^ 4 := Nat.pow_le_pow_right (by omega) hk
  have hhead : s.head.Placed := h.placed s.head List.mem_cons_self
  have hbound := hhead.bound
  have hused := hhead.used_le
  cases hfits : s.fits size align with
  | true =>
    obtain ⟨hlow, hhigh, hdvd⟩ := hhead.offset_spec hk halign
    have hle : (s.head.offset align).toNat + size.toNat ≤ s.head.cap.toNat := by
      have htest := of_decide_eq_true hfits
      rw [UInt64.le_iff_toNat_le, UInt64.toNat_add] at htest
      omega
    obtain ⟨hsound, haddr⟩ := h.handOut align hlow hle
    rw [arenaAllocMem_of_fits hfits]
    refine ⟨hsound, Or.inl ⟨_, rfl, fun hchains => ?_, haddr ▸ hdvd⟩⟩
    exact Bool.noConfusion (hfits.symm.trans hchains.1)
  | false =>
    by_cases hchains : s.Chains size align mem
    · obtain ⟨-, addr, rfl, hmay⟩ := hchains
      obtain ⟨hcap, hword⟩ := h.newCap hsize (halign.trans_le hpow)
      have hchain := h.chain hword hmay
      have hroom : (0 : UInt64).toNat + size.toNat ≤ (s.newCap size align).toNat := by
        rw [UInt64.toNat_zero]
        omega
      obtain ⟨hsound, haddr⟩ := hchain.handOut align (Nat.le_refl _) hroom
      rw [arenaAllocMem_of_chains hfits hmay]
      refine ⟨hsound, Or.inr (Or.inl ⟨_, rfl, ⟨hfits, addr, rfl, hmay⟩, ?_⟩)⟩
      have hmod : addr.toNat % 16 = 0 := Nat.mod_eq_zero_of_dvd hmay.1
      rw [haddr]
      show (addr.toNat + 24 + 0) % 16 = 8
      omega
    · have hsame : arenaAllocMem s size align mem = s := by
        cases mem with
        | none => simp only [arenaAllocMem, hfits, Bool.false_eq_true, if_false]
        | some addr =>
          have hno : ¬ MayReturn s.blocks (blockBytes (s.newCap size align)) addr :=
            fun hmay => hchains ⟨hfits, addr, rfl, hmay⟩
          simp only [arenaAllocMem, hfits, Bool.false_eq_true, if_false, if_neg hno]
      rw [hsame]
      exact ⟨h, Or.inr (Or.inr ⟨rfl, hchains⟩)⟩

end Allocations

/-! ## Runs -/

/-- Every call keeps the invariant. -/
theorem arenaStep_sound {s : ArenaMem} (h : s.Sound) (a : ArenaStep) : (arenaStep s a).Sound := by
  cases a with
  | allocAligned r mem =>
    obtain ⟨k, hk, halign⟩ := r.align_pow
    exact (h.alloc r.size_le hk halign mem).1
  | alloc size hsize mem => exact (h.alloc hsize (Nat.le_refl 4) rfl mem).1
  | reset => exact h.reset

/-- All regions are aligned. -/
def ArenaMem.Aligned (s : ArenaMem) : Prop := ∀ r ∈ s.regions, r.align.toNat ∣ r.addr.toNat

/-- With the invariant only the alignment is in question. -/
theorem ArenaMem.Sound.good_iff {s : ArenaMem} (h : s.Sound) : s.Good ↔ s.Aligned := by
  refine ⟨fun hgood => hgood.aligned, fun haligned => ⟨haligned, fun r hr => ?_, h.apart⟩⟩
  obtain ⟨b, hb, hlow, hhigh⟩ := h.inside r hr
  have hplaced := h.placed b hb
  have hused := hplaced.used_le
  refine ⟨b, hb, hlow, ?_⟩
  rw [hplaced.toNat_bytes]
  omega

/-- An allocation keeps the regions aligned unless it asks for the largest alignment and chains a
new block. -/
theorem ArenaMem.Sound.alloc_aligned_iff {s : ArenaMem} (h : s.Sound) (hs : s.Aligned)
    {size align : UInt64} (hsize : size.toNat ≤ 2 ^ 32) (hpow : ∃ k ≤ 4, align.toNat = 2 ^ k)
    (mem : Option UInt64) :
    (arenaAllocMem s size align mem).Aligned ↔ ¬ (align = 16 ∧ s.Chains size align mem) := by
  obtain ⟨k, hk, halign⟩ := hpow
  obtain ⟨-, ⟨addr, hregions, hno, hdvd⟩ | ⟨addr, hregions, hchains, hmod⟩ | ⟨hsame, hno⟩⟩ :=
    h.alloc hsize hk halign mem
  · refine ⟨fun _ hbad => hno hbad.2, fun _ r hr => ?_⟩
    rw [hregions] at hr
    rcases List.mem_cons.mp hr with rfl | hr
    · show align.toNat ∣ addr.toNat
      rwa [halign]
    · exact hs r hr
  · constructor
    · rintro haligned ⟨rfl, -⟩
      have hnew := haligned ⟨addr, size, 16⟩ (by rw [hregions]; exact List.mem_cons_self)
      have hzero : addr.toNat % 16 = 0 := Nat.mod_eq_zero_of_dvd hnew
      omega
    · intro hspared r hr
      rw [hregions] at hr
      rcases List.mem_cons.mp hr with rfl | hr
      · show align.toNat ∣ addr.toNat
        have hk3 : k ≤ 3 := by
          by_contra hlarge
          obtain rfl : k = 4 := by omega
          exact hspared ⟨UInt64.toNat_inj.mp halign, hchains⟩
        have h8 : 8 ∣ addr.toNat := by omega
        rw [halign]
        exact (Nat.pow_dvd_pow 2 hk3).trans h8
      · exact hs r hr
  · rw [hsame]
    exact ⟨fun _ hbad => hno hbad.2, fun _ => hs⟩

/-- The number of bytes of a block does not fit into a word, and nothing has been handed out. -/
structure ArenaMem.Wrapped (s : ArenaMem) : Prop where
  /-- The sum in `block_new` wraps. -/
  wraps : 2 ^ 64 ≤ 24 + s.blockSize.toNat
  /-- The first block is new. -/
  fresh : s.head.cap = s.blockSize ∧ s.head.used = 0
  /-- It lies in the lower half of the address space. -/
  bound : s.head.addr.toNat ≤ 2 ^ 63
  /-- There are no other blocks. -/
  older : s.older = []
  /-- There are no regions. -/
  regions : s.regions = []

/-- Then the first region is not inside the memory of the block. -/
theorem ArenaMem.Wrapped.alloc {s : ArenaMem} (h : s.Wrapped) {size align : UInt64}
    (hsize : size.toNat ≤ 2 ^ 32) (hpow : ∃ k ≤ 4, align.toNat = 2 ^ k) (mem : Option UInt64) :
    ¬ (arenaAllocMem s size align mem).Good := by
  obtain ⟨k, hk, halign⟩ := hpow
  obtain ⟨hcap, hused⟩ := h.fresh
  have hbound := h.bound
  have hwraps := h.wraps
  have hword := s.blockSize.toNat_lt
  have hpow : 2 ^ k ≤ 2 ^ 4 := Nat.pow_le_pow_right (by omega) hk
  have hdata : s.head.data.toNat = s.head.addr.toNat + 24 := by
    rw [MemBlock.data, UInt64.toNat_add]
    show (s.head.addr.toNat + 24) % 2 ^ 64 = _
    omega
  have hbase : s.head.data + s.head.used = s.head.data := by
    rw [hused, UInt64.add_zero]
  obtain ⟨m, hm, hle, hlt⟩ := @toNat_alignUp s.head.data align k hk halign (by omega)
  have hoffset : (s.head.offset align).toNat = m * 2 ^ k - (s.head.addr.toNat + 24) := by
    rw [MemBlock.offset, hbase, UInt64.toNat_sub_of_le, hm, hdata]
    rw [UInt64.le_iff_toNat_le, hm]
    exact hle
  have hfits : s.fits size align = true := by
    apply decide_eq_true
    rw [UInt64.le_iff_toNat_le, UInt64.toNat_add, hcap]
    omega
  rw [arenaAllocMem_of_fits hfits]
  intro hgood
  obtain ⟨b, hb, -, hhigh⟩ := hgood.inside _ List.mem_cons_self
  obtain rfl : b = { s.head with used := s.head.offset align + size } := by
    have hblocks : (s.handOut (s.head.offset align) size align).blocks =
        [{ s.head with used := s.head.offset align + size }] := by
      show _ :: s.older = _
      rw [h.older]
      rfl
    rw [hblocks] at hb
    exact List.mem_singleton.mp hb
  have hbytes : (blockBytes s.head.cap).toNat = 24 + s.blockSize.toNat - 2 ^ 64 := by
    rw [blockBytes, UInt64.toNat_add, hcap]
    show (24 + s.blockSize.toNat) % 2 ^ 64 = _
    omega
  change (s.head.data + s.head.offset align).toNat + size.toNat ≤
    s.head.addr.toNat + (blockBytes s.head.cap).toNat at hhigh
  rw [UInt64.toNat_add, hdata, hbytes] at hhigh
  omega

/-- A reset changes nothing then. -/
theorem ArenaMem.Wrapped.reset {s : ArenaMem} (h : s.Wrapped) : (arenaResetMem s).Wrapped := by
  have hlast : s.blocks.getLast (List.cons_ne_nil _ _) = s.head := by
    simp only [ArenaMem.blocks, h.older, List.getLast_singleton]
  refine ⟨h.wraps, ⟨?_, rfl⟩, ?_, rfl, rfl⟩
  · show (s.blocks.getLast (List.cons_ne_nil _ _)).cap = s.blockSize
    rw [hlast]
    exact h.fresh.1
  · show (s.blocks.getLast (List.cons_ne_nil _ _)).addr.toNat ≤ 2 ^ 63
    rw [hlast]
    exact h.bound

/-- A state that spared calls reach. -/
def ArenaMem.Regular (s : ArenaMem) : Prop := s.Sound ∨ s.Wrapped

/-- A spared call leads to such a state again. -/
theorem ArenaMem.Regular.step {s : ArenaMem} (h : s.Regular) {a : ArenaStep} (ha : s.Spared a) :
    (arenaStep s a).Regular := by
  rcases h with h | h
  · exact Or.inl (arenaStep_sound h a)
  · have hwraps := h.wraps
    cases a with
    | allocAligned r mem => exact absurd ha.1 (by omega)
    | alloc size hsize mem => exact absurd ha.1 (by omega)
    | reset => exact Or.inr h.reset

/-- A call keeps the regions in order exactly if it is spared. -/
theorem ArenaMem.Regular.step_iff {s : ArenaMem} (h : s.Regular) (hs : s.Good) (a : ArenaStep) :
    (arenaStep s a).Good ↔ s.Spared a := by
  rcases h with h | h
  · rw [(arenaStep_sound h a).good_iff]
    cases a with
    | allocAligned r mem =>
      have halloc := h.alloc_aligned_iff hs.aligned r.size_le r.align_pow mem
      exact halloc.trans ⟨fun hno => ⟨h.size, hno⟩, And.right⟩
    | alloc size hsize mem =>
      have halloc :=
        @ArenaMem.Sound.alloc_aligned_iff s h hs.aligned size 16 hsize ⟨4, Nat.le_refl 4, rfl⟩ mem
      exact halloc.trans ⟨fun hno => ⟨h.size, fun hchains => hno ⟨rfl, hchains⟩⟩,
        fun hspared hbad => hspared.2 hbad.2⟩
    | reset => exact ⟨fun _ => trivial, fun _ r hr => by cases hr⟩
  · have hwraps := h.wraps
    cases a with
    | allocAligned r mem =>
      exact ⟨fun hgood => absurd hgood (h.alloc r.size_le r.align_pow mem),
        fun hspared => absurd hspared.1 (by omega)⟩
    | alloc size hsize mem =>
      exact ⟨fun hgood => absurd hgood (h.alloc hsize ⟨4, Nat.le_refl 4, rfl⟩ mem),
        fun hspared => absurd hspared.1 (by omega)⟩
    | reset =>
      exact ⟨fun _ => trivial, fun _ => ⟨fun _ hr => absurd hr List.not_mem_nil,
        fun _ hr => absurd hr List.not_mem_nil, List.Pairwise.nil⟩⟩

/-- A new arena. -/
theorem arenaCreateMem_regular {blockSize : UInt64} {ok : Bool} {mem : Option UInt64}
    {s : ArenaMem} (h : arenaCreateMem blockSize ok mem = some s) :
    s.Regular ∧ s.regions = [] := by
  cases ok with
  | false => cases h
  | true =>
    cases mem with
    | none => cases h
    | some addr =>
      by_cases hmay : MayReturn [] (blockBytes (usualSize blockSize)) addr
      · have hcreate : arenaCreateMem blockSize true (some addr) =
            some ⟨⟨addr, usualSize blockSize, 0⟩, [], usualSize blockSize, 0, []⟩ := if_pos hmay
        rw [hcreate, Option.some.injEq] at h
        subst h
        obtain ⟨haligned, -, hbound, -⟩ := hmay
        refine ⟨?_, rfl⟩
        by_cases hsize : 24 + (usualSize blockSize).toNat < 2 ^ 64
        · left
          rw [blockBytes, UInt64.toNat_add] at hbound
          refine ⟨fun b hb => ?_, List.pairwise_singleton _ _, hsize, fun r hr => ?_,
            List.Pairwise.nil⟩
          · obtain rfl := List.mem_singleton.mp hb
            refine ⟨haligned, ?_, Nat.zero_le _⟩
            change addr.toNat + (24 + (usualSize blockSize).toNat) % 2 ^ 64 ≤ 2 ^ 63 at hbound
            show addr.toNat + 24 + (usualSize blockSize).toNat ≤ 2 ^ 63
            omega
          · cases hr
        · right
          exact ⟨Nat.not_lt.mp hsize, ⟨rfl, rfl⟩, Nat.le_trans (Nat.le_add_right _ _) hbound, rfl,
            rfl⟩
      · have hcreate : arenaCreateMem blockSize true (some addr) = none := if_neg hmay
        rw [hcreate] at h
        cases h

/-- Whatever is asked for, the regions stay inside their blocks and apart as long as the number of
bytes of a block is a word. -/
theorem arena_regions_apart {blockSize : UInt64} {ok : Bool} {mem : Option UInt64} {s : ArenaMem}
    (hsize : 24 + s.blockSize.toNat < 2 ^ 64) (h : arenaCreateMem blockSize ok mem = some s)
    (steps : List ArenaStep) : (exec arenaStep s steps).Sound := by
  have hsound : s.Sound := by
    rcases (arenaCreateMem_regular h).1 with hsound | hwrapped
    · exact hsound
    · exact absurd hwrapped.wraps (Nat.not_le.mpr hsize)
  refine exec_invariant (I := ArenaMem.Sound) (P := fun _ _ => True)
    (fun _ a hs _ => arenaStep_sound hs a) steps hsound (.of_forall steps s ?_)
  exact fun _ _ _ => trivial

/-- In every run the regions are aligned, inside their blocks and apart all along exactly if the
number of bytes of a block is a word for every allocation, and no allocation that asks for the
largest alignment chains a new block. -/
theorem arena_regions_good_iff {blockSize : UInt64} {ok : Bool} {mem : Option UInt64}
    {s : ArenaMem} (h : arenaCreateMem blockSize ok mem = some s) (steps : List ArenaStep) :
    (∀ n, (exec arenaStep s (steps.take n)).Good) ↔
      Permitted arenaStep ArenaMem.Spared s steps := by
  obtain ⟨hregular, hnone⟩ := arenaCreateMem_regular h
  have hgood : s.Good := by
    refine ⟨fun r hr => ?_, fun r hr => ?_, ?_⟩
    · rw [hnone] at hr
      cases hr
    · rw [hnone] at hr
      cases hr
    · rw [hnone]
      exact List.Pairwise.nil
  have hiff : ∀ s a, ArenaMem.Regular s → s.Good → ((arenaStep s a).Good ↔ s.Spared a) :=
    fun _ a hs hg => hs.step_iff hg a
  exact permitted_iff_take (fun _ _ hs ha => hs.step ha) hiff steps hregular hgood

/-- Allocations that fit into the first block are in order, whatever they ask for. -/
theorem arena_regions_good_first_block :
    (exec arenaStep ⟨⟨4096, 4096, 0⟩, [], 4096, 0, []⟩
      [.alloc 64 (by decide) none, .allocAligned ⟨1, 16, by decide, 4, by decide⟩ none]).Good := by
  have hcreate : arenaCreateMem 4096 true (some 4096) =
      some ⟨⟨4096, 4096, 0⟩, [], 4096, 0, []⟩ := by decide
  refine (arena_regions_good_iff hcreate
    [.alloc 64 (by decide) none, .allocAligned ⟨1, 16, by decide, 4, by decide⟩ none]).mpr ?_ 2
  exact ⟨⟨by decide, fun hchains => Bool.noConfusion hchains.1⟩,
    ⟨by decide, fun hchains => Bool.noConfusion hchains.2.1⟩, trivial⟩

/-- An allocation that does not fit begins 8 bytes behind a multiple of 16. -/
theorem chained_region_misaligned : ¬ ∀ (blockSize : UInt64) (ok : Bool) (mem : Option UInt64)
    (s : ArenaMem) (steps : List ArenaStep), arenaCreateMem blockSize ok mem = some s →
      (exec arenaStep s steps).Good := by
  intro h
  have hgood := h 128 true (some 4096) ⟨⟨4096, 128, 0⟩, [], 128, 0, []⟩
    [.alloc 256 (by decide) (some 8192)] (by decide)
  have hregion : (⟨8216, 256, 16⟩ : Region) ∈ (exec arenaStep ⟨⟨4096, 128, 0⟩, [], 128, 0, []⟩
      [.alloc 256 (by decide) (some 8192)]).regions := by decide
  exact absurd (hgood.aligned _ hregion) (by decide)

/-! ## Without addresses -/

/-- A block without its address. -/
def MemBlock.view (b : MemBlock) : ArenaBlock := ⟨b.cap.toNat, b.used.toNat⟩

/-- The arena of `FastKV.Arena`, for a number of bytes asked for so far. -/
def ArenaMem.view (s : ArenaMem) (total : ℕ) : Arena :=
  ⟨s.head.view, s.older.map MemBlock.view, s.blockSize.toNat, total⟩

/-- The offset does not depend on the address. -/
theorem MemBlock.Placed.offset_view {b : MemBlock} (h : b.Placed) {align : UInt64} {k : ℕ}
    (hk : k ≤ 4) (halign : align.toNat = 2 ^ k) :
    b.view.offset align.toNat = (b.offset align).toNat := by
  obtain ⟨hlow, hhigh, hdvd⟩ := h.offset_spec hk halign
  have haddr := h.aligned
  have hcases : align.toNat = 1 ∨ align.toNat = 2 ∨ align.toNat = 4 ∨ align.toNat = 8 ∨
      align.toNat = 16 := by
    have hk' : k = 0 ∨ k = 1 ∨ k = 2 ∨ k = 3 ∨ k = 4 := by omega
    rcases hk' with rfl | rfl | rfl | rfl | rfl <;> omega
  show (24 + b.used.toNat + (align.toNat - 1)) / align.toNat * align.toNat - 24 = _
  rw [← halign] at hdvd hhigh
  rcases hcases with ha | ha | ha | ha | ha <;> rw [ha] at hdvd hhigh ⊢ <;> omega

/-- An allocation does what it does without addresses, but for the count of bytes. -/
theorem ArenaMem.Sound.view {s : ArenaMem} (h : s.Sound) {size align : UInt64} {k : ℕ}
    (hsize : size.toNat ≤ 2 ^ 32) (hk : k ≤ 4) (halign : align.toNat = 2 ^ k)
    {mem : Option UInt64}
    (hmem : ∀ addr ∈ mem, MayReturn s.blocks (blockBytes (s.newCap size align)) addr)
    (total : ℕ) : ∃ total', (arenaAllocAligned (s.view total) size.toNat align.toNat
      [mem.isSome]).2.1 = (arenaAllocMem s size align mem).view total' := by
  have hpow : 2 ^ k ≤ 2 ^ 4 := Nat.pow_le_pow_right (by omega) hk
  have hhead : s.head.Placed := h.placed s.head List.mem_cons_self
  have hbound := hhead.bound
  have hused := hhead.used_le
  obtain ⟨hlow, hhigh, -⟩ := hhead.offset_spec hk halign
  have hsum : (s.head.offset align + size).toNat = (s.head.offset align).toNat + size.toNat := by
    rw [UInt64.toNat_add]
    omega
  have hfits : s.fits size align = true ↔
      ¬ s.head.cap.toNat < (s.head.offset align).toNat + size.toNat := by
    rw [ArenaMem.fits, decide_eq_true_iff, UInt64.le_iff_toNat_le, hsum]
    omega
  have hcap : (s.newCap size align).toNat =
      if s.blockSize.toNat < size.toNat then size.toNat + align.toNat else s.blockSize.toNat := by
    unfold ArenaMem.newCap
    by_cases hlt : s.blockSize.toNat < size.toNat
    · rw [if_pos hlt, if_pos (UInt64.lt_iff_toNat_lt.mpr hlt), UInt64.toNat_add]
      omega
    · rw [if_neg hlt, if_neg (mt UInt64.lt_iff_toNat_lt.mp hlt)]
  unfold arenaAllocAligned
  simp only [ArenaMem.view, hhead.offset_view hk halign]
  cases hfit : s.fits size align with
  | true =>
    refine ⟨total + size.toNat, ?_⟩
    rw [arenaAllocMem_of_fits hfit, if_neg (show ¬ s.head.view.cap < _ from hfits.mp hfit)]
    simp only [ArenaMem.handOut, MemBlock.view, hsum]
  | false =>
    have hfull : s.head.view.cap < (s.head.offset align).toNat + size.toNat := by
      by_contra hno
      rw [hfits.mpr hno] at hfit
      cases hfit
    rw [if_pos hfull]
    cases mem with
    | none =>
      have hsame : arenaAllocMem s size align none = s := by
        simp only [arenaAllocMem, hfit, Bool.false_eq_true, if_false]
      rw [hsame]
      exact ⟨total, rfl⟩
    | some addr =>
      refine ⟨total + size.toNat, ?_⟩
      rw [arenaAllocMem_of_chains hfit (hmem addr rfl)]
      simp only [ArenaMem.handOut, MemBlock.view, UInt64.zero_add, hcap]
      rfl

end FastKV
