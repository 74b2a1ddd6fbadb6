import FastKV.Types

/-!
# The timestamp oracle

`txn/mvcc.c`: a clock from which both begin and commit timestamps are drawn, and a table of
the begin timestamps of the running transactions, zero in a free slot. The clock holds the
next timestamp to be handed out.
-/

namespace FastKV

/-- `FASTKV_MAX_CONCURRENT_TXN`. -/
def maxConcurrentTxn : ℕ := 256

/-- `fastkv_oracle_t`. -/
structure Oracle where
  /-- The next timestamp. -/
  clock : ℕ
  /-- The begin timestamps of running transactions; 0 is a free slot. -/
  slots : List ℕ
  /-- The table has a fixed size. -/
  length_slots : slots.length = maxConcurrentTxn
  deriving DecidableEq

/-- `fastkv_oracle_init`. -/
def oracleInit : Oracle := ⟨1, List.replicate maxConcurrentTxn 0, List.length_replicate⟩

/-- The clock after one draw. -/
def Oracle.tick (o : Oracle) : Oracle := { o with clock := add64 o.clock 1 }

/-- Write a slot. -/
def Oracle.setSlot (o : Oracle) (i ts : ℕ) : Oracle :=
  { o with slots := o.slots.set i ts, length_slots := by rw [List.length_set, o.length_slots] }

/-- `fastkv_oracle_begin`: the timestamp and the slot, `none` when all are taken. -/
def oracleBegin (o : Oracle) : ℕ × Option ℕ × Oracle :=
  match o.slots.findIdx? (· = 0) with
  | some i => (o.clock, some i, o.tick.setSlot i o.clock)
  | none => (o.clock, none, o.tick)

/-- `fastkv_oracle_commit`. -/
def oracleCommit (o : Oracle) : ℕ × Oracle := (o.clock, o.tick)

/-- `fastkv_oracle_now`. -/
def oracleNow (o : Oracle) : ℕ := o.clock

/-- `fastkv_oracle_release`. -/
def oracleRelease (o : Oracle) : Option ℕ → Oracle
  | some slot => if slot < maxConcurrentTxn then o.setSlot slot 0 else o
  | none => o

/-- `fastkv_oracle_min_active`. -/
def oracleMinActive (o : Oracle) : ℕ :=
  o.slots.foldl (fun minTs ts => if ts ≠ 0 ∧ ts < minTs then ts else minTs) o.clock

/-- `fastkv_oracle_advance`. -/
def oracleAdvance (o : Oracle) (atLeast : ℕ) : Oracle :=
  if atLeast ≤ o.clock then o else { o with clock := atLeast }

/-- Beginning a transaction hands out the clock and advances it. -/
theorem oracleBegin_clock (o : Oracle) :
    (oracleBegin o).1 = o.clock ∧ (oracleBegin o).2.2.clock = add64 o.clock 1 := by
  unfold oracleBegin
  split <;> exact ⟨rfl, rfl⟩

/-- Advancing moves the clock forward only. -/
@[simp] theorem clock_oracleAdvance (o : Oracle) (atLeast : ℕ) :
    (oracleAdvance o atLeast).clock = max o.clock atLeast := by
  unfold oracleAdvance
  split
  · rename_i h
    exact (Nat.max_eq_left h).symm
  · rename_i h
    exact (Nat.max_eq_right (Nat.le_of_not_le h)).symm

/-- Releasing a slot leaves the clock alone. -/
@[simp] theorem clock_oracleRelease (o : Oracle) (slot : Option ℕ) :
    (oracleRelease o slot).clock = o.clock := by
  unfold oracleRelease
  split
  · split <;> rfl
  · rfl

/-- The smallest active timestamp is not ahead of the clock. -/
theorem oracleMinActive_le (o : Oracle) : oracleMinActive o ≤ o.clock := by
  unfold oracleMinActive
  generalize o.clock = minTs
  induction o.slots generalizing minTs with
  | nil => exact Nat.le_refl _
  | cons ts slots ih =>
    rw [List.foldl_cons]
    refine (ih _).trans ?_
    split
    · rename_i h
      exact h.2.le
    · exact Nat.le_refl _

end FastKV
