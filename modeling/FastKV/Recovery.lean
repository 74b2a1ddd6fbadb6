import FastKV.Snapshot

/-!
# Opening, checkpoints and closing

`fastkv_open` and `fastkv_close` from `api/kv_api.c` and `fastkv_checkpoint` from
`persist/compaction.c`. Opening loads the newest snapshot and replays the log from the
timestamp of the snapshot; a checkpoint writes a snapshot at the current clock, rotates the
log and removes what the snapshot makes superfluous. Names of new files and the wall clock
come from outside and are arguments.
-/

namespace FastKV

/-- The default of `map_size`. -/
def defaultMapSize : ℕ := 1024 * 1024

/-- The smearing loop of `fastkv_open`, for shifts 1, 2, 4, 8, 16 and 32. -/
def smear (cap : ℕ) : ℕ := [1, 2, 4, 8, 16, 32].foldl (fun cap i => cap ||| cap >>> i) cap

/-- The capacity of the hash table: the requested size rounded up to a power of two. -/
def roundCapacity (mapSize : ℕ) : ℕ :=
  smear ((if mapSize = 0 then defaultMapSize else mapSize) - 1) + 1

/-- Smearing with shift `k` doubles the reach of a bit. -/
theorem testBit_smear_step {x y k : ℕ}
    (h : ∀ i, y.testBit i = true ↔ ∃ j < k, x.testBit (i + j) = true) (i : ℕ) :
    (y ||| y >>> k).testBit i = true ↔ ∃ j < 2 * k, x.testBit (i + j) = true := by
  rw [Nat.testBit_or, Bool.or_eq_true, Nat.testBit_shiftRight, h, h]
  constructor
  · rintro (⟨j, hj, hx⟩ | ⟨j, hj, hx⟩)
    · exact ⟨j, by omega, hx⟩
    · exact ⟨k + j, by omega, by rwa [show i + (k + j) = k + i + j by omega]⟩
  · rintro ⟨j, hj, hx⟩
    rcases Nat.lt_or_ge j k with hlt | hge
    · exact Or.inl ⟨j, hlt, hx⟩
    · exact Or.inr ⟨j - k, by omega, by rwa [show k + i + (j - k) = i + j by omega]⟩

/-- Smearing sets exactly the bits below the highest one. -/
theorem testBit_smear (x i : ℕ) :
    (smear x).testBit i = true ↔ ∃ j < 64, x.testBit (i + j) = true := by
  have h1 : ∀ i, x.testBit i = true ↔ ∃ j < 1, x.testBit (i + j) = true := by
    intro i
    simp
  exact testBit_smear_step (testBit_smear_step (testBit_smear_step (testBit_smear_step
    (testBit_smear_step (testBit_smear_step h1))))) i

/-- A smeared number is one less than a power of two. -/
theorem smear_eq {x n : ℕ} (hn : n ≤ 64) (hlo : x = 0 ∨ 2 ^ (n - 1) ≤ x) (hhi : x < 2 ^ n)
    (hzero : x = 0 → n = 0) : smear x = 2 ^ n - 1 := by
  apply Nat.eq_of_testBit_eq
  intro i
  rw [Bool.eq_iff_iff, testBit_smear, Nat.testBit_two_pow_sub_one, decide_eq_true_iff]
  constructor
  · rintro ⟨j, -, hx⟩
    have hlt : i + j < n := by
      by_contra hge
      have hpow : x < 2 ^ (i + j) := lt_of_lt_of_le hhi (Nat.pow_le_pow_right (by omega) (by omega))
      rw [Nat.testBit_lt_two_pow hpow] at hx
      cases hx
    omega
  · intro hi
    have hx : 2 ^ (n - 1) ≤ x := by
      rcases hlo with h0 | h
      · have := hzero h0
        omega
      · exact h
    refine ⟨n - 1 - i, by omega, ?_⟩
    rw [show i + (n - 1 - i) = n - 1 by omega]
    have hdiv : x / 2 ^ (n - 1) = 1 := by
      have hpos := Nat.two_pow_pos (n - 1)
      have hlt : x / 2 ^ (n - 1) < 2 := by
        rw [Nat.div_lt_iff_lt_mul hpos, ← pow_succ']
        rwa [show n - 1 + 1 = n by omega]
      have hge : 1 ≤ x / 2 ^ (n - 1) := (Nat.one_le_div_iff hpos).mpr hx
      omega
    rw [Nat.testBit_eq_decide_div_mod_eq, hdiv]
    rfl

/-- The rounded capacity is a power of two that passes the assertion. -/
theorem roundCapacity_pow {mapSize : ℕ} (h : mapSize ≤ 2 ^ 63) :
    ∃ n < 64, roundCapacity mapSize = 2 ^ n := by
  unfold roundCapacity
  obtain ⟨x, hx, hle⟩ : ∃ x, (if mapSize = 0 then defaultMapSize else mapSize) - 1 = x ∧
      x < 2 ^ 63 := by
    refine ⟨_, rfl, ?_⟩
    unfold defaultMapSize
    split <;> omega
  rw [hx]
  rcases Nat.eq_zero_or_pos x with rfl | hpos
  · exact ⟨0, by omega, rfl⟩
  · have hlog := Nat.log2_lt (by omega : x ≠ 0) |>.mpr hle
    refine ⟨Nat.log2 x + 1, by omega, ?_⟩
    rw [smear_eq (n := Nat.log2 x + 1) (by omega)
      (Or.inr (by simpa using Nat.log2_self_le (by omega))) Nat.lt_log2_self (by omega)]
    have := Nat.two_pow_pos (Nat.log2 x + 1)
    omega

/-! ## Opening -/

/-- The effect of a record on the recovered structures. -/
def replayRecord (r : Record) (s : Stores) : Stores :=
  match r.type with
  | .put => ⟨htPut s.ht r.ts r.key r.value, btreeInsert s.btree r.key (r.value.getD [])⟩
  | .delete => ⟨htDelete s.ht r.ts r.key, (btreeDelete s.btree r.key).2⟩
  | _ => s

/-- `wal_replay_cb`. -/
def walReplayCb (r : Record) (s : Stores) : Err × Stores := (.ok, replayRecord r s)

/-- The empty structures that `fastkv_open` creates. -/
def Opts.stores (opts : Opts) : Stores :=
  ⟨htCreate (roundCapacity opts.mapSize) (roundCapacity_pow opts.mapSize_le), btreeCreate⟩

/-- Options for a table with a single bucket. -/
def oneBucket : Opts := ⟨1, by decide, false, false⟩

/-- The database that `fastkv_open` assembles after recovery. -/
def Opts.assemble (opts : Opts) (s : Stores) (snapTs walMaxTs : ℕ) (wal : Option Wal) : Db where
  opts := opts
  txnMgr := { txnMgrInit with
    oracle := oracleAdvance (oracleAdvance txnMgrInit.oracle (add64 snapTs 1)) (add64 walMaxTs 1) }
  ht := s.ht
  wal := wal
  btree := s.btree
  indexes := []
  ttl := ttlInit
  snapshotTs := snapTs
  statNumKeys := 0
  statSnapshotCount := 0

/-- `fastkv_open`; `fresh` names the first segment of a new log. A corrupt snapshot is
tolerated. -/
def fastkvOpen (opts : Opts) (fresh : Uuid) (disk : Disk) : Except Err World :=
  let (rc, s, snapTs) := snapshotLoad disk.files opts.stores
  if rc ≠ .ok ∧ rc ≠ .corrupt then .error rc
  else
    let (rc, s, walMaxTs) := walReplay snapTs walReplayCb disk.files s 0
    if rc ≠ .ok then .error rc
    else if opts.readOnly then .ok ⟨opts.assemble s snapTs walMaxTs none, disk⟩
    else
      match walOpen opts.syncWrites fresh disk with
      | (_, some log) => .ok ⟨opts.assemble s snapTs walMaxTs (some log.wal), log.disk⟩
      | (rc, none) => .error rc

/-! ## Checkpoints -/

/-- The last steps of `fastkv_checkpoint`, in memory: expiry, garbage collection and the
counter. -/
def checkpointMemory (w : World) (now : ℕ) : World :=
  let w := ttlExpire w now
  let ht := (htGc w.db.ht (oracleMinActive w.db.txnMgr.oracle)).2
  { w with db := { w.db with ht, statSnapshotCount := add64 w.db.statSnapshotCount 1 } }

/-- `fastkv_checkpoint`; `snapId` and `segId` are the names it generates and `now` is the
wall clock. -/
def fastkvCheckpoint (w : World) (snapId segId : Uuid) (now : ℕ) : Err × World :=
  match w.db.wal with
  | none => (.ok, w)
  | some wal =>
    let (rc, log) := walSync ⟨wal, w.disk⟩
    if rc ≠ .ok then (rc, ⟨{ w.db with wal := some log.wal }, log.disk⟩)
    else
      let ckptTs := oracleNow w.db.txnMgr.oracle
      let (rc, disk) := snapshotWrite w.db.ht ckptTs snapId log.disk
      if rc ≠ .ok then (rc, ⟨{ w.db with wal := some log.wal }, disk⟩)
      else
        let oldSeg := log.wal.segmentId
        let (rc, log) := walRotate segId ⟨log.wal, disk⟩
        if rc ≠ .ok then (rc, ⟨{ w.db with wal := some log.wal }, log.disk⟩)
        else
          let disk := snapshotTrim snapId.hex (walTrim oldSeg log.disk)
          (.ok, checkpointMemory ⟨{ w.db with wal := some log.wal }, disk⟩ now)

/-- `fastkv_close`: a last checkpoint, whose result is dropped, and the closing of the
log. -/
def fastkvClose (w : World) (snapId segId : Uuid) (now : ℕ) : Disk :=
  let w := (fastkvCheckpoint w snapId segId now).2
  match w.db.wal with
  | none => w.disk
  | some wal => (walClose ⟨wal, w.disk⟩).2

end FastKV
