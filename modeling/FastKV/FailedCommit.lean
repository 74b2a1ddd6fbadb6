import FastKV.WriteSet

/-!
# Commits that fail halfway

A commit logs and applies its writes one by one, and returns the error of the first append
that fails. Nothing is undone then: the writes before the failing one stay in the table, the
trees and the counters although the transaction is aborted. So a failed commit is without
effect exactly when the very first append fails.
-/

namespace FastKV

open Lib

/-- The commit of a transaction reaches its write number `i`, counted in the order in which
they are applied, and the append of that write fails with an I/O error. -/
structure FailsAt (w : World) (txn : Txn) (i : ℕ) : Prop where
  /-- The commit gets to applying writes. -/
  applies : Applies w txn
  /-- The appends before succeed and this one does not. -/
  fails : ∃ wal before e after log log', w.db.wal = some wal ∧
    txn.writes = before ++ e :: after ∧ before.length = i ∧
    appendAll (before.map fun e => e.record w.db.clock) ⟨wal, w.disk⟩ = (.ok, log) ∧
    walAppend (e.record w.db.clock) log = (.io, log')

/-- Two worlds with the same contents: readers see the same, and the trees, the secondary
indexes and the key counter are equal. -/
structure SameData (w w' : World) : Prop where
  /-- The map that a new reader sees. -/
  visible : ∀ key, (fastkvGet w' key).1 = (fastkvGet w key).1
  /-- The primary tree. -/
  btree : w'.db.btree = w.db.btree
  /-- The expiry trees. -/
  ttl : w'.db.ttl = w.db.ttl
  /-- The secondary indexes. -/
  indexes : w'.db.indexes = w.db.indexes
  /-- The counter. -/
  statNumKeys : w'.db.statNumKeys = w.db.statNumKeys

/-- A commit that fails at a write returns the error and keeps the writes before it. -/
theorem FailsAt.txnCommit_eq {w : World} {txn : Txn} {i : ℕ} (h : FailsAt w txn i) :
    (txnCommit w txn).1 = .io ∧ ∃ mgr wal disk, mgr.oracle.clock = w.drawn.db.clock ∧
      (txnCommit w txn).2.1 = ⟨{ applyEntries w.db.clock (txn.writes.take i) w.db with
        txnMgr := mgr, wal }, disk⟩ := by
  obtain ⟨wal, before, e, after, log, log', hwal, hwrites, hlen, hbefore, hfail⟩ := h.fails
  obtain ⟨hrc, -, mgr, hmgr, heq⟩ := h.applies.txnCommit_eq
  have happly := dbApplyWriteSet_of_fail before after w.drawn hwal hbefore hfail (by decide)
  have htake : txn.writes.take i = before := by
    rw [hwrites, ← hlen, List.take_left]
  rw [hwrites, happly] at hrc hmgr heq
  refine ⟨hrc, mgr, some log'.wal, log'.disk, ?_, ?_⟩
  · rw [hmgr]
    simp only [Db.clock, applyEntries_txnMgr]
  · rw [heq, htake]
    have hdrawn : w.drawn.db = { w.db with txnMgr := w.drawn.db.txnMgr } := rfl
    rw [hdrawn, applyEntries_mgr]
    rfl

/-- What a reader finds after such a commit: the writes that were applied count. -/
theorem FailsAt.live_eq {w : World} {txn : Txn} {i : ℕ} (h : FailsAt w txn i) (key : Bytes) :
    (txnCommit w txn).2.1.db.ht.live key = match firstOn key (txn.writes.take i).reverse with
      | some value => sliceDup value
      | none => w.db.ht.live key := by
  obtain ⟨-, mgr, wal, disk, -, heq⟩ := h.txnCommit_eq
  rw [heq]
  show (applyEntries w.db.clock (txn.writes.take i) w.db).ht.live key = _
  rw [applyEntries_ht]
  exact live_insertEntries w.db.clock (txn.writes.take i) key w.db.ht

/-- A commit whose first append fails is without effect. -/
theorem FailsAt.sameData {w : World} {txn : Txn} (h : FailsAt w txn 0)
    (hb : w.db.ht.Bounded w.db.clock) (hclock : w.db.clock + 1 < tsMax) :
    SameData w (txnCommit w txn).2.1 := by
  obtain ⟨-, mgr, wal, disk, hmgr, heq⟩ := h.txnCommit_eq
  rw [World.drawn_clock hclock] at hmgr
  rw [heq]
  refine ⟨fun key => ?_, rfl, rfl, rfl, rfl⟩
  have hafter : Ht.Bounded w.db.ht mgr.oracle.clock := hb.mono (by omega)
  rw [fastkvGet_eq hb (by omega), fastkvGet_eq hafter (by show mgr.oracle.clock < tsMax; omega)]
  rfl

/-! ## A log that fails at a given append -/

/-- A log that syncs every append and has nothing waiting. -/
structure Log.Ready (s : Log) : Prop where
  /-- A file is open. -/
  io : s.wal.io.isSome
  /-- Every append is synced. -/
  sync : s.wal.syncWrites = true
  /-- The buffer is empty. -/
  buf : s.wal.buf = []

/-- Fields that fit are copied into the buffer. -/
theorem writeFields_of_fits (fields : List Bytes) : ∀ s : Log,
    s.wal.buf.length + fields.flatten.length ≤ walBufCap →
      writeFields fields s = (.ok,
        { s with wal := { s.wal with buf := s.wal.buf ++ fields.flatten } }) := by
  induction fields with
  | nil =>
    intro s _
    simp [writeFields]
  | cons field fields ih =>
    intro s hfits
    rw [List.flatten_cons, List.length_append] at hfits
    have hnil : ∀ s, walBuffer.push [] s = s := fun s => by simp [walBuffer]
    have hfirst : walWriteBuf field s = (.ok, walBuffer.push field s) :=
      Buffer.write_of_fits hnil (Nat.le_refl _) (by
        show s.wal.buf.length + field.length ≤ walBufCap
        omega)
    have hrest := ih (walBuffer.push field s) (by
      rw [show (walBuffer.push field s).wal.buf = s.wal.buf ++ field from rfl, List.length_append]
      omega)
    simp only [writeFields, hfirst, if_true, hrest]
    simp [walBuffer]

section Append

variable {s : Log} {r : Record} {os : List Outcome}

/-- A small record goes into the empty buffer. -/
theorem Log.Ready.writeFields_eq (h : s.Ready) (hr : r.frame.encode.length ≤ walBufCap) :
    writeFields r.frame.fields s =
        (.ok, { s with wal := { s.wal with buf := r.frame.encode } }) ∧ r.frame.encode ≠ [] := by
  refine ⟨?_, frameFormat.encode_ne_nil r.frame⟩
  rw [writeFields_of_fits r.frame.fields s (by rw [h.buf]; simpa [Frame.encode] using hr), h.buf]
  rfl

/-- A synced append that the operating system carries out. -/
theorem Log.Ready.append (h : s.Ready) (hr : r.frame.encode.length ≤ walBufCap)
    (hos : s.disk.outcomes = .done :: .done :: os) :
    ∃ s', walAppend r s = (.ok, s') ∧ s'.Ready ∧ s'.disk.outcomes = os := by
  obtain ⟨name, hname⟩ := Option.isSome_iff_exists.mp h.io
  obtain ⟨hfields, hne⟩ := h.writeFields_eq hr
  unfold walAppend
  simp only [hfields, if_true, Wal.recorded, h.sync, flushBuf, flushData, hne, if_false, hname,
    ioPwrite, ioSync, Disk.answer, Disk.perform, hos, List.headD_cons, List.tail_cons]
  exact ⟨_, rfl, ⟨rfl, rfl, rfl⟩, rfl⟩

/-- A synced append whose write fails. -/
theorem Log.Ready.append_error (h : s.Ready) (hr : r.frame.encode.length ≤ walBufCap)
    (hos : s.disk.outcomes = .error :: os) : ∃ s', walAppend r s = (.io, s') := by
  obtain ⟨name, hname⟩ := Option.isSome_iff_exists.mp h.io
  obtain ⟨hfields, hne⟩ := h.writeFields_eq hr
  unfold walAppend
  simp only [hfields, if_true, Wal.recorded, h.sync, flushBuf, flushData, hne, if_false, hname,
    ioPwrite, Disk.answer, hos, List.headD_cons, List.tail_cons, reduceCtorEq]
  exact ⟨_, rfl⟩

/-- Any number of synced appends of one record. -/
theorem Log.Ready.append_replicate (hr : r.frame.encode.length ≤ walBufCap) (i : ℕ) : ∀ s : Log,
    s.Ready → s.disk.outcomes = List.replicate (2 * i) .done ++ os →
      ∃ s', appendAll (List.replicate i r) s = (.ok, s') ∧ s'.Ready ∧ s'.disk.outcomes = os := by
  induction i with
  | zero => exact fun s h hos => ⟨s, rfl, h, by simpa using hos⟩
  | succ i ih =>
    intro s h hos
    have hcons : s.disk.outcomes = .done :: .done :: (List.replicate (2 * i) .done ++ os) := by
      rw [hos, show 2 * (i + 1) = 2 * i + 1 + 1 by omega, List.replicate_succ, List.replicate_succ]
      rfl
    obtain ⟨s₁, hfirst, hready, hos₁⟩ := h.append hr hcons
    obtain ⟨s', hrest, hready', hos'⟩ := ih s₁ hready hos₁
    refine ⟨s', ?_, hready', hos'⟩
    simp only [List.replicate_succ, appendAll, hfirst, if_true, hrest]

end Append

/-- The same database with another log. -/
def World.withLog (w : World) (wal : Wal) (disk : Disk) : World :=
  ⟨{ w.db with wal := some wal }, disk⟩

/-- A handle on an empty segment that syncs every append. -/
def syncedWal : Wal := ⟨some (segName firstId.hex), true, 0, 0, firstId.hex, [], false, []⟩

/-- A directory whose disk fails after `i` synced appends. -/
def failingDisk (i : ℕ) : Disk :=
  ⟨(∅ : Files).insert (segName firstId.hex) [], List.replicate (2 * i) .done ++ [.error], []⟩

/-- A transaction of the recent past that wrote the same entry `i + 1` times. -/
def repeatedTxn (clock i : ℕ) (e : WriteEntry) : Txn :=
  ⟨clock - 1, tsInvalid, .active, false, none, List.replicate (i + 1) e, (i + 1) % 2 ^ 32⟩

/-- In a bounded table a transaction of the recent past has no conflicts. -/
theorem Ht.Bounded.conflictsAt_eq {ht : Ht} {clock : ℕ} (h : ht.Bounded clock) (key : Bytes) :
    conflictsAt ht (clock - 1) key = false := by
  unfold conflictsAt
  split
  · rename_i v hv
    have hkey : v.key = key := by simpa using List.find?_some hv
    have hmem : v ∈ ht.versions key :=
      List.mem_filter.mpr ⟨List.mem_of_find?_eq_some hv, by simpa using hkey⟩
    have hlt := (h key v hmem).1
    simp only [decide_eq_false_iff_not]
    omega
  · rfl

/-- Such a transaction fails at write number `i`. -/
theorem repeatedTxn_failsAt {w : World} (hb : w.db.ht.Bounded w.db.clock) (i : ℕ) {e : WriteEntry}
    (he : (e.record w.db.clock).frame.encode.length ≤ walBufCap) :
    FailsAt (w.withLog syncedWal (failingDisk i)) (repeatedTxn w.db.clock i e) i := by
  have hready : Log.Ready ⟨syncedWal, failingDisk i⟩ := ⟨rfl, rfl, rfl⟩
  obtain ⟨log, hbefore, hlog, hos⟩ := Log.Ready.append_replicate he i _ hready rfl
  obtain ⟨log', hfail⟩ := hlog.append_error he hos
  refine ⟨⟨rfl, rfl, by simp [repeatedTxn], ?_⟩, syncedWal, List.replicate i e, e, [], log, log',
    rfl, ?_, List.length_replicate, ?_, hfail⟩
  · have hany : ((repeatedTxn w.db.clock i e).writes.any fun e =>
        conflictsAt w.db.ht (w.db.clock - 1) e.key) = false := by
      simp [hb.conflictsAt_eq]
    exact if_neg (by rw [Bool.not_eq_true]; exact hany)
  · simp [repeatedTxn, List.replicate_succ']
  · rw [List.map_replicate]
    exact hbefore

/-- For every reachable database and every position: a commit that fails when it appends the
write at that position, whatever the log, the disk and the transaction, returns the error
and changes nothing, exactly if it is the first position. -/
theorem failed_commit_unchanged_iff {w : World} (hreach : w.Reachable)
    (hclock : w.db.clock + 1 < tsMax) (i : ℕ) :
    (∀ wal disk txn, FailsAt (w.withLog wal disk) txn i →
      (txnCommit (w.withLog wal disk) txn).1 = .io ∧
        SameData (w.withLog wal disk) (txnCommit (w.withLog wal disk) txn).2.1) ↔ i = 0 := by
  obtain ⟨hb, -⟩ := hreach.invariant
  constructor
  · intro hall
    by_contra hi
    -- put a value for a key that it does not have yet
    obtain ⟨b, hnew⟩ : ∃ b : UInt8, some [b] ≠ w.db.ht.live [0] := by
      by_cases h : some [0] = w.db.ht.live [0]
      · exact ⟨1, by rw [← h]; decide⟩
      · exact ⟨0, h⟩
    have hfails := repeatedTxn_failsAt hb i (e := ⟨[0], some [b]⟩) (by
      simp [Frame.length_encode, WriteEntry.record, Record.frame, walHeaderSize, walBufCap])
    obtain ⟨-, hsame⟩ := hall syncedWal (failingDisk i) _ hfails
    have hevolves := txnCommit_evolves (w := w.withLog syncedWal (failingDisk i)) hclock
      (repeatedTxn w.db.clock i ⟨[0], some [b]⟩)
    have hle : _ ≤ w.db.clock + 1 := hevolves.clock_le_add
    have hbefore : (fastkvGet (w.withLog syncedWal (failingDisk i)) [0]).1 =
        readResult (w.db.ht.live [0]) :=
      fastkvGet_eq (w := w.withLog syncedWal (failingDisk i)) hb (by show w.db.clock < _; omega) _
    have hafter := fastkvGet_eq (hevolves.bounded hb) (by omega) [0]
    rw [hsame.visible [0], hbefore, if_neg (by decide)] at hafter
    have hfirst : firstOn [0] ((repeatedTxn w.db.clock i ⟨[0], some [b]⟩).writes.take i).reverse =
        some (some [b]) := by
      have htake : (repeatedTxn w.db.clock i ⟨[0], some [b]⟩).writes.take i =
          List.replicate i ⟨[0], some [b]⟩ := by
        rw [repeatedTxn, List.take_replicate, Nat.min_eq_left (Nat.le_succ i)]
      obtain ⟨j, rfl⟩ := Nat.exists_eq_succ_of_ne_zero hi
      rw [htake, List.reverse_replicate, List.replicate_succ]
      simp [firstOn]
    have hlive := readResult_inj hafter
    rw [hfails.live_eq, hfirst] at hlive
    exact hnew hlive.symm
  · rintro rfl wal disk txn hfails
    exact ⟨hfails.txnCommit_eq.1, hfails.sameData hb hclock⟩

/-- In a new database a put whose append fails is without effect. -/
theorem failed_commit_unchanged_at_first :
    FailsAt (newWorld.withLog syncedWal (failingDisk 0)) (repeatedTxn 1 0 ⟨[1], some [2]⟩) 0 ∧
      (txnCommit (newWorld.withLog syncedWal (failingDisk 0))
        (repeatedTxn 1 0 ⟨[1], some [2]⟩)).1 = .io ∧
      SameData (newWorld.withLog syncedWal (failingDisk 0))
        (txnCommit (newWorld.withLog syncedWal (failingDisk 0))
          (repeatedTxn 1 0 ⟨[1], some [2]⟩)).2.1 := by
  have hfails : FailsAt (newWorld.withLog syncedWal (failingDisk 0))
      (repeatedTxn 1 0 ⟨[1], some [2]⟩) 0 :=
    repeatedTxn_failsAt newWorld_reachable.invariant.1 0 (by decide +kernel)
  exact ⟨hfails,
    (failed_commit_unchanged_iff newWorld_reachable (by decide) 0).mpr rfl _ _ _ hfails⟩

/-- The second of two appends fails: the commit returns the error, and the value that it put
is there. -/
theorem failed_commit_is_visible :
    FailsAt (newWorld.withLog syncedWal (failingDisk 1)) (repeatedTxn 1 1 ⟨[1], some [2]⟩) 1 ∧
      (txnCommit (newWorld.withLog syncedWal (failingDisk 1))
        (repeatedTxn 1 1 ⟨[1], some [2]⟩)).1 = .io ∧
      (fastkvGet (newWorld.withLog syncedWal (failingDisk 1)) [1]).1 = .error .notfound ∧
      (fastkvGet (txnCommit (newWorld.withLog syncedWal (failingDisk 1))
        (repeatedTxn 1 1 ⟨[1], some [2]⟩)).2.1 [1]).1 = .ok [2] := by
  refine ⟨repeatedTxn_failsAt newWorld_reachable.invariant.1 1 (by decide +kernel), ?_⟩
  decide +kernel

end FastKV
