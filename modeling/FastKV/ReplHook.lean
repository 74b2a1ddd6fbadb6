import FastKV.Quiet
import FastKV.Replica
import FastKV.Requests

/-!
# What the replication hook is handed

`fastkv_repl_serve` installs a hook in the log, and every append hands it the record that has
just been put in the buffer. Applied one after the other to the structures that the primary
started from, these records give the tree and the live versions that it has now: whatever a
request does, the records it hands to the hook are what it does to the structures.

With `sync_writes` the hook is called before the record is synced, so a record whose sync fails
has been handed over without being applied; there the disk is assumed to work.
-/

namespace FastKV

open Lib

/-! ## Alike structures -/

/-- The live version of a key. -/
def Ht.liveVersion (ht : Ht) (key : Bytes) : Option Version :=
  (ht.versions key).find? Version.isLive

/-- The same tree and the same live versions. -/
structure Stores.Alike (s s' : Stores) : Prop where
  /-- The tree. -/
  btree : s.btree = s'.btree
  /-- The live versions. -/
  liveVersion : ∀ key, s.ht.liveVersion key = s'.ht.liveVersion key

/-- Structures are like themselves. -/
theorem Stores.Alike.refl (s : Stores) : s.Alike s := ⟨rfl, fun _ => rfl⟩

section Alike

variable {s s' s'' : Stores}

/-- One after the other. -/
theorem Stores.Alike.trans (h : s.Alike s') (h' : s'.Alike s'') : s.Alike s'' :=
  ⟨h.btree.trans h'.btree, fun key => (h.liveVersion key).trans (h'.liveVersion key)⟩

/-- The other way round. -/
theorem Stores.Alike.symm (h : s.Alike s') : s'.Alike s :=
  ⟨h.btree.symm, fun key => (h.liveVersion key).symm⟩

/-- Alike structures stand for the same map. -/
theorem Stores.Alike.live (h : s.Alike s') (key : Bytes) : s.ht.live key = s'.ht.live key :=
  congrArg (fun v => v.bind Version.value) (h.liveVersion key)

/-- The live version after an insertion. -/
theorem liveVersion_htInsertVersion (ht : Ht) (commitTs : ℕ) (key key' : Bytes) (value : Slice) :
    (htInsertVersion ht commitTs key value).liveVersion key' =
      if key' = key then some (newVersion commitTs key value) else ht.liveVersion key' := by
  unfold Ht.liveVersion
  split
  · rename_i hkey
    rw [hkey, versions_htInsertVersion_self]
    exact List.find?_cons_of_pos (by simp [Version.isLive, newVersion])
  · rename_i hkey
    rw [versions_htInsertVersion_other hkey]

/-- A record keeps structures alike. -/
theorem Stores.Alike.replayRecord (h : s.Alike s') (r : Record) :
    (replayRecord r s).Alike (replayRecord r s') := by
  unfold FastKV.replayRecord
  cases r.type with
  | put =>
    refine ⟨by rw [h.btree], fun key => ?_⟩
    simp only [htPut, liveVersion_htInsertVersion, h.liveVersion]
  | delete =>
    refine ⟨by rw [h.btree], fun key => ?_⟩
    simp only [htDelete, liveVersion_htInsertVersion, h.liveVersion]
  | commit => exact h
  | begin => exact h

/-- So do several. -/
theorem Stores.Alike.replayRecords (rs : List Record) : ∀ {s s' : Stores}, s.Alike s' →
    (rs.foldl (fun s r => FastKV.replayRecord r s) s).Alike
      (rs.foldl (fun s r => FastKV.replayRecord r s) s') := by
  induction rs with
  | nil => exact fun h => h
  | cons r rs ih => exact fun h => ih (h.replayRecord r)

/-- A collection keeps the live versions. -/
theorem Stores.gc_alike (h : s.ht.OneLive) {minActiveTs : ℕ} (hmin : minActiveTs ≤ tsMax) :
    (s.gc minActiveTs).Alike s :=
  ⟨rfl, fun key => find?_isLive_htGc h hmin key⟩

end Alike

/-! ## The hook -/

/-- The hook is installed, and the disk works if every append is synced. -/
structure Log.Broadcasting (s : Log) : Prop where
  /-- The hook. -/
  hook : s.wal.hook = true
  /-- No sync fails. -/
  synced : s.wal.syncWrites = true → s.Working

/-- The hook, what it has been handed and the mode of the log. -/
structure Log.SameHook (s s' : Log) : Prop where
  /-- Whether the hook is installed. -/
  hook : s'.wal.hook = s.wal.hook
  /-- The mode. -/
  syncWrites : s'.wal.syncWrites = s.wal.syncWrites
  /-- What has been handed over. -/
  hooked : s'.wal.hooked = s.wal.hooked

section Hook

variable {s : Log}

/-- Writing the buffer does not involve the hook. -/
theorem flushBuf_sameHook (sync : Bool) (s : Log) : s.SameHook (flushBuf sync s).2 := by
  have hdata : s.SameHook (flushData s).2 := by
    unfold flushData
    split
    · exact ⟨rfl, rfl, rfl⟩
    · split
      · exact ⟨rfl, rfl, rfl⟩
      · simp only
        split <;> exact ⟨rfl, rfl, rfl⟩
  unfold flushBuf
  simp only
  split
  · split
    · split
      · exact hdata
      · exact ⟨hdata.hook, hdata.syncWrites, hdata.hooked⟩
    · exact hdata
  · exact hdata

/-- Nor does filling it. -/
theorem writeFields_sameHook (fields : List Bytes) : ∀ s : Log,
    s.SameHook (writeFields fields s).2 := by
  induction fields with
  | nil => exact fun s => ⟨rfl, rfl, rfl⟩
  | cons field fields ih =>
    intro s
    have hfirst : s.SameHook (walWriteBuf field s).2 := by
      refine walBuffer.write_keeps (P := fun s' => s.SameHook s')
        (fun d s' h => ⟨h.hook, h.syncWrites, h.hooked⟩) (fun s' h => ?_) field.length field s
        ⟨rfl, rfl, rfl⟩
      have hflush := flushBuf_sameHook false s'
      exact ⟨hflush.hook.trans h.hook, hflush.syncWrites.trans h.syncWrites,
        hflush.hooked.trans h.hooked⟩
    unfold writeFields
    simp only
    split
    · have hrest := ih (walWriteBuf field s).2
      exact ⟨hrest.hook.trans hfirst.hook, hrest.syncWrites.trans hfirst.syncWrites,
        hrest.hooked.trans hfirst.hooked⟩
    · exact hfirst

/-- What an append does to the hook: the record is handed over if the hook is installed and the
fields have come into the buffer. -/
theorem walAppend_hook (r : Record) (s : Log) :
    (walAppend r s).2.wal.hook = s.wal.hook ∧
      (walAppend r s).2.wal.syncWrites = s.wal.syncWrites ∧
      (walAppend r s).2.wal.hooked =
        if (writeFields r.frame.fields s).1 = .ok ∧ s.wal.hook = true then
          s.wal.hooked ++ [r.frame.encode]
        else s.wal.hooked := by
  have hfields := writeFields_sameHook r.frame.fields s
  unfold walAppend
  simp only
  split
  · rename_i hok
    have hrecorded : ((writeFields r.frame.fields s).2.wal.recorded r).hooked =
        if (writeFields r.frame.fields s).1 = .ok ∧ s.wal.hook = true then
          s.wal.hooked ++ [r.frame.encode]
        else s.wal.hooked := by
      simp only [Wal.recorded, hfields.hook, hfields.hooked, hok, true_and]
    split
    · have hflush := flushBuf_sameHook true { (writeFields r.frame.fields s).2 with
        wal := (writeFields r.frame.fields s).2.wal.recorded r }
      refine ⟨hflush.hook.trans ?_, hflush.syncWrites.trans ?_, hflush.hooked.trans hrecorded⟩
      · exact hfields.hook
      · exact hfields.syncWrites
    · exact ⟨hfields.hook, hfields.syncWrites, hrecorded⟩
  · rename_i hfail
    rw [if_neg fun h => hfail h.1]
    exact ⟨hfields.hook, hfields.syncWrites, hfields.hooked⟩

/-- An append that succeeds has put its fields in the buffer. -/
theorem writeFields_of_walAppend {r : Record} (hok : (walAppend r s).1 = .ok) :
    (writeFields r.frame.fields s).1 = .ok := by
  by_contra hfail
  unfold walAppend at hok
  simp only at hok
  rw [if_neg hfail] at hok
  exact hfail hok

/-- An append hands its record to the hook, if it succeeds. -/
theorem Log.Broadcasting.append (h : s.Broadcasting) (r : Record) :
    (walAppend r s).2.Broadcasting ∧ (walAppend r s).2.wal.hooked =
      s.wal.hooked ++ if (walAppend r s).1 = .ok then [r.frame.encode] else [] := by
  obtain ⟨hhook, hmode, hhooked⟩ := walAppend_hook r s
  refine ⟨⟨hhook.trans h.hook, fun hs => ?_⟩, ?_⟩
  · exact (walAppend_working (h.synced (hmode.symm.trans hs)) r).2
  · rw [hhooked]
    by_cases hok : (walAppend r s).1 = .ok
    · rw [if_pos ⟨writeFields_of_walAppend hok, h.hook⟩, if_pos hok]
    · -- with syncing no append fails, and without it the fields alone decide
      have hfail : (writeFields r.frame.fields s).1 ≠ .ok := by
        intro hfields
        have hsync : s.wal.syncWrites ≠ true := fun hsync =>
          hok (walAppend_working (h.synced hsync) r).1
        apply hok
        unfold walAppend
        simp only
        rw [if_pos hfields, if_neg]
        exact fun hs => hsync ((writeFields_sameHook r.frame.fields s).syncWrites.symm.trans hs)
      rw [if_neg fun h => hfail h.1, if_neg hok, List.append_nil]

/-- Writing the buffer keeps the hook going. -/
theorem Log.Broadcasting.flush (h : s.Broadcasting) (sync : Bool) :
    (flushBuf sync s).2.Broadcasting := by
  have hsame := flushBuf_sameHook sync s
  refine ⟨hsame.hook.trans h.hook, fun hs => (flushBuf_working (h.synced ?_) sync).2⟩
  rw [← hsame.syncWrites]
  exact hs

/-- So does a rotation. -/
theorem Log.Broadcasting.rotate (h : s.Broadcasting) (fresh : Uuid) :
    (walRotate fresh s).2.Broadcasting ∧
      (walRotate fresh s).2.wal.hooked = s.wal.hooked := by
  have hsame := flushBuf_sameHook true s
  have hkeep : s.SameHook (walRotate fresh s).2 := by
    unfold walRotate
    simp only
    split <;> exact ⟨hsame.hook, hsame.syncWrites, hsame.hooked⟩
  refine ⟨⟨hkeep.hook.trans h.hook, fun hs => (walRotate_working (h.synced ?_) fresh).2⟩,
    hkeep.hooked⟩
  rw [← hkeep.syncWrites]
  exact hs

/-- Other files may change, as long as the disk works where it has to. -/
theorem Log.Broadcasting.withDisk (h : s.Broadcasting) {disk : Disk}
    (hdisk : s.disk.Quiet → disk.Quiet) : Log.Broadcasting { s with disk } :=
  ⟨h.hook, fun hs => ⟨(h.synced hs).io, hdisk (h.synced hs).quiet⟩⟩

end Hook

/-! ## What requests hand over -/

/-- A database whose log has the hook. -/
def World.Primary (w : World) : Prop :=
  ∃ wal, w.db.wal = some wal ∧ Log.Broadcasting ⟨wal, w.disk⟩

/-- What the hook has been handed. -/
def World.hooked (w : World) : List Bytes :=
  match w.db.wal with
  | some wal => wal.hooked
  | none => []

/-- A record as a write set is logged. -/
structure Record.Shipped (r : Record) : Prop where
  /-- It is of permitted size. -/
  valid : r.Valid
  /-- Its timestamp was drawn before the clock ran out. -/
  ts_lt : r.ts < tsMax
  /-- It is a write. -/
  write : r.type = .put ∨ r.type = .delete

/-- The records handed to the hook on the way from one state to another, which are what has
happened to the structures. -/
structure World.Ships (w : World) (rs : List Record) (w' : World) : Prop where
  /-- The hook stays. -/
  primary : w'.Primary
  /-- The bytes of the records. -/
  hooked : w'.hooked = w.hooked ++ rs.map fun r => r.frame.encode
  /-- The structures. -/
  stores : w'.db.stores.Alike (rs.foldl (fun s r => replayRecord r s) w.db.stores)
  /-- The records are those of write sets. -/
  shipped : ∀ r ∈ rs, r.Shipped

section Ships

variable {w w' w'' : World} {rs rs' : List Record}

/-- Nothing happened to the log and the structures. -/
theorem World.Ships.nothing (h : w.Primary) (hwal : w'.db.wal = w.db.wal) (hdisk : w'.disk = w.disk)
    (hstores : w'.db.stores.Alike w.db.stores) : w.Ships [] w' := by
  refine ⟨?_, ?_, hstores, fun r hr => by cases hr⟩
  · unfold World.Primary
    rw [hwal, hdisk]
    exact h
  · unfold World.hooked
    rw [hwal]
    simp

/-- One after the other. -/
theorem World.Ships.trans (h : w.Ships rs w') (h' : w'.Ships rs' w'') :
    w.Ships (rs ++ rs') w'' := by
  refine ⟨h'.primary, ?_, ?_, fun r hr => ?_⟩
  · rw [h'.hooked, h.hooked, List.map_append, List.append_assoc]
  · rw [List.foldl_append]
    exact h'.stores.trans (h.stores.replayRecords rs')
  · rcases List.mem_append.mp hr with hr | hr
    · exact h.shipped r hr
    · exact h'.shipped r hr

/-- A write set is logged and applied entry by entry. -/
theorem dbApplyWriteSet_ships {commitTs : ℕ} (hts : commitTs < tsMax) (es : List WriteEntry) :
    ∀ w : World, w.Primary → (∀ e ∈ es, e.Permitted) →
      ∃ rs, w.Ships rs (dbApplyWriteSet commitTs es w).2 := by
  induction es with
  | nil => exact fun w h _ => ⟨[], .nothing h rfl rfl (.refl _)⟩
  | cons e es ih =>
    rintro w ⟨wal, hwal, hlog⟩ hes
    obtain ⟨hlog', hhooked⟩ := hlog.append (e.record commitTs)
    unfold dbApplyWriteSet
    simp only [logEntry, hwal]
    split
    · rename_i hok
      rw [if_pos hok] at hhooked
      have hfirst : w.Ships [e.record commitTs] ⟨applyEntry
          { w.db with wal := some (walAppend (e.record commitTs) ⟨wal, w.disk⟩).2.wal } e commitTs,
          (walAppend (e.record commitTs) ⟨wal, w.disk⟩).2.disk⟩ := by
        have hkeep : ∀ db : Db, (applyEntry db e commitTs).wal = db.wal := by
          intro db
          unfold applyEntry
          cases e.value <;> rfl
        refine ⟨⟨_, hkeep _, hlog'⟩, ?_, ?_, fun r hr => ?_⟩
        · unfold World.hooked
          simp only [hkeep, hwal]
          exact hhooked
        · rw [applyEntry_stores]
          exact .refl _
        · rw [List.mem_singleton.mp hr]
          have hfit := hes e List.mem_cons_self
          have hts' : commitTs < 2 ^ 64 := by
            unfold tsMax at hts
            omega
          refine ⟨⟨hts', hfit.1, hfit.2⟩, hts, ?_⟩
          simp only [WriteEntry.record]
          split
          · exact Or.inl rfl
          · exact Or.inr rfl
      obtain ⟨rs, hrest⟩ := ih _ hfirst.primary fun e' he' => hes e' (List.mem_cons_of_mem _ he')
      exact ⟨_, hfirst.trans hrest⟩
    · rename_i hfail
      rw [if_neg hfail, List.append_nil] at hhooked
      refine ⟨[], ⟨⟨_, rfl, hlog'⟩, ?_, .refl _, fun r hr => by cases hr⟩⟩
      simp only [World.hooked, hwal, List.map_nil, List.append_nil]
      exact hhooked

/-- A commit. -/
theorem txnCommit_ships {txn : Txn} (h : w.Primary) (hclock : w.db.clock < tsMax)
    (hfit : ∀ e ∈ txn.writes, e.Permitted) : ∃ rs, w.Ships rs (txnCommit w txn).2.1 := by
  rcases txnCommit_cases w txn with ⟨-, mgr, -, heq⟩ | ⟨-, -, -, mgr, -, heq⟩
  · rw [heq]
    exact ⟨[], .nothing h rfl rfl (.refl _)⟩
  · obtain ⟨rs, hships⟩ := dbApplyWriteSet_ships hclock txn.writes w.drawn h hfit
    rw [heq]
    exact ⟨rs, hships.primary, hships.hooked, hships.stores, hships.shipped⟩

/-- An abort. -/
theorem World.abort_ships (h : w.Primary) (txn : Txn) : w.Ships [] (w.abort txn).1 := by
  obtain ⟨-, -, -, hwal, hdisk⟩ := w.abort_db txn
  exact .nothing h hwal hdisk (.refl _)

/-- A begin. -/
theorem txnBegin_ships {db : Db} {readOnly : Bool} {txn : Txn} (h : w.Primary)
    (hbegin : txnBegin w.db readOnly = .ok (txn, db)) : w.Ships [] { w with db } := by
  unfold txnBegin at hbegin
  split at hbegin
  · cases hbegin
  · simp only [Except.ok.injEq, Prod.mk.injEq] at hbegin
    rw [← hbegin.2]
    exact .nothing h rfl rfl (.refl _)

/-- A write in a transaction of its own. -/
theorem singleWrite_ships {write : Txn → Err × Txn} (h : w.Primary)
    (hclock : w.db.clock + 2 < tsMax)
    (hfit : ∀ txn, txn.writes = [] → (write txn).1 = .ok →
      ∀ e ∈ (write txn).2.writes, e.Permitted) :
    ∃ rs, w.Ships rs (singleWrite w write).2 := by
  unfold singleWrite
  split
  · exact ⟨[], .nothing h rfl rfl (.refl _)⟩
  · rename_i txn db hbegin
    have hfirst := txnBegin_ships h hbegin
    have hle := (txnBegin_evolves (by omega) hbegin).clock_le_add
    obtain ⟨-, -, hwrites, -⟩ := txnBegin_spec hbegin
    simp only
    split
    · rename_i hok
      obtain ⟨rs, hcommit⟩ := txnCommit_ships (w := { w with db }) hfirst.primary
        (by show db.clock < tsMax; omega) (hfit txn hwrites hok)
      exact ⟨_, hfirst.trans hcommit⟩
    · exact ⟨_, hfirst.trans (World.abort_ships hfirst.primary _)⟩

/-- `fastkv_put`. -/
theorem fastkvPut_ships (h : w.Primary) (hclock : w.db.clock + 2 < tsMax) (key : Bytes)
    (value : Slice) : ∃ rs, w.Ships rs (fastkvPut w key value).2 := by
  refine singleWrite_ships h hclock fun txn hwrites hok e he => ?_
  obtain ⟨hfit, heq⟩ := txnPut_ok hok
  rw [heq] at hok he
  rw [writeEntryAdd_writes hwrites hok] at he
  rw [List.mem_singleton.mp he]
  exact hfit

/-- `fastkv_delete`. -/
theorem fastkvDelete_ships (h : w.Primary) (hclock : w.db.clock + 2 < tsMax) (key : Bytes) :
    ∃ rs, w.Ships rs (fastkvDelete w key).2 := by
  refine singleWrite_ships h hclock fun txn hwrites hok e he => ?_
  obtain ⟨hfit, heq⟩ := txnDelete_ok hok
  rw [heq] at hok he
  rw [writeEntryAdd_writes hwrites hok] at he
  rw [List.mem_singleton.mp he]
  exact ⟨hfit, fun v hv => by cases hv⟩

/-- Expiry. -/
theorem ttlExpire_ships (h : w.Primary) {now : ℕ} (hclock : w.db.clock + drawsMax < tsMax) :
    ∃ rs, w.Ships rs (ttlExpire w now) := by
  have hrun : (∃ rs, w.Ships rs (ttlExpire w now)) ∧
      (ttlExpire w now).db.clock + 2 * ([] : List Bytes).length < tsMax := by
    apply ttlExpire_induction (P := fun keys w' => (∃ rs, w.Ships rs w') ∧
      w'.db.clock + 2 * keys.length < tsMax)
    · rintro pk keys w' ⟨hships, hroom⟩
      rw [List.length_cons] at hroom
      exact ⟨hships, by omega⟩
    · rintro pk keys w' ⟨⟨rs, hships⟩, hroom⟩ -
      rw [List.length_cons] at hroom
      have hle : (fastkvDelete w' pk).2.db.clock ≤ w'.db.clock + 2 :=
        (singleWrite_evolves (by omega) _).clock_le_add
      obtain ⟨rs', hdelete⟩ := fastkvDelete_ships hships.primary (by omega) pk
      exact ⟨⟨_, hships.trans hdelete⟩, by omega⟩
    · have hlength := length_expiredKeys w.db.ttl now
      unfold drawsMax at hclock
      exact ⟨⟨[], .nothing h rfl rfl (.refl _)⟩, by omega⟩
  exact hrun.1

/-- A collection. -/
theorem htGc_ships (h : w.Primary) (hone : w.db.ht.OneLive) {minActiveTs : ℕ}
    (hmin : minActiveTs ≤ tsMax) (n : ℕ) : w.Ships [] { w with db := { w.db with
      ht := (htGc w.db.ht minActiveTs).2, statSnapshotCount := n } } :=
  .nothing h rfl rfl (Stores.gc_alike (s := w.db.stores) hone hmin)

/-- The last steps of a checkpoint. -/
theorem checkpointMemory_ships (h : w.Primary) (hone : w.db.ht.OneLive)
    (hclock : w.db.clock + drawsMax < tsMax) (now : ℕ) :
    ∃ rs, w.Ships rs (checkpointMemory w now) := by
  obtain ⟨rs, hexpire⟩ : ∃ rs, w.Ships rs (ttlExpire w now) := ttlExpire_ships h hclock
  have hlength := length_expiredKeys w.db.ttl now
  have hevolves : w.db.Evolves (2 * (expiredKeys w.db.ttl now).length) (ttlExpire w now).db :=
    ttlExpire_evolves (by unfold drawsMax at hclock; omega)
  have hle : (ttlExpire w now).db.clock ≤ w.db.clock + drawsMax := (ttlExpire_clock hclock).2
  have hmin := oracleMinActive_le (ttlExpire w now).db.txnMgr.oracle
  exact ⟨_, hexpire.trans (htGc_ships hexpire.primary (hevolves.oneLive hone)
    (hmin.trans (by unfold Db.clock at hle hclock; omega)) _)⟩

/-- The steps of a checkpoint that write files keep the hook going. -/
theorem fastkvCheckpoint_primary (h : w.Primary) (snapId segId : Uuid) (now : ℕ) :
    ∃ wal disk, w.Ships [] ⟨{ w.db with wal := some wal }, disk⟩ ∧
      ((fastkvCheckpoint w snapId segId now).2 = ⟨{ w.db with wal := some wal }, disk⟩ ∨
        (fastkvCheckpoint w snapId segId now).2 =
          checkpointMemory ⟨{ w.db with wal := some wal }, disk⟩ now) := by
  obtain ⟨wal, hwal, hlog⟩ := h
  have hships : ∀ log : Log, log.Broadcasting → log.wal.hooked = wal.hooked →
      w.Ships [] ⟨{ w.db with wal := some log.wal }, log.disk⟩ := by
    refine fun log hlog hhooked => ⟨⟨log.wal, rfl, hlog⟩, ?_, .refl _, fun r hr => by cases hr⟩
    simp only [World.hooked, hwal, List.map_nil, List.append_nil, hhooked]
  have hflush : (walSync ⟨wal, w.disk⟩).2.Broadcasting ∧
      (walSync ⟨wal, w.disk⟩).2.wal.hooked = wal.hooked :=
    ⟨hlog.flush true, (flushBuf_sameHook true ⟨wal, w.disk⟩).hooked⟩
  rcases hsync : walSync ⟨wal, w.disk⟩ with ⟨rc, log⟩
  rw [hsync] at hflush
  have hsaved := hflush.1.withDisk fun hquiet =>
    (snapshotWrite_ok hquiet w.db.ht (oracleNow w.db.txnMgr.oracle) snapId).2
  rcases hsnap : snapshotWrite w.db.ht (oracleNow w.db.txnMgr.oracle) snapId log.disk with
    ⟨rc', disk⟩
  rw [hsnap] at hsaved
  have hrotated := hsaved.rotate segId
  rcases hrotate : walRotate segId ⟨log.wal, disk⟩ with ⟨rc'', log'⟩
  rw [hrotate] at hrotated
  have hhooked : log'.wal.hooked = wal.hooked := hrotated.2.trans hflush.2
  unfold fastkvCheckpoint
  simp only [hwal, hsync, hsnap, hrotate]
  split
  · exact ⟨_, _, hships log hflush.1 hflush.2, Or.inl rfl⟩
  · split
    · exact ⟨_, _, hships ⟨log.wal, disk⟩ hsaved hflush.2, Or.inl rfl⟩
    · split
      · exact ⟨_, _, hships log' hrotated.1 hhooked, Or.inl rfl⟩
      · have htrim := hrotated.1.withDisk fun hquiet =>
          snapshotTrim_quiet (walTrim_quiet hquiet log.wal.segmentId) snapId.hex
        exact ⟨_, _, hships _ htrim hhooked, Or.inr rfl⟩

/-- A checkpoint. -/
theorem fastkvCheckpoint_ships (h : w.Primary) (hone : w.db.ht.OneLive)
    (hclock : w.db.clock + drawsMax < tsMax) (snapId segId : Uuid) (now : ℕ) :
    ∃ rs, w.Ships rs (fastkvCheckpoint w snapId segId now).2 := by
  obtain ⟨wal, disk, hfiles, heq | heq⟩ := fastkvCheckpoint_primary h snapId segId now
  · rw [heq]
    exact ⟨[], hfiles⟩
  · rw [heq]
    obtain ⟨rs, hmemory⟩ := checkpointMemory_ships (w := ⟨{ w.db with wal := some wal }, disk⟩)
      hfiles.primary hone hclock now
    exact ⟨_, hfiles.trans hmemory⟩

end Ships

/-- Whatever a request does, it hands the records to the hook. -/
theorem serve_ships {s : Session} (h : s.world.Primary) (htxns : s.TxnsOk)
    (hone : s.world.db.ht.OneLive) (hclock : s.clock + drawsMax < tsMax) (r : Request) :
    ∃ rs, s.world.Ships rs (s.after r).world := by
  have hroom : s.world.db.clock + 2 < tsMax := by
    unfold Session.clock drawsMax expireBatch at hclock
    omega
  have hnothing : s.world.Ships [] s.world := .nothing h rfl rfl (.refl _)
  cases r with
  | action a =>
    show ∃ rs, s.world.Ships rs (step s.sys a).2.world
    cases a with
    | gc =>
      have hmin := oracleMinActive_le s.world.db.txnMgr.oracle
      exact ⟨[], htGc_ships h hone (hmin.trans (by unfold Db.clock at hroom; omega)) _⟩
    | checkpoint snapId segId now => exact fastkvCheckpoint_ships h hone hclock snapId segId now
    | call c =>
      change ∃ rs, s.world.Ships rs (callStep s.sys c).2.world
      rcases callStep_cases s.sys c with ⟨hworld, -⟩ | ⟨readOnly, txn, db, -, hbegin, hworld, -⟩ |
        ⟨i, txn, -, hopen, heq⟩ | ⟨i, txn, -, -, hworld, -⟩
      · rw [hworld]
        exact ⟨[], hnothing⟩
      · rw [hworld]
        exact ⟨[], txnBegin_ships h hbegin⟩
      · rw [heq]
        exact txnCommit_ships h (by show s.world.db.clock < tsMax; omega)
          (htxns i txn hopen).permitted
      · rw [hworld]
        exact ⟨[], World.abort_ships h txn⟩
  | put key value => exact fastkvPut_ships h hroom key value
  | delete key => exact fastkvDelete_ships h hroom key
  | putTtl now key value ttlMs =>
    obtain ⟨rs, hput⟩ := fastkvPut_ships h hroom key value
    show ∃ rs, s.world.Ships rs (fastkvPutTtl s.world now key value ttlMs).2
    unfold fastkvPutTtl
    simp only
    split
    · exact ⟨rs, hput.primary, hput.hooked, hput.stores, hput.shipped⟩
    · exact ⟨rs, hput⟩
  | expire now => exact ttlExpire_ships h hclock
  | indexCreate name fn => exact ⟨[], .nothing h rfl rfl (.refl _)⟩
  | indexDrop name =>
    show ∃ rs, s.world.Ships rs ⟨(fastkvIndexDrop s.world.db name).2, s.world.disk⟩
    unfold fastkvIndexDrop
    split <;> exact ⟨[], .nothing h rfl rfl (.refl _)⟩

end FastKV
