import FastKV.Directory
import FastKV.Replica

/-!
# The hash table and the B+tree agree

Point reads trust the hash table and cursors trust the B+tree. As long as values are not
empty, every way of changing the two keeps them in agreement: the tree maps a key to a value
exactly if the live version of the key carries it.
-/

namespace FastKV

open Lib

/-! ## Single changes -/

/-- The tree holds the values of the live versions. -/
structure Stores.Agree (s : Stores) : Prop where
  /-- The tree is in order. -/
  wellFormed : s.btree.WellFormed
  /-- No key has two live versions. -/
  oneLive : s.ht.OneLive
  /-- No value is empty. -/
  noEmpty : s.ht.NoEmpty
  /-- Both stand for the same map. -/
  find : ∀ key, Lib.find s.btree.toMap key = s.ht.live key

/-- A record of an ordinary time; a put has a value with at least one byte. -/
def Record.Proper (r : Record) : Prop := r.ts < tsMax ∧ (r.type = .put → r.value.getD [] ≠ [])

/-- New structures agree. -/
theorem Opts.stores_agree (opts : Opts) : opts.stores.Agree := by
  refine ⟨btreeCreate_wellFormed.1, opts.stores_oneLive, opts.stores_noEmpty, fun key => ?_⟩
  rw [Opts.stores, btreeCreate_wellFormed.2, Ht.live, versions_htCreate]
  rfl

/-- A record keeps the structures in agreement. -/
theorem Stores.Agree.replayRecord {s : Stores} (h : s.Agree) {r : Record} (hr : r.Proper) :
    (replayRecord r s).Agree := by
  obtain ⟨hts, hvalue⟩ := hr
  unfold FastKV.replayRecord
  cases htype : r.type with
  | put =>
    obtain ⟨hwf, hmap⟩ := btreeInsert_spec h.wellFormed r.key (r.value.getD [])
    refine ⟨hwf, h.oneLive.insert hts.ne _ _, h.noEmpty.insert _ _ _, fun key => ?_⟩
    have hdup : sliceDup r.value = some (r.value.getD []) := by
      have hne := hvalue htype
      cases hv : r.value with
      | none => exact absurd (by rw [hv]; rfl) hne
      | some v =>
        rw [hv] at hne
        exact sliceDup_of_ne hne
    simp only [hmap, htPut]
    rw [find_insert, live_htInsertVersion, hdup, h.find]
    by_cases hkey : key = r.key
    · rw [if_pos hkey, if_pos hkey]
    · rw [if_neg hkey, if_neg hkey]
  | delete =>
    obtain ⟨hwf, hmap⟩ := btreeDelete_spec h.wellFormed r.key
    refine ⟨hwf, h.oneLive.insert hts.ne _ _, h.noEmpty.insert _ _ _, fun key => ?_⟩
    simp only [hmap, htDelete]
    rw [find_erase, live_htInsertVersion, h.find]
    by_cases hkey : key = r.key
    · rw [if_pos hkey, if_pos hkey]
      rfl
    · rw [if_neg hkey, if_neg hkey]
  | commit => exact h
  | begin => exact h

/-- A collection that spares live versions keeps the structures in agreement. -/
theorem Stores.Agree.gc {s : Stores} (h : s.Agree) {m : ℕ} (hm : m ≤ tsMax) : (s.gc m).Agree :=
  ⟨h.wellFormed, h.oneLive.gc m, h.noEmpty.gc m, fun key =>
    (h.find key).trans (live_htGc h.oneLive hm key).symm⟩

/-- Any sequence of such changes does. -/
theorem Stores.Agree.runs {s s' : Stores} (h : s.Agree) (hruns : s.Runs Record.Proper s') :
    s'.Agree :=
  hruns.invariant (fun _ _ hr hs => hs.replayRecord hr) (fun _ _ hm hs => hs.gc hm) h

/-! ## Opening -/

/-- The structures of an opened database: the snapshot is loaded, and then the newer records
are applied. -/
theorem SegmentLog.stores_open {files : Files} {snap : Option Snap}
    {segs : List (Uuid × List Record)} (hlog : SegmentLog files segs)
    (hsnap : NewestSnap files snap) {opts : Opts} {fresh : Uuid} {disk : Disk} {w : World}
    (hfiles : disk.files = files) (h : fastkvOpen opts fresh disk = .ok w) :
    w.db.stores = ((segs.flatMap Prod.snd).filter (Record.wanted (snapTs snap))).foldl
      (fun s r => FastKV.replayRecord r s) (loaded opts.stores snap) :=
  hlog.opened_eq hsnap hfiles h

/-- The entries of a snapshot as records. -/
def snapRecords : Option Snap → List Record
  | none => []
  | some snap => (snapEntries snap.ht).map fun e => ⟨.put, snap.ts, e.1, some e.2⟩

/-- Loading a snapshot applies them. -/
theorem loaded_eq_records (s : Stores) (snap : Option Snap) :
    loaded s snap = (snapRecords snap).foldl (fun s r => FastKV.replayRecord r s) s := by
  cases snap with
  | none => rfl
  | some snap =>
    rw [snapRecords, List.foldl_map]
    rfl

/-- Loading the snapshot of a table in which the structures agree. -/
theorem loaded_agree {s : Stores} (h : s.Agree) {snap : Snap} (hts : snap.ts < tsMax)
    {s₀ : Stores} (h₀ : s₀.Agree) (hht : snap.ht = s₀.ht) : (loaded s (some snap)).Agree := by
  have hruns : s.Runs Record.Proper (loaded s (some snap)) := by
    rw [loaded_eq_records]
    refine .records _ fun r hr => ?_
    obtain ⟨e, he, rfl⟩ := List.mem_map.mp hr
    rw [hht] at he
    refine ⟨hts, fun _ => ?_⟩
    exact h₀.noEmpty.live_ne (h₀.oneLive.live_of_mem_snapEntries he)
  exact h.runs hruns

/-! ## Runs -/

/-- The databases between two changes, as long as puts have values and the clock is in range:
opened from logs of such puts and deletions, with or without a snapshot of such a database,
and changed by commits, collections and records from a primary. -/
inductive World.Serving : World → Prop
  /-- `fastkv_open` without a snapshot. -/
  | created {opts : Opts} {fresh : Uuid} {disk : Disk} {segs : List (Uuid × List Record)}
      {w : World} :
      NewestSnap disk.files none → SegmentLog disk.files segs →
      (∀ r ∈ segs.flatMap Prod.snd, r.Proper) → fastkvOpen opts fresh disk = .ok w → Serving w
  /-- `fastkv_open` with the snapshot that `fastkv_snapshot_write` made of a table. -/
  | opened {opts : Opts} {fresh : Uuid} {disk : Disk} {segs : List (Uuid × List Record)}
      {w₀ w : World} (id : Uuid) (ts : ℕ) : Serving w₀ →
      NewestSnap disk.files (some ⟨id, ts, w₀.db.ht⟩) → SegmentLog disk.files segs →
      (∀ r ∈ segs.flatMap Prod.snd, r.Proper) → fastkvOpen opts fresh disk = .ok w → Serving w
  /-- `fastkv_txn_begin`. -/
  | begin {w : World} {readOnly : Bool} {txn : Txn} {db : Db} : Serving w →
      w.db.clock + 1 < tsMax → txnBegin w.db readOnly = .ok (txn, db) → Serving { w with db }
  /-- `fastkv_txn_commit`. -/
  | commit {w : World} (txn : Txn) : Serving w → w.db.clock + 1 < tsMax →
      (∀ e ∈ txn.writes, e.value ≠ some []) → Serving (txnCommit w txn).2.1
  /-- `fastkv_txn_abort`. -/
  | abort {w : World} (txn : Txn) : Serving w → Serving (w.abort txn).1
  /-- `fastkv_ht_gc`. The engine passes the smallest active timestamp, which is not later than
  the clock. -/
  | gc {w : World} (minActiveTs : ℕ) : Serving w → minActiveTs ≤ tsMax →
      Serving { w with db := { w.db with ht := (htGc w.db.ht minActiveTs).2 } }
  /-- `fastkv_checkpoint`, with the expiry of keys. -/
  | checkpoint {w : World} (snapId segId : Uuid) {now : ℕ} : Serving w →
      w.db.clock + 2 * (expiredKeys w.db.ttl now).length < tsMax →
      Serving (fastkvCheckpoint w snapId segId now).2
  /-- `fastkv_ttl_set`, the second half of `fastkv_put_ttl`. -/
  | ttl {w : World} (ttl : Ttl) : Serving w → Serving { w with db := { w.db with ttl } }
  /-- Creating and dropping secondary indexes. -/
  | indexes {w : World} (indexes : List Index) : Serving w →
      Serving { w with db := { w.db with indexes } }
  /-- `fastkv_wal_sync` and other operations on the log alone. -/
  | log {w : World} (wal : Option Wal) (disk : Disk) : Serving w → Serving ⟨{ w.db with wal }, disk⟩
  /-- `apply_wal_record` for a record that a primary has logged. -/
  | replicated {w : World} {r : Record} (beyond : Bytes) : Serving w → r.Valid → r.Proper →
      Serving { w with db := applyWalRecord beyond r.frame.encode w.db }

/-- The records of a transaction with proper values. -/
theorem WriteEntry.record_proper {e : WriteEntry} (he : e.value ≠ some []) {ts : ℕ}
    (hts : ts < tsMax) :
    (e.record ts).Proper := by
  refine ⟨hts, fun htype => ?_⟩
  cases hv : e.value with
  | none => simp [WriteEntry.record, hv] at htype
  | some v =>
    rw [hv] at he
    intro hnil
    exact he (congrArg some (by simpa [WriteEntry.record, hv] using hnil))

/-- The structures of a directory without a snapshot, or with one of a database in which they
agree. -/
theorem fastkvOpen_agree {opts : Opts} {fresh : Uuid} {disk : Disk} {snap : Option Snap}
    {segs : List (Uuid × List Record)} {w : World} (hsnap : NewestSnap disk.files snap)
    (hlog : SegmentLog disk.files segs) (hproper : ∀ r ∈ segs.flatMap Prod.snd, r.Proper)
    (hloaded : (loaded opts.stores snap).Agree) (hopen : fastkvOpen opts fresh disk = .ok w) :
    w.db.stores.Agree ∧ w.db.clock ≤ tsMax := by
  have hts : ∀ r ∈ segs.flatMap Prod.snd, r.ts < tsMax := fun r hr => (hproper r hr).1
  refine ⟨?_, fastkvOpen_clock_le (hlog.intact hsnap hts opts) hopen⟩
  rw [hlog.stores_open hsnap rfl hopen]
  exact hloaded.runs (.records _ fun r hr => hproper r (List.mem_of_mem_filter hr))

/-- A record of the primary keeps the structures in agreement. -/
theorem applyWalRecord_agree {db : Db} (h : db.stores.Agree ∧ db.clock ≤ tsMax) {r : Record}
    (hvalid : r.Valid) (hproper : r.Proper) (beyond : Bytes) :
    (applyWalRecord beyond r.frame.encode db).stores.Agree ∧
      (applyWalRecord beyond r.frame.encode db).clock ≤ tsMax := by
  obtain ⟨hstores, hclock⟩ := applyWalRecord_record hvalid beyond db
  have hts := hproper.1
  rw [add64_eq (by unfold tsMax at hts; omega)] at hclock
  rw [hstores, hclock]
  exact ⟨h.1.replayRecord hproper, max_le h.2 hts⟩

/-- In every such database the structures agree. -/
theorem World.Serving.agree {w : World} (h : w.Serving) :
    w.db.stores.Agree ∧ w.db.clock ≤ tsMax := by
  induction h with
  | @created opts _ _ _ _ hsnap hlog hproper hopen =>
    exact fastkvOpen_agree hsnap hlog hproper opts.stores_agree hopen
  | @opened opts _ _ _ _ _ id ts _ hsnap hlog hproper hopen ih =>
    exact fastkvOpen_agree hsnap hlog hproper
      (loaded_agree opts.stores_agree hsnap.ts_lt ih.1 rfl) hopen
  | begin _ hclock hbegin ih =>
    rw [show ∀ (w : World) (db : Db), ({ w with db } : World).db = db from fun _ _ => rfl,
      txnBegin_stores hbegin]
    have hle := (txnBegin_evolves hclock hbegin).clock_le_add
    exact ⟨ih.1, by omega⟩
  | commit txn _ hclock hwrites ih =>
    have hle := (txnCommit_evolves hclock txn).clock_le_add
    refine ⟨ih.1.runs (txnCommit_runs txn fun _ e he => ?_), by omega⟩
    exact (WriteEntry.record_proper (hwrites e he) (by omega))
  | @abort w txn _ ih =>
    have hle := (World.abort_evolves (n := 0) w txn).clock_le_add
    exact ⟨ih.1, by omega⟩
  | gc m _ hm ih => exact ⟨ih.1.gc hm, ih.2⟩
  | checkpoint snapId segId _ hclock ih =>
    have hle := (fastkvCheckpoint_evolves hclock snapId segId).clock_le_add
    refine ⟨ih.1.runs (fastkvCheckpoint_runs hclock snapId segId fun ts hts key _ => ?_), by omega⟩
    exact ⟨hts, fun htype => nomatch htype⟩
  | ttl _ _ ih => exact ih
  | indexes _ _ ih => exact ih
  | log _ _ _ ih => exact ih
  | @replicated w r beyond _ hvalid hproper ih =>
    have hkeep := applyWalRecord_agree ih hvalid hproper beyond
    generalize applyWalRecord beyond r.frame.encode w.db = db at hkeep ⊢
    exact hkeep

/-- In every database reached by commits of non-empty values and deletions, collections,
checkpoints, restarts and replicated records, the tree maps a key to a value exactly if the
table has a live version of the key that carries it. -/
theorem btree_agrees_with_table {w : World} (h : w.Serving) (key value : Bytes) :
    btreeGet w.db.btree key = .ok value ↔
      ∃ v ∈ w.db.ht.versions key, v.endTs = tsMax ∧ v.value = some value := by
  obtain ⟨hagree, -⟩ := h.agree
  have hfind : Lib.find w.db.btree.toMap key = w.db.ht.live key := hagree.find key
  have hwf : w.db.btree.WellFormed := hagree.wellFormed
  rw [btreeGet_eq hwf, hfind, Ht.live]
  constructor
  · intro hget
    cases hv : (w.db.ht.versions key).find? Version.isLive with
    | none => simp [hv] at hget
    | some v =>
      cases hvalue : v.value with
      | none => simp [hv, hvalue] at hget
      | some value' =>
        have heq : value' = value := by simpa [hv, hvalue] using hget
        exact ⟨v, List.mem_of_find?_eq_some hv, by simpa [Version.isLive] using List.find?_some hv,
          by rw [hvalue, heq]⟩
  · rintro ⟨v, hmem, hend, hvalue⟩
    have hlive : w.db.ht.live key = v.value := hagree.oneLive.live_eq hmem hend
    rw [Ht.live] at hlive
    rw [hlive, hvalue]

/-- A replica that has received one record. -/
theorem btree_agrees_with_table_replicated :
    ∃ v ∈ (applyWalRecord [] (⟨.put, 5, [1], some [10]⟩ : Record).frame.encode
      newWorld.db).ht.versions
      [1], v.endTs = tsMax ∧ v.value = some [10] := by
  have hnew : newWorld.Serving :=
    .created NewestSnap.empty SegmentLog.empty (by simp) newWorld_opened
  have hvalid : Record.Valid ⟨.put, 5, [1], some [10]⟩ :=
    ⟨by decide, by decide, by simp [maxValLen]⟩
  have hproper : Record.Proper ⟨.put, 5, [1], some [10]⟩ := ⟨by decide, by simp⟩
  exact (btree_agrees_with_table (.replicated [] hnew hvalid hproper) [1] [10]).mp
    (by decide +kernel)

end FastKV
