import FastKV.OrderedIndex
import FastKV.Reachable
import FastKV.Replay

/-!
# What calls do to the two structures

Commits, recovery and replication update the hash table and the B+tree side by side. Each of
them amounts to applying records one after the other, and garbage collection is the only
other change. A property of the pair that records and collections keep is therefore kept by
every call of the engine.
-/

namespace FastKV

open Lib

/-- The two structures of a database. -/
def Db.stores (db : Db) : Stores := ⟨db.ht, db.btree⟩

/-- A collection in the hash table. -/
def Stores.gc (s : Stores) (minActiveTs : ℕ) : Stores := { s with ht := (htGc s.ht minActiveTs).2 }

/-- Structures that come from others by records with a property and by collections that spare
live versions. -/
inductive Stores.Runs (P : Record → Prop) (s : Stores) : Stores → Prop
  /-- Nothing happened. -/
  | refl : Runs P s s
  /-- A record is applied. -/
  | write {s' : Stores} (r : Record) : Runs P s s' → P r → Runs P s (replayRecord r s')
  /-- Garbage is collected. -/
  | gc {s' : Stores} (minActiveTs : ℕ) : Runs P s s' → minActiveTs ≤ tsMax →
      Runs P s (s'.gc minActiveTs)

section Runs

variable {P Q : Record → Prop} {s s₁ s₂ : Stores}

/-- One after the other. -/
theorem Stores.Runs.trans (h : s.Runs P s₁) (h' : s₁.Runs P s₂) : s.Runs P s₂ := by
  induction h' with
  | refl => exact h
  | write r _ hr ih => exact .write r ih hr
  | gc m _ hm ih => exact .gc m ih hm

/-- A sequence of records. -/
theorem Stores.Runs.records (rs : List Record) : ∀ {s : Stores}, (∀ r ∈ rs, P r) →
    s.Runs P (rs.foldl (fun s r => replayRecord r s) s) := by
  induction rs with
  | nil => exact fun _ => .refl
  | cons r rs ih =>
    intro s hrs
    have hfirst : s.Runs P (replayRecord r s) := .write r .refl (hrs r List.mem_cons_self)
    exact hfirst.trans (ih fun r' hr' => hrs r' (List.mem_cons_of_mem _ hr'))

/-- A property of the structures that records and collections keep. -/
theorem Stores.Runs.invariant {I : Stores → Prop} (h : s.Runs P s₁)
    (hwrite : ∀ s r, P r → I s → I (replayRecord r s))
    (hgc : ∀ s m, m ≤ tsMax → I s → I (s.gc m)) (hs : I s) : I s₁ := by
  induction h with
  | refl => exact hs
  | write r _ hr ih => exact hwrite _ r hr ih
  | gc m _ hm ih => exact hgc _ m hm ih

end Runs

/-! ## Calls -/

/-- Writing an entry and replaying its record do the same to both structures. -/
theorem applyEntry_stores (db : Db) (e : WriteEntry) (commitTs : ℕ) :
    (applyEntry db e commitTs).stores = replayRecord (e.record commitTs) db.stores := by
  unfold applyEntry WriteEntry.record
  cases hv : e.value with
  | none => rfl
  | some value => rfl

/-- Writing entries and replaying their records do the same to both structures. -/
theorem applyEntries_stores (commitTs : ℕ) (es : List WriteEntry) : ∀ db : Db,
    (applyEntries commitTs es db).stores =
      (es.map fun e => e.record commitTs).foldl (fun s r => replayRecord r s) db.stores := by
  induction es with
  | nil => exact fun db => rfl
  | cons e es ih =>
    intro db
    rw [List.map_cons, List.foldl_cons, ← applyEntry_stores]
    exact ih (applyEntry db e commitTs)

section Calls

variable {P : Record → Prop} {w : World}

/-- A write set is applied, or the beginning of one. -/
theorem dbApplyWriteSet_runs (commitTs : ℕ) (es : List WriteEntry)
    (hes : ∀ e ∈ es, P (e.record commitTs)) (w : World) :
    w.db.stores.Runs P (dbApplyWriteSet commitTs es w).2.db.stores := by
  obtain ⟨k, wal, hdb, -⟩ := dbApplyWriteSet_cases commitTs es w
  have hstores : (dbApplyWriteSet commitTs es w).2.db.stores =
      (applyEntries commitTs (es.take k) w.db).stores := by
    rw [hdb]
    rfl
  rw [hstores, applyEntries_stores]
  refine .records _ fun r hr => ?_
  obtain ⟨e, he, rfl⟩ := List.mem_map.mp hr
  exact hes e (List.mem_of_mem_take he)

/-- A write set is applied without an error. -/
theorem dbApplyWriteSet_stores {commitTs : ℕ} {es : List WriteEntry} {w : World}
    (h : (dbApplyWriteSet commitTs es w).1 = .ok) : (dbApplyWriteSet commitTs es w).2.db.stores =
      (es.map fun e => e.record commitTs).foldl (fun s r => replayRecord r s) w.db.stores := by
  obtain ⟨k, wal, hdb, hall⟩ := dbApplyWriteSet_cases commitTs es w
  have hstores : (dbApplyWriteSet commitTs es w).2.db.stores =
      (applyEntries commitTs es w.db).stores := by
    rw [hdb, hall h]
    rfl
  rw [hstores, applyEntries_stores]

/-- A commit applies the records of its transaction, if it applies anything. -/
theorem txnCommit_runs (txn : Txn)
    (h : Applies w txn → ∀ e ∈ txn.writes, P (e.record w.db.clock)) :
    w.db.stores.Runs P (txnCommit w txn).2.1.db.stores := by
  rcases txnCommit_cases w txn with ⟨-, mgr, -, heq⟩ | ⟨happlies, -, -, mgr, -, heq⟩
  · rw [heq]
    exact .refl
  · rw [heq]
    exact dbApplyWriteSet_runs w.db.clock txn.writes (h happlies) w.drawn

/-- A commit that succeeds applies all of them. -/
theorem txnCommit_stores {txn : Txn} (hok : (txnCommit w txn).1 = .ok)
    (hro : txn.readOnly = false) :
    (txnCommit w txn).2.1.db.stores =
      (txn.writes.map fun e => e.record w.db.clock).foldl
      (fun s r => replayRecord r s) w.db.stores := by
  rcases txnCommit_cases w txn with ⟨hrefusal, mgr, -, heq⟩ | ⟨-, hrc, -, mgr, -, heq⟩
  · rw [hok] at hrefusal
    cases hrefusal with
    | nothing _ hnothing =>
      rcases hnothing with h | h
      · rw [hro] at h
        cases h
      · rw [heq, h]
        rfl
  · rw [heq]
    exact dbApplyWriteSet_stores (hrc.symm.trans hok)

/-- Beginning a transaction changes neither structure. -/
theorem txnBegin_stores {db db' : Db} {readOnly : Bool} {txn : Txn}
    (h : txnBegin db readOnly = .ok (txn, db')) : db'.stores = db.stores := by
  unfold txnBegin at h
  split at h
  · cases h
  · simp only [Except.ok.injEq, Prod.mk.injEq] at h
    rw [← h.2]
    rfl

/-- The only error of a begin. -/
theorem txnBegin_error {db : Db} {readOnly : Bool} {rc : Err}
    (h : txnBegin db readOnly = .error rc) :
    rc = .txnRo := by
  unfold txnBegin at h
  split at h
  · exact (Except.error.inj h).symm
  · cases h

/-- A single write applies the records of its transaction. -/
theorem singleWrite_runs (hclock : w.db.clock + 2 < tsMax) {write : Txn → Err × Txn}
    (h : ∀ txn, txn.writes = [] → ∀ e ∈ (write txn).2.writes, P (e.record (w.db.clock + 1))) :
    w.db.stores.Runs P (singleWrite w write).2.db.stores := by
  unfold singleWrite
  split
  · exact .refl
  · rename_i txn db hbegin
    obtain ⟨-, -, hwrites, -, -, -, hnext, -⟩ := txnBegin_spec hbegin
    rw [add64_eq (by unfold tsMax at hclock; omega)] at hnext
    rw [← txnBegin_stores hbegin]
    simp only
    split
    · refine txnCommit_runs (w := { w with db }) _ fun _ e he => ?_
      rw [show ({ w with db } : World).db.clock = w.db.clock + 1 from hnext]
      exact h txn hwrites e he
    · exact .refl

/-- What `fastkv_delete` writes. -/
theorem fastkvDelete_runs (hclock : w.db.clock + 2 < tsMax) {key : Bytes}
    (h : P ⟨.delete, w.db.clock + 1, key, none⟩) :
    w.db.stores.Runs P (fastkvDelete w key).2.db.stores := by
  refine singleWrite_runs hclock fun txn hwrites e he => ?_
  unfold txnDelete txnWriteDelete writeEntryAdd at he
  have hone : e ∈ [(⟨key, none⟩ : WriteEntry)] := by
    split at he
    · rw [hwrites] at he
      cases he
    · split at he
      · rw [hwrites] at he
        cases he
      · split at he
        · rw [hwrites] at he
          cases he
        · rwa [hwrites] at he
  rw [List.mem_singleton.mp hone]
  exact h

/-- Expiry deletes keys that have expired. -/
theorem ttlExpire_runs {now : ℕ}
    (hclock : w.db.clock + 2 * (expiredKeys w.db.ttl now).length < tsMax)
    (h : ∀ ts < tsMax, ∀ key ∈ expiredKeys w.db.ttl now, P ⟨.delete, ts, key, none⟩) :
    w.db.stores.Runs P (ttlExpire w now).db.stores := by
  have hrun : w.db.stores.Runs P (ttlExpire w now).db.stores ∧
      (ttlExpire w now).db.clock + 2 * ([] : List Bytes).length < tsMax ∧
      ∀ ts < tsMax, ∀ key ∈ ([] : List Bytes), P ⟨.delete, ts, key, none⟩ := by
    apply ttlExpire_induction (P := fun keys w' => w.db.stores.Runs P w'.db.stores ∧
      w'.db.clock + 2 * keys.length < tsMax ∧ ∀ ts < tsMax, ∀ key ∈ keys,
      P ⟨.delete, ts, key, none⟩)
    · rintro pk keys w' ⟨hruns, hroom, hkeys⟩
      rw [List.length_cons] at hroom
      exact ⟨hruns, by omega, fun ts hts key hkey => hkeys ts hts key (List.mem_cons_of_mem _ hkey)⟩
    · rintro pk keys w' ⟨hruns, hroom, hkeys⟩ -
      rw [List.length_cons] at hroom
      have hle : (fastkvDelete w' pk).2.db.clock ≤ w'.db.clock + 2 :=
        (singleWrite_evolves (by omega) _).clock_le_add
      exact ⟨hruns.trans (fastkvDelete_runs (by omega) (hkeys _ (by omega) pk List.mem_cons_self)),
        by omega, fun ts hts key hkey => hkeys ts hts key (List.mem_cons_of_mem _ hkey)⟩
    · exact ⟨.refl, hclock, h⟩
  exact hrun.1

/-- The collection of the engine spares live versions. -/
theorem World.gc_runs (hclock : w.db.clock ≤ tsMax) : w.db.stores.Runs P w.gc.db.stores :=
  .gc _ .refl ((oracleMinActive_le w.db.txnMgr.oracle).trans hclock)

/-- A checkpoint deletes keys that have expired and collects garbage. -/
theorem fastkvCheckpoint_runs {now : ℕ}
    (hclock : w.db.clock + 2 * (expiredKeys w.db.ttl now).length < tsMax) (snapId segId : Uuid)
    (h : ∀ ts < tsMax, ∀ key ∈ expiredKeys w.db.ttl now, P ⟨.delete, ts, key, none⟩) :
    w.db.stores.Runs P (fastkvCheckpoint w snapId segId now).2.db.stores := by
  rcases fastkvCheckpoint_cases w snapId segId now with ⟨wal, heq⟩ | ⟨-, wal, disk, heq⟩
  · rw [heq]
    exact .refl
  · rw [heq]
    have hexpire := ttlExpire_runs (w := ⟨{ w.db with wal := some wal }, disk⟩) (P := P) hclock h
    have hle := (ttlExpire_evolves (w := ⟨{ w.db with wal := some wal }, disk⟩) hclock).clock_le_add
    have hle' : (ttlExpire ⟨{ w.db with wal := some wal }, disk⟩ now).db.clock ≤
        w.db.clock + 2 * (expiredKeys w.db.ttl now).length := hle
    exact hexpire.trans (World.gc_runs (by omega))

end Calls

/-! ## Opening -/

/-- The entries of a snapshot are records at its timestamp, also if the file ends early. -/
theorem loadEntries_runs {P : Record → Prop} {ts : ℕ}
    (hput : ∀ key value, P ⟨.put, ts, key, some value⟩)
    (numKeys : ℕ) : ∀ (bs : Bytes) (dataCrc : UInt32) (s : Stores),
      s.Runs P (loadEntries ts numKeys bs dataCrc s).2 := by
  induction numKeys with
  | zero => exact fun _ _ _ => .refl
  | succ numKeys ih =>
    intro bs dataCrc s
    unfold loadEntries
    split
    · exact .refl
    · exact Stores.Runs.trans (.write _ .refl (hput _ _)) (ih _ _ _)

/-- Opening an intact directory applies records of ordinary times to new structures. -/
theorem fastkvOpen_runs {opts : Opts} {fresh : Uuid} {disk : Disk} {w : World}
    (hintact : Intact opts disk.files) (h : fastkvOpen opts fresh disk = .ok w) :
    opts.stores.Runs (fun r => r.ts < tsMax) w.db.stores := by
  obtain ⟨s, snapTs, walMaxTs, wal, hload, hdb, hmax, hsnapTs, hwalTs⟩ := hintact.open_cases h
  have hloaded : opts.stores.Runs (fun r => r.ts < tsMax) s := by
    rcases snapshotLoad_cases hload with rfl | ⟨numKeys, bs, dataCrc, rfl⟩
    · exact .refl
    · exact loadEntries_runs (fun key value => hsnapTs) numKeys bs dataCrc _
  have hstores : w.db.stores = (replayed snapTs disk.files).foldl
      (fun s r => replayRecord r s) s := by
    rw [hdb]
    rfl
  rw [hstores]
  exact hloaded.trans (.records _ fun r hr => (hmax r hr).trans_lt hwalTs)

/-- The structures of a reachable database come from new ones by records of ordinary times and
collections that spare live versions. -/
theorem World.Reachable.runs {w : World} (h : w.Reachable) :
    w.db.clock ≤ tsMax ∧ ∃ opts : Opts, opts.stores.Runs (fun r => r.ts < tsMax) w.db.stores := by
  induction h with
  | opened hintact hopen =>
    exact ⟨fastkvOpen_clock_le hintact hopen, _, fastkvOpen_runs hintact hopen⟩
  | @begin w readOnly txn db _ hclock hbegin ih =>
    have hle := (txnBegin_evolves hclock hbegin).clock_le_add
    obtain ⟨-, opts, hruns⟩ := ih
    rw [← txnBegin_stores hbegin] at hruns
    exact ⟨by show db.clock ≤ tsMax; omega, opts, hruns⟩
  | @commit w txn _ hclock ih =>
    have hle := (txnCommit_evolves hclock txn).clock_le_add
    obtain ⟨-, opts, hruns⟩ := ih
    refine ⟨by omega, opts, hruns.trans (txnCommit_runs txn fun _ e _ => ?_)⟩
    show w.db.clock < tsMax
    omega
  | @abort w txn _ ih =>
    have hle := (World.abort_evolves (n := 0) w txn).clock_le_add
    exact ⟨by omega, ih.2⟩
  | ttl _ _ ih => exact ih
  | indexes _ _ ih => exact ih
  | log _ _ _ ih => exact ih
  | checkpoint snapId segId _ hclock ih =>
    have hle := (fastkvCheckpoint_evolves hclock snapId segId).clock_le_add
    obtain ⟨-, opts, hruns⟩ := ih
    exact ⟨by omega, opts, hruns.trans (fastkvCheckpoint_runs hclock snapId segId
      fun ts hts key _ => hts)⟩

/-- Records of ordinary times and collections keep the tree in order, its leaves linked and the
live versions single. -/
theorem Opts.runs_inOrder {opts : Opts} {s : Stores}
    (h : opts.stores.Runs (fun r => r.ts < tsMax) s) :
    s.btree.WellFormed ∧ s.btree.Linked ∧ s.ht.OneLive := by
  refine h.invariant (I := fun s => s.btree.WellFormed ∧ s.btree.Linked ∧ s.ht.OneLive)
    (fun s r hr hs => ?_) (fun s m _ hs => ⟨hs.1, hs.2.1, hs.2.2.gc m⟩)
    ⟨btreeCreate_wellFormed.1, btreeCreate_linked, opts.stores_oneLive⟩
  obtain ⟨hwf, hlinked, ho⟩ := hs
  unfold replayRecord
  cases r.type with
  | put => exact ⟨(btreeInsert_spec hwf _ _).1, hlinked.insert hwf _ _, ho.insert (ne_of_lt hr) _ _⟩
  | delete => exact ⟨(btreeDelete_spec hwf _).1, hlinked.delete _, ho.insert (ne_of_lt hr) _ _⟩
  | commit => exact ⟨hwf, hlinked, ho⟩
  | begin => exact ⟨hwf, hlinked, ho⟩

/-- The structures of a reachable database are in order. -/
theorem World.Reachable.inOrder {w : World} (h : w.Reachable) :
    w.db.btree.WellFormed ∧ w.db.btree.Linked ∧ w.db.ht.OneLive := by
  obtain ⟨-, opts, hruns⟩ := h.runs
  exact Opts.runs_inOrder hruns

end FastKV
