import FastKV.Agreement
import FastKV.Cursor

/-!
# Empty values

A put of an empty value is accepted, logged and copied into the B+tree as any other. The hash
table copies it with `slice_dup`, which returns the null slice for an empty one, and the null
slice is how versions mark deletions. So the last put on a key decides by its length whether
point reads and cursors see the key.
-/

namespace FastKV

open Lib

/-! ## The structures after a put -/

/-- The structures after a put and further writes to other keys. -/
structure Stores.Carry (key value : Bytes) (s : Stores) : Prop where
  /-- The tree is in order. -/
  wellFormed : s.btree.WellFormed
  /-- No key has two live versions. -/
  oneLive : s.ht.OneLive
  /-- The tree has the value. -/
  find : Lib.find s.btree.toMap key = some value
  /-- The table has what `slice_dup` has made of it. -/
  live : s.ht.live key = sliceDup (some value)

section Carry

variable {key value : Bytes} {s s' : Stores}

/-- A put. -/
theorem Stores.Carry.put (hwf : s.btree.WellFormed) (ho : s.ht.OneLive) {r : Record}
    (hts : r.ts < tsMax) (htype : r.type = .put) (hkey : r.key = key)
    (hvalue : r.value = some value) :
    (replayRecord r s).Carry key value := by
  unfold replayRecord
  rw [htype, hkey, hvalue]
  obtain ⟨hwf', hmap⟩ := btreeInsert_spec hwf key value
  refine ⟨hwf', ho.insert hts.ne _ _, ?_, ?_⟩
  · show Lib.find (btreeInsert s.btree key value).toMap key = some value
    rw [hmap, find_insert, if_pos rfl]
  · show (htInsertVersion s.ht r.ts key (some value)).live key = sliceDup (some value)
    rw [live_htInsertVersion, if_pos rfl]

/-- A write to another key. -/
theorem Stores.Carry.replayRecord (h : s.Carry key value) {r : Record} (hts : r.ts < tsMax)
    (hne : r.key ≠ key) : (replayRecord r s).Carry key value := by
  unfold FastKV.replayRecord
  cases r.type with
  | put =>
    obtain ⟨hwf, hmap⟩ := btreeInsert_spec h.wellFormed r.key (r.value.getD [])
    refine ⟨hwf, h.oneLive.insert hts.ne _ _, ?_, ?_⟩
    · simp only [hmap]
      rw [find_insert, if_neg hne.symm, h.find]
    · simp only [htPut]
      rw [live_htInsertVersion, if_neg hne.symm, h.live]
  | delete =>
    obtain ⟨hwf, hmap⟩ := btreeDelete_spec h.wellFormed r.key
    refine ⟨hwf, h.oneLive.insert hts.ne _ _, ?_, ?_⟩
    · simp only [hmap]
      rw [find_erase, if_neg hne.symm, h.find]
    · simp only [htDelete]
      rw [live_htInsertVersion, if_neg hne.symm, h.live]
  | commit => exact h
  | begin => exact h

/-- A collection that spares live versions. -/
theorem Stores.Carry.gc (h : s.Carry key value) {m : ℕ} (hm : m ≤ tsMax) :
    (s.gc m).Carry key value :=
  ⟨h.wellFormed, h.oneLive.gc m, h.find, (live_htGc h.oneLive hm key).trans h.live⟩

/-- Any sequence of such changes. -/
theorem Stores.Carry.runs (h : s.Carry key value)
    (hruns : s.Runs (fun r => r.ts < tsMax ∧ r.key ≠ key) s') : s'.Carry key value :=
  hruns.invariant (fun _ _ hr hs => hs.replayRecord hr.1 hr.2) (fun _ _ hm hs => hs.gc hm) h

end Carry

/-! ## Histories -/

/-- The last record on a key puts a value. -/
def LastOn (key value : Bytes) (rs : List Record) : Prop :=
  ∃ before r after, rs = before ++ r :: after ∧ r.type = .put ∧ r.key = key ∧
    r.value = some value ∧ ∀ r' ∈ after, r'.key ≠ key

/-- What recovery applies: the entries of the snapshot and the newer records of the log. -/
def recovered (snap : Option Snap) (segs : List (Uuid × List Record)) : List Record :=
  snapRecords snap ++ (segs.flatMap Prod.snd).filter (Record.wanted (snapTs snap))

/-- The databases in which the last committed write on a key is an accepted `fastkv_put`: made
by the call, or opened from a directory that still holds the put, and changed by anything that
does not write the key. -/
inductive LastPut (key value : Bytes) : World → Prop
  /-- `fastkv_put`. -/
  | put {w : World} : w.Reachable → w.db.clock + 2 < tsMax →
      (fastkvPut w key (some value)).1 = .ok → LastPut key value (fastkvPut w key (some value)).2
  /-- `fastkv_open`. -/
  | opened {opts : Opts} {fresh : Uuid} {disk : Disk} {snap : Option Snap}
      {segs : List (Uuid × List Record)} {w : World} : key.length ≤ maxKeyLen →
      NewestSnap disk.files snap → SegmentLog disk.files segs →
      (∀ r ∈ segs.flatMap Prod.snd, r.ts < tsMax) → LastOn key value (recovered snap segs) →
      fastkvOpen opts fresh disk = .ok w → LastPut key value w
  /-- `fastkv_txn_begin`. -/
  | begin {w : World} {readOnly : Bool} {txn : Txn} {db : Db} : LastPut key value w →
      w.db.clock + 1 < tsMax → txnBegin w.db readOnly = .ok (txn, db) →
      LastPut key value { w with db }
  /-- `fastkv_txn_commit` of a transaction that does not write the key, or is refused. -/
  | commit {w : World} (txn : Txn) : LastPut key value w → w.db.clock + 1 < tsMax →
      (Applies w txn → ∀ e ∈ txn.writes, e.key ≠ key) → LastPut key value (txnCommit w txn).2.1
  /-- `fastkv_txn_abort`. -/
  | abort {w : World} (txn : Txn) : LastPut key value w → LastPut key value (w.abort txn).1
  /-- `fastkv_ttl_set`, the second half of `fastkv_put_ttl`. -/
  | ttl {w : World} (ttl : Ttl) : LastPut key value w →
      LastPut key value { w with db := { w.db with ttl } }
  /-- Creating and dropping secondary indexes. -/
  | indexes {w : World} (indexes : List Index) : LastPut key value w →
      LastPut key value { w with db := { w.db with indexes } }
  /-- `fastkv_wal_sync` and other operations on the log alone. -/
  | log {w : World} (wal : Option Wal) (disk : Disk) : LastPut key value w →
      LastPut key value ⟨{ w.db with wal }, disk⟩
  /-- `fastkv_checkpoint`, if the key does not expire in it. -/
  | checkpoint {w : World} (snapId segId : Uuid) {now : ℕ} : LastPut key value w →
      w.db.clock + 2 * (expiredKeys w.db.ttl now).length < tsMax →
      key ∉ expiredKeys w.db.ttl now → LastPut key value (fastkvCheckpoint w snapId segId now).2

section LastPut

variable {key value : Bytes} {w : World}

/-- Such a database is reachable. -/
theorem LastPut.reachable (h : LastPut key value w) : w.Reachable := by
  induction h with
  | put hr hclock _ => exact hr.singleWrite hclock _
  | opened _ hsnap hlog hts _ hopen => exact .opened (hlog.intact hsnap hts _) hopen
  | begin _ hclock hbegin ih => exact .begin ih hclock hbegin
  | commit txn _ hclock _ ih => exact .commit txn ih hclock
  | abort txn _ ih => exact .abort txn ih
  | ttl ttl _ ih => exact .ttl ttl ih
  | indexes indexes _ ih => exact .indexes indexes ih
  | log wal disk _ ih => exact .log wal disk ih
  | checkpoint snapId segId _ hclock _ ih => exact .checkpoint snapId segId ih hclock

/-- What an accepted put does to both structures. -/
theorem fastkvPut_stores (hclock : w.db.clock + 2 < tsMax)
    (h : (fastkvPut w key (some value)).1 = .ok) :
    key.length ≤ maxKeyLen ∧ (fastkvPut w key (some value)).2.db.stores =
      replayRecord ⟨.put, w.db.clock + 1, key, some value⟩ w.db.stores := by
  unfold fastkvPut singleWrite at h ⊢
  split at h
  · rename_i rc hbegin
    have hrc : rc = .ok := h
    rw [txnBegin_error hbegin] at hrc
    cases hrc
  · rename_i txn db hbegin
    obtain ⟨-, hactive, hwrites, hro, -, -, hnext, -⟩ := txnBegin_spec hbegin
    rw [add64_eq (by unfold tsMax at hclock; omega)] at hnext
    simp only at h ⊢
    split at h
    · rename_i hput
      have hlen : key.length ≤ maxKeyLen := by
        by_contra hlong
        simp [txnPut, not_le.mp hlong] at hput
      have hvlen : ¬ maxValLen < value.length := by
        intro hlong
        simp [txnPut, not_lt.mpr hlen, hlong] at hput
      have htxn : txnPut txn key (some value) = (.ok, { txn with
          writes := [⟨key, some value⟩], writeCount := (txn.writeCount + 1) % 2 ^ 32 }) := by
        simp [txnPut, not_lt.mpr hlen, hvlen, txnWritePut, writeEntryAdd, hro, hactive, hwrites]
      refine ⟨hlen, ?_⟩
      rw [htxn] at h ⊢
      rw [if_pos rfl]
      refine (txnCommit_stores h hro).trans ?_
      show replayRecord ⟨.put, db.clock, key, some value⟩ db.stores = _
      rw [hnext, txnBegin_stores hbegin]
    · rename_i hput
      exact absurd h hput

/-- What recovery applies has ordinary times. -/
theorem recovered_ts_lt {files : Files} {snap : Option Snap} {segs : List (Uuid × List Record)}
    (hsnap : NewestSnap files snap) (hts : ∀ r ∈ segs.flatMap Prod.snd, r.ts < tsMax) :
    ∀ r ∈ recovered snap segs, r.ts < tsMax := by
  intro r hr
  rcases List.mem_append.mp hr with hr | hr
  · cases snap with
    | none => cases hr
    | some snap =>
      obtain ⟨e, -, rfl⟩ := List.mem_map.mp hr
      exact hsnap.ts_lt
  · exact hts r (List.mem_of_mem_filter hr)

/-- Records whose last one on the key is a put. -/
theorem LastOn.carry {opts : Opts} {rs : List Record} (h : LastOn key value rs)
    (hts : ∀ r ∈ rs, r.ts < tsMax) :
    (rs.foldl (fun s r => replayRecord r s) opts.stores).Carry key value := by
  obtain ⟨before, r, after, rfl, htype, hkey, hvalue, hafter⟩ := h
  have hbefore : opts.stores.Runs (fun r => r.ts < tsMax)
      (before.foldl (fun s r => replayRecord r s) opts.stores) :=
    .records _ fun r hr => hts r (by simp [hr])
  obtain ⟨hwf, -, ho⟩ := Opts.runs_inOrder hbefore
  rw [List.foldl_append, List.foldl_cons]
  refine (Stores.Carry.put hwf ho (hts r (by simp)) htype hkey hvalue).runs
    (.records _ fun r' hr' => ?_)
  exact ⟨hts r' (by simp [hr']), hafter r' hr'⟩

/-- The structures of such a database. -/
theorem LastPut.carry (h : LastPut key value w) :
    key.length ≤ maxKeyLen ∧ w.db.stores.Carry key value := by
  induction h with
  | @put w hr hclock hok =>
    obtain ⟨hlen, hstores⟩ := fastkvPut_stores hclock hok
    obtain ⟨hwf, -, ho⟩ := hr.inOrder
    rw [hstores]
    exact ⟨hlen, .put hwf ho (by show w.db.clock + 1 < tsMax; omega) rfl rfl rfl⟩
  | @opened opts _ _ snap segs _ hlen hsnap hlog hts hlast hopen =>
    refine ⟨hlen, ?_⟩
    rw [hlog.stores_open hsnap rfl hopen, loaded_eq_records, ← List.foldl_append]
    exact hlast.carry (recovered_ts_lt hsnap hts)
  | begin _ _ hbegin ih =>
    rw [← txnBegin_stores hbegin] at ih
    exact ih
  | @commit w txn _ hclock hother ih =>
    refine ⟨ih.1, ih.2.runs (txnCommit_runs txn fun happlies e he => ⟨?_, hother happlies e he⟩)⟩
    show w.db.clock < tsMax
    omega
  | abort _ _ ih => exact ih
  | ttl _ _ ih => exact ih
  | indexes _ _ ih => exact ih
  | log _ _ _ ih => exact ih
  | checkpoint snapId segId _ hclock hother ih =>
    refine ⟨ih.1, ih.2.runs (fastkvCheckpoint_runs hclock snapId segId fun ts hts k hk =>
      ⟨hts, ?_⟩)⟩
    rintro rfl
    exact hother hk

end LastPut

/-! ## Reads -/

/-- A key is reported with a value: by `fastkv_get`, by its live versions and, in the same way
as by `fastkv_get`, by every cursor opened now. -/
structure Reported (w : World) (key value : Bytes) : Prop where
  /-- `fastkv_get` returns the value. -/
  get : (fastkvGet w key).1 = .ok value
  /-- The key is not deleted. -/
  present : ∀ v ∈ w.db.ht.versions key, v.endTs = tsMax → v.value ≠ none
  /-- A cursor agrees with `fastkv_get`. -/
  cursor : ∀ dir, ∃ c, cursorOpen w.db dir = .ok c ∧ c.lookup key = (fastkvGet w key).1.toOption

/-- Whenever the last committed write on a key is an accepted put, the key is reported with the
value of the put if and only if the value has at least one byte. -/
theorem lastPut_reported_iff {w : World} {key value : Bytes} (h : LastPut key value w)
    (hclock : w.db.clock < tsMax) : Reported w key value ↔ value ≠ [] := by
  obtain ⟨hlen, hcarry⟩ := h.carry
  obtain ⟨hb, ho⟩ := h.reachable.invariant
  obtain ⟨hwf, hlinked, -⟩ := h.reachable.inOrder
  have hlive : w.db.ht.live key = sliceDup (some value) := hcarry.live
  have hget : (fastkvGet w key).1 = readResult (sliceDup (some value)) := by
    rw [fastkvGet_eq hb hclock, if_neg (by omega), hlive]
  constructor
  · rintro ⟨hok, -, -⟩ rfl
    rw [hget] at hok
    cases hok
  · intro hne
    rw [sliceDup_of_ne hne] at hget hlive
    refine ⟨hget, fun v hv hend => ?_, fun dir => ⟨_, cursorOpen_eq hwf hlinked dir, ?_⟩⟩
    · rw [← ho.live_eq hv hend, hlive]
      exact Option.some_ne_none value
    · rw [Cursor.lookup_eq hwf.sorted, hget]
      exact hcarry.find

/-- The first put in a new database. -/
theorem lastPut_reported_first : Reported (fastkvPut newWorld [1] (some [7])).2 [1] [7] := by
  have hput : LastPut [1] [7] (fastkvPut newWorld [1] (some [7])).2 :=
    .put newWorld_reachable (by decide +kernel) (by decide +kernel)
  exact (lastPut_reported_iff hput (by decide +kernel)).mpr (List.cons_ne_nil 7 [])

/-- An empty value is accepted and then reported as absent by `fastkv_get`, while a cursor shows
the key. -/
theorem empty_put_reads_as_deleted :
    (fastkvPut newWorld [1] (some [])).1 = .ok ∧
      (fastkvGet (fastkvPut newWorld [1] (some [])).2 [1]).1 = .error .notfound ∧
      (((fastkvPut newWorld [1] (some [])).2.db.ht.versions [1]).map Version.value = [none]) ∧
      (cursorOpen (fastkvPut newWorld [1] (some [])).2.db .forward).toOption.map
        (fun c => c.lookup [1]) = some (some []) := by
  decide +kernel

end FastKV
