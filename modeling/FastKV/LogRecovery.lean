import FastKV.Agreement
import FastKV.Durable

/-!
# Recovery from the log alone

A database that has never made a checkpoint has all of its writes in the log. Replaying them
into new structures repeats what the commits did, entry by entry: the B+tree becomes the same
tree, and every key gets the same versions, whatever the size of the new table.
-/

namespace FastKV

/-! ## The same structures in tables of different sizes -/

/-- The same tree, and the same versions of every key. -/
structure Stores.Same (s s' : Stores) : Prop where
  /-- The tree. -/
  btree : s.btree = s'.btree
  /-- The versions. -/
  versions : ∀ key, s.ht.versions key = s'.ht.versions key

/-- The versions of a key determine its versions after an insertion. -/
theorem versions_htInsertVersion (ht : Ht) (commitTs : ℕ) (key key' : Bytes) (value : Slice) :
    (htInsertVersion ht commitTs key value).versions key' =
      if key' = key then newVersion commitTs key value :: sealLive commitTs key (ht.versions key)
      else ht.versions key' := by
  split
  · rename_i hkey
    rw [hkey, versions_htInsertVersion_self]
  · rename_i hkey
    exact versions_htInsertVersion_other hkey ht commitTs value

/-- Records keep structures the same. -/
theorem Stores.Same.replayRecord {s s' : Stores} (h : s.Same s') (r : Record) :
    (replayRecord r s).Same (replayRecord r s') := by
  unfold FastKV.replayRecord
  cases r.type with
  | put =>
    refine ⟨by rw [h.btree], fun key => ?_⟩
    simp only [htPut, versions_htInsertVersion, h.versions]
  | delete =>
    refine ⟨by rw [h.btree], fun key => ?_⟩
    simp only [htDelete, versions_htInsertVersion, h.versions]
  | commit => exact h
  | begin => exact h

/-- Sequences of records keep structures the same. -/
theorem Stores.Same.replayRecords (rs : List Record) : ∀ {s s' : Stores}, s.Same s' →
    (rs.foldl (fun s r => FastKV.replayRecord r s) s).Same
      (rs.foldl (fun s r => FastKV.replayRecord r s) s') := by
  induction rs with
  | nil => exact fun h => h
  | cons r rs ih => exact fun h => ih (h.replayRecord r)

/-- New structures are the same. -/
theorem Opts.stores_same (opts opts' : Opts) : opts.stores.Same opts'.stores :=
  ⟨rfl, fun key => by rw [Opts.stores, Opts.stores, versions_htCreate, versions_htCreate]⟩

/-- The same versions are the same map. -/
theorem Stores.Same.live {s s' : Stores} (h : s.Same s') : s.ht.live = s'.ht.live := by
  funext key
  rw [Ht.live, Ht.live, h.versions]

/-! ## Runs without a checkpoint -/

/-- A database that has never made a checkpoint: its structures are what the logged records
make of new ones. -/
structure Logged (opts : Opts) (s : Sys) : Prop where
  /-- The database is in good order and has no snapshot. -/
  durable : ∃ wal older id cur, Durable s wal none older id cur
  /-- There was no checkpoint. -/
  noCheckpoint : ∀ ts id, .checkpoint ts id ∉ s.history
  /-- The records make the structures. -/
  stores : s.world.db.stores =
    (followed s.history).2.foldl (fun s r => replayRecord r s) opts.stores
  /-- The first timestamp has been given out. -/
  started : 0 < s.clock

/-- A new database. -/
theorem Logged.created {opts : Opts} {fresh : Uuid} {w : World} (hro : opts.readOnly = false)
    (hopen : fastkvOpen opts fresh ⟨∅, [], []⟩ = .ok w) : Logged opts (Sys.start w) := by
  obtain ⟨wal, h⟩ := Durable.created hro hopen
  refine ⟨⟨wal, [], fresh, [], h⟩, fun ts id hmem => (List.not_mem_nil hmem).elim, ?_, ?_⟩
  · exact SegmentLog.empty.stores_open NewestSnap.empty rfl hopen
  · obtain ⟨hlt, -, -⟩ := SegmentLog.empty.clock_open NewestSnap.empty (by decide : 1 ≤ tsMax)
      (by decide) (fun r hr => (List.not_mem_nil hr).elim) hopen
    exact hlt

/-- A call. -/
theorem Logged.step {opts : Opts} {s : Sys} (h : Logged opts s) (hclock : s.clock + 1 < tsMax)
    (c : Call) : Logged opts (step s (.call c)).2 := by
  obtain ⟨wal, older, id, cur, hdurable⟩ := h.durable
  obtain ⟨hsound, hle, hmax⟩ := hdurable.sound.step hclock (.call c)
  have heffect := step_effect (fun i txn hopen => (hdurable.sound.txns i txn hopen).readOnly)
    (.call c)
  generalize FastKV.step s (.call c) = r at heffect hsound hle hmax
  cases heffect with
  | manager mgr hmgr hworld hhistory =>
    have hstores : r.2.world.db.stores = s.world.db.stores := by
      rw [hworld]
      rfl
    refine ⟨⟨wal, older, id, cur, hdurable.unlogged hsound hle (by omega) hhistory ?_ ?_
      ?_⟩, ?_, ?_, h.started.trans_le hle⟩
    · rw [hworld]
      rfl
    · rw [hworld]
      rfl
    · exact congrArg (fun s => s.ht.live) hstores
    · rw [hhistory]
      exact h.noCheckpoint
    · rw [hhistory, hstores]
      exact h.stores
  | @applied i txn _ mgr hopen happlies hrc hmgr hworld hhistory =>
    have hnone : ∀ ts id, .checkpoint ts id ∈ s.history → ts < s.clock := fun ts id hmem =>
      absurd hmem (h.noCheckpoint ts id)
    obtain ⟨wal', h'⟩ := hdurable.applied hclock (hdurable.sound.txns i txn hopen) happlies.writes
      hnone hsound hmgr hworld hhistory
    obtain ⟨hok, -⟩ := dbApplyWriteSet_working s.clock txn.writes s.world.drawn hdurable.working
    rw [if_pos hok] at hhistory
    have hstores : r.2.world.db.stores = (txn.writes.map fun e => e.record s.clock).foldl
        (fun s r => replayRecord r s) s.world.db.stores := by
      rw [hworld]
      exact dbApplyWriteSet_stores hok
    refine ⟨⟨wal', older, id, _, h'⟩, fun ts id hmem => ?_, ?_, h.started.trans_le hle⟩
    · rw [hhistory] at hmem
      rcases List.mem_append.mp hmem with hmem | hmem
      · exact h.noCheckpoint ts id hmem
      · cases List.mem_singleton.mp hmem
    · rw [hstores, hhistory, followed_append, h.stores, ← List.foldl_append]
      rfl

/-- Any calls. -/
theorem Logged.run {opts : Opts} (calls : List Call) {s : Sys} (h : Logged opts s)
    (hclock : s.clock + calls.length < tsMax) :
    Logged opts (run s (calls.map .call)) ∧ (FastKV.run s (calls.map .call)).clock < tsMax := by
  have hsound : ∀ s, Logged opts s → s.Sound := fun s h => by
    obtain ⟨_, _, _, _, hdurable⟩ := h.durable
    exact hdurable.sound
  have hlen : (calls.map Action.call).length = calls.length := List.length_map _
  have hcalls : ∀ (calls : List Call) (s : Sys),
      Always (fun _ a => ∃ c, a = .call c) s (calls.map .call) := by
    intro calls
    induction calls with
    | nil => exact fun s => trivial
    | cons c calls ih => exact fun s => ⟨⟨c, rfl⟩, ih _⟩
  obtain ⟨hlogged, hle⟩ := run_induction_of_clock (P := fun _ a => ∃ c, a = .call c) hsound
    (fun s a h hclock ha => by
      obtain ⟨c, rfl⟩ := ha
      exact h.step hclock c) (calls.map .call) s h (by omega) (hcalls calls s)
  exact ⟨hlogged, by omega⟩

/-! ## Recovery -/

/-- Transactions are committed to a new database, in any number and with any writes, without a
checkpoint. Once the log has reached the disk, replaying it into new structures gives the same
tree and the same versions, and opening the directory puts the clock behind all of them, so
that a new transaction reads what a new transaction read before. -/
theorem log_recovery_reproduces {opts : Opts} {fresh : Uuid} {w : World}
    (hro : opts.readOnly = false) (hopen : fastkvOpen opts fresh ⟨∅, [], []⟩ = .ok w)
    (calls : List Call) (hclock : w.db.clock + calls.length < tsMax) (opts' : Opts)
    (fresh' : Uuid) :
    ∃ s, s = run (Sys.start w) (calls.map .call) ∧ ∃ recovered maxTs w',
      walReplay 0 walReplayCb s.syncedFiles opts'.stores 0 = (.ok, recovered, maxTs) ∧
      recovered.btree = s.world.db.btree ∧
      (∀ key, recovered.ht.versions key = s.world.db.ht.versions key) ∧
      fastkvOpen opts' fresh' ⟨s.syncedFiles, [], []⟩ = .ok w' ∧ w'.db.stores = recovered ∧
      (∀ key, ∀ v ∈ w'.db.ht.versions key, v.beginTs < w'.db.clock) ∧
      ∀ readOnly txn db txn' db', txnBegin s.world.db readOnly = .ok (txn, db) →
        txnBegin w'.db readOnly = .ok (txn', db') → ∀ key, txnGet db' txn' key =
          txnGet db txn key := by
  obtain ⟨hlogged, hlt⟩ := (Logged.created hro hopen).run calls hclock
  refine ⟨_, rfl, ?_⟩
  generalize run (Sys.start w) (calls.map .call) = s at hlogged hlt
  obtain ⟨wal, older, id, cur, hdurable⟩ := hlogged.durable
  obtain ⟨log, -, hfiles, hholds, hbuf, -, hsnap, -⟩ := hdurable.synced
  have hlog := hholds.segmentLog hbuf
  have hts : ∀ r ∈ (older ++ [(id, cur)]).flatMap Prod.snd, r.ts < s.clock := fun r hr =>
    (hdurable.stamps r (by simpa using hr)).1
  have hall : ((older ++ [(id, cur)]).flatMap Prod.snd).filter (Record.wanted 0) =
      (followed s.history).2 := by
    rw [hdurable.followed_eq]
    simp [snapTs]
  rw [hfiles]
  -- the recovered structures
  obtain ⟨w', hopen'⟩ := hsnap.open_ok opts' fresh'
  have hstores := hlog.stores_open hsnap
    (show (⟨log.disk.files, [], []⟩ : Disk).files = log.disk.files from rfl) hopen'
  simp only [snapTs, loaded, hall] at hstores
  have hsame : w'.db.stores.Same s.world.db.stores := by
    rw [hstores, hlogged.stores]
    exact (opts'.stores_same opts).replayRecords _
  have hcontent := hlog.delivered_content 0
  rw [hall] at hcontent
  have hreplay := walReplay_of_content hcontent opts'.stores
  rw [← hstores] at hreplay
  obtain ⟨maxTs, hok, -⟩ := walReplay_eq 0 replayRecord log.disk.files opts'.stores 0
  have hcb : walReplay 0 walReplayCb log.disk.files opts'.stores 0 = _ := hok
  rw [hcb] at hreplay
  -- the clock
  obtain ⟨-, hle, -⟩ := hlog.clock_open hsnap hlt.le hlogged.started hts hopen'
  have hintact : Intact opts' (⟨log.disk.files, [], []⟩ : Disk).files :=
    hlog.intact hsnap (fun r hr => (hts r hr).trans hlt) opts'
  obtain ⟨hb, -, -⟩ := fastkvOpen_invariant hintact hopen'
  refine ⟨w'.db.stores, maxTs, w', ?_, hsame.btree, hsame.versions, hopen', rfl,
    fun key v hv => (hb key v hv).1, fun readOnly txn db txn' db' hbegin hbegin' key => ?_⟩
  · rw [hcb, ← hreplay]
  · rw [txnGet_begun hbegin hdurable.sound.bounded hlt, txnGet_begun hbegin' hb (by omega),
      show w'.db.ht.live = s.world.db.ht.live from hsame.live]

/-- A commit that writes one key twice and a second key without a byte. -/
def emptyWrites : List Call :=
  [.begin false, .put 0 [1] (some [10]), .delete 0 [1], .put 0 [2] (some []), .commit 0]

/-- Its log makes the same structures again. -/
theorem log_recovery_reproduces_empty :
    (run (Sys.start newWorld) (emptyWrites.map .call)).history ≠ [] ∧
      ∃ recovered maxTs, walReplay 0 walReplayCb
          (run (Sys.start newWorld) (emptyWrites.map .call)).syncedFiles oneBucket.stores 0 =
          (.ok, recovered, maxTs) ∧
        recovered.btree = (run (Sys.start newWorld) (emptyWrites.map .call)).world.db.btree ∧
        ∀ key, recovered.ht.versions key =
          (run (Sys.start newWorld) (emptyWrites.map .call)).world.db.ht.versions key := by
  refine ⟨by decide +kernel, ?_⟩
  obtain ⟨s, rfl, recovered, maxTs, w', hreplay, hbtree, hversions, -⟩ :=
    log_recovery_reproduces rfl newWorld_opened emptyWrites (by decide +kernel) oneBucket firstId
  exact ⟨recovered, maxTs, hreplay, hbtree, hversions⟩

end FastKV
