import FastKV.ExpiryPass
import FastKV.Lib.SnapshotStore
import FastKV.OpenSlots
import FastKV.VersionMap
import FastKV.WriteSet

/-!
# The engine as a store with snapshots

What the engine is for can be said without versions, timestamps, slots, buckets and collections:
it is a store that gives every transaction a snapshot. Here every run of atomic calls, garbage
collections and checkpoints is matched by a run of such a store, with the same answer to every
call. The places where the engine does something else are left out of the runs: values of length
zero, keys that a transaction writes twice, reads of a key that the transaction itself has deleted
and that has a committed value, a transaction that begins when all slots are taken, and
collections in which versions of a key from different times survive.
-/

namespace FastKV

open Lib

/-! ## Versions that a transaction can read -/

/-- From some time on, a reader finds at most one version of each key. -/
def Ht.SingleFrom (ht : Ht) (start : ℕ) : Prop :=
  ∀ key t, start ≤ t → t < tsMax → ((ht.versions key).filter (Version.contains t)).length ≤ 1

/-- Readers from before a write find as many versions as without it. -/
theorem length_filter_sealLive {t commitTs : ℕ} (hlt : t < commitTs) (hts : t < tsMax) (key : Bytes)
    (vs : List Version) : ((sealLive commitTs key vs).filter (Version.contains t)).length =
      (vs.filter (Version.contains t)).length := by
  induction vs with
  | nil => rfl
  | cons v vs ih =>
    rw [sealLive]
    split
    · rename_i hlive
      have hsame : Version.contains t { v with endTs := commitTs } = v.contains t := by
        simp [Version.contains, hlive.2, hlt, hts]
      rw [List.filter_cons, List.filter_cons, hsame]
      split <;> rfl
    · rw [List.filter_cons, List.filter_cons]
      split
      · rw [List.length_cons, List.length_cons, ih]
      · exact ih

/-- A write that is not older than anything in the table. -/
theorem Ht.SingleFrom.insert {ht : Ht} {start commitTs : ℕ} (h : ht.SingleFrom start)
    (hone : ht.OneLive) (hupTo : ht.UpTo commitTs) (hts : commitTs < tsMax) (key : Bytes)
    (value : Slice) : (htInsertVersion ht commitTs key value).SingleFrom start := by
  intro key' t hstart ht'
  by_cases hkey : key' = key
  · subst hkey
    rw [versions_htInsertVersion_self, List.filter_cons]
    by_cases hlt : t < commitTs
    · have hnew : ¬ (newVersion commitTs key' value).contains t = true := by
        simp [Version.contains, newVersion, Nat.not_le.mpr hlt]
      rw [if_neg hnew, length_filter_sealLive hlt ht']
      exact h key' t hstart ht'
    · have hnone :
          (sealLive commitTs key' (ht.versions key')).filter (Version.contains t) = [] := by
        refine List.filter_eq_nil_iff.mpr fun v hv hc => ?_
        have hnil := filter_sealLive hts.ne (fun v hv => Ht.key_of_mem_versions hv) (hone key')
        have hdead : ¬ v.isLive = true := List.filter_eq_nil_iff.mp hnil v hv
        have hend : v.endTs ≤ commitTs := by
          rcases mem_sealLive hv with hold | ⟨w, _, _, rfl⟩
          · rcases (hupTo key' v hold).2 with hend | hend
            · exact absurd (by simpa [Version.isLive] using hend) hdead
            · exact hend
          · exact Nat.le_refl _
        simp only [Version.contains, Bool.and_eq_true, decide_eq_true_eq] at hc
        omega
      rw [hnone]
      split <;> simp
  · rw [versions_htInsertVersion_other hkey]
    exact h key' t hstart ht'

/-- A collection. -/
theorem Ht.SingleFrom.gc {ht : Ht} {start : ℕ} (h : ht.SingleFrom start) (minActiveTs : ℕ) :
    (htGc ht minActiveTs).2.SingleFrom start := by
  intro key t hstart hts
  rw [versions_htGc, List.filter_reverse, List.length_reverse, List.filter_filter]
  refine Nat.le_trans ?_ (h key t hstart hts)
  refine List.Sublist.length_le ?_
  refine List.monotone_filter_right _ fun v hv => ?_
  exact (Bool.and_eq_true _ _ ▸ hv).1

/-- What a collection up to a time that is not after the reader leaves it. -/
theorem Ht.SingleFrom.visible_gc {ht : Ht} {start t minActiveTs : ℕ} (h : ht.SingleFrom start)
    (hstart : start ≤ t) (hts : t < tsMax) (hle : minActiveTs ≤ t) (key : Bytes) :
    (htGc ht minActiveTs).2.visible t key = ht.visible t key := by
  unfold Ht.visible
  rw [find?_htGc (h key t hstart hts)]
  intro v _ hv
  simp only [Version.contains, Bool.and_eq_true, decide_eq_true_eq] at hv
  simp only [Version.survives, decide_eq_true_eq]
  omega

/-- In a table that is older than the clock a reader of now finds live versions only. -/
theorem Ht.Bounded.singleFrom {ht : Ht} {clock : ℕ} (h : ht.Bounded clock) (hone : ht.OneLive) :
    ht.SingleFrom clock := by
  intro key t hle hts
  have hsame : (ht.versions key).filter (Version.contains t) =
      (ht.versions key).filter Version.isLive := by
    refine List.filter_congr fun v hv => ?_
    obtain ⟨hbegin, hend⟩ := h key v hv
    unfold Version.contains Version.isLive
    rcases hend with hend | hend
    · simp [hend, hts]
      omega
    · have hlive : v.endTs ≠ tsMax := by omega
      simp [hlive]
      omega
  rw [hsame]
  exact hone key

/-- A reader of now finds the live version. -/
theorem Ht.Bounded.visible_eq {ht : Ht} {clock : ℕ} (h : ht.Bounded clock) (hts : clock < tsMax)
    (key : Bytes) : ht.visible clock key = ht.live key := by
  have hread := h.htGet_eq (Nat.le_refl _) hts key
  rw [htGet_eq_visible] at hread
  exact readResult_inj hread

/-- The versions that the writes of a commit insert. -/
theorem Ht.SingleFrom.insertEntries {start commitTs : ℕ} (hts : commitTs < tsMax)
    (es : List WriteEntry) : ∀ {ht : Ht}, ht.SingleFrom start → ht.OneLive → ht.UpTo commitTs →
      (insertEntries commitTs es ht).SingleFrom start := by
  induction es with
  | nil => exact fun h _ _ => h
  | cons e es ih =>
    exact fun h hone hupTo => ih (h.insert hone hupTo hts e.key e.value)
      (hone.insert hts.ne e.key e.value) (hupTo.insert e.key e.value)

/-- A reader from before the commit. -/
theorem visible_insertEntries {t commitTs : ℕ} (hlt : t < commitTs) (hts : t < tsMax)
    (es : List WriteEntry) (key : Bytes) : ∀ ht : Ht,
      (insertEntries commitTs es ht).visible t key = ht.visible t key := by
  induction es with
  | nil => exact fun ht => rfl
  | cons e es ih =>
    intro ht
    exact (ih _).trans (visible_insert_later ht hlt hts e.key key e.value)

/-! ## Answers -/

/-- What a caller is told. -/
inductive Answer
  /-- The code of an operation. -/
  | code (rc : Err)
  /-- What a read finds. -/
  | read (r : Except Err Bytes)

/-- What the engine answers. -/
def answer (s : Sys) : Action → Answer
  | .call (.get i key) =>
    match s.txn i with
    | none => .read (.error .inval)
    | some txn => .read (txnGet s.world.db txn key)
  | a => .code (step s a).1

/-- What it answers in a run. -/
def answers : Sys → List Action → List Answer
  | _, [] => []
  | s, a :: as => answer s a :: answers (step s a).2 as

/-- What a store with snapshots does and answers, under the limits of the interface; `readOnly`
tells whether it was opened for reading only. -/
def storeStep (readOnly : Bool) (s : SnapshotStore Bytes Bytes) :
    Action → Answer × SnapshotStore Bytes Bytes
  | .call (.begin ro) => if !ro && readOnly then (.code .txnRo, s) else (.code .ok, s.start ro)
  | .call (.get i key) =>
    match s.client i with
    | none => (.read (.error .inval), s)
    | some c =>
      (.read (if maxKeyLen < key.length then .error .keysize else readResult (c.read key)), s)
  | .call (.put i key value) =>
    match s.client i with
    | none => (.code .inval, s)
    | some c =>
      if maxKeyLen < key.length then (.code .keysize, s)
      else if maxValLen < (value.getD []).length then (.code .valsize, s)
      else if c.readOnly then (.code .txnRo, s)
      else (.code .ok, s.write i c key value)
  | .call (.delete i key) =>
    match s.client i with
    | none => (.code .inval, s)
    | some c =>
      if maxKeyLen < key.length then (.code .keysize, s)
      else if c.readOnly then (.code .txnRo, s)
      else (.code .ok, s.write i c key none)
  | .call (.commit i) =>
    match s.client i with
    | none => (.code .inval, s)
    | some c => (.code (if (s.commit i c).1 then .ok else .txnConflict), (s.commit i c).2)
  | .call (.abort i) =>
    match s.client i with
    | none => (.code .inval, s)
    | some _ => (.code .ok, s.close i)
  | .gc => (.code .ok, s)
  | .checkpoint .. => (.code .ok, s)

/-- What it answers in a run. -/
def storeAnswers (readOnly : Bool) : SnapshotStore Bytes Bytes → List Action → List Answer
  | _, [] => []
  | s, a :: as => (storeStep readOnly s a).1 :: storeAnswers readOnly (storeStep readOnly s a).2 as

/-- The store after a run. -/
def storeRun (readOnly : Bool) (s : SnapshotStore Bytes Bytes) (actions : List Action) :
    SnapshotStore Bytes Bytes := actions.foldl (fun s a => (storeStep readOnly s a).2) s

/-- The use of the engine in which it is such a store. -/
def FairUse (s : Sys) : Action → Prop
  | .call (.begin _) => s.numOpen < maxConcurrentTxn
  | .call (.get i key) => ∀ txn, s.txn i = some txn →
    (⟨key, none⟩ : WriteEntry) ∈ txn.writes → s.world.db.ht.visible txn.beginTs key = none
  | .call (.put i key value) => value ≠ some [] ∧
    ∀ txn, s.txn i = some txn → ∀ e ∈ txn.writes, e.key ≠ key
  | .call (.delete i key) => ∀ txn, s.txn i = some txn → ∀ e ∈ txn.writes, e.key ≠ key
  | .call _ => True
  | a => CollectsSafely s a

/-! ## Both side by side -/

/-- A write of a client. -/
def WriteEntry.pair (e : WriteEntry) : Bytes × Option Bytes := (e.key, e.value)

/-- A transaction and a client of the store. -/
structure Txn.Tracks (ht : Ht) (txn : Txn) (c : Client Bytes Bytes) : Prop where
  /-- Whether it may write. -/
  readOnly : c.readOnly = txn.readOnly
  /-- What it has written. -/
  writes : c.writes = txn.writes.map WriteEntry.pair
  /-- What was committed when it began. -/
  view : ∀ key, ht.visible txn.beginTs key = c.view key
  /-- What has been committed since. -/
  stale : ∀ key, c.stale key = true ↔ ∃ ts ∈ ht.stamp key, txn.beginTs < ts
  /-- It has written no key twice. -/
  nodup : (txn.writes.map WriteEntry.key).Nodup
  /-- It has written no value of length zero. -/
  values : ∀ e ∈ txn.writes, e.value ≠ some []

/-- The engine and the store are in corresponding states. -/
structure Sys.Refines (start : ℕ) (readOnly : Bool) (s : Sys) (t : SnapshotStore Bytes Bytes) :
    Prop where
  /-- Chains are in order. -/
  inOrder : s.InOrder start
  /-- The table of slots is exact. -/
  registered : s.Registered
  /-- Readers find one version. -/
  single : s.world.db.ht.SingleFrom start
  /-- How the database was opened. -/
  opts : s.world.db.opts.readOnly = readOnly
  /-- The live versions are the map. -/
  map : ∀ key, s.world.db.ht.live key = t.map key
  /-- As many transactions have begun. -/
  length : t.clients.length = s.txns.length
  /-- The same have ended. -/
  closed : ∀ i, s.txn i = none → t.client i = none
  /-- Those that are open see and have written the same. -/
  opened : ∀ i txn, s.txn i = some txn → ∃ c, t.client i = some c ∧ txn.Tracks s.world.db.ht c

/-- A transaction in a table in which it sees the same, and in which the same keys are new. -/
theorem Txn.Tracks.of_ht {ht ht' : Ht} {txn : Txn} {c : Client Bytes Bytes} (h : txn.Tracks ht c)
    (hvisible : ∀ key, ht'.visible txn.beginTs key = ht.visible txn.beginTs key)
    (hstamp : ∀ key, ht'.stamp key = ht.stamp key) : txn.Tracks ht' c :=
  ⟨h.readOnly, h.writes, fun key => (hvisible key).trans (h.view key),
    fun key => by rw [hstamp]; exact h.stale key, h.nodup, h.values⟩

/-- A key that is not written is read from the snapshot, and one that is written is read from the
write. -/
theorem overlaid_pairs (writes : List WriteEntry) (m : Bytes → Slice) (key : Bytes) :
    overlaid (writes.map WriteEntry.pair) m key = (firstOn key writes).getD (m key) := by
  unfold overlaid firstOn
  rw [List.find?_map]
  have hsame : (fun e : Bytes × Option Bytes => decide (e.1 = key)) ∘ WriteEntry.pair =
      fun e : WriteEntry => decide (e.key = key) := rfl
  rw [hsame]
  cases writes.find? fun e => decide (e.key = key) <;> rfl

/-- What a transaction reads. -/
theorem Txn.Tracks.get {db : Db} {txn : Txn} {c : Client Bytes Bytes} (h : txn.Tracks db.ht c)
    (hactive : txn.state = .active) {key : Bytes}
    (hdeleted : (⟨key, none⟩ : WriteEntry) ∈ txn.writes → db.ht.visible txn.beginTs key = none) :
    txnGet db txn key =
      if maxKeyLen < key.length then .error .keysize else readResult (c.read key) := by
  split
  · rename_i hlong
    simp only [txnGet, hactive, ne_eq, not_true_eq_false, if_false, hlong, if_true]
  · rename_i hshort
    rw [txnGet_eq db hactive (by omega), Client.read, h.writes, overlaid_pairs, htGet_eq_visible,
      ← h.view]
    cases hfirst : firstOn key txn.writes with
    | none => rfl
    | some value =>
      cases value with
      | some v => rfl
      | none =>
        obtain ⟨e, hfind, hvalue⟩ := Option.map_eq_some_iff.mp hfirst
        have hkey : e.key = key := by simpa using List.find?_some hfind
        have hmem : (⟨key, none⟩ : WriteEntry) ∈ txn.writes := by
          rw [← hkey, ← hvalue]
          exact List.mem_of_find?_eq_some hfind
        rw [hdeleted hmem]
        rfl

/-- Whether a transaction has to give up. -/
theorem Txn.Tracks.conflicts {db : Db} {txn : Txn} {c : Client Bytes Bytes}
    (h : txn.Tracks db.ht c) (hordered : db.ht.Ordered) :
    dbCheckConflicts db txn.writes txn.beginTs = if c.conflicts then .txnConflict else .ok := by
  have hany : (txn.writes.any fun e => conflictsAt db.ht txn.beginTs e.key) = c.conflicts := by
    unfold Client.conflicts
    rw [h.writes, List.any_map]
    refine List.any_congr rfl fun e => ?_
    rw [Bool.eq_iff_iff, hordered.conflictsAt_iff]
    exact (h.stale e.key).symm
  unfold dbCheckConflicts
  rw [hany]

/-! ## One step -/

/-- Nothing changes the options. -/
theorem Sys.Sound.step_opts {s : Sys} (h : s.Sound) (a : Action) :
    (FastKV.step s a).2.world.db.opts = s.world.db.opts := by
  have heffect := step_effect (fun i txn hopen => (h.txns i txn hopen).readOnly) a
  generalize FastKV.step s a = r at heffect
  cases heffect with
  | manager mgr hmgr hworld hhistory =>
    rw [hworld]
    rfl
  | @applied i txn _ mgr hopen happlies hrc hmgr hworld hhistory =>
    rw [hworld]
    obtain ⟨k, wal, heq, -⟩ := dbApplyWriteSet_cases s.clock txn.writes s.world.drawn
    show (dbApplyWriteSet s.clock txn.writes s.world.drawn).2.db.opts = _
    rw [heq]
    exact applyEntries_opts _ _ _
  | collected hworld hhistory =>
    rw [hworld]
    rfl
  | @checkpointed snapId segId now _ hrc hworld hhistory =>
    rw [hworld]
    obtain ⟨wal, n, heq⟩ := fastkvCheckpoint_db h.ttl snapId segId now
    rcases heq with heq | heq
    · rw [heq]
    · rw [heq]
      rfl

section Step

variable {start : ℕ} {readOnly : Bool} {s s' : Sys} {t t' : SnapshotStore Bytes Bytes}

/-- What holds of the engine alone after a step. -/
theorem Sys.Refines.engine (h : s.Refines start readOnly t) (hclock : s.clock + 1 < tsMax)
    {a : Action} (hfair : FairUse s a) : (FastKV.step s a).2.InOrder start ∧
      (FastKV.step s a).2.Registered ∧ (FastKV.step s a).2.world.db.opts.readOnly = readOnly := by
  have hsafe : CollectsSafely s a := by
    cases a with
    | call c => trivial
    | gc | checkpoint => exact hfair
  refine ⟨h.inOrder.step hclock hsafe, h.registered.step h.inOrder.sound hclock fun ro ha => ?_, ?_⟩
  · rw [ha] at hfair
    exact hfair
  · rw [h.inOrder.sound.step_opts a]
    exact h.opts

/-- The engine only collects, and all that is open stays as it is. -/
theorem Sys.Refines.collected (h : s.Refines start readOnly t) (hinOrder : s'.InOrder start)
    (hregistered : s'.Registered) (hopts : s'.world.db.opts.readOnly = readOnly)
    (htxns : s'.txns = s.txns) (hclock : s.clock < tsMax)
    (hht : s'.world.db.ht = s.world.db.ht ∨ s'.world.db.ht = s.world.gc.db.ht) :
    s'.Refines start readOnly t := by
  have htxn : ∀ i, s'.txn i = s.txn i := fun i => by unfold Sys.txn; rw [htxns]
  have hmin : oracleMinActive s.world.db.txnMgr.oracle ≤ tsMax :=
    (oracleMinActive_le _).trans hclock.le
  rcases hht with hht | hht
  · refine ⟨hinOrder, hregistered, ?_, hopts, fun key => ?_, ?_, fun i hi => ?_, fun i txn hi => ?_⟩
    · rw [hht]
      exact h.single
    · rw [hht]
      exact h.map key
    · rw [htxns]
      exact h.length
    · exact h.closed i ((htxn i).symm.trans hi)
    · rw [hht]
      exact h.opened i txn ((htxn i).symm.trans hi)
  · refine ⟨hinOrder, hregistered, ?_, hopts, fun key => ?_, ?_, fun i hi => ?_, fun i txn hi => ?_⟩
    · rw [hht]
      exact h.single.gc _
    · rw [hht]
      exact (live_htGc h.inOrder.sound.oneLive hmin key).trans (h.map key)
    · rw [htxns]
      exact h.length
    · exact h.closed i ((htxn i).symm.trans hi)
    · rw [htxn] at hi
      obtain ⟨c, hc, htracks⟩ := h.opened i txn hi
      have hbegun := (h.inOrder.sound.txns i txn hi).begun
      refine ⟨c, hc, ?_⟩
      rw [hht]
      exact htracks.of_ht (fun key => h.single.visible_gc (h.inOrder.begun i txn hi)
        (hbegun.trans hclock) (h.registered.minActive_le hi) key)
        fun key => stamp_htGc h.inOrder.sound.oneLive hmin key

/-- A transaction begins. -/
theorem Sys.Refines.begin (h : s.Refines start readOnly t) (hinOrder : s'.InOrder start)
    (hregistered : s'.Registered) (hopts : s'.world.db.opts.readOnly = readOnly)
    (hclock : s.clock < tsMax) {txn : Txn} {ro : Bool} (hht : s'.world.db.ht = s.world.db.ht)
    (htxns : s'.txns = s.txns ++ [some txn]) (hbegin : txn.beginTs = s.clock)
    (hwrites : txn.writes = []) (hro : txn.readOnly = ro) :
    s'.Refines start readOnly (t.start ro) := by
  have htxn := Sys.txn_of_append htxns
  have hclient : ∀ i, (t.start ro).client i = if i = s.txns.length then
      some ⟨t.map, fun _ => false, ro, []⟩ else t.client i := by
    intro i
    rw [SnapshotStore.client_start, h.length]
  refine ⟨hinOrder, hregistered, ?_, hopts, fun key => ?_, ?_, fun i hi => ?_, fun i txn' hi => ?_⟩
  · rw [hht]
    exact h.single
  · rw [hht]
    exact h.map key
  · rw [htxns, List.length_append]
    show (t.clients ++ _).length = _
    rw [List.length_append, h.length]
    rfl
  · rw [htxn] at hi
    rw [hclient]
    split at hi
    · cases hi
    · rename_i hne
      rw [if_neg hne]
      exact h.closed i hi
  · rw [htxn] at hi
    rw [hclient, hht]
    split at hi
    · rename_i heq
      cases hi
      rw [if_pos heq]
      refine ⟨_, rfl, hro.symm, by rw [hwrites]; rfl, fun key => ?_, fun key => ?_,
        by rw [hwrites]; exact List.nodup_nil, by rw [hwrites]; exact fun e he => by cases he⟩
      · rw [hbegin]
        exact (h.inOrder.sound.bounded.visible_eq hclock key).trans (h.map key)
      · refine iff_of_false (fun hc => by cases hc) fun hnew => ?_
        have hlt := h.inOrder.lt_clock hnew
        rw [hbegin] at hlt
        exact Nat.lt_irrefl _ hlt
    · rename_i hne
      rw [if_neg hne]
      exact h.opened i txn' hi

/-- A transaction writes, or tries to. -/
theorem Sys.Refines.wrote (h : s.Refines start readOnly t) (hinOrder : s'.InOrder start)
    (hregistered : s'.Registered) (hopts : s'.world.db.opts.readOnly = readOnly) {i : ℕ}
    {txn txn' : Txn} {c' : Client Bytes Bytes} (hopen : s.txn i = some txn)
    (hht : s'.world.db.ht = s.world.db.ht) (htxns : s'.txns = s.txns.set i (some txn'))
    (hmap : t'.map = t.map) (hlength : t'.clients.length = t.clients.length)
    (hclient : ∀ j, t'.client j = if j = i then some c' else t.client j)
    (htracks : txn'.Tracks s.world.db.ht c') : s'.Refines start readOnly t' := by
  have htxn := Sys.txn_of_set hopen htxns
  refine ⟨hinOrder, hregistered, ?_, hopts, fun key => ?_, ?_, fun j hj => ?_, fun j txn₁ hj => ?_⟩
  · rw [hht]
    exact h.single
  · rw [hht, hmap]
    exact h.map key
  · rw [hlength, htxns, List.length_set]
    exact h.length
  · rw [htxn] at hj
    rw [hclient]
    split at hj
    · cases hj
    · rename_i hne
      rw [if_neg hne]
      exact h.closed j hj
  · rw [htxn] at hj
    rw [hclient, hht]
    split at hj
    · rename_i heq
      cases hj
      rw [if_pos heq]
      exact ⟨c', rfl, htracks⟩
    · rename_i hne
      rw [if_neg hne]
      exact h.opened j txn₁ hj

/-- A transaction ends without having written anything. -/
theorem Sys.Refines.ended (h : s.Refines start readOnly t) (hinOrder : s'.InOrder start)
    (hregistered : s'.Registered) (hopts : s'.world.db.opts.readOnly = readOnly) {i : ℕ}
    {txn : Txn} (hopen : s.txn i = some txn) (hht : s'.world.db.ht = s.world.db.ht)
    (htxns : s'.txns = s.txns.set i none) (hmap : t'.map = t.map)
    (hlength : t'.clients.length = t.clients.length)
    (hclient : ∀ j, t'.client j = if j = i then none else t.client j) :
    s'.Refines start readOnly t' := by
  have htxn := Sys.txn_of_set hopen htxns
  refine ⟨hinOrder, hregistered, ?_, hopts, fun key => ?_, ?_, fun j hj => ?_, fun j txn₁ hj => ?_⟩
  · rw [hht]
    exact h.single
  · rw [hht, hmap]
    exact h.map key
  · rw [hlength, htxns, List.length_set]
    exact h.length
  · rw [htxn] at hj
    rw [hclient]
    split at hj
    · rename_i heq
      rw [if_pos heq]
    · rename_i hne
      rw [if_neg hne]
      exact h.closed j hj
  · rw [htxn] at hj
    rw [hclient, hht]
    split at hj
    · cases hj
    · rename_i hne
      rw [if_neg hne]
      exact h.opened j txn₁ hj

/-- The map after a commit. -/
theorem Txn.Tracks.map_commit {ht : Ht} {txn : Txn} {c : Client Bytes Bytes} (h : txn.Tracks ht c)
    (commitTs : ℕ) {m : Bytes → Slice} (hmap : ∀ key, ht.live key = m key) (key : Bytes) :
    (insertEntries commitTs txn.writes ht).live key = overlaid c.writes m key := by
  have hnodup : ((txn.writes.map WriteEntry.pair).map Prod.fst).Nodup := by
    rw [List.map_map]
    exact h.nodup
  rw [h.writes, ← overlaid_reverse hnodup, ← List.map_reverse, overlaid_pairs, live_insertEntries,
    ← hmap]
  cases hfirst : firstOn key txn.writes.reverse with
  | none => rfl
  | some value =>
    obtain ⟨e, hfind, rfl⟩ := Option.map_eq_some_iff.mp hfirst
    have hmem : e ∈ txn.writes := List.mem_reverse.mp (List.mem_of_find?_eq_some hfind)
    show sliceDup e.value = e.value
    have hne := h.values e hmem
    cases hvalue : e.value with
    | none => rfl
    | some v =>
      rw [hvalue] at hne
      exact sliceDup_of_ne fun hnil => hne (by rw [hnil])

/-- Another transaction after a commit. -/
theorem Txn.Tracks.after {ht : Ht} {txn txn₁ : Txn} {c c₁ : Client Bytes Bytes}
    (h : txn.Tracks ht c) (h₁ : txn₁.Tracks ht c₁) {commitTs : ℕ} (hlt : txn₁.beginTs < commitTs)
    (hts : commitTs < tsMax) :
    txn₁.Tracks (insertEntries commitTs txn.writes ht) (c₁.after c.writes) := by
  refine ⟨h₁.readOnly, h₁.writes, fun key => ?_, fun key => ?_, h₁.nodup, h₁.values⟩
  · rw [visible_insertEntries hlt (hlt.trans hts)]
    exact h₁.view key
  · have hany : (c.writes.any fun e => decide (e.1 = key)) = true ↔
        ∃ e ∈ txn.writes, e.key = key := by
      rw [h.writes, List.any_map, List.any_eq_true]
      exact exists_congr fun e => and_congr_right fun _ => decide_eq_true_iff
    show (c₁.stale key || c.writes.any fun e => decide (e.1 = key)) = true ↔ _
    rw [Bool.or_eq_true, hany, h₁.stale key, stamp_insertEntries]
    by_cases hkey : ∃ e ∈ txn.writes, e.key = key
    · rw [if_pos hkey]
      exact iff_of_true (Or.inr hkey) ⟨commitTs, rfl, hlt⟩
    · rw [if_neg hkey]
      exact or_iff_left hkey

/-- A commit that is applied. -/
theorem Sys.Refines.applied (h : s.Refines start readOnly t) (hinOrder : s'.InOrder start)
    (hregistered : s'.Registered) (hopts : s'.world.db.opts.readOnly = readOnly)
    (hclock : s.clock < tsMax) {i : ℕ} {txn : Txn} {c : Client Bytes Bytes}
    (hopen : s.txn i = some txn) (hc : t.client i = some c) (htracks : txn.Tracks s.world.db.ht c)
    (hnone : c.conflicts = false)
    (hht : s'.world.db.ht = insertEntries s.clock txn.writes s.world.db.ht)
    (htxns : s'.txns = s.txns.set i none) : s'.Refines start readOnly (t.commit i c).2 := by
  have htxn := Sys.txn_of_set hopen htxns
  have hbounded := h.inOrder.sound.bounded
  have hupTo : s.world.db.ht.UpTo s.clock := fun key v hv =>
    ⟨(hbounded key v hv).1.le, (hbounded key v hv).2.imp_right Nat.le_of_lt⟩
  have hcommit : (t.commit i c).2 = ⟨overlaid c.writes t.map,
      (t.clients.set i none).map (Option.map (Client.after c.writes))⟩ := by
    unfold SnapshotStore.commit
    rw [hnone]
    rfl
  have hclient : ∀ j, (t.commit i c).2.client j =
      if j = i then none else (t.client j).map (Client.after c.writes) := by
    intro j
    rw [hcommit]
    show (((t.clients.set i none).map (Option.map (Client.after c.writes)))[j]?).join = _
    have hset := SnapshotStore.client_set none (SnapshotStore.lt_of_client hc) rfl j
    rw [List.getElem?_map]
    by_cases hji : j = i
    · rw [if_pos hji] at hset ⊢
      cases hget : (t.clients.set i none)[j]? with
      | none => rfl
      | some o =>
        rw [hget] at hset
        have ho : o = none := hset
        rw [ho]
        rfl
    · rw [if_neg hji] at hset ⊢
      rw [← hset]
      cases (t.clients.set i none)[j]? <;> rfl
  refine ⟨hinOrder, hregistered, ?_, hopts, fun key => ?_, ?_, fun j hj => ?_, fun j txn₁ hj => ?_⟩
  · rw [hht]
    exact h.single.insertEntries hclock txn.writes h.inOrder.sound.oneLive hupTo
  · rw [hht, hcommit]
    exact htracks.map_commit s.clock h.map key
  · rw [hcommit, htxns]
    simp only [List.length_map, List.length_set]
    exact h.length
  · rw [htxn] at hj
    rw [hclient]
    split at hj
    · rename_i heq
      rw [if_pos heq]
    · rename_i hne
      rw [if_neg hne, h.closed j hj]
      rfl
  · rw [htxn] at hj
    rw [hclient, hht]
    split at hj
    · cases hj
    · rename_i hne
      obtain ⟨c₁, hc₁, htracks₁⟩ := h.opened j txn₁ hj
      rw [if_neg hne, hc₁]
      exact ⟨_, rfl, htracks.after htracks₁ (h.inOrder.sound.txns j txn₁ hj).begun hclock⟩

/-- A commit in both models. -/
theorem Sys.Refines.commit (h : s.Refines start readOnly t) (hclock : s.clock + 1 < tsMax)
    {i : ℕ} {txn : Txn} {c : Client Bytes Bytes} (hopen : s.txn i = some txn)
    (hc : t.client i = some c) (htracks : txn.Tracks s.world.db.ht c) :
    (FastKV.step s (.call (.commit i))).1 = (if (t.commit i c).1 then .ok else .txnConflict) ∧
      (FastKV.step s (.call (.commit i))).2.Refines start readOnly (t.commit i c).2 := by
  obtain ⟨hinOrder, hregistered, hopts⟩ := h.engine hclock (a := .call (.commit i)) trivial
  have hstep : FastKV.step s (.call (.commit i)) = s.commit i txn := by
    simp only [FastKV.step, callStep, hopen]
  have hcode : (s.commit i txn).1 = (txnCommit s.world txn).1 := rfl
  have hworld : (s.commit i txn).2.world = (txnCommit s.world txn).2.1 := rfl
  have htxns : (s.commit i txn).2.txns = s.txns.set i none := rfl
  rw [hstep] at hinOrder hregistered hopts ⊢
  have hactive := (h.inOrder.sound.txns i txn hopen).active
  have hset := SnapshotStore.client_set none (SnapshotStore.lt_of_client hc) rfl
  have hconflicts := htracks.conflicts h.inOrder.ordered
  rcases txnCommit_cases s.world txn with ⟨hrefusal, mgr, -, heq⟩ | ⟨happlies, hrc, -, mgr, -, heq⟩
  · have hht : (s.commit i txn).2.world.db.ht = s.world.db.ht := by
      rw [hworld, heq]
      rfl
    rw [hcode]
    generalize (txnCommit s.world txn).1 = rc at hrefusal
    cases hrefusal with
    | closed hstate => exact absurd hactive hstate
    | nothing _ hnothing =>
      -- nothing is written, and the map stays as it is
      have hnil : txn.writes = [] := hnothing.elim
        (h.inOrder.sound.txns i txn hopen).readOnly fun hnil => hnil
      have hwrites : c.writes = [] := by
        rw [htracks.writes, hnil]
        rfl
      have hnone : c.conflicts = false := by
        unfold Client.conflicts
        rw [hwrites]
        rfl
      refine ⟨?_, ?_⟩
      · unfold SnapshotStore.commit
        rw [hnone]
        rfl
      · refine h.applied hinOrder hregistered hopts (by omega) hopen hc htracks hnone ?_ htxns
        rw [hht, hnil]
        rfl
    | conflict _ _ hconflict =>
      rw [hconflicts] at hconflict
      have hsome : c.conflicts = true := by
        cases hnone : c.conflicts with
        | true => rfl
        | false =>
          rw [hnone] at hconflict
          exact absurd rfl hconflict
      have hcommit : t.commit i c = (false, t.close i) := by
        unfold SnapshotStore.commit
        rw [hsome]
        rfl
      rw [hcommit]
      exact ⟨rfl, h.ended hinOrder hregistered hopts hopen hht htxns rfl
        (List.length_set ..) hset⟩
  · obtain ⟨hok, -⟩ := dbApplyWriteSet_working s.clock txn.writes s.world.drawn h.inOrder.working
    have hnone : c.conflicts = false := by
      have hcheck := happlies.noConflict
      rw [hconflicts] at hcheck
      cases hsome : c.conflicts with
      | false => rfl
      | true =>
        rw [hsome] at hcheck
        cases hcheck
    refine ⟨?_, ?_⟩
    · rw [hcode, hrc]
      unfold SnapshotStore.commit
      rw [hnone]
      exact hok
    · refine h.applied hinOrder hregistered hopts (by omega) hopen hc htracks hnone ?_ htxns
      rw [hworld, heq]
      exact ht_dbApplyWriteSet h.inOrder.working txn.writes

/-- A write that is refused. -/
theorem Sys.Refines.refused (h : s.Refines start readOnly t) {i : ℕ} {txn : Txn}
    (hinOrder : (s.setTxn i (some txn)).InOrder start)
    (hregistered : (s.setTxn i (some txn)).Registered)
    (hopts : (s.setTxn i (some txn)).world.db.opts.readOnly = readOnly)
    (hopen : s.txn i = some txn) :
    (s.setTxn i (some txn)).Refines start readOnly t := by
  obtain ⟨c', hc', htracks⟩ := h.opened i txn hopen
  refine h.wrote hinOrder hregistered hopts hopen rfl rfl rfl rfl (fun j => ?_) htracks
  split
  · rename_i hji
    rw [hji, hc']
  · rfl

/-- A write that passes the limits. -/
theorem Sys.Refines.added (h : s.Refines start readOnly t) {i : ℕ} {txn : Txn}
    {c : Client Bytes Bytes} {key : Bytes} {value : Slice}
    (hinOrder : (s.setTxn i (some (writeEntryAdd txn key value).2)).InOrder start)
    (hregistered : (s.setTxn i (some (writeEntryAdd txn key value).2)).Registered)
    (hopts : (s.setTxn i (some (writeEntryAdd txn key value).2)).world.db.opts.readOnly = readOnly)
    (hopen : s.txn i = some txn) (hc : t.client i = some c)
    (hfresh : ∀ e ∈ txn.writes, e.key ≠ key) (hvalue : value ≠ some []) :
    Answer.code (writeEntryAdd txn key value).1 =
        (if c.readOnly then (Answer.code .txnRo, t)
          else (.code .ok, t.write i c key value)).1 ∧
      (s.setTxn i (some (writeEntryAdd txn key value).2)).Refines start readOnly
        (if c.readOnly then (Answer.code .txnRo, t)
          else (.code .ok, t.write i c key value)).2 := by
  obtain ⟨c', hc', htracks⟩ := h.opened i txn hopen
  rw [hc] at hc'
  cases hc'
  have hactive := (h.inOrder.sound.txns i txn hopen).active
  rw [htracks.readOnly]
  unfold writeEntryAdd at hinOrder hregistered hopts ⊢
  cases hro : txn.readOnly with
  | true =>
    simp only [hro, if_true] at hinOrder hregistered hopts ⊢
    exact ⟨trivial, h.refused hinOrder hregistered hopts hopen⟩
  | false =>
    have hstate : ¬ txn.state ≠ .active := fun hn => hn hactive
    simp only [hro, if_neg hstate, Bool.false_eq_true, if_false] at hinOrder hregistered hopts ⊢
    refine ⟨trivial, h.wrote hinOrder hregistered hopts hopen rfl rfl rfl (List.length_set ..)
      (SnapshotStore.client_set _ (SnapshotStore.lt_of_client hc) rfl) ?_⟩
    refine ⟨htracks.readOnly.trans hro, ?_, htracks.view, htracks.stale, ?_, fun e he => ?_⟩
    · show (key, value) :: c.writes = _
      rw [htracks.writes]
      rfl
    · refine List.nodup_cons.mpr ⟨fun hmem => ?_, htracks.nodup⟩
      obtain ⟨e, he, hkey⟩ := List.mem_map.mp hmem
      exact hfresh e he hkey
    · rcases List.mem_cons.mp he with rfl | he
      · exact hvalue
      · exact htracks.values e he

/-- One call in both models: the same answer, and corresponding states. -/
theorem Sys.Refines.call (h : s.Refines start readOnly t) (hclock : s.clock + 1 < tsMax) {c : Call}
    (hfair : FairUse s (.call c)) : answer s (.call c) = (storeStep readOnly t (.call c)).1 ∧
      (FastKV.step s (.call c)).2.Refines start readOnly (storeStep readOnly t (.call c)).2 := by
  obtain ⟨hinOrder, hregistered, hopts⟩ := h.engine hclock hfair
  cases c with
  | begin ro =>
    cases hbegin : txnBegin s.world.db ro with
    | error rc =>
      have hstep : FastKV.step s (.call (.begin ro)) = (rc, s) := by
        simp only [FastKV.step, callStep, hbegin]
      have hrefused : (!ro && readOnly) = true ∧ rc = .txnRo := by
        unfold txnBegin at hbegin
        rw [h.opts] at hbegin
        split at hbegin
        · rename_i hcond
          cases hbegin
          exact ⟨hcond, rfl⟩
        · cases hbegin
      simp only [answer, hstep, storeStep, hrefused.1, hrefused.2, if_true]
      exact ⟨trivial, h⟩
    | ok r =>
      obtain ⟨txn, db⟩ := r
      have hstep : FastKV.step s (.call (.begin ro)) = (.ok,
          { s with world := { s.world with db }, txns := s.txns ++ [some txn] }) := by
        simp only [FastKV.step, callStep, hbegin]
      have haccepted : ¬ (!ro && readOnly) = true := by
        unfold txnBegin at hbegin
        rw [h.opts] at hbegin
        split at hbegin
        · cases hbegin
        · assumption
      obtain ⟨hts, -, hwrites, hro, hht, -⟩ := txnBegin_spec hbegin
      rw [hstep] at hinOrder hregistered hopts
      simp only [answer, hstep, storeStep, if_neg haccepted]
      exact ⟨trivial, h.begin hinOrder hregistered hopts (by omega) hht rfl hts hwrites hro⟩
  | get i key =>
    have hsame : (FastKV.step s (.call (.get i key))).2 = s := by
      simp only [FastKV.step, callStep]
      split
      · rfl
      · split <;> rfl
    rw [hsame]
    cases hopen : s.txn i with
    | none =>
      simp only [answer, storeStep, hopen, h.closed i hopen]
      exact ⟨trivial, h⟩
    | some txn =>
      obtain ⟨c, hc, htracks⟩ := h.opened i txn hopen
      simp only [answer, storeStep, hopen, hc]
      rw [htracks.get (h.inOrder.sound.txns i txn hopen).active (hfair txn hopen)]
      exact ⟨rfl, h⟩
  | put i key value =>
    cases hopen : s.txn i with
    | none =>
      have hstep : FastKV.step s (.call (.put i key value)) = (.inval, s) := by
        simp only [FastKV.step, callStep, hopen]
      simp only [answer, hstep, storeStep, h.closed i hopen]
      exact ⟨trivial, h⟩
    | some txn =>
      obtain ⟨c, hc, htracks⟩ := h.opened i txn hopen
      have hstep : FastKV.step s (.call (.put i key value)) =
          ((txnPut txn key value).1, s.setTxn i (some (txnPut txn key value).2)) := by
        simp only [FastKV.step, callStep, hopen]
      rw [hstep] at hinOrder hregistered hopts
      simp only [answer, hstep, storeStep, hc]
      unfold txnPut txnWritePut at hinOrder hregistered hopts ⊢
      by_cases hkey : maxKeyLen < key.length
      · simp only [if_pos hkey] at hinOrder hregistered hopts ⊢
        exact ⟨trivial, h.refused hinOrder hregistered hopts hopen⟩
      · by_cases hvalue : maxValLen < (value.getD []).length
        · simp only [if_neg hkey, if_pos hvalue] at hinOrder hregistered hopts ⊢
          exact ⟨trivial, h.refused hinOrder hregistered hopts hopen⟩
        · simp only [if_neg hkey, if_neg hvalue] at hinOrder hregistered hopts ⊢
          exact h.added hinOrder hregistered hopts hopen hc (hfair.2 txn hopen) hfair.1
  | delete i key =>
    cases hopen : s.txn i with
    | none =>
      have hstep : FastKV.step s (.call (.delete i key)) = (.inval, s) := by
        simp only [FastKV.step, callStep, hopen]
      simp only [answer, hstep, storeStep, h.closed i hopen]
      exact ⟨trivial, h⟩
    | some txn =>
      obtain ⟨c, hc, htracks⟩ := h.opened i txn hopen
      have hstep : FastKV.step s (.call (.delete i key)) =
          ((txnDelete txn key).1, s.setTxn i (some (txnDelete txn key).2)) := by
        simp only [FastKV.step, callStep, hopen]
      rw [hstep] at hinOrder hregistered hopts
      simp only [answer, hstep, storeStep, hc]
      unfold txnDelete txnWriteDelete at hinOrder hregistered hopts ⊢
      by_cases hkey : maxKeyLen < key.length
      · simp only [if_pos hkey] at hinOrder hregistered hopts ⊢
        exact ⟨trivial, h.refused hinOrder hregistered hopts hopen⟩
      · simp only [if_neg hkey] at hinOrder hregistered hopts ⊢
        exact h.added hinOrder hregistered hopts hopen hc (hfair txn hopen)
          (Option.some_ne_none _).symm
  | commit i =>
    cases hopen : s.txn i with
    | none =>
      have hstep : FastKV.step s (.call (.commit i)) = (.inval, s) := by
        simp only [FastKV.step, callStep, hopen]
      simp only [answer, hstep, storeStep, h.closed i hopen]
      exact ⟨trivial, h⟩
    | some txn =>
      obtain ⟨c, hc, htracks⟩ := h.opened i txn hopen
      obtain ⟨hcode, hrefines⟩ := h.commit hclock hopen hc htracks
      simp only [answer, storeStep, hc]
      exact ⟨congrArg Answer.code hcode, hrefines⟩
  | abort i =>
    cases hopen : s.txn i with
    | none =>
      have hstep : FastKV.step s (.call (.abort i)) = (.inval, s) := by
        simp only [FastKV.step, callStep, hopen]
      simp only [answer, hstep, storeStep, h.closed i hopen]
      exact ⟨trivial, h⟩
    | some txn =>
      obtain ⟨c, hc, htracks⟩ := h.opened i txn hopen
      have hstep : FastKV.step s (.call (.abort i)) =
          (.ok, { s with world := (s.world.abort txn).1, txns := s.txns.set i none }) := by
        simp only [FastKV.step, callStep, hopen]
        rfl
      rw [hstep] at hinOrder hregistered hopts
      simp only [answer, hstep, storeStep, hc]
      have hht : (s.world.abort txn).1.db.ht = s.world.db.ht := by
        unfold World.abort txnMgrAbort
        split
        all_goals rfl
      exact ⟨trivial, h.ended hinOrder hregistered hopts hopen hht rfl rfl (List.length_set ..)
        (SnapshotStore.client_set none (SnapshotStore.lt_of_client hc) rfl)⟩

/-- One step in both models. -/
theorem Sys.Refines.step (h : s.Refines start readOnly t) (hclock : s.clock + 1 < tsMax)
    {a : Action} (hfair : FairUse s a) : answer s a = (storeStep readOnly t a).1 ∧
      (FastKV.step s a).2.Refines start readOnly (storeStep readOnly t a).2 := by
  cases a with
  | call c => exact h.call hclock hfair
  | gc =>
    obtain ⟨hinOrder, hregistered, hopts⟩ := h.engine hclock hfair
    exact ⟨rfl, h.collected hinOrder hregistered hopts rfl (by omega) (Or.inr rfl)⟩
  | checkpoint snapId segId now =>
    obtain ⟨hinOrder, hregistered, hopts⟩ := h.engine hclock hfair
    obtain ⟨hok, -⟩ :=
      fastkvCheckpoint_working h.inOrder.working h.inOrder.sound.ttl snapId segId now
    obtain ⟨wal, n, heq⟩ := fastkvCheckpoint_db h.inOrder.sound.ttl snapId segId now
    refine ⟨congrArg Answer.code hok, h.collected hinOrder hregistered hopts rfl (by omega) ?_⟩
    have hworld : (FastKV.step s (.checkpoint snapId segId now)).2.world =
        (fastkvCheckpoint s.world snapId segId now).2 := rfl
    rw [hworld]
    rcases heq with heq | heq
    · exact Or.inl (by rw [heq])
    · exact Or.inr (by rw [heq])

end Step

/-! ## Runs -/

/-- A database that was just opened, and a store with what has been recovered. -/
theorem Sys.Refines.start {opts : Opts} {fresh : Uuid} {disk : Disk} {w : World}
    (hintact : Intact opts disk.files) (hquiet : disk.Quiet)
    (h : fastkvOpen opts fresh disk = .ok w) :
    (Sys.start w).Refines w.db.clock opts.readOnly ⟨w.db.ht.live, []⟩ := by
  have hinOrder := Sys.InOrder.start hintact hquiet h
  refine ⟨hinOrder, .start h, hinOrder.sound.bounded.singleFrom hinOrder.sound.oneLive, ?_,
    fun _ => rfl, rfl, fun i _ => rfl, fun i txn hi => ?_⟩
  · obtain ⟨stores, snapTs, walMaxTs, wal, rc, -, hdb, -⟩ := fastkvOpen_cases h
    show w.db.opts.readOnly = _
    rw [hdb]
    rfl
  · have hnone : (Sys.start w).txn i = none := rfl
    rw [hnone] at hi
    cases hi

/-- A run in both models. -/
theorem Sys.Refines.run {start : ℕ} {readOnly : Bool} (actions : List Action) :
    ∀ {s : Sys} {t : SnapshotStore Bytes Bytes}, s.Refines start readOnly t →
      s.clock + actions.length < tsMax → Always FairUse s actions →
      answers s actions = storeAnswers readOnly t actions ∧
        (FastKV.run s actions).Refines start readOnly (storeRun readOnly t actions) := by
  induction actions with
  | nil => exact fun h _ _ => ⟨rfl, h⟩
  | cons a as ih =>
    intro s t h hclock hfair
    rw [List.length_cons] at hclock
    obtain ⟨hanswer, hnext⟩ := h.step (by omega) hfair.1
    obtain ⟨-, -, hle⟩ := h.inOrder.sound.step (by omega) a
    obtain ⟨hanswers, hrun⟩ := ih hnext (by omega) hfair.2
    refine ⟨?_, hrun⟩
    rw [answers, storeAnswers, hanswer, hanswers]

/-- The engine is a store that gives every transaction a snapshot: in every run in which it is
used fairly, it answers every call as the store does that holds what the engine has recovered, and
afterwards its live versions are the map of that store. The directory was intact when it was
opened, the disk fails no call, and the clock does not run out. -/
theorem engine_refines_store {opts : Opts} {fresh : Uuid} {disk : Disk} {w : World}
    (hintact : Intact opts disk.files) (hquiet : disk.Quiet)
    (hopened : fastkvOpen opts fresh disk = .ok w) (actions : List Action)
    (hlength : w.db.clock + actions.length < tsMax)
    (hfair : Always FairUse (Sys.start w) actions) :
    answers (Sys.start w) actions = storeAnswers opts.readOnly ⟨w.db.ht.live, []⟩ actions ∧
      ∀ key, (run (Sys.start w) actions).world.db.ht.live key =
        (storeRun opts.readOnly ⟨w.db.ht.live, []⟩ actions).map key := by
  obtain ⟨hanswers, hrefines⟩ :=
    (Sys.Refines.start hintact hquiet hopened).run actions hlength hfair
  exact ⟨hanswers, hrefines.map⟩

/-- A reader that begins before a commit, and one that begins after it. -/
def twoReaders : List Action :=
  [.call (.begin false), .call (.put 0 [1] (some [10])), .call (.begin true), .call (.commit 0),
    .call (.get 1 [1]), .call (.begin true), .call (.get 2 [1]), .gc]

/-- The first of them does not see the write, and the second does. -/
theorem engine_refines_store_twoReaders :
    answers (Sys.start newWorld) twoReaders =
      [.code .ok, .code .ok, .code .ok, .code .ok, .read (.error .notfound), .code .ok,
        .read (.ok [10]), .code .ok] ∧
    (run (Sys.start newWorld) twoReaders).world.db.ht.live [1] = some [10] := by
  have hempty : ∀ (s : Sys) (i : ℕ), (s.txn i).all (fun txn => txn.writes.isEmpty) = true →
      ∀ txn, s.txn i = some txn → txn.writes = [] := by
    intro s i hall txn htxn
    rw [htxn] at hall
    exact List.isEmpty_iff.mp hall
  have hfair : Always FairUse (Sys.start newWorld) twoReaders := by
    refine ⟨by show Sys.numOpen _ < _; decide +kernel, ⟨by decide, fun txn htxn e he => ?_⟩,
      by show Sys.numOpen _ < _; decide +kernel, trivial, fun txn htxn hdeleted => ?_,
      by show Sys.numOpen _ < _; decide +kernel, fun txn htxn hdeleted => ?_,
      fun key u hu v hv _ _ => ?_, trivial⟩
    · rw [hempty _ 0 (by decide +kernel) txn htxn] at he
      cases he
    · rw [hempty _ 1 (by decide +kernel) txn htxn] at hdeleted
      cases hdeleted
    · rw [hempty _ 2 (by decide +kernel) txn htxn] at hdeleted
      cases hdeleted
    · have hone : ∀ u ∈ (run (Sys.start newWorld) (twoReaders.take 7)).world.db.ht.versions key,
          u.beginTs = 3 := by
        intro u hu
        obtain ⟨chain, hchain, hmem⟩ := Ht.exists_bucket_of_mem_versions hu
        have hall : ∀ chain ∈ (run (Sys.start newWorld) (twoReaders.take 7)).world.db.ht.buckets,
            ∀ u ∈ chain, u.beginTs = 3 := by decide +kernel
        exact hall chain (List.mem_of_getElem? hchain) u hmem
      rw [hone u hu, hone v hv]
  obtain ⟨hanswers, hmap⟩ := engine_refines_store (intact_empty oneBucket)
    (fun _ h => by cases h) newWorld_opened twoReaders (by decide) hfair
  rw [hanswers, hmap]
  exact ⟨rfl, rfl⟩

end FastKV
