import FastKV.FuzzySnapshot
import FastKV.SnapshotIsolation

/-!
# The log of several threads

Commits append their records one after the other, since the commit lock is held from the
timestamp to the last entry. So the log is in the order of the timestamps, every record in it
but the last is applied, and the commits make the map.
-/

namespace FastKV

open Lib

/-! ## The entry between log and table -/

/-- The record that a commit has logged and not applied. -/
def Phase.pending : Phase → List Record
  | .logged txn e _ => [e.record txn.commitTs]
  | _ => []

/-- The record that the holder of the commit lock has logged and not applied. -/
def Threads.pending (s : Threads) : List Record := (s.lock.map fun t => (s.phase t).pending).getD []

/-- What the holder of the commit lock has logged. -/
theorem Threads.pending_eq {s : Threads} {t : ℕ} (h : s.lock = some t) :
    s.pending = (s.phase t).pending := by
  rw [Threads.pending, h]
  rfl

/-- What it has logged after it proceeded. -/
theorem Threads.pending_to {s : Threads} {t : ℕ} (h : s.lock = some t) (p : Phase) :
    (s.to t p).pending = p.pending := by
  rw [Threads.pending_eq (show (s.to t p).lock = some t from h), Threads.to_phase, if_pos rfl]

/-- A logged record is one of those left to apply. -/
theorem Threads.pending_subset_rest {s : Threads} {r : Record} (h : r ∈ s.pending) :
    ∃ t, r ∈ (s.phase t).rest := by
  cases hlock : s.lock with
  | none =>
    rw [Threads.pending, hlock] at h
    cases h
  | some t =>
    rw [Threads.pending_eq hlock] at h
    refine ⟨t, ?_⟩
    cases hphase : s.phase t with
    | logged =>
      rw [hphase] at h
      rw [List.mem_singleton.mp h]
      exact List.mem_cons_self
    | _ =>
      rw [hphase] at h
      cases h

/-! ## The invariant -/

/-- A database in service: the log holds what was committed, from a database with the map
`base`. -/
structure Threads.Serving (base : Bytes → Slice) (s : Threads) (wal : Wal)
    (older : List (Uuid × List Record)) (id : Uuid) (cur : List Record) : Prop where
  /-- The log is open. -/
  wal_eq : s.world.db.wal = some wal
  /-- The records in the log. -/
  holds : Log.Holds ⟨wal, s.world.disk⟩ older id cur
  /-- No call will fail. -/
  quiet : s.world.disk.Quiet
  /-- Records are older than the clock. -/
  stamps : ∀ r ∈ older.flatMap Prod.snd ++ cur, r.ts < s.clock
  /-- The table can be exported. -/
  exports : s.ht.Exports
  /-- Nothing has failed. -/
  fair : ∀ t, (s.phase t).Fair
  /-- There is one commit at a time. -/
  holder : ∀ t, (s.phase t).committing = true → s.lock = some t
  /-- Transactions have writes of permitted size. -/
  permitted : ∀ t txn, (s.phase t).txn = some txn → ∀ e ∈ txn.writes, e.Permitted
  /-- What a commit has still to apply is not older than the log. -/
  rests : ∀ t, ∀ r ∈ (s.phase t).rest, r.Valid ∧ r.ts < s.clock ∧
    ∀ r' ∈ older.flatMap Prod.snd ++ cur, r'.ts ≤ r.ts
  /-- Collectors have read the clock before now. -/
  scans : ∀ c minTs i, s.scan c = some (minTs, i) → minTs ≤ s.clock
  /-- The commits make the map. -/
  commits : ∃ done, commitRecords s.commits = done ++ s.rest ∧ s.ht.live = updates base done

section Step

variable {base : Bytes → Slice} {s s' : Threads} {wal : Wal} {older : List (Uuid × List Record)}
  {id : Uuid} {cur : List Record}

/-- A step that concerns neither the table nor the log nor what is left to apply. -/
theorem Threads.Serving.frame (h : s.Serving base wal older id cur) (hht : s'.ht = s.ht)
    (hclock : s.clock ≤ s'.clock) (hwal : s'.world.db.wal = s.world.db.wal)
    (hdisk : s'.world.disk = s.world.disk) (hcommits : s'.commits = s.commits)
    (hrest : s'.rest = s.rest)
    (hrests : ∀ t, (s'.phase t).rest = (s.phase t).rest) (hfair : ∀ t, (s'.phase t).Fair)
    (hholder : ∀ t, (s'.phase t).committing = true → s'.lock = some t)
    (hpermitted : ∀ t txn, (s'.phase t).txn = some txn → ∀ e ∈ txn.writes, e.Permitted)
    (hscans : ∀ c minTs i, s'.scan c = some (minTs, i) → minTs ≤ s'.clock) :
    s'.Serving base wal older id cur := by
  refine ⟨hwal.trans h.wal_eq, ?_, ?_, fun r hr => (h.stamps r hr).trans_le hclock, ?_, hfair,
    hholder, hpermitted, fun t r hr => ?_, hscans, ?_⟩
  · rw [hdisk]
    exact h.holds
  · rw [hdisk]
    exact h.quiet
  · rw [hht]
    exact h.exports
  · rw [hrests] at hr
    obtain ⟨hvalid, hlt, hall⟩ := h.rests t r hr
    exact ⟨hvalid, hlt.trans_le hclock, hall⟩
  · rw [hcommits, hrest, hht]
    exact h.commits

/-- A step of one transaction of this kind that leaves the commit lock alone. -/
theorem Threads.Serving.to (h : s.Serving base wal older id cur) {t : ℕ} {p : Phase} {world : World}
    (hht : world.db.ht = s.ht) (hclock : s.clock ≤ world.db.clock)
    (hwal : world.db.wal = s.world.db.wal) (hdisk : world.disk = s.world.disk)
    (hrest : p.rest = (s.phase t).rest) (hcommitting : p.committing = (s.phase t).committing)
    (hfair : p.Fair) (hpermitted : ∀ txn, p.txn = some txn → ∀ e ∈ txn.writes, e.Permitted) :
    (({ s with world } : Threads).to t p).Serving base wal older id cur := by
  have hrests : ∀ t', ((({ s with world } : Threads).to t p).phase t').rest = (s.phase t').rest :=
    Threads.to_view (f := Phase.rest) hrest
  have hcommittings : ∀ t', ((({ s with world } : Threads).to t p).phase t').committing =
      (s.phase t').committing := Threads.to_view (f := Phase.committing) hcommitting
  refine h.frame hht hclock hwal hdisk rfl ?_ hrests
    (Threads.to_all (P := fun _ q => q.Fair) hfair fun t' _ => h.fair t') (fun t' ht' => ?_)
    (Threads.to_all (P := fun _ q => ∀ txn, q.txn = some txn → ∀ e ∈ txn.writes, e.Permitted)
      hpermitted
      fun t' _ => h.permitted t') fun c minTs i hscan => (h.scans c minTs i hscan).trans hclock
  · unfold Threads.rest
    simp only [hrests]
    rfl
  · rw [hcommittings] at ht'
    exact h.holder t' ht'

/-- Only the holder of the commit lock commits. -/
theorem Threads.Serving.not_committing (h : s.Serving base wal older id cur) {t : ℕ}
    (hlock : s.lock = none ∨ s.lock = some t) (t' : ℕ) (hne : t' ≠ t) :
    (s.phase t').committing = false := by
  rw [← Bool.not_eq_true]
  intro hcommitting
  have hheld := h.holder t' hcommitting
  rcases hlock with hlock | hlock
  · rw [hlock] at hheld
    cases hheld
  · rw [hlock] at hheld
    exact hne (Option.some.inj hheld).symm

/-- The commit lock is taken or released. -/
theorem Threads.Serving.relock (h : s.Serving base wal older id cur) {t : ℕ} {p : Phase}
    {lock : Option ℕ} (hold : ∀ t', t' ≠ t → (s.phase t').committing = false)
    (hrestOld : (s.phase t).rest = []) (hrestNew : p.rest = [])
    (hcommitting : p.committing = true → lock = some t) (hfair : p.Fair)
    (hpermitted : ∀ txn, p.txn = some txn → ∀ e ∈ txn.writes, e.Permitted) :
    (({ s with lock } : Threads).to t p).Serving base wal older id cur := by
  have hnone : ∀ t', (s.phase t').rest = [] := by
    intro t'
    by_cases heq : t' = t
    · rw [heq, hrestOld]
    · refine List.eq_nil_iff_forall_not_mem.mpr fun r hr => ?_
      have hcommit := Phase.committing_of_mem hr
      rw [hold t' heq] at hcommit
      cases hcommit
  have hrests : ∀ t', ((({ s with lock } : Threads).to t p).phase t').rest = (s.phase t').rest :=
    Threads.to_view (s := { s with lock }) (f := Phase.rest) (hrestNew.trans hrestOld.symm)
  refine h.frame rfl (Nat.le_refl _) rfl rfl rfl ?_ hrests
    (Threads.to_all (P := fun _ q => q.Fair) hfair fun t' _ => h.fair t')
    (Threads.to_all (P := fun t' q => q.committing = true → lock = some t') hcommitting
      fun t' hne ht' => ?_)
    (Threads.to_all (P := fun _ q => ∀ txn, q.txn = some txn → ∀ e ∈ txn.writes, e.Permitted)
      hpermitted
      fun t' _ => h.permitted t') h.scans
  · rw [Threads.rest_eq_nil hnone, Threads.rest_eq_nil fun t' => (hrests t').trans (hnone t')]
  · have hother : (s.phase t').committing = true := ht'
    rw [hold t' hne] at hother
    cases hother

/-- A commit draws its timestamp. -/
theorem Threads.Serving.drawCommit (h : s.Serving base wal older id cur)
    (hclock : s.clock + 1 < tsMax) {t : ℕ} {txn : Txn} (hphase : s.phase t = .checked txn) :
    ({ s with world := s.world.drawn, commits := s.commits ++ [(s.clock, txn.writes)] }.to t
      (.applying { txn with commitTs := s.clock } txn.writes)).Serving base wal older id cur := by
  have htick : ({ s with world := s.world.drawn } : Threads).clock = s.clock + 1 :=
    Threads.clock_drawn hclock
  have hlock : s.lock = some t := h.holder t (by rw [hphase]; rfl)
  have hwrites := h.permitted t txn (by rw [hphase]; rfl)
  have hpast : s.clock ≤ ({ s with world := s.world.drawn } : Threads).clock := by omega
  refine ⟨h.wal_eq, h.holds, h.quiet, fun r hr => (h.stamps r hr).trans_le hpast, h.exports,
    Threads.to_all (P := fun _ q => q.Fair) trivial fun t' _ => h.fair t',
    Threads.to_all (P := fun t' q => q.committing = true → s.lock = some t') (fun _ => hlock)
      fun t' _ => h.holder t',
    Threads.to_all (P := fun _ q => ∀ txn, q.txn = some txn → ∀ e ∈ txn.writes, e.Permitted)
      (fun txn' htxn' => ?_) fun t' _ => h.permitted t',
    Threads.to_all (P := fun _ q => ∀ r ∈ q.rest, r.Valid ∧ r.ts < s.world.drawn.db.clock ∧
      ∀ r' ∈ older.flatMap Prod.snd ++ cur, r'.ts ≤ r.ts) (fun r hr => ?_)
      fun t' hne r hr => absurd (Threads.eq_of_rest h.holder hlock hr) hne,
    fun c minTs i hscan => (h.scans c minTs i hscan).trans hpast, ?_⟩
  · cases htxn'
    exact hwrites
  · obtain ⟨e, he, rfl⟩ := List.mem_map.mp hr
    refine ⟨⟨?_, (hwrites e he).1, (hwrites e he).2⟩, (Nat.lt_succ_self s.clock).trans_eq
      htick.symm, fun r' hr' => (h.stamps r' hr').le⟩
    show s.clock < 2 ^ 64
    unfold tsMax at hclock
    omega
  · obtain ⟨done, hdone, hlive⟩ := h.commits
    rw [Threads.rest_eq hlock, hphase] at hdone
    refine ⟨done, ?_, hlive⟩
    rw [Threads.rest_to (s := { s with
      world := s.world.drawn, commits := s.commits ++ [(s.clock, txn.writes)] }) hlock]
    show commitRecords (s.commits ++ [(s.clock, txn.writes)]) = _
    rw [commitRecords, List.flatMap_append, List.flatMap_singleton]
    exact congrArg (· ++ txn.writes.map fun e => e.record s.clock)
      (hdone.trans (List.append_nil done))

/-- An entry is logged. -/
theorem Threads.Serving.append (h : s.Serving base wal older id cur) {t : ℕ} {txn : Txn}
    {e : WriteEntry} {rest : List WriteEntry} (hphase : s.phase t = .applying txn (e :: rest)) :
    (∃ wal', ({ s with world := (logEntry s.world e txn.commitTs).2 }.to t
      (.logged txn e rest)).Serving
      base wal' older id (cur ++ [e.record txn.commitTs])) ∧
    (logEntry s.world e txn.commitTs).1 = .ok ∧
    ∀ n, matchName walPfx walSfx n = none →
      (logEntry s.world e txn.commitTs).2.disk.files.lookup n = s.world.disk.files.lookup n := by
  have hlock : s.lock = some t := h.holder t (by rw [hphase]; rfl)
  obtain ⟨hvalid, hts, hlast⟩ := h.rests t (e.record txn.commitTs)
    (by rw [hphase]; exact List.mem_cons_self)
  -- the log accepts the record
  obtain ⟨hok, hworking⟩ := walAppend_working (h.holds.attached.working h.quiet)
    (e.record txn.commitTs)
  have hholds := h.holds.append hvalid hok
  have hothers := (walAppend_spec h.holds.attached h.holds.le_cap
    (e.record txn.commitTs)).attached.others
  have hlog : logEntry s.world e txn.commitTs = (.ok, ⟨{ s.world.db with
      wal := some (walAppend (e.record txn.commitTs) ⟨wal, s.world.disk⟩).2.wal },
      (walAppend (e.record txn.commitTs) ⟨wal, s.world.disk⟩).2.disk⟩) := by
    simp only [logEntry, h.wal_eq, hok]
  generalize (walAppend (e.record txn.commitTs) ⟨wal, s.world.disk⟩).2 = log
    at hworking hholds hothers hlog
  rw [hlog]
  have hrests : ∀ t', ((({ s with world := ⟨{ s.world.db with wal := some log.wal }, log.disk⟩ } :
      Threads).to t (.logged txn e rest)).phase t').rest = (s.phase t').rest :=
    Threads.to_view (s := { s with world := ⟨{ s.world.db with wal := some log.wal }, log.disk⟩ })
      (f := Phase.rest) (by simp only [hphase]; rfl)
  refine ⟨⟨log.wal, rfl, hholds, hworking.quiet, fun r hr => ?_, h.exports,
    Threads.to_all (P := fun _ q => q.Fair) trivial fun t' _ => h.fair t',
    Threads.to_all (P := fun t' q => q.committing = true → s.lock = some t') (fun _ => hlock)
      fun t' _ => h.holder t',
    Threads.to_all (P := fun _ q => ∀ txn, q.txn = some txn → ∀ e ∈ txn.writes, e.Permitted)
      (fun txn' htxn' => ?_) fun t' _ => h.permitted t',
    fun t' r hr => ?_, h.scans, ?_⟩, rfl, fun n hn => hothers n ?_⟩
  · rw [← List.append_assoc] at hr
    rcases List.mem_append.mp hr with hr | hr
    · exact h.stamps r hr
    · rw [List.mem_singleton.mp hr]
      exact hts
  · cases htxn'
    exact h.permitted t txn (by rw [hphase]; rfl)
  · rw [hrests] at hr
    obtain ⟨hvalid', hts', hall⟩ := h.rests t' r hr
    refine ⟨hvalid', hts', fun r' hr' => ?_⟩
    rw [← List.append_assoc] at hr'
    rcases List.mem_append.mp hr' with hr' | hr'
    · exact hall r' hr'
    · -- all entries of a commit have one timestamp
      rw [Threads.eq_of_rest h.holder hlock hr, hphase] at hr
      obtain ⟨e', -, rfl⟩ := List.mem_map.mp hr
      rw [List.mem_singleton.mp hr']
      exact Nat.le_refl _
  · obtain ⟨done, hdone, hlive⟩ := h.commits
    refine ⟨done, ?_, hlive⟩
    rw [Threads.rest_eq hlock, hphase] at hdone
    rw [Threads.rest_to (s := { s with world := ⟨{ s.world.db with wal := some log.wal },
      log.disk⟩ })
      hlock]
    exact hdone
  · rintro rfl
    rw [matchName_segName] at hn
    cases hn

/-- An entry is applied. -/
theorem Threads.Serving.install (h : s.Serving base wal older id cur)
    (hclock : s.clock < tsMax) {t : ℕ}
    {txn : Txn} {e : WriteEntry} {rest : List WriteEntry} (hphase : s.phase t = .logged txn e rest)
    (halone : ∀ v ∈ s.ht.chain e.key, v.key = e.key) :
    ({ s with world := { s.world with db := applyEntry s.world.db e txn.commitTs } }.to t
      (.applying txn rest)).Serving base wal older id cur := by
  have hlock : s.lock = some t := h.holder t (by rw [hphase]; rfl)
  obtain ⟨hvalid, hts, hlast⟩ := h.rests t (e.record txn.commitTs)
    (by rw [hphase]; exact List.mem_cons_self)
  have hts' : txn.commitTs < s.clock := hts
  have hht : (applyEntry s.world.db e txn.commitTs).ht =
      htInsertVersion s.ht txn.commitTs e.key e.value :=
    applyEntry_ht _ _ _
  have hclock' : (applyEntry s.world.db e txn.commitTs).clock = s.clock :=
    congrArg (fun mgr => mgr.oracle.clock) (applyEntry_txnMgr _ _ _)
  have hwal : (applyEntry s.world.db e txn.commitTs).wal = s.world.db.wal := by
    unfold applyEntry
    cases e.value <;> rfl
  refine ⟨hwal.trans h.wal_eq, h.holds, h.quiet, fun r hr =>
    (h.stamps r hr).trans_eq hclock'.symm, ?_,
    Threads.to_all (P := fun _ q => q.Fair) trivial fun t' _ => h.fair t',
    Threads.to_all (P := fun t' q => q.committing = true → s.lock = some t') (fun _ => hlock)
      fun t' _ => h.holder t',
    Threads.to_all (P := fun _ q => ∀ txn, q.txn = some txn → ∀ e ∈ txn.writes, e.Permitted)
      (fun txn' htxn' => ?_) fun t' _ => h.permitted t',
    fun t' r hr => ?_,
    fun c minTs i hscan => (h.scans c minTs i hscan).trans_eq hclock'.symm, ?_⟩
  · show (applyEntry s.world.db e txn.commitTs).ht.Exports
    rw [hht]
    exact h.exports.insert hvalid (by omega) halone
  · cases htxn'
    exact h.permitted t txn (by rw [hphase]; rfl)
  · obtain ⟨hvalid', hlt, hall⟩ := h.rests t' r (Threads.rest_of_installed hphase hr)
    exact ⟨hvalid', hlt.trans_eq hclock'.symm, hall⟩
  · obtain ⟨done, hdone, hlive⟩ := h.commits
    rw [Threads.rest_eq hlock, hphase] at hdone
    refine ⟨done ++ [e.record txn.commitTs], ?_, ?_⟩
    · rw [Threads.rest_to (s := { s with
        world := { s.world with db := applyEntry s.world.db e txn.commitTs } }) hlock,
        List.append_assoc]
      exact hdone
    · show (applyEntry s.world.db e txn.commitTs).ht.live = _
      rw [hht, live_htInsertVersion_record, hlive, updates_append]
      rfl

/-- A collector reads the clock or a slot. -/
theorem Threads.Serving.scanTo (h : s.Serving base wal older id cur) (c : ℕ) {minTs : ℕ} (i : ℕ)
    (hmin : minTs ≤ s.clock) :
    ({ s with scan := Function.update s.scan c (some (minTs, i)) } : Threads).Serving
      base wal older id cur := by
  refine h.frame rfl (Nat.le_refl _) rfl rfl rfl rfl (fun _ => rfl) h.fair h.holder h.permitted
    fun c' minTs' i' hscan' => ?_
  have hscans : Function.update s.scan c (some (minTs, i)) c' = some (minTs', i') := hscan'
  rw [Function.update_apply] at hscans
  split at hscans
  · cases hscans
    exact hmin
  · exact h.scans c' minTs' i' hscans

/-- A collector collects. -/
theorem Threads.Serving.collect (h : s.Serving base wal older id cur) (hclock : s.clock ≤ tsMax)
    {c minTs i : ℕ} (hscan : s.scan c = some (minTs, i)) :
    ({ s with
      world := { s.world with db := { s.world.db with ht := (htGc s.ht minTs).2 } }
      scan := Function.update s.scan c none } : Threads).Serving base wal older id cur := by
  have hmin : minTs ≤ tsMax := (h.scans c minTs i hscan).trans hclock
  refine ⟨h.wal_eq, h.holds, h.quiet, h.stamps, h.exports.gc hmin, h.fair, h.holder, h.permitted,
    h.rests, fun c' minTs' i' hscan' => ?_, ?_⟩
  · have hscans : Function.update s.scan c none c' = some (minTs', i') := hscan'
    rw [Function.update_apply] at hscans
    split at hscans
    · cases hscans
    · exact h.scans c' minTs' i' hscans
  · obtain ⟨done, hdone, hlive⟩ := h.commits
    refine ⟨done, hdone, ?_⟩
    show (htGc s.ht minTs).2.live = _
    rw [← hlive]
    exact funext fun key => live_htGc h.exports.oneLive hmin key

end Step

/-! ## Steps -/

/-- What a step can do to the log and the table. -/
inductive Moved (s : Threads) (cur : List Record) : ThreadStep → Threads → List Record → Prop
  /-- The log is the same, and so are the map and what a snapshot exports. -/
  | neither {a : ThreadStep} {s' : Threads} :
      s'.world.disk = s.world.disk → s'.pending = s.pending →
      s'.ht.capacity = s.ht.capacity → s'.ht.live = s.ht.live →
      (∀ b : ℕ, (s'.ht.buckets[b]?).map bucketEntry = (s.ht.buckets[b]?).map bucketEntry) →
      Moved s cur a s' cur
  /-- An entry is logged. -/
  | logged {a : ThreadStep} {s' : Threads} {e : WriteEntry} {commitTs : ℕ} : s.pending = [] →
      s'.pending = [e.record commitTs] → s'.ht = s.ht →
      (∀ n, matchName walPfx walSfx n = none →
        s'.world.disk.files.lookup n = s.world.disk.files.lookup n) →
      Moved s cur a s' (cur ++ [e.record commitTs])
  /-- An entry is applied. -/
  | installed {t : ℕ} {s' : Threads} {txn : Txn} {e : WriteEntry} {rest : List WriteEntry} :
      s.phase t = .logged txn e rest → s.pending = [e.record txn.commitTs] → s'.pending = [] →
      s'.world.disk = s.world.disk → s'.ht = htInsertVersion s.ht txn.commitTs e.key e.value →
      Moved s cur (.install t) s' cur

/-- An entry is applied only where its key is alone in its bucket. -/
def KeysApart (s : Threads) : ThreadStep → Prop
  | .install t =>
    ∀ txn e rest, s.phase t = .logged txn e rest → ∀ v ∈ s.ht.chain e.key, v.key = e.key
  | _ => True

section Step

variable {base : Bytes → Slice} {s : Threads} {wal : Wal} {older : List (Uuid × List Record)}
  {id : Uuid} {cur : List Record}

/-- What is logged and not applied stays, in a step that leaves the commit lock alone. -/
theorem Threads.pending_view {t : ℕ} {p : Phase} {world : World}
    (h : p.pending = (s.phase t).pending) : (({ s with world } : Threads).to t p).pending =
      s.pending := by
  have hview : ∀ t', ((({ s with world } : Threads).to t p).phase t').pending =
    (s.phase t').pending :=
    Threads.to_view (f := Phase.pending) h
  unfold Threads.pending
  simp only [hview]
  rfl

/-- A step of one transaction that concerns neither the table nor the log. -/
theorem Threads.Serving.moved (h : s.Serving base wal older id cur) {a : ThreadStep} {t : ℕ}
    {p : Phase} {world : World} (hht : world.db.ht = s.ht) (hclock : s.clock ≤ world.db.clock)
    (hwal : world.db.wal = s.world.db.wal) (hdisk : world.disk = s.world.disk)
    (hrest : p.rest = (s.phase t).rest) (hpending : p.pending = (s.phase t).pending)
    (hcommitting : p.committing = (s.phase t).committing) (hfair : p.Fair)
    (hpermitted : ∀ txn, p.txn = some txn → ∀ e ∈ txn.writes, e.Permitted) :
    ∃ wal' cur', (({ s with world } : Threads).to t p).Serving base wal' older id cur' ∧
      Moved s cur a (({ s with world } : Threads).to t p) cur' := by
  have hht' : (({ s with world } : Threads).to t p).ht = s.ht := hht
  refine ⟨wal, cur, h.to hht hclock hwal hdisk hrest hcommitting hfair hpermitted,
    .neither hdisk (Threads.pending_view hpending) ?_ ?_ fun b => ?_⟩
  · rw [hht']
  · rw [hht']
  · rw [hht']

/-- A step keeps the database in service. -/
theorem Threads.Serving.step (h : s.Serving base wal older id cur) (hclock : s.clock + 1 < tsMax)
    {a : ThreadStep} (hp : KeysApart s a) :
    ∃ wal' cur', (threadStep s a).Serving base wal' older id cur' ∧
    Moved s cur a (threadStep s a) cur' := by
  have heffect := threadStep_effect s a
  generalize threadStep s a = s' at heffect
  have hdrawn : s.clock ≤ s.world.drawn.db.clock := by
    have htick := Threads.clock_drawn hclock
    omega
  -- a new transaction has no writes
  have hnew : ∀ (readOnly : Bool) (beginTs : ℕ) (slot : Option ℕ) (txn : Txn),
      (Phase.active (newTxn readOnly beginTs slot)).txn = some txn → ∀ e ∈ txn.writes,
      e.Permitted := by
    rintro readOnly beginTs slot txn htxn e he
    cases htxn
    cases he
  cases heffect with
  | stay => exact ⟨wal, cur, h, .neither rfl rfl rfl rfl fun _ => rfl⟩
  | refused hphase =>
    exact h.moved rfl (Nat.le_refl _) rfl rfl (by rw [hphase]; rfl) (by rw [hphase]; rfl)
      (by rw [hphase]; rfl) trivial fun txn htxn => by cases htxn
  | drawn hphase =>
    exact h.moved rfl hdrawn rfl rfl (by rw [hphase]; rfl) (by rw [hphase]; rfl)
      (by rw [hphase]; rfl)
      trivial fun txn htxn => by cases htxn
  | taken hphase =>
    exact h.moved rfl (Nat.le_refl _) rfl rfl (by rw [hphase]; rfl) (by rw [hphase]; rfl)
      (by rw [hphase]; rfl) trivial fun txn htxn => by cases htxn
  | claimed hphase _ _ =>
    exact h.moved rfl (Nat.le_refl _) rfl rfl (by rw [hphase]; rfl) (by rw [hphase]; rfl)
      (by rw [hphase]; rfl) (fun _ => rfl) (hnew _ _ _)
  | unclaimed hphase _ =>
    exact h.moved rfl (Nat.le_refl _) rfl rfl (by rw [hphase]; rfl) (by rw [hphase]; rfl)
      (by rw [hphase]; rfl) (fun _ => rfl) (hnew _ _ _)
  | @wrote t _ txn txn' hphase hcollects =>
    have hfair := h.fair t
    rw [hphase] at hfair
    refine h.moved rfl (Nat.le_refl _) rfl rfl (by rw [hphase]; rfl) (by rw [hphase]; rfl)
      (by rw [hphase]; rfl) (fun hread => ?_) fun txn'' htxn => ?_
    · rw [hcollects.readOnly] at hread
      exact (hcollects.writes hread).trans (hfair hread)
    · cases htxn
      exact hcollects.permitted (h.permitted t txn (by rw [hphase]; rfl))
  | @ended t _ txn rc hphase =>
    refine h.moved rfl (Nat.le_refl _) rfl rfl (by rw [hphase]; rfl) (by rw [hphase]; rfl)
      (by rw [hphase]; rfl) trivial fun txn' htxn => ?_
    cases htxn
    exact h.permitted t txn (by rw [hphase]; rfl)
  | @locked t txn hphase hlock _ _ _ =>
    refine ⟨wal, cur, h.relock (h.not_committing (Or.inl hlock)) (by rw [hphase]; rfl) rfl
      (fun _ => rfl)
      trivial fun txn' htxn => ?_, .neither rfl ?_ rfl rfl fun _ => rfl⟩
    · cases htxn
      exact h.permitted t txn (by rw [hphase]; rfl)
    · rw [Threads.pending_to (s := { s with lock := some t }) rfl, Threads.pending, hlock]
      rfl
  | @drewCommit t txn hphase =>
    refine ⟨wal, cur, h.drawCommit hclock hphase, .neither rfl ?_ rfl rfl fun _ => rfl⟩
    have hlock : s.lock = some t := h.holder t (by rw [hphase]; rfl)
    rw [Threads.pending_to (s := { s with
      world := s.world.drawn, commits := s.commits ++ [(s.clock, txn.writes)] }) hlock,
      Threads.pending_eq hlock, hphase]
    rfl
  | @appended t txn e rest hphase _ =>
    have hlock : s.lock = some t := h.holder t (by rw [hphase]; rfl)
    obtain ⟨⟨wal', hserving⟩, -, hothers⟩ := h.append hphase
    refine ⟨wal', _, hserving, .logged ?_ ?_ (logEntry_ht _ _ _) hothers⟩
    · rw [Threads.pending_eq hlock, hphase]
      rfl
    · exact Threads.pending_to
        (s := { s with world := (logEntry s.world e txn.commitTs).2 }) hlock _
  | appendFailed hphase hfailed => exact absurd (h.append hphase).2.1 hfailed
  | @installed t txn e rest hphase =>
    have hlock : s.lock = some t := h.holder t (by rw [hphase]; rfl)
    refine ⟨wal, cur, h.install (by omega) hphase (hp txn e rest hphase),
      .installed hphase ?_ ?_ rfl (applyEntry_ht _ _ _)⟩
    · rw [Threads.pending_eq hlock, hphase]
      rfl
    · exact Threads.pending_to (s := { s with
        world := { s.world with db := applyEntry s.world.db e txn.commitTs } }) hlock _
  | @unlocked t txn hphase =>
    have hlock : s.lock = some t := h.holder t (by rw [hphase]; rfl)
    refine ⟨wal, cur, h.relock (h.not_committing (Or.inr hlock)) (by rw [hphase]; rfl) rfl
      (fun hc => by cases hc) trivial fun txn' htxn => ?_, .neither rfl ?_ rfl rfl fun _ => rfl⟩
    · cases htxn
      exact h.permitted t txn (by rw [hphase]; rfl)
    · rw [Threads.pending_eq hlock, hphase]
      rfl
  | @unlockedFailed t _ _ hphase =>
    have hfair := h.fair t
    rw [hphase] at hfair
    exact hfair.elim
  | @released t txn rc hphase =>
    exact h.moved rfl (clock_oracleRelease _ _).ge rfl rfl (by rw [hphase]; rfl)
      (by rw [hphase]; rfl) (by rw [hphase]; rfl) trivial fun txn' htxn => by cases htxn
  | @clockRead c hscan =>
    exact ⟨wal, cur, h.scanTo c 0 (Nat.le_refl _), .neither rfl rfl rfl rfl fun _ => rfl⟩
  | @slotRead c minTs i hscan _ =>
    have hmin := h.scans c minTs i hscan
    refine ⟨wal, cur, h.scanTo c (i + 1) ?_, .neither rfl rfl rfl rfl fun _ => rfl⟩
    split <;> omega
  | @collected c minTs i hscan _ =>
    have hmin : minTs ≤ tsMax := by
      have hle := h.scans c minTs i hscan
      omega
    exact ⟨wal, cur, h.collect (by omega) hscan, .neither rfl rfl (capacity_htGc ..)
      (funext fun key => live_htGc h.exports.oneLive hmin key)
      ((h.exports.oneKey.exportable h.exports.oneLive).bucketEntry_gc hmin)⟩

end Step

end FastKV
