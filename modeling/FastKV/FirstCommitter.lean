import FastKV.Quiet

/-!
# First committer wins

The conflict check looks at the first version of a key in its bucket only. That version
carries the newest timestamp as long as the chain is in order. Inserting a version keeps the
order; garbage collection rebuilds every chain in reverse, which is harmless only when the
survivors of each key carry one timestamp.
-/

namespace FastKV

/-! ## The newest timestamp of a key -/

/-- The timestamp of the live version of a key. -/
def Ht.stamp (ht : Ht) (key : Bytes) : Option ℕ :=
  ((ht.versions key).find? Version.isLive).map Version.beginTs

/-- The first version of each key carries its newest timestamp. -/
def Ht.Ordered (ht : Ht) : Prop :=
  ∀ key, (ht.versions key).head?.map Version.beginTs = ht.stamp key

/-- The surviving versions of each key carry one timestamp. -/
def Ht.CollectsSafely (ht : Ht) (minActiveTs : ℕ) : Prop :=
  ∀ key, ∀ u ∈ ht.versions key, ∀ v ∈ ht.versions key,
    minActiveTs ≤ u.endTs → minActiveTs ≤ v.endTs → u.beginTs = v.beginTs

/-- In an ordered table the conflict check compares with the newest timestamp. -/
theorem Ht.Ordered.conflictsAt_iff {ht : Ht} (h : ht.Ordered) (beginTs : ℕ) (key : Bytes) :
    conflictsAt ht beginTs key = true ↔ ∃ ts ∈ ht.stamp key, beginTs < ts := by
  have hfind : (ht.chain key).find? (fun v => decide (v.key = key)) = (ht.versions key).head? :=
    List.head?_filter.symm
  rw [← h key, conflictsAt, hfind]
  cases (ht.versions key).head? with
  | none => simp
  | some v => simp

/-- A new version is the newest one. -/
theorem stamp_htInsertVersion (ht : Ht) (commitTs : ℕ) (key key' : Bytes) (value : Slice) :
    (htInsertVersion ht commitTs key value).stamp key' =
      if key' = key then some commitTs else ht.stamp key' := by
  unfold Ht.stamp
  split
  · rename_i hkey
    subst hkey
    rw [versions_htInsertVersion_self,
      List.find?_cons_of_pos (by simp [Version.isLive, newVersion])]
    rfl
  · rename_i hkey
    rw [versions_htInsertVersion_other hkey]

/-- Inserting a version keeps the order. -/
theorem Ht.Ordered.insert {ht : Ht} (h : ht.Ordered) (commitTs : ℕ) (key : Bytes) (value : Slice) :
    (htInsertVersion ht commitTs key value).Ordered := by
  intro key'
  rw [stamp_htInsertVersion]
  split
  · rename_i hkey
    subst hkey
    rw [versions_htInsertVersion_self]
    rfl
  · rename_i hkey
    rw [versions_htInsertVersion_other hkey]
    exact h key'

/-- Inserting versions keeps the order. -/
theorem Ht.Ordered.insertEntries {ht : Ht} (h : ht.Ordered) (commitTs : ℕ) (es : List WriteEntry) :
    (insertEntries commitTs es ht).Ordered := by
  induction es generalizing ht with
  | nil => exact h
  | cons e es ih => exact ih (h.insert commitTs e.key e.value)

/-- The newest timestamps after a commit. -/
theorem stamp_insertEntries (commitTs : ℕ) (es : List WriteEntry) (ht : Ht) (key : Bytes) :
    (insertEntries commitTs es ht).stamp key =
      if ∃ e ∈ es, e.key = key then some commitTs else ht.stamp key := by
  induction es generalizing ht with
  | nil => simp [insertEntries]
  | cons e es ih =>
    have hrest := ih (htInsertVersion ht commitTs e.key e.value)
    rw [stamp_htInsertVersion] at hrest
    refine hrest.trans ?_
    by_cases hlater : ∃ e' ∈ es, e'.key = key
    · have hsome : ∃ e' ∈ e :: es, e'.key = key := by
        obtain ⟨e', he', hkey⟩ := hlater
        exact ⟨e', List.mem_cons_of_mem _ he', hkey⟩
      rw [if_pos hlater, if_pos hsome]
    · rw [if_neg hlater]
      by_cases hkey : key = e.key
      · rw [if_pos hkey, if_pos ⟨e, by simp, hkey.symm⟩]
      · rw [if_neg hkey, if_neg]
        rintro ⟨e', he', rfl⟩
        rcases List.mem_cons.mp he' with rfl | he'
        · exact hkey rfl
        · exact hlater ⟨e', he', rfl⟩

/-- Collection keeps the newest timestamps. -/
theorem stamp_htGc {ht : Ht} (h : ht.OneLive) {minActiveTs : ℕ} (hmin : minActiveTs ≤ tsMax)
    (key : Bytes) : (htGc ht minActiveTs).2.stamp key = ht.stamp key := by
  unfold Ht.stamp
  rw [find?_isLive_htGc h hmin]

/-- A safe collection keeps the order. -/
theorem Ht.Ordered.gc {ht : Ht} (h : ht.Ordered) (hone : ht.OneLive) {minActiveTs : ℕ}
    (hmin : minActiveTs ≤ tsMax) (hsafe : ht.CollectsSafely minActiveTs) :
    (htGc ht minActiveTs).2.Ordered := by
  intro key
  rw [stamp_htGc hone hmin]
  have hhead := h key
  cases hfirst : (ht.versions key).head? with
  | none =>
    rw [hfirst] at hhead
    rw [← hhead, versions_htGc, List.head?_eq_none_iff.mp hfirst]
    rfl
  | some first =>
    -- the live version survives, and every other survivor has its timestamp
    rw [hfirst, Ht.stamp] at hhead
    obtain ⟨v, hv, hstamp⟩ := Option.map_eq_some_iff.mp hhead.symm
    have hlive : v.endTs = tsMax := by simpa [Version.isLive] using List.find?_some hv
    have hmem : v ∈ ht.versions key := List.mem_of_find?_eq_some hv
    have hkept : v ∈ (htGc ht minActiveTs).2.versions key := by
      rw [versions_htGc, List.mem_reverse, List.mem_filter]
      exact ⟨hmem, by simp [Version.survives, hlive, hmin]⟩
    obtain ⟨u, hu⟩ : ∃ u, ((htGc ht minActiveTs).2.versions key).head? = some u := by
      cases hvs : (htGc ht minActiveTs).2.versions key with
      | nil =>
        rw [hvs] at hkept
        cases hkept
      | cons u us => exact ⟨u, rfl⟩
    have hsurvivor := List.mem_of_head? hu
    rw [versions_htGc, List.mem_reverse, List.mem_filter] at hsurvivor
    obtain ⟨humem, hends⟩ := hsurvivor
    have hends' : minActiveTs ≤ u.endTs := by simpa [Version.survives] using hends
    rw [hu, Ht.stamp, hv, Option.map_some, Option.map_some,
      hsafe key u humem v hmem hends' (by rw [hlive]; exact hmin)]

/-! ## Runs -/

/-- Some transaction has committed a write to the key after the given time. -/
def Overwritten (history : List Event) (beginTs : ℕ) (key : Bytes) : Prop :=
  ∃ ts writes, Event.commit ts writes ∈ history ∧ beginTs < ts ∧ ∃ e ∈ writes, e.key = key

/-- Garbage collection meets no key with survivors from different times. Other actions are
not restricted. -/
def CollectsSafely (s : Sys) : Action → Prop
  | .call _ => True
  | .gc | .checkpoint _ _ _ =>
    s.world.db.ht.CollectsSafely (oracleMinActive s.world.db.txnMgr.oracle)

/-- The invariant of runs that collect safely, from a database whose clock was `start`. -/
structure Sys.InOrder (start : ℕ) (s : Sys) : Prop where
  /-- The general invariant. -/
  sound : s.Sound
  /-- The log works. -/
  working : s.world.Working
  /-- The clock has not gone back. -/
  start_le : start ≤ s.clock
  /-- Transactions began in this run. -/
  begun : ∀ i txn, s.txn i = some txn → start ≤ txn.beginTs
  /-- Chains are in order. -/
  ordered : s.world.db.ht.Ordered
  /-- The newest timestamps are those of the commits. -/
  stamped : ∀ key beginTs, start ≤ beginTs →
    (Overwritten s.history beginTs key ↔ ∃ ts ∈ s.world.db.ht.stamp key, beginTs < ts)

/-- Collection of the engine keeps the order when it is safe. -/
theorem Sys.InOrder.gc {start : ℕ} {s : Sys} (h : s.InOrder start) (hclock : s.clock + 1 < tsMax)
    (hsafe : s.world.db.ht.CollectsSafely (oracleMinActive s.world.db.txnMgr.oracle)) :
    s.world.gc.db.ht.Ordered ∧ ∀ key, s.world.gc.db.ht.stamp key = s.world.db.ht.stamp key := by
  have hmin : oracleMinActive s.world.db.txnMgr.oracle ≤ tsMax := by
    have hle := oracleMinActive_le s.world.db.txnMgr.oracle
    have hsame : s.world.db.txnMgr.oracle.clock = s.clock := rfl
    omega
  exact ⟨h.ordered.gc h.sound.oneLive hmin hsafe, stamp_htGc h.sound.oneLive hmin⟩

/-- A checkpoint is not a commit. -/
theorem overwritten_append_checkpoint {history : List Event} {ts beginTs : ℕ} {snapId : Uuid}
    {key : Bytes} {P : Prop} [Decidable P] :
    Overwritten (history ++ if P then [.checkpoint ts snapId] else []) beginTs key ↔
      Overwritten history beginTs key := by
  unfold Overwritten
  split <;> simp

/-- A commit at the clock. -/
theorem overwritten_append_commit {history : List Event} {ts beginTs : ℕ} {writes : List WriteEntry}
    {key : Bytes} :
    Overwritten (history ++ [.commit ts writes]) beginTs key ↔
      Overwritten history beginTs key ∨ (beginTs < ts ∧ ∃ e ∈ writes, e.key = key) := by
  unfold Overwritten
  constructor
  · rintro ⟨ts', writes', hmem, hlt, hkey⟩
    rcases List.mem_append.mp hmem with hmem | hmem
    · exact Or.inl ⟨ts', writes', hmem, hlt, hkey⟩
    · cases List.mem_singleton.mp hmem
      exact Or.inr ⟨hlt, hkey⟩
  · rintro (⟨ts', writes', hmem, hlt, hkey⟩ | ⟨hlt, hkey⟩)
    · exact ⟨ts', writes', List.mem_append_left _ hmem, hlt, hkey⟩
    · exact ⟨ts, writes, by simp, hlt, hkey⟩

/-- Commits of the history are older than the clock. -/
theorem Sys.InOrder.lt_clock {start : ℕ} {s : Sys} (h : s.InOrder start) {key : Bytes}
    {beginTs : ℕ} (hstamp : ∃ ts ∈ s.world.db.ht.stamp key, beginTs < ts) : beginTs < s.clock := by
  obtain ⟨ts, hts, hlt⟩ := hstamp
  obtain ⟨v, hv, rfl⟩ := Option.map_eq_some_iff.mp hts
  exact hlt.trans (h.sound.bounded key v (List.mem_of_find?_eq_some hv)).1

/-- Chains and timestamps after a safe step. -/
theorem Sys.InOrder.effect {start : ℕ} {s : Sys} {a : Action} {r : Err × Sys} (h : s.InOrder start)
    (hclock : s.clock + 1 < tsMax) (hsafe : CollectsSafely s a) (heffect : Effect s a r) :
    r.2.world.db.ht.Ordered ∧ ∀ key beginTs, start ≤ beginTs →
      (Overwritten r.2.history beginTs key ↔ ∃ ts ∈ r.2.world.db.ht.stamp key, beginTs < ts) := by
  cases heffect with
  | manager mgr hmgr hworld hhistory =>
    rw [hworld, hhistory]
    exact ⟨h.ordered, h.stamped⟩
  | @applied i txn _ mgr hopen happlies hrc hmgr hworld hhistory =>
    obtain ⟨hok, -⟩ := dbApplyWriteSet_working s.clock txn.writes s.world.drawn h.working
    have hht : r.2.world.db.ht = insertEntries s.clock txn.writes s.world.db.ht := by
      rw [hworld]
      exact ht_dbApplyWriteSet h.working txn.writes
    rw [hht, hhistory, if_pos hok]
    refine ⟨h.ordered.insertEntries _ _, fun key beginTs hstart => ?_⟩
    rw [overwritten_append_commit, stamp_insertEntries, h.stamped key beginTs hstart]
    by_cases hkey : ∃ e ∈ txn.writes, e.key = key
    · rw [if_pos hkey]
      constructor
      · rintro (hstamp | ⟨hlt, -⟩)
        · exact ⟨s.clock, rfl, h.lt_clock hstamp⟩
        · exact ⟨s.clock, rfl, hlt⟩
      · rintro ⟨ts, hts, hlt⟩
        cases hts
        exact Or.inr ⟨hlt, hkey⟩
    · rw [if_neg hkey]
      simp only [hkey, and_false, or_false]
  | collected hworld hhistory =>
    obtain ⟨hordered, hstamp⟩ := h.gc hclock hsafe
    rw [hworld, hhistory]
    refine ⟨hordered, fun key beginTs hstart => ?_⟩
    rw [hstamp]
    exact h.stamped key beginTs hstart
  | @checkpointed snapId segId now _ hrc hworld hhistory =>
    obtain ⟨hordered, hstamp⟩ := h.gc hclock hsafe
    obtain ⟨wal, n, hdb⟩ := fastkvCheckpoint_db h.sound.ttl snapId segId now
    have hht : r.2.world.db.ht.Ordered ∧
        ∀ key, r.2.world.db.ht.stamp key = s.world.db.ht.stamp key := by
      rw [hworld]
      rcases hdb with hdb | hdb
      · rw [hdb]
        exact ⟨h.ordered, fun _ => rfl⟩
      · rw [hdb]
        exact ⟨hordered, hstamp⟩
    refine ⟨hht.1, fun key beginTs hstart => ?_⟩
    rw [hht.2, hhistory, overwritten_append_checkpoint]
    exact h.stamped key beginTs hstart

/-- A safe step keeps the invariant. -/
theorem Sys.InOrder.step {start : ℕ} {s : Sys} {a : Action} (h : s.InOrder start)
    (hclock : s.clock + 1 < tsMax) (hsafe : CollectsSafely s a) :
    (FastKV.step s a).2.InOrder start := by
  obtain ⟨hsound, hle, -⟩ := h.sound.step hclock a
  have heffect := step_effect (fun i txn hopen => (h.sound.txns i txn hopen).readOnly) a
  obtain ⟨hordered, hstamped⟩ := h.effect hclock hsafe heffect
  refine ⟨hsound, h.sound.step_working h.working a, h.start_le.trans hle, fun i txn hopen => ?_,
    hordered, hstamped⟩
  rcases step_txns s a hopen with ⟨txn₀, hopen₀, hext⟩ | ⟨-, hts, -, -⟩
  · rw [hext.beginTs]
    exact h.begun i txn₀ hopen₀
  · rw [hts]
    exact h.start_le

/-- A database that was just opened. -/
theorem Sys.InOrder.start {opts : Opts} {fresh : Uuid} {disk : Disk} {w : World}
    (hintact : Intact opts disk.files) (hquiet : disk.Quiet)
    (h : fastkvOpen opts fresh disk = .ok w) : (Sys.start w).InOrder w.db.clock := by
  have hsound := Sys.Sound.start hintact h
  refine ⟨hsound, fastkvOpen_working hquiet h, Nat.le_refl _, fun i txn hopen => ?_, ?_,
    fun key beginTs hstart => ?_⟩
  · simp [Sys.txn, Sys.start] at hopen
  · refine fastkvOpen_induction (P := Ht.Ordered) hintact h (fun key => ?_)
      fun ht commitTs key value _ _ hordered => hordered.insert commitTs key value
    rw [Opts.stores, Ht.stamp, versions_htCreate]
    rfl
  · apply iff_of_false
    · rintro ⟨ts, writes, hmem, _⟩
      cases hmem
    · rintro ⟨ts, hts, hlt⟩
      obtain ⟨v, hv, rfl⟩ := Option.map_eq_some_iff.mp hts
      have hold := (hsound.bounded key v (List.mem_of_find?_eq_some hv)).1
      have hsame : (Sys.start w).clock = w.db.clock := rfl
      omega

/-- In a state with ordered chains a commit is refused exactly when a written key has been
overwritten since the transaction began. -/
theorem Sys.InOrder.commit_iff {start : ℕ} {s : Sys} (h : s.InOrder start) {i : ℕ} {txn : Txn}
    (hopen : s.txn i = some txn) (hrw : txn.readOnly = false) :
    (FastKV.step s (.call (.commit i))).1 = .txnConflict ↔
      ∃ e ∈ txn.writes, Overwritten s.history txn.beginTs e.key := by
  have hcheck : dbCheckConflicts s.world.db txn.writes txn.beginTs = .ok ↔
      ¬ ∃ e ∈ txn.writes, Overwritten s.history txn.beginTs e.key := by
    have hany : (txn.writes.any fun e => conflictsAt s.world.db.ht txn.beginTs e.key) = true ↔
        ∃ e ∈ txn.writes, Overwritten s.history txn.beginTs e.key := by
      rw [List.any_eq_true]
      refine exists_congr fun e => and_congr_right fun _ => ?_
      rw [h.ordered.conflictsAt_iff, h.stamped _ _ (h.begun i txn hopen)]
    rw [← hany]
    unfold dbCheckConflicts
    split
    · rename_i hc
      simp [hc]
    · rename_i hc
      simp [hc]
  have hstep : (FastKV.step s (.call (.commit i))).1 = (txnCommit s.world txn).1 := by
    simp only [FastKV.step, callStep, hopen]
    rfl
  rw [hstep]
  rcases txnCommit_cases s.world txn with ⟨hrefusal, -⟩ | ⟨happlies, hrc, -⟩
  · generalize (txnCommit s.world txn).1 = rc at hrefusal
    cases hrefusal with
    | closed hstate => exact absurd (h.sound.txns i txn hopen).active hstate
    | nothing _ hnothing =>
      have hnil : txn.writes = [] := hnothing.resolve_left (by simp [hrw])
      simp [hnil]
    | conflict _ _ hconflict =>
      rw [ne_eq, hcheck, not_not] at hconflict
      exact iff_of_true rfl hconflict
  · obtain ⟨hok, -⟩ := dbApplyWriteSet_working s.clock txn.writes s.world.drawn h.working
    have hnone := hcheck.mp happlies.noConflict
    rw [hrc]
    refine iff_of_false (fun hc => ?_) hnone
    have hok' : (dbApplyWriteSet s.world.db.clock txn.writes s.world.drawn).1 = .ok := hok
    rw [hok'] at hc
    cases hc

/-- A commit is refused exactly when another transaction has committed a write to one of its
keys since it began, in every run whose garbage collections find, for each key, survivors of
one timestamp only. -/
theorem commit_conflict_iff {opts : Opts} {fresh : Uuid} {disk : Disk} {w : World}
    (hintact : Intact opts disk.files) (hquiet : disk.Quiet)
    (hopened : fastkvOpen opts fresh disk = .ok w) (actions : List Action)
    (hlength : w.db.clock + actions.length < tsMax)
    (hsafe : Always CollectsSafely (Sys.start w) actions) {i : ℕ} {txn : Txn}
    (hopen : (run (Sys.start w) actions).txn i = some txn) (hrw : txn.readOnly = false) :
    (step (run (Sys.start w) actions) (.call (.commit i))).1 = .txnConflict ↔
      ∃ e ∈ txn.writes, Overwritten (run (Sys.start w) actions).history txn.beginTs e.key :=
  have hstep : ∀ s a, Sys.InOrder w.db.clock s → s.clock + 1 < tsMax → CollectsSafely s a →
      Sys.InOrder w.db.clock (step s a).2 := fun _ _ h hclock hp => h.step hclock hp
  have hrun := run_induction_of_clock (fun _ h => h.sound) hstep actions _
    (Sys.InOrder.start hintact hquiet hopened) hlength hsafe
  hrun.1.commit_iff hopen hrw

/-- Two transactions that write the same key at once, after a first commit to it and a
garbage collection. -/
def twoWriters : List Action :=
  [.call (.begin false), .call (.put 0 [1] (some [10])), .call (.commit 0), .gc,
    .call (.begin false), .call (.put 1 [1] (some [20])),
    .call (.begin false), .call (.put 2 [1] (some [30])), .call (.commit 2)]

/-- The first of the two, after the other has committed. -/
def lateWriter : Txn := ⟨3, tsInvalid, .active, false, some 0, [⟨[1], some [20]⟩], 1⟩

/-- The second commit is refused. -/
theorem commit_conflict_of_twoWriters :
    (step (run (Sys.start newWorld) twoWriters) (.call (.commit 1))).1 = .txnConflict := by
  have hopen : (run (Sys.start newWorld) twoWriters).txn 1 = some lateWriter := by decide +kernel
  refine (commit_conflict_iff (intact_empty oneBucket) (fun _ h => by cases h) newWorld_opened
    twoWriters (by decide) ?_ hopen rfl).mpr ?_
  · refine ⟨trivial, trivial, trivial, fun key u hu v hv _ _ => ?_, trivial, trivial, trivial,
      trivial, trivial, trivial⟩
    -- there is one version in the table
    have hone : ∀ u ∈ (run (Sys.start newWorld) (twoWriters.take 3)).world.db.ht.versions key,
        u.beginTs = 2 := by
      intro u hu
      obtain ⟨chain, hchain, hmem⟩ := Ht.exists_bucket_of_mem_versions hu
      have hall : ∀ chain ∈ (run (Sys.start newWorld) (twoWriters.take 3)).world.db.ht.buckets,
          ∀ u ∈ chain, u.beginTs = 2 := by decide +kernel
      exact hall chain (List.mem_of_getElem? hchain) u hmem
    rw [hone u hu, hone v hv]
  · exact ⟨⟨[1], some [20]⟩, by decide, 5, [⟨[1], some [30]⟩], by decide +kernel,
      by decide, by decide⟩

/-- A garbage collection between the two commits puts the overwritten version first, and the
second commit succeeds: the update of the first one is lost. -/
theorem lost_update_after_gc :
    ∃ txn, (run (Sys.start newWorld) (twoWriters ++ [.gc])).txn 1 = some txn ∧
      txn.readOnly = false ∧
      (∃ e ∈ txn.writes,
        Overwritten (run (Sys.start newWorld) (twoWriters ++ [.gc])).history txn.beginTs e.key) ∧
      (step (run (Sys.start newWorld) (twoWriters ++ [.gc])) (.call (.commit 1))).1 = .ok :=
  ⟨lateWriter, by decide +kernel, rfl, ⟨⟨[1], some [20]⟩, by decide, 5, [⟨[1], some [30]⟩],
    by decide +kernel, by decide, by decide⟩, by decide +kernel⟩

end FastKV
