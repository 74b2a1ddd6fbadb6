import FastKV.Durable

/-!
# The cut that a checkpoint makes

The snapshot of a checkpoint carries the clock as its timestamp, and replay skips the records
that are not newer. The clock is also the next timestamp to be handed out: a transaction that
commits right after the checkpoint is stamped with the timestamp of the snapshot, and its
records are skipped. When a transaction begins in between, the cut is clean.
-/

namespace FastKV

/-- Opening the directory loads the snapshot of the checkpoint and applies the commits after
it again. -/
structure Reapplies (files : Files) (ts : ℕ) (id : Uuid) (after : List Event) : Prop where
  /-- The snapshot is the one of the checkpoint. -/
  picked : findLatestSnapshot files = some (snapName id.hex)
  /-- It loads, with its timestamp. -/
  loads : ∀ opts : Opts, ∃ s, snapshotLoad files opts.stores = (.ok, s, ts)
  /-- Replay delivers the records of the later commits. -/
  delivers : (delivered ts files).map Record.content =
    (after.flatMap Event.records).map Record.content
  /-- Opening applies them to what was loaded. -/
  applies : ∀ (opts : Opts) (fresh : Uuid), ∃ w, fastkvOpen opts fresh ⟨files, [], []⟩ = .ok w ∧
    w.db.ht = ((after.flatMap Event.records).foldl (fun s r => replayRecord r s)
      (snapshotLoad files opts.stores).2.1).ht

/-- The directory of a database in good order, once the log is synced. -/
theorem Durable.reapplies {s : Sys} {wal : Wal} {snap : Option Snap}
    {older : List (Uuid × List Record)} {segId : Uuid} {cur : List Record}
    (h : Durable s wal snap older segId cur) {before after : List Event} {ts : ℕ} {id : Uuid}
    (hsplit : s.history = before ++ .checkpoint ts id :: after)
    (hlast : ∀ ts' id', .checkpoint ts' id' ∉ after) : Reapplies s.syncedFiles ts id after := by
  obtain ⟨log, -, hfiles, hholds, hbuf, -, hsnap, -⟩ := h.synced
  have hfollowed := h.followed_eq
  rw [hsplit, followed_of_last before ts id hlast] at hfollowed
  cases snap with
  | none => cases hfollowed
  | some sn =>
    simp only [Option.map_some, Prod.mk.injEq, Option.some.injEq] at hfollowed
    obtain ⟨⟨rfl, rfl⟩, hrecords⟩ := hfollowed
    have hlog := hholds.segmentLog hbuf
    have hcontent := hlog.delivered_content sn.ts
    have hwanted : ((older ++ [(segId, cur)]).flatMap Prod.snd).filter
        (Record.wanted (snapTs (some sn))) = after.flatMap Event.records := by
      rw [hrecords]
      simp [snapTs]
    rw [show sn.ts = snapTs (some sn) from rfl, hwanted] at hcontent
    rw [hfiles]
    refine ⟨Snap.In.find hsnap, fun opts => ⟨_, hsnap.load opts.stores⟩, hcontent,
      fun opts fresh => ?_⟩
    obtain ⟨w, hopen⟩ := hsnap.open_ok opts fresh
    have hopened := hlog.opened_eq hsnap (rfl : (⟨log.disk.files, [], []⟩ : Disk).files = _) hopen
    rw [hwanted] at hopened
    refine ⟨w, hopen, ?_⟩
    rw [hsnap.load]
    exact congrArg Stores.ht hopened

/-! ## Calls between checkpoints -/

/-- Whether a transaction has begun since the last checkpoint, after one more action; `drawn`
says it for the actions before. -/
def drawnAfter (drawn : Bool) (s : Sys) : Action → Bool
  | .call (.begin readOnly) => drawn || decide ((callStep s (.begin readOnly)).1 = .ok)
  | .checkpoint _ _ _ => false
  | _ => drawn

/-- The order of the calls: after a checkpoint a transaction begins before the next one commits
its writes. Identifiers for new files are larger than those in the directory. -/
def CommitsDrawn (drawn : Bool) (s : Sys) : Action → Prop
  | .call (.commit i) => ∀ txn, s.txn i = some txn → Applies s.world txn → drawn = true
  | .checkpoint snapId segId _ => NamesGrow s.world.disk.files snapId segId
  | _ => True

/-- The states of a database over its whole life, in runs whose calls are in this order and
that are short enough for the clock. A database that was just opened needs no transaction to
begin. -/
inductive Lived : Bool → Sys → Prop
  /-- A database in an empty directory. -/
  | created {opts : Opts} {fresh : Uuid} {w : World} : opts.readOnly = false →
      fastkvOpen opts fresh ⟨∅, [], []⟩ = .ok w → Lived true (Sys.start w)
  /-- An action. -/
  | stepped {drawn : Bool} {s : Sys} (a : Action) : Lived drawn s → s.clock + 1 < tsMax →
      CommitsDrawn drawn s a → Lived (drawnAfter drawn s a) (step s a).2
  /-- The process ends after the log is synced, and the directory is opened again. -/
  | reopened {drawn : Bool} {s : Sys} {opts : Opts} {fresh : Uuid} {w : World} : Lived drawn s →
      opts.readOnly = false → fastkvOpen opts fresh ⟨s.syncedFiles, [], []⟩ = .ok w →
      Lived true ⟨w, [], s.history⟩

/-- The clock has passed every checkpoint. -/
def Sys.Passed (s : Sys) : Prop := ∀ ts id, .checkpoint ts id ∈ s.history → ts < s.clock

/-- A transaction that begins moves the clock. -/
theorem clock_begin {s : Sys} {readOnly : Bool} (hclock : s.clock + 1 < tsMax)
    (h : (callStep s (.begin readOnly)).1 = .ok) :
    (callStep s (.begin readOnly)).2.clock = s.clock + 1 := by
  simp only [callStep] at h ⊢
  split at h
  · rename_i rc hbegin
    cases h
    unfold txnBegin at hbegin
    split at hbegin <;> cases hbegin
  · rename_i txn db hbegin
    obtain ⟨-, -, -, -, -, -, hnext, -⟩ := txnBegin_spec hbegin
    show db.clock = s.clock + 1
    rw [hnext]
    exact add64_eq (by unfold tsMax at hclock; unfold Sys.clock at hclock; omega)

/-- An action that is no checkpoint adds none to the history. -/
theorem checkpoint_mem_step {s : Sys} (hsound : s.Sound) {a : Action}
    (ha : ∀ snapId segId now, a ≠ .checkpoint snapId segId now) {ts : ℕ} {id : Uuid}
    (h : .checkpoint ts id ∈ (step s a).2.history) : .checkpoint ts id ∈ s.history := by
  have heffect := step_effect (fun i txn hopen => (hsound.txns i txn hopen).readOnly) a
  generalize step s a = r at heffect h
  cases heffect with
  | manager mgr hmgr hworld hhistory => rwa [hhistory] at h
  | applied mgr hopen happlies hrc hmgr hworld hhistory =>
    rw [hhistory] at h
    rcases List.mem_append.mp h with h | h
    · exact h
    · split at h
      · cases List.mem_singleton.mp h
      · exact absurd h List.not_mem_nil
  | collected hworld hhistory => rwa [hhistory] at h
  | checkpointed => exact absurd rfl (ha _ _ _)

/-- The clock stays past the checkpoints, and passes the last one when a transaction begins. -/
theorem Sys.Passed.step {drawn : Bool} {s : Sys} (hpassed : drawn = true → s.Passed)
    (hsound : s.Sound) (hchronicle : Chronicle s.clock s.history) (hclock : s.clock + 1 < tsMax)
    {a : Action} (h : drawnAfter drawn s a = true) : (FastKV.step s a).2.Passed := by
  intro ts id hmem
  by_cases hcheckpoint : ∃ snapId segId now, a = .checkpoint snapId segId now
  · obtain ⟨snapId, segId, now, rfl⟩ := hcheckpoint
    cases h
  have hold := checkpoint_mem_step hsound (fun i j n heq => hcheckpoint ⟨i, j, n, heq⟩) hmem
  have hle : s.clock ≤ (FastKV.step s a).2.clock := (hsound.step hclock a).2.1
  have hdrawn : drawn = true → ts < (FastKV.step s a).2.clock := fun hd =>
    (hpassed hd ts id hold).trans_le hle
  match a with
  | .call (.begin readOnly) =>
    by_cases hok : (callStep s (.begin readOnly)).1 = .ok
    · have hmoved : (FastKV.step s (.call (.begin readOnly))).2.clock = s.clock + 1 :=
        clock_begin hclock hok
      have hts : ts ≤ s.clock := hchronicle.checkpoints ts id hold
      omega
    · rw [drawnAfter, decide_eq_false hok, Bool.or_false] at h
      exact hdrawn h
  | .call (.get _ _) => exact hdrawn h
  | .call (.put _ _ _) => exact hdrawn h
  | .call (.delete _ _) => exact hdrawn h
  | .call (.commit _) => exact hdrawn h
  | .call (.abort _) => exact hdrawn h
  | .gc => exact hdrawn h
  | .checkpoint snapId segId now => exact absurd ⟨snapId, segId, now, rfl⟩ hcheckpoint

/-- A database that is opened again is past its checkpoints. -/
theorem Durable.passed_reopened {s : Sys} {wal : Wal} {snap : Option Snap}
    {older : List (Uuid × List Record)} {segId : Uuid} {cur : List Record}
    (h : Durable s wal snap older segId cur) {opts : Opts} {fresh : Uuid} {w : World}
    (hopen : fastkvOpen opts fresh ⟨s.syncedFiles, [], []⟩ = .ok w) :
    Sys.Passed ⟨w, [], s.history⟩ := by
  intro ts id hmem
  obtain ⟨log, -, hfiles, hholds, hbuf, -, hsnap, -⟩ := h.synced
  rw [hfiles] at hopen
  have hlog := hholds.segmentLog hbuf
  have hts : ∀ r ∈ (older ++ [(segId, cur)]).flatMap Prod.snd, r.ts < tsMax := by
    intro r hr
    exact (h.stamps r (by simpa using hr)).1.trans_le h.clock_le
  obtain ⟨hclock, -⟩ := hlog.clock_open hsnap (Nat.le_refl _) hsnap.ts_lt hts hopen
  obtain ⟨last, hlast, hle⟩ := h.chronicle.dated.2 ts id hmem
  rw [h.followed_eq] at hlast
  cases snap with
  | none => cases hlast
  | some sn =>
    cases hlast
    exact hle.trans_lt hclock

/-- When the calls are in order, the clock has passed every checkpoint at every commit. -/
theorem Lived.served {drawn : Bool} {s : Sys} (h : Lived drawn s) :
    Served AfterCheckpoint s ∧ (drawn = true → s.Passed) := by
  induction h with
  | created hro hopen =>
    exact ⟨.created hro hopen, fun _ ts id hmem => absurd hmem List.not_mem_nil⟩
  | @stepped drawn s a _ hclock ha ih =>
    obtain ⟨hserved, hpassed⟩ := ih
    obtain ⟨wal, snap, older, id, cur, hdurable⟩ := hserved.durable fun _ _ ha => ha
    refine ⟨hserved.stepped a hclock ?_, fun hdrawn =>
      Sys.Passed.step hpassed hdurable.sound hdurable.chronicle hclock hdrawn⟩
    match a with
    | .call (.commit i) => exact fun txn hopen happlies => hpassed (ha txn hopen happlies)
    | .checkpoint _ _ _ => exact ha
    | .call (.begin _) => trivial
    | .call (.get _ _) => trivial
    | .call (.put _ _ _) => trivial
    | .call (.delete _ _) => trivial
    | .call (.abort _) => trivial
    | .gc => trivial
  | reopened _ hro hopen ih =>
    obtain ⟨wal, snap, older, id, cur, hdurable⟩ := ih.1.durable fun _ _ ha => ha
    exact ⟨ih.1.reopened hro hopen, fun _ => hdurable.passed_reopened hopen⟩

/-- A call that begins no transaction and commits nothing leaves the clock and the events. -/
theorem clock_callStep {s : Sys} {c : Call}
    (hbegin : ∀ readOnly, c = .begin readOnly → (callStep s c).1 ≠ .ok)
    (hcommit : ∀ i txn, c = .commit i → s.txn i = some txn → ¬ Applies s.world txn) :
    (callStep s c).2.clock = s.clock ∧ s.history ⊆ (callStep s c).2.history := by
  rcases callStep_cases s c with ⟨hworld, hhistory⟩ | ⟨readOnly, txn, db, rfl, hok, -⟩ |
    ⟨i, txn, rfl, hopen, heq⟩ | ⟨i, txn, -, -, hworld, hhistory⟩
  · exact ⟨congrArg (fun w : World => w.db.clock) hworld, fun e he => hhistory ▸ he⟩
  · refine absurd ?_ (hbegin readOnly rfl)
    simp only [callStep, hok]
  · rcases txnCommit_cases s.world txn with ⟨-, mgr, hmgr, hworld⟩ | ⟨happlies, -⟩
    · rw [heq]
      refine ⟨?_, fun e he => List.mem_append_left _ he⟩
      show (txnCommit s.world txn).2.1.db.clock = s.clock
      rw [hworld]
      exact hmgr
    · exact absurd happlies (hcommit i txn rfl hopen)
  · refine ⟨?_, fun e he => hhistory ▸ he⟩
    rw [Sys.clock, hworld]
    exact (s.world.abort_db txn).2.2.1

/-- When no transaction has begun since the last checkpoint, the clock still shows its
timestamp, and a commit would be stamped with it. -/
theorem Lived.stamped {s : Sys} (h : Lived false s) :
    ∃ id, .checkpoint s.clock id ∈ s.history := by
  generalize hfalse : false = drawn at h
  induction h with
  | created => cases hfalse
  | reopened => cases hfalse
  | @stepped drawn s a hlived hclock ha ih =>
    obtain ⟨wal, snap, older, id, cur, hdurable⟩ := hlived.served.1.durable fun _ _ ha => ha
    match a with
    | .checkpoint snapId segId now =>
      obtain ⟨log, wal', n, -, hrc, hdb, -⟩ := hdurable.checkpoint_ok (by omega) ha now
      have hsame : (step s (.checkpoint snapId segId now)).2.clock = s.clock := by
        show (fastkvCheckpoint s.world snapId segId now).2.db.clock = s.clock
        rw [hdb]
        rfl
      refine ⟨snapId, ?_⟩
      rw [hsame]
      show _ ∈ s.history ++ _
      rw [if_pos ⟨hrc, by rw [hdurable.wal_eq]; rfl⟩]
      exact List.mem_append_right _ (List.mem_singleton.mpr rfl)
    | .gc => exact ih hfalse
    | .call c =>
      have hdrawn : drawn = false := by
        cases c <;> simp_all [drawnAfter]
      have hbegin : ∀ readOnly, c = .begin readOnly → (callStep s c).1 ≠ .ok := by
        rintro readOnly rfl hok
        simp [drawnAfter, hok] at hfalse
      have hcommit : ∀ i txn, c = .commit i → s.txn i = some txn → ¬ Applies s.world txn := by
        rintro i txn rfl hopen happlies
        cases hdrawn.symm.trans (ha txn hopen happlies)
      obtain ⟨hsame, hkept⟩ := clock_callStep hbegin hcommit
      obtain ⟨id, hid⟩ := ih hdrawn.symm
      refine ⟨id, ?_⟩
      rw [show (step s (.call c)).2.clock = s.clock from hsame]
      exact hkept hid

/-! ## The cut -/

/-- In every life of a database in which a transaction begins between a checkpoint and the
next commit, a checkpoint separates the commits: those before it are not later than its
timestamp, those after it are later, and opening the directory applies the latter again. -/
theorem checkpoint_separates_commits {drawn : Bool} {s : Sys} (h : Lived drawn s)
    {before after : List Event} {ts : ℕ} {id : Uuid}
    (hsplit : s.history = before ++ .checkpoint ts id :: after) :
    (∀ ts' writes, .commit ts' writes ∈ before → ts' ≤ ts) ∧
      (∀ ts' writes, .commit ts' writes ∈ after → ts < ts') ∧
      ((∀ ts' id', .checkpoint ts' id' ∉ after) → Reapplies s.syncedFiles ts id after) := by
  obtain ⟨wal, snap, older, segId, cur, hdurable⟩ := h.served.1.durable fun _ _ ha => ha
  have hordered := hdurable.chronicle.ordered
  rw [hsplit] at hordered
  obtain ⟨-, hafter, hbefore⟩ := List.pairwise_append.mp hordered
  refine ⟨fun ts' writes hmem => ?_, fun ts' writes hmem => ?_, hdurable.reapplies hsplit⟩
  · exact hbefore _ hmem (.checkpoint ts id) (by simp)
  · exact (List.pairwise_cons.mp hafter).1 _ hmem

/-- A checkpoint while a transaction is open. -/
def openAcrossCheckpoint : List Action :=
  [.call (.begin false), .call (.put 0 [1] (some [10])), .checkpoint secondId secondId 0]

/-- When another transaction begins before the open one commits, its commit is recovered. -/
theorem checkpoint_separates_open_transaction :
    Reapplies (run (Sys.start newWorld)
      (openAcrossCheckpoint ++ [.call (.begin false), .call (.commit 0)])).syncedFiles 2 secondId
      [.commit 3 [⟨[1], some [10]⟩]] := by
  have hsplit : (run (Sys.start newWorld)
      (openAcrossCheckpoint ++ [.call (.begin false), .call (.commit 0)])).history =
        [] ++ .checkpoint 2 secondId :: [.commit 3 [⟨[1], some [10]⟩]] := by decide +kernel
  have hnames : NamesGrow (run (Sys.start newWorld)
      (openAcrossCheckpoint.take 2)).world.disk.files secondId secondId :=
    .of_keys [firstId] (by decide +kernel) (by decide)
  have hwritten := ((Lived.created rfl newWorld_opened).stepped (.call (.begin false))
    (by decide) trivial).stepped (.call (.put 0 [1] (some [10]))) (by decide) trivial
  have hcut := hwritten.stepped (.checkpoint secondId secondId 0) (by decide) hnames
  have hbegun := hcut.stepped (.call (.begin false)) (by decide +kernel) trivial
  have hlived := hbegun.stepped (.call (.commit 0)) (by decide +kernel)
    fun txn _ _ => by decide +kernel
  exact (checkpoint_separates_commits hlived hsplit).2.2 (by simp)

/-- When the open transaction commits right after the checkpoint, it is stamped with the
timestamp of the snapshot, and opening the directory loses it. -/
theorem commit_after_checkpoint_is_lost :
    (run (Sys.start newWorld) (openAcrossCheckpoint ++ [.call (.commit 0)])).history =
        [.checkpoint 2 secondId, .commit 2 [⟨[1], some [10]⟩]] ∧
      delivered 2 (run (Sys.start newWorld)
        (openAcrossCheckpoint ++ [.call (.commit 0)])).syncedFiles = [] := by
  decide +kernel

end FastKV
