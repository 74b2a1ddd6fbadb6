import FastKV.StoreRuns
import FastKV.FirstCommitter
import FastKV.Threads
import FastKV.VersionMap

/-!
# Snapshot isolation between threads

A transaction reads the versions whose intervals contain its timestamp. A commit draws its
timestamp before it installs its versions, so a transaction that begins in between is later
than versions which do not exist yet: they appear under its eyes, one by one. If no
transaction begins while a commit is being applied, the timestamps agree with the order in
which commits take effect. Then every transaction reads from the commits before it, complete,
for as long as it runs, and a write that has overtaken it is found by the conflict check.
-/

namespace FastKV

open Lib

/-! ## Phases of a commit -/

/-- The records of the entries that a commit has still to apply. -/
def Phase.rest : Phase → List Record
  | .applying txn rest => rest.map fun e => e.record txn.commitTs
  | .logged txn e rest => (e :: rest).map fun e => e.record txn.commitTs
  | _ => []

/-- The commit lock is held. -/
def Phase.committing : Phase → Bool
  | .checked _ | .applying _ _ | .logged _ _ _ | .failed _ _ => true
  | _ => false

/-- A transaction that only reads has not written, and no entry has failed to be logged. -/
def Phase.Fair : Phase → Prop
  | .active txn => txn.readOnly = true → txn.writes = []
  | .failed _ _ => False
  | _ => True

/-- The records that the holder of the commit lock has still to apply. -/
def Threads.rest (s : Threads) : List Record := (s.lock.map fun t => (s.phase t).rest).getD []

/-- Nothing is left to apply if no transaction has anything left. -/
theorem Threads.rest_eq_nil {s : Threads} (h : ∀ t, (s.phase t).rest = []) : s.rest = [] := by
  unfold Threads.rest
  cases s.lock with
  | none => rfl
  | some t => exact h t

/-- What the holder of the commit lock has left. -/
theorem Threads.rest_eq {s : Threads} {t : ℕ} (h : s.lock = some t) :
    s.rest = (s.phase t).rest := by
  rw [Threads.rest, h]
  rfl

/-- What it has left after it proceeded. -/
theorem Threads.rest_to {s : Threads} {t : ℕ} (h : s.lock = some t) (p : Phase) :
    (s.to t p).rest = p.rest := by
  rw [Threads.rest_eq (show (s.to t p).lock = some t from h), Threads.to_phase, if_pos rfl]

/-- Only a commit has something left to apply. -/
theorem Phase.committing_of_mem {p : Phase} {r : Record} (h : r ∈ p.rest) :
    p.committing = true := by
  cases p with
  | applying => rfl
  | logged => rfl
  | _ => cases h

/-- If only the holder of the commit lock commits, no other transaction has something left to
apply. -/
theorem Threads.eq_of_rest {s : Threads}
    (hholder : ∀ t, (s.phase t).committing = true → s.lock = some t) {t t' : ℕ}
    (hlock : s.lock = some t) {r : Record} (hr : r ∈ (s.phase t').rest) : t' = t := by
  have hother := hholder t' (Phase.committing_of_mem hr)
  rw [hlock] at hother
  exact (Option.some.inj hother).symm

/-- After an entry is applied, no transaction has more left than before. -/
theorem Threads.rest_of_installed {s : Threads} {t : ℕ} {txn : Txn} {e : WriteEntry}
    {rest : List WriteEntry} (hphase : s.phase t = .logged txn e rest) {world : World} {t' : ℕ}
    {r : Record}
    (hr : r ∈ ((({ s with world } : Threads).to t (.applying txn rest)).phase t').rest) :
    r ∈ (s.phase t').rest := by
  refine Threads.to_all (P := fun t' q => ∀ r ∈ q.rest, r ∈ (s.phase t').rest) (fun r hr => ?_)
    (fun t' _ r hr => hr) t' r hr
  rw [hphase]
  exact List.mem_cons_of_mem _ hr

/-- The records of commits. -/
def commitRecords (commits : List (ℕ × List WriteEntry)) : List Record :=
  commits.flatMap fun c => c.2.map fun e => e.record c.1

/-- No transaction begins while a commit is between its timestamp and its last entry, and there
is no garbage collection. -/
def BeginsApart (s : Threads) : ThreadStep → Prop
  | .draw _ _ => ∀ t, (s.phase t).rest = []
  | .collect _ => False
  | _ => True

/-! ## The invariant -/

/-- The invariant of such schedules, from a database with the map `base`. -/
structure Threads.Isolated (base : Bytes → Slice) (s : Threads) : Prop where
  /-- Versions are older than the clock. -/
  bounded : s.ht.Bounded s.clock
  /-- The first version of each key is its newest. -/
  ordered : s.ht.Ordered
  /-- The log works. -/
  working : s.world.Working
  /-- Nothing has failed. -/
  fair : ∀ t, (s.phase t).Fair
  /-- There is one commit at a time. -/
  holder : ∀ t, (s.phase t).committing = true → s.lock = some t
  /-- Transactions began before now. -/
  begun : ∀ t b, (s.phase t).beginTs = some b → b < s.clock
  /-- Commits drew their timestamps before now. -/
  drawn : ∀ c ∈ s.commits, c.1 < s.clock
  /-- What a commit has still to apply is later than all transactions. -/
  later : ∀ t, ∀ r ∈ (s.phase t).rest, r.ts < s.clock ∧
    ∀ t' b, (s.phase t').beginTs = some b → b < r.ts
  /-- Once the running commit is applied, the map is that of all commits. -/
  live : updates s.ht.live s.rest = updates base (commitRecords s.commits)
  /-- Every transaction sees the commits before it. -/
  seen : ∀ t b, (s.phase t).beginTs = some b → ∀ key, s.ht.visible b key =
    updates base (commitRecords (s.commits.filter fun c => decide (c.1 < b))) key

section Step

variable {base : Bytes → Slice} {s s' : Threads}

/-- A step that concerns neither the clock nor the table nor what is left to apply. -/
theorem Threads.Isolated.frame (h : s.Isolated base) (hht : s'.ht = s.ht)
    (hclock : s'.clock = s.clock)
    (hworking : s'.world.Working) (hcommits : s'.commits = s.commits) (hrest : s'.rest = s.rest)
    (hrests : ∀ t, (s'.phase t).rest = (s.phase t).rest)
    (hbegin : ∀ t b, (s'.phase t).beginTs = some b → (s.phase t).beginTs = some b)
    (hfair : ∀ t, (s'.phase t).Fair) (hholder : ∀ t, (s'.phase t).committing = true →
      s'.lock = some t) :
    s'.Isolated base := by
  refine ⟨?_, ?_, hworking, hfair, hholder, fun t b hb => ?_, fun c hc => ?_, fun t r hr => ?_, ?_,
    fun t b hb key => ?_⟩
  · rw [hht, hclock]
    exact h.bounded
  · rw [hht]
    exact h.ordered
  · rw [hclock]
    exact h.begun t b (hbegin t b hb)
  · rw [hcommits] at hc
    rw [hclock]
    exact h.drawn c hc
  · rw [hrests] at hr
    rw [hclock]
    obtain ⟨hlt, hall⟩ := h.later t r hr
    exact ⟨hlt, fun t' b hb => hall t' b (hbegin t' b hb)⟩
  · rw [hht, hrest, hcommits]
    exact h.live
  · rw [hht, hcommits]
    exact h.seen t b (hbegin t b hb) key

/-- A step of one transaction of this kind that leaves the commit lock alone. -/
theorem Threads.Isolated.to (h : s.Isolated base) {t : ℕ} {p : Phase} {world : World}
    (hht : world.db.ht = s.ht) (hclock : world.db.clock = s.clock) (hworking : world.Working)
    (hbegin : p.beginTs = none ∨ p.beginTs = (s.phase t).beginTs)
    (hrest : p.rest = (s.phase t).rest)
    (hcommitting : p.committing = (s.phase t).committing) (hfair : p.Fair) :
    (({ s with world } : Threads).to t p).Isolated base := by
  have hrests : ∀ t', ((({ s with world } : Threads).to t p).phase t').rest = (s.phase t').rest :=
    Threads.to_view (f := Phase.rest) hrest
  have hcommittings : ∀ t', ((({ s with world } : Threads).to t p).phase t').committing =
      (s.phase t').committing := Threads.to_view (f := Phase.committing) hcommitting
  refine h.frame hht hclock hworking rfl ?_ hrests
    (Threads.to_all (P := fun t' q => ∀ b, q.beginTs = some b → (s.phase t').beginTs = some b)
      (fun b hb => ?_) fun t' _ b hb => hb)
    (Threads.to_all (P := fun _ q => q.Fair) hfair fun t' _ => h.fair t') fun t' ht' => ?_
  · unfold Threads.rest
    simp only [hrests]
    rfl
  · rcases hbegin with hnone | hsame
    · rw [hnone] at hb
      cases hb
    · rw [← hsame, hb]
  · rw [hcommittings] at ht'
    exact h.holder t' ht'

/-- The clock moves on. -/
theorem Threads.Isolated.tick (h : s.Isolated base) (hclock : s.clock + 1 < tsMax) :
    ({ s with world := s.world.drawn } : Threads).Isolated base := by
  have htick : ({ s with world := s.world.drawn } : Threads).clock = s.clock + 1 :=
    Threads.clock_drawn hclock
  refine ⟨?_, h.ordered, h.working, h.fair, h.holder, fun t b hb => ?_, fun c hc => ?_,
    fun t r hr => ?_, h.live, h.seen⟩
  · rw [htick]
    exact h.bounded.mono (Nat.le_succ _)
  · have hlt := h.begun t b hb
    omega
  · have hlt := h.drawn c hc
    omega
  · obtain ⟨hlt, hall⟩ := h.later t r hr
    exact ⟨by omega, hall⟩

/-- A transaction begins while no commit is being applied. -/
theorem Threads.Isolated.draw (h : s.Isolated base) (hclock : s.clock + 1 < tsMax)
    (hapart : ∀ t, (s.phase t).rest = []) (t : ℕ) (readOnly : Bool) :
    ({ s with world := s.world.drawn }.to t (.claiming readOnly s.clock 0)).Isolated base := by
  have htick := Threads.clock_drawn hclock
  have hnext := h.tick hclock
  have hrests : ∀ t', (({ s with world := s.world.drawn }.to t
      (.claiming readOnly s.clock 0)).phase t').rest = [] :=
    Threads.to_all (P := fun _ q => q.rest = []) rfl fun t' _ => hapart t'
  have hlive := h.live
  rw [Threads.rest_eq_nil hapart] at hlive
  -- the new transaction sees everything
  have hall : s.commits.filter (fun c => decide (c.1 < s.clock)) = s.commits :=
    List.filter_eq_self.mpr fun c hc => by simpa using h.drawn c hc
  have hseen : ∀ key, s.ht.visible s.clock key = updates base (commitRecords (s.commits.filter
      fun c => decide (c.1 < s.clock))) key := by
    intro key
    rw [hall, ← hlive]
    refine readResult_inj ?_
    rw [← htGet_eq_visible]
    exact h.bounded.htGet_eq (Nat.le_refl _) (by omega) key
  refine ⟨hnext.bounded, hnext.ordered, hnext.working,
    Threads.to_all (P := fun _ q => q.Fair) trivial fun t' _ => h.fair t',
    Threads.to_all (P := fun t' q => q.committing = true → s.lock = some t') (fun hc => by cases hc)
      fun t' _ => h.holder t',
    Threads.to_all (P := fun _ q => ∀ b, q.beginTs = some b → b < s.world.drawn.db.clock)
      (fun b hb => ?_) fun t' _ => hnext.begun t', hnext.drawn, fun t' r hr => ?_, ?_,
    Threads.to_all (P := fun _ q => ∀ b, q.beginTs = some b → ∀ key, s.ht.visible b key =
      updates base (commitRecords (s.commits.filter fun c => decide (c.1 < b))) key)
      (fun b hb key => ?_) fun t' _ => h.seen t'⟩
  · have hb' : s.clock = b := Option.some.inj hb
    omega
  · rw [hrests] at hr
    cases hr
  · rw [Threads.rest_eq_nil hrests]
    exact hlive
  · rw [← Option.some.inj hb]
    exact hseen key

/-- A commit draws its timestamp. -/
theorem Threads.Isolated.drawCommit (h : s.Isolated base) (hclock : s.clock + 1 < tsMax) {t : ℕ}
    {txn : Txn} (hphase : s.phase t = .checked txn) :
    ({ s with world := s.world.drawn, commits := s.commits ++ [(s.clock, txn.writes)] }.to t
      (.applying { txn with commitTs := s.clock } txn.writes)).Isolated base := by
  have htick : ({ s with world := s.world.drawn } : Threads).clock = s.clock + 1 :=
    Threads.clock_drawn hclock
  have hnext := h.tick hclock
  have hlock : s.lock = some t := h.holder t (by rw [hphase]; rfl)
  have hbegin : ∀ t', (({ s with world := s.world.drawn, commits := s.commits ++
      [(s.clock, txn.writes)] }.to t
        (.applying { txn with commitTs := s.clock } txn.writes)).phase t').beginTs =
      (s.phase t').beginTs :=
    Threads.to_view (s := { s with world := s.world.drawn, commits := s.commits ++
      [(s.clock, txn.writes)] }) (f := Phase.beginTs) (by simp only [hphase]; rfl)
  refine ⟨hnext.bounded, hnext.ordered, hnext.working,
    Threads.to_all (P := fun _ q => q.Fair) trivial fun t' _ => h.fair t',
    Threads.to_all (P := fun t' q => q.committing = true → s.lock = some t') (fun _ => hlock)
      fun t' _ => h.holder t', fun t' b hb => ?_, fun c hc => ?_, fun t' r hr => ?_, ?_,
    fun t' b hb key => ?_⟩
  · rw [hbegin] at hb
    exact hnext.begun t' b hb
  · show c.1 < ({ s with world := s.world.drawn } : Threads).clock
    rcases List.mem_append.mp hc with hc | hc
    · exact hnext.drawn c hc
    · rw [List.mem_singleton.mp hc]
      omega
  · simp only [hbegin]
    refine Threads.to_all (P := fun _ q => ∀ r ∈ q.rest, r.ts < s.world.drawn.db.clock ∧
      ∀ t₁ b, (s.phase t₁).beginTs = some b → b < r.ts) (fun r hr => ?_)
      (fun t' hne r hr => absurd (Threads.eq_of_rest h.holder hlock hr) hne) t' r hr
    obtain ⟨e, -, rfl⟩ := List.mem_map.mp hr
    exact ⟨(Nat.lt_succ_self s.clock).trans_eq htick.symm, h.begun⟩
  · have hlive := h.live
    rw [Threads.rest_eq hlock, hphase] at hlive
    rw [Threads.rest_to (s := { s with
      world := s.world.drawn, commits := s.commits ++ [(s.clock, txn.writes)] }) hlock]
    show updates s.ht.live (txn.writes.map fun e => e.record s.clock) =
      updates base (commitRecords (s.commits ++ [(s.clock, txn.writes)]))
    rw [commitRecords, List.flatMap_append, updates_append, List.flatMap_singleton]
    exact congrArg (fun m => updates m _) hlive
  · rw [hbegin] at hb
    have hlt := h.begun t' b hb
    show s.ht.visible b key = updates base (commitRecords ((s.commits ++
      [(s.clock, txn.writes)]).filter fun c => decide (c.1 < b))) key
    rw [List.filter_append, List.filter_cons_of_neg (by simpa using hlt.le), List.filter_nil,
      List.append_nil]
    exact h.seen t' b hb key

/-- An entry is applied. -/
theorem Threads.Isolated.install (h : s.Isolated base) (hclock : s.clock < tsMax) {t : ℕ}
    {txn : Txn}
    {e : WriteEntry} {rest : List WriteEntry} (hphase : s.phase t = .logged txn e rest) :
    ({ s with world := { s.world with db := applyEntry s.world.db e txn.commitTs } }.to t
      (.applying txn rest)).Isolated base := by
  have hlock : s.lock = some t := h.holder t (by rw [hphase]; rfl)
  obtain ⟨hts, hlater⟩ := h.later t (e.record txn.commitTs)
    (by rw [hphase]; exact List.mem_cons_self)
  have hts' : txn.commitTs < s.clock := hts
  have hht : (applyEntry s.world.db e txn.commitTs).ht =
      htInsertVersion s.ht txn.commitTs e.key e.value :=
    applyEntry_ht _ _ _
  have hclock' : (applyEntry s.world.db e txn.commitTs).clock = s.clock :=
    congrArg (fun mgr => mgr.oracle.clock) (applyEntry_txnMgr _ _ _)
  have hbegin : ∀ t', (({ s with world := { s.world with
      db := applyEntry s.world.db e txn.commitTs } }.to t (.applying txn rest)).phase t').beginTs =
      (s.phase t').beginTs :=
    Threads.to_view (s := { s with world := { s.world with
      db := applyEntry s.world.db e txn.commitTs } }) (f := Phase.beginTs)
      (by simp only [hphase]; rfl)
  refine ⟨?_, ?_, applyEntry_working h.working e txn.commitTs,
    Threads.to_all (P := fun _ q => q.Fair) trivial fun t' _ => h.fair t',
    Threads.to_all (P := fun t' q => q.committing = true → s.lock = some t') (fun _ => hlock)
      fun t' _ => h.holder t', fun t' b hb => ?_, fun c hc => (h.drawn c hc).trans_eq hclock'.symm,
    fun t' r hr => ?_, ?_, fun t' b hb key => ?_⟩
  · show (applyEntry s.world.db e txn.commitTs).ht.Bounded
      (applyEntry s.world.db e txn.commitTs).clock
    rw [hht, hclock']
    exact h.bounded.insert hts' e.key e.value
  · show (applyEntry s.world.db e txn.commitTs).ht.Ordered
    rw [hht]
    exact h.ordered.insert txn.commitTs e.key e.value
  · rw [hbegin] at hb
    exact (h.begun t' b hb).trans_eq hclock'.symm
  · obtain ⟨hlt, hall⟩ := h.later t' r (Threads.rest_of_installed hphase hr)
    refine ⟨hlt.trans_eq hclock'.symm, fun t₁ b hb => ?_⟩
    rw [hbegin] at hb
    exact hall t₁ b hb
  · have hlive := h.live
    rw [Threads.rest_eq hlock, hphase] at hlive
    rw [Threads.rest_to (s := { s with
      world := { s.world with db := applyEntry s.world.db e txn.commitTs } }) hlock]
    have hstores := congrArg (fun stores => stores.ht.live)
      (applyEntry_stores s.world.db e txn.commitTs)
    simp only [live_replayRecord] at hstores
    show updates (applyEntry s.world.db e txn.commitTs).stores.ht.live _ = _
    rw [hstores]
    exact hlive
  · rw [hbegin] at hb
    have hlt : b < txn.commitTs := hlater t' b hb
    show (applyEntry s.world.db e txn.commitTs).ht.visible b key = _
    rw [hht, visible_insert_later s.ht hlt (by omega)]
    exact h.seen t' b hb key

/-- The commit lock is taken. -/
theorem Threads.Isolated.lock (h : s.Isolated base) {t : ℕ} {txn : Txn}
    (hphase : s.phase t = .active txn)
    (hlock : s.lock = none) : ({ s with lock := some t }.to t (.checked txn)).Isolated base := by
  refine h.frame rfl rfl h.working rfl ?_
    (Threads.to_view (f := Phase.rest) (by simp only [hphase]; rfl))
    (fun t' b hb => ?_) (Threads.to_all (P := fun _ q => q.Fair) trivial fun t' _ => h.fair t')
    (Threads.to_all (P := fun t' q => q.committing = true → some t = some t') (fun _ => rfl)
      fun t' _ ht' => ?_)
  · rw [Threads.rest_to (s := { s with lock := some t }) rfl, Threads.rest, hlock]
    rfl
  · rw [← Threads.to_view (s := { s with lock := some t }) (f := Phase.beginTs) (t := t)
      (p := .checked txn) (by simp only [hphase]; rfl)]
    exact hb
  · have hheld := h.holder t' ht'
    rw [hlock] at hheld
    cases hheld

/-- The commit lock is released. -/
theorem Threads.Isolated.unlock (h : s.Isolated base) {t : ℕ} {txn : Txn}
    (hphase : s.phase t = .applying txn []) :
    ({ s with lock := none }.to t (.closing txn (some .ok))).Isolated base := by
  have hlock : s.lock = some t := h.holder t (by rw [hphase]; rfl)
  refine h.frame rfl rfl h.working rfl ?_
    (Threads.to_view (f := Phase.rest) (by simp only [hphase]; rfl))
    (fun t' b hb => ?_) (Threads.to_all (P := fun _ q => q.Fair) trivial fun t' _ => h.fair t')
    (Threads.to_all (P := fun t' q => q.committing = true → none = some t') (fun hc => by cases hc)
      fun t' hne ht' => ?_)
  · rw [Threads.rest_eq hlock, hphase]
    rfl
  · rw [← Threads.to_view (s := { s with lock := none }) (f := Phase.beginTs) (t := t)
      (p := .closing txn (some .ok)) (by simp only [hphase]; rfl)]
    exact hb
  · have hheld := h.holder t' ht'
    rw [hlock] at hheld
    exact absurd (Option.some.inj hheld).symm hne

/-- A step of such a schedule. -/
theorem Threads.Isolated.step (h : s.Isolated base) (hclock : s.clock + 1 < tsMax) {a : ThreadStep}
    (hp : BeginsApart s a) : (threadStep s a).Isolated base := by
  have heffect := threadStep_effect s a
  generalize threadStep s a = s' at heffect
  cases heffect with
  | stay => exact h
  | refused hphase =>
    exact h.to rfl rfl h.working (Or.inl rfl) (by rw [hphase]; rfl) (by rw [hphase]; rfl) trivial
  | drawn hphase => exact h.draw hclock hp _ _
  | taken hphase =>
    exact h.to rfl rfl h.working (Or.inr (by rw [hphase]; rfl)) (by rw [hphase]; rfl)
      (by rw [hphase]; rfl) trivial
  | claimed hphase _ _ =>
    exact h.to rfl rfl h.working (Or.inr (by rw [hphase]; rfl)) (by rw [hphase]; rfl)
      (by rw [hphase]; rfl) fun _ => rfl
  | unclaimed hphase _ =>
    exact h.to rfl rfl h.working (Or.inr (by rw [hphase]; rfl)) (by rw [hphase]; rfl)
      (by rw [hphase]; rfl) fun _ => rfl
  | @wrote t _ txn txn' hphase hcollects =>
    have hfair := h.fair t
    rw [hphase] at hfair
    refine h.to rfl rfl h.working (Or.inr ?_) (by rw [hphase]; rfl) (by rw [hphase]; rfl)
      fun hread => ?_
    · rw [hphase]
      exact congrArg some hcollects.beginTs
    · rw [hcollects.readOnly] at hread
      exact (hcollects.writes hread).trans (hfair hread)
  | ended hphase =>
    exact h.to rfl rfl h.working (Or.inr (by rw [hphase]; rfl)) (by rw [hphase]; rfl)
      (by rw [hphase]; rfl) trivial
  | locked hphase hlock => exact h.lock hphase hlock
  | drewCommit hphase => exact h.drawCommit hclock hphase
  | appended hphase _ =>
    exact h.to (logEntry_ht _ _ _) (congrArg (fun mgr => mgr.oracle.clock) (logEntry_txnMgr _ _ _))
      (logEntry_working h.working _ _).2 (Or.inr (by rw [hphase]; rfl)) (by rw [hphase]; rfl)
      (by rw [hphase]; rfl) trivial
  | appendFailed _ hfailed => exact absurd (logEntry_working h.working _ _).1 hfailed
  | installed hphase => exact h.install (by omega) hphase
  | unlocked hphase => exact h.unlock hphase
  | @unlockedFailed t _ _ hphase =>
    have hfair := h.fair t
    rw [hphase] at hfair
    exact hfair.elim
  | released hphase =>
    exact h.to rfl (clock_oracleRelease _ _) h.working (Or.inl rfl) (by rw [hphase]; rfl)
      (by rw [hphase]; rfl) trivial
  | clockRead _ =>
    exact h.frame rfl rfl h.working rfl rfl (fun _ => rfl) (fun _ _ hb => hb) h.fair h.holder
  | slotRead _ _ =>
    exact h.frame rfl rfl h.working rfl rfl (fun _ => rfl) (fun _ _ hb => hb) h.fair h.holder
  | collected _ _ => exact hp.elim

end Step

/-! ## One transaction over time -/

/-- A transaction that was open in an earlier state, in a later one: it has the same timestamp
and sees the same versions, and versions of a key that were added are later than it. -/
structure Threads.Reading (s₁ : Threads) (t : ℕ) (txn : Txn) (s : Threads) : Prop where
  /-- It has not ended. -/
  running : ∃ txn', (s.phase t).txn = some txn' ∧ txn'.beginTs = txn.beginTs
  /-- It has added writes. -/
  collects : ∀ txn', s.phase t = .active txn' → txn.Collects txn'
  /-- It sees the same. -/
  visible : ∀ key, s.ht.visible txn.beginTs key = s₁.ht.visible txn.beginTs key
  /-- New versions are later. -/
  overtaken : ∀ key, s.ht.versions key = s₁.ht.versions key ∨
    ∃ ts ∈ s.ht.stamp key, txn.beginTs < ts

section Reading

variable {base : Bytes → Slice} {s₁ s : Threads} {t : ℕ} {txn : Txn}

/-- The state in which it was open. -/
theorem Threads.Reading.refl (h : s.phase t = .active txn) : s.Reading t txn s := by
  refine ⟨⟨txn, by rw [h]; rfl, rfl⟩, fun txn' h' => ?_, fun _ => rfl, fun _ => Or.inl rfl⟩
  rw [h] at h'
  cases h'
  exact .refl txn

/-- A step of the transaction itself: it goes on or ends. -/
theorem Phase.Next.running {p q : Phase} (h : p.Next q) {txn : Txn} (hp : p.txn = some txn) :
    (∃ rc, q = .closed rc) ∨ (∃ txn', q.txn = some txn' ∧ txn'.beginTs = txn.beginTs) ∧
      ∀ txn', q = .active txn' → p = .active txn ∧ txn.Collects txn' := by
  cases h with
  | refused => cases hp
  | drawn => cases hp
  | taken => cases hp
  | begun => cases hp
  | wrote hcollects =>
    cases hp
    refine Or.inr ⟨⟨_, rfl, hcollects.beginTs⟩, fun txn' hq => ?_⟩
    cases hq
    exact ⟨rfl, hcollects⟩
  | released => exact Or.inl ⟨_, rfl⟩
  | _ =>
    cases hp
    exact Or.inr ⟨⟨_, rfl, rfl⟩, fun txn' hq => by cases hq⟩

/-- A step, as long as the transaction has not ended. -/
theorem Threads.Reading.step (h : s₁.Reading t txn s) (hisolated : s.Isolated base)
    (hclock : s.clock < tsMax) {a : ThreadStep} (hp : BeginsApart s a) :
    (∃ rc, (threadStep s a).phase t = .closed rc) ∨ s₁.Reading t txn (threadStep s a) := by
  obtain ⟨txn₀, htxn₀, hts⟩ := h.running
  have hbegin : (s.phase t).beginTs = some txn.beginTs := by
    cases hphase : s.phase t <;> rw [hphase] at htxn₀ <;> cases htxn₀ <;> exact congrArg some hts
  have hlt : txn.beginTs < s.clock := hisolated.begun t _ hbegin
  have heffect := threadStep_effect s a
  generalize threadStep s a = s' at heffect
  -- the table only gets later versions
  have htable : (∀ key, s'.ht.visible txn.beginTs key = s₁.ht.visible txn.beginTs key) ∧
      ∀ key, s'.ht.versions key = s₁.ht.versions key ∨
        ∃ ts ∈ s'.ht.stamp key, txn.beginTs < ts := by
    rcases heffect.ht with hht | ⟨t', txn', e, rest, hphase, hht⟩ | ⟨c, rfl⟩
    · rw [hht]
      exact ⟨h.visible, h.overtaken⟩
    · obtain ⟨-, hlater⟩ := hisolated.later t' (e.record txn'.commitTs)
        (by rw [hphase]; exact List.mem_cons_self)
      have hcommit : txn.beginTs < txn'.commitTs := hlater t _ hbegin
      rw [hht]
      refine ⟨fun key => ?_, fun key => ?_⟩
      · rw [visible_insert_later s.ht hcommit (by omega), h.visible]
      · rw [stamp_htInsertVersion]
        by_cases hkey : key = e.key
        · exact Or.inr ⟨txn'.commitTs, by rw [if_pos hkey]; rfl, hcommit⟩
        · rw [if_neg hkey, versions_htInsertVersion_other hkey]
          exact h.overtaken key
    · exact hp.elim
  rcases heffect.next t with hsame | hnext
  · right
    refine ⟨⟨txn₀, by rw [hsame, htxn₀], hts⟩, fun txn' h' => ?_, htable.1, htable.2⟩
    rw [hsame] at h'
    exact h.collects txn' h'
  · rcases hnext.running htxn₀ with hclosed | ⟨⟨txn', htxn', hts'⟩, hactive⟩
    · exact Or.inl hclosed
    · right
      refine ⟨⟨txn', htxn', hts'.trans hts⟩, fun txn'' h'' => ?_, htable.1, htable.2⟩
      obtain ⟨hphase, hcollects⟩ := hactive txn'' h''
      exact (h.collects txn₀ hphase).trans hcollects

/-- A transaction that is over stays over. -/
theorem threadStep_closed {rc : Option Err} (h : s.phase t = .closed rc) (a : ThreadStep) :
    (threadStep s a).phase t = .closed rc := by
  rcases (threadStep_effect s a).next t with hsame | hnext
  · rw [hsame, h]
  · rw [h] at hnext
    cases hnext

end Reading

/-! ## Schedules -/

/-- A database that was just opened. -/
theorem Threads.Isolated.start {opts : Opts} {fresh : Uuid} {disk : Disk} {w : World}
    (hintact : Intact opts disk.files) (hquiet : disk.Quiet)
    (hopen : fastkvOpen opts fresh disk = .ok w) : (Threads.start w).Isolated w.db.ht.live := by
  have hinOrder := Sys.InOrder.start hintact hquiet hopen
  refine ⟨hinOrder.sound.bounded, hinOrder.ordered, hinOrder.working, fun t => trivial,
    fun t ht => (nomatch ht), fun t b hb => (nomatch hb), fun c hc => (nomatch hc),
    fun t r hr => (nomatch hr), rfl, fun t b hb => (nomatch hb)⟩

/-- Reading a key that the transaction has not written. -/
theorem txnGet_unwritten {db : Db} {txn : Txn} {key : Bytes} (h : ∀ e ∈ txn.writes, e.key ≠ key) :
    txnGet db txn key = if txn.state ≠ .active then .error .txnClosed
      else if maxKeyLen < key.length then .error .keysize else htGet db.ht txn.beginTs key := by
  have hlookup : ∀ es : List WriteEntry, (∀ e ∈ es, e.key ≠ key) →
      lookupWrites key es = .error .notfound := by
    intro es
    induction es with
    | nil => exact fun _ => rfl
    | cons e es ih =>
      intro hes
      rw [lookupWrites, if_neg (hes e List.mem_cons_self)]
      exact ih fun e' he' => hes e' (List.mem_cons_of_mem _ he')
  simp only [txnGet, txnWriteLookup, hlookup txn.writes h]

/-- The commit of a transaction that was overtaken. -/
theorem Threads.Isolated.check_overtaken {base : Bytes → Slice} {s : Threads} (h : s.Isolated base)
    {t : ℕ} {txn : Txn} (hphase : s.phase t = .active txn) {e : WriteEntry} (he : e ∈ txn.writes)
    (hstamp : ∃ ts ∈ s.ht.stamp e.key, txn.beginTs < ts) :
    (threadStep s (.check t)).phase t =
      if s.lock.isSome then .active txn else .closing txn (some .txnConflict) := by
  have hfair := h.fair t
  rw [hphase] at hfair
  have hwrites : txn.writes ≠ [] := List.ne_nil_of_mem he
  have hro : ¬ (txn.readOnly = true ∨ txn.writes = []) := fun hor =>
    hwrites (hor.elim (fun hread => hfair hread) id)
  have hconflict : dbCheckConflicts s.world.db txn.writes txn.beginTs ≠ .ok := by
    have hat : conflictsAt s.world.db.ht txn.beginTs e.key = true :=
      (h.ordered.conflictsAt_iff txn.beginTs e.key).mpr hstamp
    have hany : (txn.writes.any fun e => conflictsAt s.world.db.ht txn.beginTs e.key) = true :=
      List.any_eq_true.mpr ⟨e, he, hat⟩
    simp [dbCheckConflicts, hany]
  simp only [threadStep, hphase, if_neg hro, if_neg hconflict]
  by_cases hlock : s.lock.isSome
  · rw [if_pos hlock, if_pos hlock, hphase]
  · rw [if_neg hlock, if_neg hlock, Threads.to_phase, if_pos rfl]

/-- Any number of transactions run side by side, step by step, without garbage collection, and
none begins while a commit is between drawing its timestamp and applying its last entry. Take
a transaction that is open in two states of such a schedule. It reads the same value in both
for every key it has not written; what it reads of the database is what the commits with
earlier timestamps, each of them complete, have left; and if a version of a key that it
has written was added in the meantime, its commit is refused, or waits for the commit lock. The
directory was intact when it was opened, the disk fails no call, so that the log takes every
record, and the clock does not run out. -/
theorem snapshot_isolation {opts : Opts} {fresh : Uuid} {disk : Disk} {w : World}
    (hintact : Intact opts disk.files) (hquiet : disk.Quiet)
    (hopen : fastkvOpen opts fresh disk = .ok w) (steps₁ steps₂ : List ThreadStep)
    (hclock : w.db.clock + (steps₁ ++ steps₂).length < tsMax)
    (hapart : Permitted threadStep BeginsApart (Threads.start w) (steps₁ ++ steps₂)) {t : ℕ}
    {s₁ s₂ : Threads} (hs₁ : s₁ = exec threadStep (Threads.start w) steps₁)
    (hs₂ : s₂ = exec threadStep s₁ steps₂) {txn txn' : Txn} (hopen₁ : s₁.phase t = .active txn)
    (hopen₂ : s₂.phase t = .active txn') :
    (∀ key, (∀ e ∈ txn'.writes, e.key ≠ key) →
      txnGet s₂.world.db txn' key = txnGet s₁.world.db txn key) ∧
    (∀ key, htGet s₂.ht txn'.beginTs key = readResult (updates w.db.ht.live
      (commitRecords (s₂.commits.filter fun c => decide (c.1 < txn'.beginTs))) key)) ∧
    ∀ e ∈ txn'.writes, s₂.ht.versions e.key ≠ s₁.ht.versions e.key →
      (threadStep s₂ (.check t)).phase t =
        if s₂.lock.isSome then .active txn' else .closing txn' (some .txnConflict) := by
  obtain ⟨hapart₁, hapart₂⟩ := (permitted_append steps₁).mp hapart
  rw [List.length_append] at hclock
  have hstart : (Threads.start w).clock = w.db.clock := rfl
  obtain ⟨hisolated₁, hclock₁⟩ := exec_induction Threads.clock
    (fun s a (_ : s.Isolated w.db.ht.live) hlt => (threadStep_clock hlt a).2)
    (fun s a hs hlt hp => hs.step hlt hp) steps₁ (Threads.Isolated.start hintact hquiet hopen)
    (by omega) hapart₁
  rw [← hs₁] at hisolated₁ hclock₁ hapart₂
  -- the transaction goes on or ends, and it is open in the end
  obtain ⟨⟨hisolated₂, hsince⟩, -⟩ := exec_induction Threads.clock
    (I := fun s => s.Isolated w.db.ht.live ∧ ((∃ rc, s.phase t = .closed rc) ∨ s₁.Reading t txn s))
    (fun s a _ hlt => (threadStep_clock hlt a).2)
    (fun s a hs hlt hp => ⟨hs.1.step hlt hp, hs.2.elim
      (fun ⟨rc, hclosed⟩ => Or.inl ⟨rc, threadStep_closed hclosed a⟩)
      fun hreading => hreading.step hs.1 (by omega) hp⟩)
    steps₂ ⟨hisolated₁, Or.inr (.refl hopen₁)⟩ (by omega) hapart₂
  rw [← hs₂] at hisolated₂ hsince
  have hreading : s₁.Reading t txn s₂ := by
    rcases hsince with ⟨rc, hclosed⟩ | hreading
    · rw [hopen₂] at hclosed
      cases hclosed
    · exact hreading
  have hcollects := hreading.collects txn' hopen₂
  refine ⟨fun key hunwritten => ?_, fun key => ?_, fun e he hne => ?_⟩
  · have hunwritten₁ : ∀ e ∈ txn.writes, e.key ≠ key := fun e he =>
      hunwritten e (hcollects.earlier.subset he)
    rw [txnGet_unwritten hunwritten, txnGet_unwritten hunwritten₁, hcollects.state,
      hcollects.beginTs, htGet_eq_visible, htGet_eq_visible]
    rw [show s₂.world.db.ht.visible txn.beginTs key = s₁.world.db.ht.visible txn.beginTs key from
      hreading.visible key]
  · rw [htGet_eq_visible, hisolated₂.seen t txn'.beginTs (by rw [hopen₂]; rfl)]
  · have hstamp := (hreading.overtaken e.key).resolve_left hne
    rw [← hcollects.beginTs] at hstamp
    exact hisolated₂.check_overtaken hopen₂ he hstamp

/-! ## Two schedules -/

/-- A transaction begins after a commit and writes the key `[2]`. -/
def beginsAfter : List ThreadStep :=
  commitOf 0 [1] [10] ++ [.draw 1 false, .claim 1, .put 1 [2] (some [30])]

/-- Both keys are overwritten by others. -/
def overtaken : List ThreadStep := commitOf 2 [1] [20] ++ commitOf 3 [2] [40]

/-- The transaction still reads the value from before, and its commit is refused. -/
theorem snapshot_isolation_overtaken : ∃ txn,
    (exec threadStep (exec threadStep (Threads.start newWorld) beginsAfter) overtaken).phase 1 =
      .active txn ∧
    txnGet (exec threadStep (exec threadStep (Threads.start newWorld) beginsAfter)
      overtaken).world.db txn [1] = .ok [10] ∧
    (threadStep (exec threadStep (exec threadStep (Threads.start newWorld) beginsAfter) overtaken)
      (.check 1)).phase 1 = .closing txn (some .txnConflict) := by
  have hapart : Permitted threadStep BeginsApart (Threads.start newWorld)
      (beginsAfter ++ overtaken) := by
    refine (permitted_append _).mpr ⟨(permitted_append _).mpr ⟨⟨?_, .of_forall _ _ ?_⟩,
      ⟨?_, .of_forall _ _ ?_⟩⟩, (permitted_append _).mpr ⟨⟨?_, .of_forall _ _ ?_⟩,
      ⟨?_, .of_forall _ _ ?_⟩⟩⟩
    · exact fun t => rfl
    · simp [BeginsApart]
    · rintro (- | t)
      · decide +kernel
      · rfl
    · simp [BeginsApart]
    · rintro (- | - | t)
      · decide +kernel
      · decide +kernel
      · rfl
    · simp [BeginsApart]
    · rintro (- | - | - | t)
      · decide +kernel
      · decide +kernel
      · decide +kernel
      · rfl
    · simp [BeginsApart]
  have hphases : (exec threadStep (Threads.start newWorld) beginsAfter).phase 1 =
      .active { newTxn false 3 (some 0) with writes := [⟨[2], some [30]⟩], writeCount := 1 } ∧
    (exec threadStep (exec threadStep (Threads.start newWorld) beginsAfter) overtaken).phase 1 =
      .active { newTxn false 3 (some 0) with writes := [⟨[2], some [30]⟩], writeCount := 1 } := by
    decide +kernel
  obtain ⟨hsame, -, hconflict⟩ := snapshot_isolation (intact_empty oneBucket)
    (fun _ h => by cases h)
    newWorld_opened beginsAfter overtaken (by decide +kernel) hapart rfl rfl hphases.1 hphases.2
  refine ⟨_, hphases.2, ?_, ?_⟩
  · rw [hsame [1] (by simp)]
    decide +kernel
  · rw [hconflict ⟨[2], some [30]⟩ (by simp) (by decide +kernel), if_neg (by decide +kernel)]

/-- A transaction begins between the timestamp of a commit and its first entry. -/
def beginsAmid : List ThreadStep :=
  [.draw 0 false, .claim 0, .put 0 [1] (some [10]), .put 0 [2] (some [20]), .check 0, .drawCommit 0,
    .draw 1 false, .claim 1, .claim 1]

/-- The same transaction reads a key twice with different results, sees one of two writes of the
commit, and later overwrites the other without a conflict. -/
theorem begin_amid_commit_tears :
    (exec threadStep (Threads.start newWorld) beginsAmid).phase 1 =
      .active (newTxn false 3 (some 1)) ∧
    txnGet (exec threadStep (Threads.start newWorld) beginsAmid).world.db
      (newTxn false 3 (some 1)) [2] =
      .error .notfound ∧
    txnGet (exec threadStep (Threads.start newWorld)
      (beginsAmid ++ [.append 0, .install 0])).world.db
      (newTxn false 3 (some 1)) [2] = .ok [20] ∧
    txnGet (exec threadStep (Threads.start newWorld)
      (beginsAmid ++ [.append 0, .install 0])).world.db
      (newTxn false 3 (some 1)) [1] = .error .notfound ∧
    ((exec threadStep (Threads.start newWorld) (beginsAmid ++ [.append 0, .install 0, .append 0,
      .install 0, .unlock 0, .put 1 [1] (some [30]), .check 1])).phase 1).committing = true := by
  decide +kernel

end FastKV
