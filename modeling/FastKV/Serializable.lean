import FastKV.Lib.Serial
import FastKV.SnapshotIsolation

/-!
# Transactions that write what they read

Under snapshot isolation a transaction reads from the commits before it began and is refused if
one of its own keys was written since. So a transaction whose write set depends on the keys in
that write set only has read nothing stale when its commit draws a timestamp: it has computed
what it would have computed then. Such transactions run as if one after the other in the order
of their commit timestamps, and every transaction that only reads sees the map between two of
them. Transactions that write other keys than they read do not.
-/

namespace FastKV

open Lib

/-! ## Serial runs -/

/-- Write sets as a commit applies them, newest entry first. -/
def commitSets : WriteSets Bytes Slice (List WriteEntry) where
  apply es m := updates m (es.map fun e => e.record 0)
  keys es := {key | ∃ e ∈ es, e.key = key}
  frame es m key hkey := by
    rw [Set.mem_ofPred_eq, not_exists] at hkey
    induction es generalizing m with
    | nil => rfl
    | cons e es ih =>
      refine (ih _ fun e' he' => hkey e' ⟨List.mem_cons_of_mem _ he'.1, he'.2⟩).trans ?_
      have hne : key ≠ e.key := fun h => hkey e ⟨List.mem_cons_self, h.symm⟩
      obtain ⟨k, value⟩ := e
      cases value <;> exact Function.update_of_ne hne _ m

/-- The timestamp of a commit does not matter for the map. -/
theorem updates_records (commitTs : ℕ) (es : List WriteEntry) :
    ∀ m, updates m (es.map fun e => e.record commitTs) = commitSets.apply es m := by
  induction es with
  | nil => exact fun _ => rfl
  | cons e es ih => exact fun m => ih _

/-- The map after some commits. -/
theorem updates_commitRecords (commits : List (ℕ × List WriteEntry)) :
    ∀ m, updates m (commitRecords commits) =
      (commits.map Prod.snd).foldl (fun m es => commitSets.apply es m) m := by
  induction commits with
  | nil => exact fun _ => rfl
  | cons c commits ih =>
    intro m
    rw [commitRecords, List.flatMap_cons, updates_append, updates_records]
    exact ih _

/-- The commits with smaller timestamps come first. -/
theorem filter_append_filter {commits : List (ℕ × List WriteEntry)}
    (h : commits.Pairwise fun c c' => c.1 < c'.1) (b : ℕ) :
    commits.filter (fun c => decide (c.1 < b)) ++ commits.filter (fun c => !decide (c.1 < b)) =
      commits := by
  induction commits with
  | nil => rfl
  | cons c commits ih =>
    obtain ⟨hc, hrest⟩ := List.pairwise_cons.mp h
    by_cases hlt : c.1 < b
    · rw [List.filter_cons_of_pos (by simpa using hlt),
        List.filter_cons_of_neg (by simpa using hlt), List.cons_append, ih hrest]
    · have hlater : ∀ c' ∈ c :: commits, ¬ c'.1 < b := by
        intro c' hc'
        rcases List.mem_cons.mp hc' with rfl | hmem
        · exact hlt
        · have hless := hc c' hmem
          omega
      rw [List.filter_eq_nil_iff.mpr fun c' hc' => by simpa using hlater c' hc',
        List.filter_eq_self.mpr fun c' hc' => by simpa using hlater c' hc', List.nil_append]

/-! ## Who commits -/

/-- The transaction that draws a commit timestamp in a step. -/
def committer (s : Threads) : ThreadStep → Option ℕ
  | .drawCommit t =>
    match s.phase t with
    | .checked _ => some t
    | _ => none
  | _ => none

/-- A step beside the list of the transactions that have drawn a commit timestamp. -/
def recordStep (so : Threads × List ℕ) (a : ThreadStep) : Threads × List ℕ :=
  (threadStep so.1 a, so.2 ++ (committer so.1 a).toList)

/-- The transactions that draw a commit timestamp in a schedule, in that order. -/
def committers (s : Threads) (steps : List ThreadStep) : List ℕ :=
  (exec recordStep (s, []) steps).2

/-- The list is only a record. -/
theorem exec_recordStep (steps : List ThreadStep) :
    ∀ so, (exec recordStep so steps).1 = exec threadStep so.1 steps := by
  induction steps with
  | nil => exact fun _ => rfl
  | cons a steps ih => exact fun so => ih (recordStep so a)

/-- Conditions on the steps of a schedule, beside the record. -/
theorem permitted_recordStep {P : Threads → ThreadStep → Prop} (steps : List ThreadStep) :
    ∀ so : Threads × List ℕ, Permitted threadStep P so.1 steps →
      Permitted recordStep (fun so a => P so.1 a) so steps := by
  induction steps with
  | nil => exact fun _ _ => trivial
  | cons a steps ih => exact fun so h => ⟨h.1, ih (recordStep so a) h.2⟩

/-- A step either draws a commit timestamp or leaves the commits alone. -/
theorem threadStep_commits (s : Threads) (a : ThreadStep) :
    (committer s a = none ∧ (threadStep s a).commits = s.commits) ∨
      ∃ t txn, a = .drawCommit t ∧ s.phase t = .checked txn ∧ committer s a = some t ∧
        (threadStep s a).commits = s.commits ++ [(s.clock, txn.writes)] := by
  by_cases hdraw : ∃ t, a = .drawCommit t
  · obtain ⟨t, rfl⟩ := hdraw
    cases hphase : s.phase t with
    | checked txn =>
      refine Or.inr ⟨t, txn, rfl, hphase, by rw [committer, hphase], ?_⟩
      simp only [threadStep, hphase]
      rfl
    | _ => exact Or.inl ⟨by rw [committer, hphase], by simp only [threadStep, hphase]⟩
  · refine Or.inl ⟨?_, ?_⟩
    · cases a with
      | drawCommit t => exact absurd ⟨t, rfl⟩ hdraw
      | _ => rfl
    · have heffect := threadStep_effect s a
      generalize threadStep s a = s' at heffect
      cases heffect with
      | drewCommit => exact absurd ⟨_, rfl⟩ hdraw
      | _ => rfl

/-- A transaction that does not become `checked` leaves the others as they are. -/
theorem Threads.checked_of_to {s : Threads} {t t' : ℕ} {p : Phase} {txn : Txn}
    (hp : ∀ txn, p ≠ .checked txn) (h : (s.to t p).phase t' = .checked txn) :
    s.phase t' = .checked txn := by
  rw [Threads.to_phase] at h
  split at h
  · exact absurd h (hp txn)
  · exact h

/-- A transaction is found to have no conflict in one step only. -/
theorem threadStep_checked {s : Threads} {a : ThreadStep} {t : ℕ} {txn : Txn}
    (h : (threadStep s a).phase t = .checked txn) :
    s.phase t = .checked txn ∨ (a = .check t ∧ s.phase t = .active txn ∧ s.lock = none ∧
      dbCheckConflicts s.world.db txn.writes txn.beginTs = .ok) := by
  have heffect := threadStep_effect s a
  generalize threadStep s a = s' at heffect h
  cases heffect with
  | locked hactive hlock hro hne hok =>
    rw [Threads.to_phase] at h
    split at h
    · rename_i heq
      cases h
      exact Or.inr ⟨by rw [heq], by rw [heq]; exact hactive, hlock, hok⟩
    · exact Or.inl h
  | stay | clockRead | slotRead | collected => exact Or.inl h
  | _ => exact Or.inl (Threads.checked_of_to (fun txn => by simp) h)

/-! ## Which commits a transaction has missed -/

/-- The timestamps of the versions and of the transactions agree with the order of the
commits. -/
structure Threads.Stamped (s : Threads) : Prop where
  /-- Commits draw increasing timestamps. -/
  sorted : s.commits.Pairwise fun c c' => c.1 < c'.1
  /-- No transaction begins at the timestamp of a commit. -/
  distinct : ∀ c ∈ s.commits, ∀ t b, (s.phase t).beginTs = some b → c.1 ≠ b
  /-- What is still to be applied is from the last commit. -/
  newest : ∀ t, ∀ r ∈ (s.phase t).rest, ∀ c ∈ s.commits, c.1 ≤ r.ts
  /-- The newest version of a written key is not older than the commit, once it is applied. -/
  stamped : ∀ c ∈ s.commits, ∀ e ∈ c.2, (∃ t, e.record c.1 ∈ (s.phase t).rest) ∨
    ∃ ts ∈ s.ht.stamp e.key, c.1 ≤ ts
  /-- A transaction without a conflict has missed no commit to its keys. -/
  fresh : ∀ t txn, s.phase t = .checked txn → ∀ c ∈ s.commits, txn.beginTs < c.1 →
    ∀ e ∈ txn.writes, e.key ∉ commitSets.keys c.2

section Step

variable {base : Bytes → Slice} {s : Threads}

/-- A transaction that passes the conflict check has missed no commit to its keys. -/
theorem Threads.Stamped.fresh_of_ok (h : s.Stamped) (hisolated : s.Isolated base)
    (hlock : s.lock = none) {txn : Txn}
    (hok : dbCheckConflicts s.world.db txn.writes txn.beginTs = .ok) {c : ℕ × List WriteEntry}
    (hc : c ∈ s.commits) (hmissed : txn.beginTs < c.1) {e : WriteEntry} (he : e ∈ txn.writes) :
    e.key ∉ commitSets.keys c.2 := by
  rintro ⟨e', he', hkey⟩
  rcases h.stamped c hc e' he' with ⟨t, hrest⟩ | ⟨ts, hts, hle⟩
  · have hheld := hisolated.holder t (Phase.committing_of_mem hrest)
    rw [hlock] at hheld
    cases hheld
  · have hconflict : conflictsAt s.world.db.ht txn.beginTs e.key = true :=
      (hisolated.ordered.conflictsAt_iff txn.beginTs e.key).mpr
        ⟨ts, by rw [← hkey]; exact hts, by omega⟩
    have hany : (txn.writes.any fun e => conflictsAt s.world.db.ht txn.beginTs e.key) = true :=
      List.any_eq_true.mpr ⟨e, he, hconflict⟩
    simp [dbCheckConflicts, hany] at hok

/-- A step that draws no commit timestamp and applies no entry. -/
theorem Threads.Stamped.frame (h : s.Stamped) {s' : Threads} (hcommits : s'.commits = s.commits)
    (hht : s'.ht = s.ht) (hrest : ∀ t, (s'.phase t).rest = (s.phase t).rest)
    (hbegin : ∀ t b, (s'.phase t).beginTs = some b → (s.phase t).beginTs = some b ∨
      ∀ c ∈ s.commits, c.1 ≠ b)
    (hchecked : ∀ t txn, s'.phase t = .checked txn → s.phase t = .checked txn ∨
      ∀ c ∈ s.commits, txn.beginTs < c.1 → ∀ e ∈ txn.writes, e.key ∉ commitSets.keys c.2) :
    s'.Stamped := by
  refine ⟨?_, ?_, ?_, ?_, ?_⟩
  · rw [hcommits]
    exact h.sorted
  · rw [hcommits]
    intro c hc t b hb
    rcases hbegin t b hb with hold | hnew
    · exact h.distinct c hc t b hold
    · exact hnew c hc
  · simp only [hcommits, hrest]
    exact h.newest
  · simp only [hcommits, hrest, hht]
    exact h.stamped
  · rw [hcommits]
    intro t txn ht
    rcases hchecked t txn ht with hold | hnew
    · exact h.fresh t txn hold
    · exact hnew

/-- A step of one transaction that is neither of the two. -/
theorem Threads.Stamped.to (h : s.Stamped) {t : ℕ} {p : Phase} {world : World}
    {lock : Option ℕ} (hht : world.db.ht = s.ht) (hrest : p.rest = (s.phase t).rest)
    (hbegin : p.beginTs = none ∨ p.beginTs = (s.phase t).beginTs)
    (hchecked : ∀ txn, p ≠ .checked txn) :
    (({ s with world, lock } : Threads).to t p).Stamped := by
  refine h.frame rfl hht (Threads.to_view (f := Phase.rest) hrest)
    (Threads.to_all (P := fun t' q => ∀ b, q.beginTs = some b → (s.phase t').beginTs = some b ∨
      ∀ c ∈ s.commits, c.1 ≠ b) (fun b hb => ?_) fun t' _ b hb => Or.inl hb)
    fun t' txn ht => Or.inl (Threads.checked_of_to hchecked ht)
  rcases hbegin with hnone | hsame
  · rw [hnone] at hb
    cases hb
  · exact Or.inl (by rw [← hsame, hb])

/-- A commit draws its timestamp. -/
theorem Threads.Stamped.drawCommit (h : s.Stamped) (hisolated : s.Isolated base) {t : ℕ}
    {txn : Txn} (hphase : s.phase t = .checked txn) :
    ({ s with world := s.world.drawn, commits := s.commits ++ [(s.clock, txn.writes)] }.to t
      (.applying { txn with commitTs := s.clock } txn.writes)).Stamped := by
  have hlock : s.lock = some t := hisolated.holder t (by rw [hphase]; rfl)
  -- nobody else is committing
  have hrest : ∀ t', t' ≠ t → (s.phase t').rest = [] := by
    intro t' hne
    by_contra hsome
    obtain ⟨r, hr⟩ := List.exists_mem_of_ne_nil _ hsome
    have hheld := hisolated.holder t' (Phase.committing_of_mem hr)
    rw [hlock] at hheld
    exact hne (Option.some.inj hheld).symm
  have hbegin : ∀ t', (({ s with world := s.world.drawn, commits := s.commits ++
      [(s.clock, txn.writes)] }.to t
        (.applying { txn with commitTs := s.clock } txn.writes)).phase t').beginTs =
      (s.phase t').beginTs :=
    Threads.to_view (s := { s with world := s.world.drawn, commits := s.commits ++
      [(s.clock, txn.writes)] }) (f := Phase.beginTs) (by simp only [hphase]; rfl)
  refine ⟨?_, ?_, ?_, ?_, ?_⟩
  · exact List.pairwise_append.mpr ⟨h.sorted, List.pairwise_singleton _ _, fun c hc c' hc' => by
      rw [List.mem_singleton.mp hc']
      exact hisolated.drawn c hc⟩
  · intro c hc t' b hb
    rw [hbegin] at hb
    rcases List.mem_append.mp hc with hc | hc
    · exact h.distinct c hc t' b hb
    · rw [List.mem_singleton.mp hc]
      exact (hisolated.begun t' b hb).ne'
  · refine Threads.to_all (P := fun _ q => ∀ r ∈ q.rest, ∀ c ∈ s.commits ++
      [(s.clock, txn.writes)], c.1 ≤ r.ts) (fun r hr c hc => ?_) fun t' hne r hr => ?_
    · obtain ⟨e, -, rfl⟩ := List.mem_map.mp hr
      show c.1 ≤ s.clock
      rcases List.mem_append.mp hc with hc | hc
      · exact (hisolated.drawn c hc).le
      · rw [List.mem_singleton.mp hc]
    · rw [show (s.phase t').rest = [] from hrest t' hne] at hr
      cases hr
  · intro c hc e he
    rcases List.mem_append.mp hc with hc | hc
    · rcases h.stamped c hc e he with ⟨t', hr⟩ | hstamp
      · by_cases hne : t' = t
        · rw [hne, hphase] at hr
          cases hr
        · rw [hrest t' hne] at hr
          cases hr
      · exact Or.inr hstamp
    · rw [List.mem_singleton.mp hc] at he ⊢
      refine Or.inl ⟨t, ?_⟩
      rw [Threads.to_phase, if_pos rfl]
      exact List.mem_map_of_mem he
  · intro t' txn' ht'
    have hold : s.phase t' = .checked txn' :=
      Threads.checked_of_to (s := { s with world := s.world.drawn, commits := s.commits ++
        [(s.clock, txn.writes)] }) (fun _ => by simp) ht'
    have hheld := hisolated.holder t' (by rw [hold]; rfl)
    rw [hlock] at hheld
    -- the only transaction without a conflict has just moved on
    cases Option.some.inj hheld
    rw [Threads.to_phase, if_pos rfl] at ht'
    cases ht'

/-- An entry is applied. -/
theorem Threads.Stamped.install (h : s.Stamped) {t : ℕ} {txn : Txn} {e : WriteEntry}
    {rest : List WriteEntry} (hphase : s.phase t = .logged txn e rest) :
    ({ s with world := { s.world with db := applyEntry s.world.db e txn.commitTs } }.to t
      (.applying txn rest)).Stamped := by
  have hbegin : ∀ t', (({ s with world := { s.world with
      db := applyEntry s.world.db e txn.commitTs } }.to t (.applying txn rest)).phase t').beginTs =
      (s.phase t').beginTs :=
    Threads.to_view (s := { s with world := { s.world with
      db := applyEntry s.world.db e txn.commitTs } }) (f := Phase.beginTs)
      (by simp only [hphase]; rfl)
  have hfirst : e.record txn.commitTs ∈ (s.phase t).rest := by
    rw [hphase]
    exact List.mem_cons_self
  refine ⟨h.sorted, fun c hc t' b hb => h.distinct c hc t' b (by rw [← hbegin]; exact hb),
    fun t' r hr => h.newest t' r (Threads.rest_of_installed hphase hr), fun c hc e' he' => ?_,
    fun t' txn' ht' => h.fresh t' txn' (Threads.checked_of_to (s := { s with world :=
      { s.world with db := applyEntry s.world.db e txn.commitTs } }) (fun _ => by simp) ht')⟩
  have hnewest : c.1 ≤ txn.commitTs := h.newest t _ hfirst c hc
  have hstamp : (applyEntry s.world.db e txn.commitTs).ht.stamp e'.key =
      if e'.key = e.key then some txn.commitTs else s.ht.stamp e'.key := by
    rw [applyEntry_ht]
    exact stamp_htInsertVersion _ _ _ _ _
  by_cases hkey : e'.key = e.key
  · refine Or.inr ⟨txn.commitTs, ?_, hnewest⟩
    show txn.commitTs ∈ (applyEntry s.world.db e txn.commitTs).ht.stamp e'.key
    rw [hstamp, if_pos hkey]
    rfl
  · rcases h.stamped c hc e' he' with ⟨t', hr⟩ | ⟨ts, hts, hle⟩
    · refine Or.inl ⟨t', ?_⟩
      rw [Threads.to_phase]
      split
      · rename_i heq
        rw [heq, hphase] at hr
        rcases List.mem_cons.mp hr with hsame | hlater
        · exact absurd (congrArg Record.key hsame) hkey
        · exact hlater
      · exact hr
    · refine Or.inr ⟨ts, ?_, hle⟩
      show ts ∈ (applyEntry s.world.db e txn.commitTs).ht.stamp e'.key
      rw [hstamp, if_neg hkey]
      exact hts

/-- A step of such a schedule. -/
theorem Threads.Stamped.step (h : s.Stamped) (hisolated : s.Isolated base) {a : ThreadStep}
    (hp : BeginsApart s a) : (threadStep s a).Stamped := by
  have heffect := threadStep_effect s a
  generalize threadStep s a = s' at heffect
  cases heffect with
  | stay => exact h
  | refused hphase =>
    exact h.to rfl (by rw [hphase]; rfl) (Or.inl rfl) fun _ => by simp
  | @drawn t readOnly hphase =>
    refine h.frame rfl rfl (Threads.to_view (s := { s with world := s.world.drawn })
      (f := Phase.rest) (by simp only [hphase]; rfl))
      (Threads.to_all (P := fun t' q => ∀ b, q.beginTs = some b → (s.phase t').beginTs = some b ∨
        ∀ c ∈ s.commits, c.1 ≠ b) (fun b hb => Or.inr fun c hc => ?_) fun t' _ b hb => Or.inl hb)
      fun t' txn ht => Or.inl (Threads.checked_of_to (s := { s with world := s.world.drawn })
        (fun _ => by simp) ht)
    have hb' : s.clock = b := Option.some.inj hb
    have hlt := hisolated.drawn c hc
    omega
  | taken hphase =>
    exact h.to rfl (by rw [hphase]; rfl) (Or.inr (by rw [hphase]; rfl)) fun _ => by simp
  | claimed hphase _ _ =>
    exact h.to rfl (by rw [hphase]; rfl) (Or.inr (by rw [hphase]; rfl)) fun _ => by simp
  | unclaimed hphase _ =>
    exact h.to rfl (by rw [hphase]; rfl) (Or.inr (by rw [hphase]; rfl)) fun _ => by simp
  | wrote hphase hcollects =>
    exact h.to rfl (by rw [hphase]; rfl)
      (Or.inr (by rw [hphase]; exact congrArg some hcollects.beginTs)) fun _ => by simp
  | ended hphase =>
    exact h.to rfl (by rw [hphase]; rfl) (Or.inr (by rw [hphase]; rfl)) fun _ => by simp
  | @locked t txn hphase hlock hro hne hok =>
    refine h.frame rfl rfl (Threads.to_view (s := { s with lock := some t }) (f := Phase.rest)
      (by simp only [hphase]; rfl)) (fun t' b hb => Or.inl ?_) fun t' txn' ht' => ?_
    · rw [← Threads.to_view (s := { s with lock := some t }) (f := Phase.beginTs) (t := t)
        (p := .checked txn) (by simp only [hphase]; rfl)]
      exact hb
    · rw [Threads.to_phase] at ht'
      split at ht'
      · cases ht'
        exact Or.inr fun c hc hmissed e he => h.fresh_of_ok hisolated hlock hok hc hmissed he
      · exact Or.inl ht'
  | drewCommit hphase => exact h.drawCommit hisolated hphase
  | appended hphase _ =>
    exact h.to (logEntry_ht _ _ _) (by rw [hphase]; rfl) (Or.inr (by rw [hphase]; rfl))
      fun _ => by simp
  | appendFailed hphase hfailed => exact absurd (logEntry_working hisolated.working _ _).1 hfailed
  | installed hphase => exact h.install hphase
  | unlocked hphase =>
    exact h.to rfl (by rw [hphase]; rfl) (Or.inr (by rw [hphase]; rfl)) fun _ => by simp
  | unlockedFailed hphase =>
    exact h.to rfl (by rw [hphase]; rfl) (Or.inr (by rw [hphase]; rfl)) fun _ => by simp
  | released hphase =>
    exact h.to rfl (by rw [hphase]; rfl) (Or.inl rfl) fun _ => by simp
  | clockRead _ =>
    exact h.frame rfl rfl (fun _ => rfl) (fun _ _ hb => Or.inl hb) fun _ _ ht => Or.inl ht
  | slotRead _ _ =>
    exact h.frame rfl rfl (fun _ => rfl) (fun _ _ hb => Or.inl hb) fun _ _ ht => Or.inl ht
  | collected _ _ => exact hp.elim

end Step

/-! ## Serial order -/

/-- A transaction asks for its commit when its write set is what it computes from the map that
it reads. -/
def Follows (body : ℕ → Body Bytes Slice (List WriteEntry)) (s : Threads) : ThreadStep → Prop
  | .check t => ∀ txn, s.phase t = .active txn → txn.writes = body t (s.ht.visible txn.beginTs)
  | _ => True

/-- The transaction is past its commit timestamp, or it ended without one. -/
def Phase.past : Phase → Bool
  | .applying _ _ | .logged _ _ _ | .failed _ _ | .closing _ _ | .closed _ => true
  | .idle | .claiming _ _ _ | .active _ | .checked _ => false

/-- There is no way back. -/
theorem Phase.Next.past {p q : Phase} (h : p.Next q) (hp : p.past = true) : q.past = true := by
  cases h with
  | drawn | taken | begun | wrote | locked => cases hp
  | _ => rfl

/-- The invariant of schedules of such transactions, beside the transactions that have drawn a
commit timestamp. -/
structure SerialRun (body : ℕ → Body Bytes Slice (List WriteEntry)) (base : Bytes → Slice)
    (so : Threads × List ℕ) : Prop where
  /-- Snapshot isolation. -/
  isolated : so.1.Isolated base
  /-- Timestamps. -/
  stamped : so.1.Stamped
  /-- What a transaction is about to commit. -/
  followed : ∀ t txn, so.1.phase t = .checked txn →
    txn.writes = body t (so.1.ht.visible txn.beginTs)
  /-- The write sets are those of the serial run. -/
  sets : so.1.commits.map Prod.snd = commitSets.serialSets (so.2.map body) base
  /-- A transaction does not commit again. -/
  past : ∀ t ∈ so.2, (so.1.phase t).past = true
  /-- No transaction commits twice. -/
  nodup : so.2.Nodup

section Serial

variable {body : ℕ → Body Bytes Slice (List WriteEntry)} {base : Bytes → Slice}
  {so : Threads × List ℕ}

/-- The commits have the effect of the serial run. -/
theorem SerialRun.updates_eq (h : SerialRun body base so) :
    updates base (commitRecords so.1.commits) = commitSets.serial (so.2.map body) base := by
  rw [updates_commitRecords, h.sets, WriteSets.foldl_serialSets]

/-- A transaction reads the map between two of the serial run. -/
theorem SerialRun.visible_eq (h : SerialRun body base so) {t b : ℕ}
    (hb : (so.1.phase t).beginTs = some b) :
    ∃ n, so.1.ht.visible b = commitSets.serial ((so.2.take n).map body) base := by
  refine ⟨(so.1.commits.filter fun c => decide (c.1 < b)).length, ?_⟩
  have htake : so.1.commits.take (so.1.commits.filter fun c => decide (c.1 < b)).length =
      so.1.commits.filter fun c => decide (c.1 < b) := by
    conv_lhs => rw [← filter_append_filter h.stamped.sorted b]
    simp
  funext key
  rw [h.isolated.seen t b hb, updates_commitRecords, ← WriteSets.foldl_serialSets, List.map_take,
    ← WriteSets.take_serialSets, ← h.sets, ← List.map_take, htake]

/-- What a transaction reads does not change in a step. -/
theorem Threads.Isolated.visible_step {s : Threads} (h : s.Isolated base) {a : ThreadStep}
    (h' : (threadStep s a).Isolated base) {t b : ℕ} (hb : (s.phase t).beginTs = some b)
    (hb' : ((threadStep s a).phase t).beginTs = some b) :
    (threadStep s a).ht.visible b = s.ht.visible b := by
  funext key
  rw [h.seen t b hb, h'.seen t b hb']
  rcases threadStep_commits s a with ⟨-, hsame⟩ | ⟨t', txn, -, -, -, hmore⟩
  · rw [hsame]
  · have hlt := h.begun t b hb
    rw [hmore, List.filter_append, List.filter_cons_of_neg (by simpa using hlt.le),
      List.filter_nil, List.append_nil]

/-- When a transaction draws its commit timestamp, its write set is what it would compute from
the map that its predecessors have left. -/
theorem SerialRun.up_to_date (h : SerialRun body base so)
    (hown : ∀ t, commitSets.ReadsOwn (body t)) {t : ℕ} {txn : Txn}
    (hphase : so.1.phase t = .checked txn) :
    txn.writes = body t (commitSets.serial (so.2.map body) base) := by
  have hbegin : (so.1.phase t).beginTs = some txn.beginTs := by
    rw [hphase]
    rfl
  have hfollowed := h.followed t txn hphase
  rw [hfollowed, ← h.updates_eq]
  refine ((hown t).up_to_date ((so.1.commits.filter fun c =>
    !decide (c.1 < txn.beginTs)).map Prod.snd) ?_ fun es hes key hkey => ?_).symm
  · have hseen : so.1.ht.visible txn.beginTs = updates base (commitRecords (so.1.commits.filter
        fun c => decide (c.1 < txn.beginTs))) := funext (h.isolated.seen t _ hbegin)
    rw [hseen, updates_commitRecords, ← List.foldl_append, ← List.map_append,
      filter_append_filter h.stamped.sorted, updates_commitRecords]
  · obtain ⟨c, hc, rfl⟩ := List.mem_map.mp hes
    obtain ⟨hmem, hnot⟩ := List.mem_filter.mp hc
    have hdistinct := h.stamped.distinct c hmem t _ hbegin
    rw [← hfollowed] at hkey
    obtain ⟨e, he, rfl⟩ := hkey
    refine h.stamped.fresh t txn hphase c hmem ?_ e he
    simp only [Bool.not_eq_eq_eq_not, Bool.not_true, decide_eq_false_iff_not] at hnot
    omega

/-- A step of such a schedule. -/
theorem SerialRun.step (h : SerialRun body base so) (hclock : so.1.clock + 1 < tsMax)
    (hown : ∀ t, commitSets.ReadsOwn (body t)) {a : ThreadStep}
    (hp : BeginsApart so.1 a ∧ Follows body so.1 a) : SerialRun body base (recordStep so a) := by
  have hisolated := h.isolated.step hclock hp.1
  have hnext := fun t => (threadStep_effect so.1 a).next t
  have hpast : ∀ t ∈ so.2, ((threadStep so.1 a).phase t).past = true := by
    intro t ht
    rcases hnext t with hsame | hmoved
    · rw [hsame]
      exact h.past t ht
    · exact hmoved.past (h.past t ht)
  refine ⟨hisolated, h.stamped.step h.isolated hp.1, fun t txn ht => ?_, ?_, ?_, ?_⟩
  · have hb' : ((threadStep so.1 a).phase t).beginTs = some txn.beginTs := by
      rw [show (threadStep so.1 a).phase t = .checked txn from ht]
      rfl
    rcases threadStep_checked ht with hold | ⟨rfl, hactive, -, -⟩
    · have hb : (so.1.phase t).beginTs = some txn.beginTs := by rw [hold]; rfl
      show txn.writes = body t ((threadStep so.1 a).ht.visible txn.beginTs)
      rw [h.isolated.visible_step hisolated hb hb']
      exact h.followed t txn hold
    · have hb : (so.1.phase t).beginTs = some txn.beginTs := by rw [hactive]; rfl
      show txn.writes = body t ((threadStep so.1 (.check t)).ht.visible txn.beginTs)
      rw [h.isolated.visible_step hisolated hb hb']
      exact hp.2 txn hactive
  all_goals
    rcases threadStep_commits so.1 a with ⟨hnone, hsame⟩ | ⟨t, txn, rfl, hphase, hsome, hmore⟩
  · show (threadStep so.1 a).commits.map Prod.snd = _
    rw [hsame, recordStep, hnone, Option.toList_none, List.append_nil]
    exact h.sets
  · show (threadStep so.1 (.drawCommit t)).commits.map Prod.snd = _
    rw [hmore, recordStep, hsome, Option.toList_some, List.map_append, List.map_append,
      WriteSets.serialSets_append, h.sets, List.map_singleton, h.up_to_date hown hphase]
    rfl
  · rw [recordStep, hnone, Option.toList_none, List.append_nil]
    exact hpast
  · rw [recordStep, hsome, Option.toList_some]
    intro t' ht'
    rcases List.mem_append.mp ht' with hmem | hmem
    · exact hpast t' hmem
    · rw [List.mem_singleton.mp hmem]
      simp only [threadStep, hphase, Threads.to_phase, if_true, Phase.past]
  · rw [recordStep, hnone, Option.toList_none, List.append_nil]
    exact h.nodup
  · rw [recordStep, hsome, Option.toList_some]
    refine List.nodup_append.mpr ⟨h.nodup, List.nodup_singleton _, fun t' ht' t'' ht'' heq => ?_⟩
    rw [List.mem_singleton.mp ht''] at heq
    have hpast' := h.past t' ht'
    rw [heq, hphase] at hpast'
    cases hpast'

end Serial

/-- Any number of transactions run side by side, step by step, without garbage collection, and
none begins while a commit is between drawing its timestamp and applying its last entry. Each
transaction asks for its commit with the write set that it computes from what it has read, and
what it computes depends on the keys that it writes only. Then the transactions that commit do
what they would do one after the other in the order of their commit timestamps, no transaction
commits twice, the database holds the result whenever no commit is running, and every open
transaction reads what some of them, from the first on, have left. The directory was intact when
it was opened, the disk fails no call, so that every record is logged, and the clock does not run
out. -/
theorem serializable {opts : Opts} {fresh : Uuid} {disk : Disk} {w : World}
    (hintact : Intact opts disk.files) (hquiet : disk.Quiet)
    (hopen : fastkvOpen opts fresh disk = .ok w)
    {body : ℕ → Body Bytes Slice (List WriteEntry)} (hown : ∀ t, commitSets.ReadsOwn (body t))
    (steps : List ThreadStep) (hclock : w.db.clock + steps.length < tsMax)
    (hruns : Permitted threadStep (fun s a => BeginsApart s a ∧ Follows body s a)
      (Threads.start w) steps) {s : Threads} (hs : s = exec threadStep (Threads.start w) steps)
    {order : List ℕ} (horder : order = committers (Threads.start w) steps) :
    order.Nodup ∧
    s.commits.map Prod.snd = commitSets.serialSets (order.map body) w.db.ht.live ∧
    (s.lock = none → s.ht.live = commitSets.serial (order.map body) w.db.ht.live) ∧
    ∀ t txn, s.phase t = .active txn → ∃ n, ∀ key, htGet s.ht txn.beginTs key =
      readResult (commitSets.serial ((order.take n).map body) w.db.ht.live key) := by
  have hstart : SerialRun body w.db.ht.live (Threads.start w, []) := by
    refine ⟨.start hintact hquiet hopen, ⟨List.Pairwise.nil, fun c hc => (nomatch hc),
      fun t r hr => (nomatch hr), fun c hc => (nomatch hc), fun t txn ht => (nomatch ht)⟩,
      fun t txn ht => (nomatch ht), rfl, fun t ht => (nomatch ht), List.nodup_nil⟩
  obtain ⟨hrun, -⟩ := exec_induction (fun so : Threads × List ℕ => so.1.clock)
    (fun so a _ hlt => (threadStep_clock hlt a).2)
    (fun so a hso hlt hp => hso.step hlt hown hp) steps hstart hclock (permitted_recordStep steps
      (Threads.start w, []) hruns)
  generalize hso : exec recordStep (Threads.start w, []) steps = so at hrun
  have hs' : so.1 = s := by
    rw [← hso, exec_recordStep, hs]
  have horder' : so.2 = order := by
    rw [← hso, horder]
    rfl
  refine ⟨horder' ▸ hrun.nodup, ?_, fun hlock => ?_, fun t txn ht => ?_⟩
  · rw [← hs', ← horder']
    exact hrun.sets
  · have hlive := hrun.isolated.live
    rw [show so.1.rest = [] by rw [Threads.rest, hs', hlock]; rfl, hrun.updates_eq] at hlive
    rw [← hs', ← horder']
    exact hlive
  · rw [← hs'] at ht ⊢
    obtain ⟨n, hn⟩ := hrun.visible_eq (t := t) (b := txn.beginTs) (by rw [ht]; rfl)
    exact ⟨n, fun key => by rw [htGet_eq_visible, hn, horder']⟩

/-! ## Two schedules -/

/-- A transaction appends its number to the value of the key `[1]`. -/
def appendBody (t : ℕ) : Body Bytes Slice (List WriteEntry) := fun m =>
  [⟨[1], some ((m [1]).getD [] ++ [UInt8.ofNat t])⟩]

/-- It depends on that key only. -/
theorem appendBody_readsOwn (t : ℕ) : commitSets.ReadsOwn (appendBody t) := by
  intro m m' h
  have hkey : m' [1] = m [1] := h [1] ⟨_, List.mem_cons_self, rfl⟩
  rw [appendBody, appendBody, hkey]

/-- Two transactions append to one value. -/
def appendTwice : List ThreadStep := commitOf 0 [1] [0] ++ commitOf 1 [1] [0, 1]

/-- The second one has read what the first one has written. -/
theorem serializable_appendTwice :
    (exec threadStep (Threads.start newWorld) appendTwice).ht.live [1] = some [0, 1] := by
  have hruns : Permitted threadStep (fun s a => BeginsApart s a ∧ Follows appendBody s a)
      (Threads.start newWorld) appendTwice := by
    refine ⟨⟨fun t => rfl, trivial⟩, ⟨trivial, trivial⟩, ⟨trivial, trivial⟩, ⟨trivial, trivial⟩,
      ⟨trivial, fun txn ht => ?_⟩, ⟨trivial, trivial⟩, ⟨trivial, trivial⟩, ⟨trivial, trivial⟩,
      ⟨trivial, trivial⟩, ⟨trivial, trivial⟩, ⟨?_, trivial⟩, ⟨trivial, trivial⟩, ⟨trivial, trivial⟩,
      ⟨trivial, trivial⟩, ⟨trivial, fun txn ht => ?_⟩, ⟨trivial, trivial⟩, ⟨trivial, trivial⟩,
      ⟨trivial, trivial⟩, ⟨trivial, trivial⟩, ⟨trivial, trivial⟩, trivial⟩
    · have hphase : (exec threadStep (Threads.start newWorld) (appendTwice.take 4)).phase 0 =
          .active { newTxn false 1 (some 0) with
            writes := [⟨[1], some [0]⟩], writeCount := 1 } := by
        decide +kernel
      cases hphase.symm.trans ht
      decide +kernel
    · rintro (- | t)
      · decide +kernel
      · rfl
    · have hphase : (exec threadStep (Threads.start newWorld) (appendTwice.take 14)).phase 1 =
          .active { newTxn false 3 (some 0) with
            writes := [⟨[1], some [0, 1]⟩], writeCount := 1 } := by
        decide +kernel
      cases hphase.symm.trans ht
      decide +kernel
  obtain ⟨-, -, hlive, -⟩ := serializable (intact_empty oneBucket) (fun _ h => by cases h)
    newWorld_opened appendBody_readsOwn appendTwice (by decide +kernel) hruns rfl rfl
  rw [hlive (by decide +kernel)]
  decide +kernel

/-- A write set with one entry. -/
theorem commitSets_singleton (key : Bytes) (value : Slice) (m : Bytes → Slice) :
    commitSets.apply [⟨key, value⟩] m = Function.update m key (sliceDup value) := by
  cases value <;> rfl

/-- Copying a copy. -/
theorem sliceDup_idem (value : Slice) : sliceDup (sliceDup value) = sliceDup value := by
  rcases value with - | (- | ⟨b, bs⟩) <;> rfl

/-- Each of two transactions copies the value of the other's key. -/
def copyBody (t : ℕ) : Body Bytes Slice (List WriteEntry) := fun m =>
  if t = 2 then [⟨[1], m [2]⟩] else [⟨[2], m [1]⟩]

/-- They begin together, read, and commit one after the other. -/
def copyAcross : List ThreadStep :=
  commitOf 0 [1] [10] ++ commitOf 1 [2] [20] ++
    [.draw 2 false, .claim 2, .draw 3 false, .claim 3, .claim 3, .put 2 [1] (some [20]),
      .put 3 [2] (some [10])] ++
    [.check 2, .drawCommit 2, .append 2, .install 2, .unlock 2, .release 2] ++
    [.check 3, .drawCommit 3, .append 3, .install 3, .unlock 3, .release 3]

/-- Both commits succeed and exchange the values, which neither serial order does: the two
transactions read keys that they do not write. -/
theorem copies_are_not_serial :
    (exec threadStep (Threads.start newWorld) copyAcross).phase 2 = .closed (some .ok) ∧
    (exec threadStep (Threads.start newWorld) copyAcross).phase 3 = .closed (some .ok) ∧
    (exec threadStep (Threads.start newWorld) copyAcross).ht.live [1] = some [20] ∧
    (exec threadStep (Threads.start newWorld) copyAcross).ht.live [2] = some [10] ∧
    ∀ order ∈ [[copyBody 2, copyBody 3], [copyBody 3, copyBody 2]], ∀ m : Bytes → Slice,
      commitSets.serial order m [1] = commitSets.serial order m [2] := by
  refine ⟨by decide +kernel, by decide +kernel, by decide +kernel, by decide +kernel, ?_⟩
  intro order horder m
  simp only [List.mem_cons, List.not_mem_nil, or_false] at horder
  rcases horder with rfl | rfl
  · show commitSets.apply (copyBody 3 _) (commitSets.apply [⟨[1], m [2]⟩] m) [1] =
      commitSets.apply (copyBody 3 _) (commitSets.apply [⟨[1], m [2]⟩] m) [2]
    simp [copyBody, commitSets_singleton, sliceDup_idem]
  · show commitSets.apply (copyBody 2 _) (commitSets.apply [⟨[2], m [1]⟩] m) [1] =
      commitSets.apply (copyBody 2 _) (commitSets.apply [⟨[2], m [1]⟩] m) [2]
    simp [copyBody, commitSets_singleton, sliceDup_idem]

end FastKV
