import FastKV.Threads

/-!
# Garbage collection beside open transactions

A collector takes the minimum of the clock and of the slots, one after the other. A
transaction that begins after the clock was read is not older than the minimum. One that
began before has to be found in its slot, so it must have claimed one by then: the collector
is safe if, whenever it reads the clock, no transaction is between drawing its timestamp and
claiming its slot and none has gone without a slot.
-/

namespace FastKV

open Lib

/-- Every transaction that has drawn its timestamp holds a slot. -/
def Threads.Registered (s : Threads) : Prop :=
  ∀ t, (s.phase t).beginTs ≠ none → (s.phase t).slot ≠ none

/-- A collector reads the clock only when every transaction is registered. Other steps are not
restricted. -/
def ReadsRegistered (s : Threads) : ThreadStep → Prop
  | .readClock _ => s.Registered
  | _ => True

/-- The invariant of such schedules. -/
structure Threads.Tracked (s : Threads) : Prop where
  /-- Zero is not a timestamp. -/
  clock_pos : 0 < s.clock
  /-- Transactions began before now. -/
  begun : ∀ t b, (s.phase t).beginTs = some b → 0 < b ∧ b < s.clock
  /-- A claimed slot has the timestamp of its transaction. -/
  held : ∀ t j, (s.phase t).slot = some j →
    j < maxConcurrentTxn ∧ (s.phase t).beginTs = some (s.oracle.slots.getD j 0)
  /-- No two transactions have claimed one slot. -/
  apart : ∀ t t' j, (s.phase t).slot = some j → (s.phase t').slot = some j → t = t'
  /-- The minimum of a collector is not above the timestamps of the transactions, except those
  in slots that it has not read yet. -/
  scanned : ∀ c m i, s.scan c = some (m, i) → m ≤ s.clock ∧
    ∀ t b, (s.phase t).beginTs = some b → m ≤ b ∨ ∃ j, (s.phase t).slot = some j ∧ i ≤ j

section Step

variable {s s' : Threads}

/-- A step that involves neither the oracle nor the collectors. -/
theorem Threads.Tracked.frame (h : s.Tracked) (horacle : s'.oracle = s.oracle)
    (hscan : s'.scan = s.scan) (hbegin : ∀ t, (s'.phase t).beginTs = (s.phase t).beginTs)
    (hslot : ∀ t, (s'.phase t).slot = (s.phase t).slot) : s'.Tracked := by
  have hclock : s'.clock = s.clock := congrArg Oracle.clock horacle
  refine ⟨?_, ?_, ?_, ?_, ?_⟩
  · rw [hclock]
    exact h.clock_pos
  · intro t b hb
    rw [hbegin] at hb
    rw [hclock]
    exact h.begun t b hb
  · intro t j hj
    rw [hslot] at hj
    rw [hbegin, horacle]
    exact h.held t j hj
  · intro t t' j hj hj'
    rw [hslot] at hj hj'
    exact h.apart t t' j hj hj'
  · intro c m i hc
    rw [hscan] at hc
    simp only [hclock, hbegin, hslot]
    exact h.scanned c m i hc

/-- A step of one transaction that keeps its timestamp and its slot. -/
theorem Threads.Tracked.to (h : s.Tracked) {t : ℕ} {p : Phase} {world : World} {lock : Option ℕ}
    {commits : List (ℕ × List WriteEntry)} (horacle : world.db.txnMgr.oracle = s.oracle)
    (hbegin : p.beginTs = (s.phase t).beginTs) (hslot : p.slot = (s.phase t).slot) :
    (({ s with world, lock, commits } : Threads).to t p).Tracked :=
  h.frame horacle rfl (Threads.to_view (f := Phase.beginTs) hbegin)
    (Threads.to_view (f := Phase.slot) hslot)

/-- The clock moves on. -/
theorem Threads.Tracked.tick (h : s.Tracked) (hclock : s.clock + 1 < tsMax) :
    ({ s with world := s.world.drawn } : Threads).Tracked := by
  have htick : ({ s with world := s.world.drawn } : Threads).clock = s.clock + 1 :=
    Threads.clock_drawn hclock
  refine ⟨by omega, fun t b hb => ?_, h.held, h.apart, fun c m i hc => ?_⟩
  · have hlt := h.begun t b hb
    omega
  · obtain ⟨hle, hall⟩ := h.scanned c m i hc
    exact ⟨by omega, hall⟩

/-- A timestamp is drawn. -/
theorem Threads.Tracked.draw (h : s.Tracked) (hclock : s.clock + 1 < tsMax) {t : ℕ}
    (hidle : s.phase t = .idle) (readOnly : Bool) :
    ({ s with world := s.world.drawn }.to t (.claiming readOnly s.clock 0)).Tracked := by
  have htick : ({ s with world := s.world.drawn } : Threads).clock = s.clock + 1 :=
    Threads.clock_drawn hclock
  have hslot : ∀ t', (({ s with world := s.world.drawn }.to t
      (.claiming readOnly s.clock 0)).phase t').slot = (s.phase t').slot :=
    Threads.to_view (s := { s with world := s.world.drawn }) (f := Phase.slot)
      (by simp only [hidle]; rfl)
  have hbegin : ∀ t' b, (({ s with world := s.world.drawn }.to t
      (.claiming readOnly s.clock 0)).phase t').beginTs = some b →
      b = s.clock ∨ (s.phase t').beginTs = some b := by
    intro t' b hb
    rw [Threads.to_phase] at hb
    split at hb
    · exact Or.inl (Option.some.inj hb).symm
    · exact Or.inr hb
  have hpos := h.clock_pos
  have hnext := h.tick hclock
  refine ⟨hnext.clock_pos, fun t' b hb => ?_, fun t' j hj => ?_, fun t₁ t₂ j h₁ h₂ => ?_,
    fun c m i hc => ⟨(hnext.scanned c m i hc).1, fun t' b hb => ?_⟩⟩
  · show 0 < b ∧ b < ({ s with world := s.world.drawn } : Threads).clock
    rcases hbegin t' b hb with rfl | hold
    · omega
    · exact hnext.begun t' b hold
  · rw [hslot] at hj
    obtain ⟨hlt, hheld⟩ := h.held t' j hj
    refine ⟨hlt, ?_⟩
    rw [Threads.to_phase, if_neg]
    · exact hheld
    · rintro rfl
      rw [hidle] at hheld
      cases hheld
  · rw [hslot] at h₁ h₂
    exact h.apart t₁ t₂ j h₁ h₂
  · rw [hslot]
    obtain ⟨hle, hall⟩ := h.scanned c m i hc
    rcases hbegin t' b hb with rfl | hold
    · exact Or.inl hle
    · exact hall t' b hold

/-- A slot is claimed. -/
theorem Threads.Tracked.claim (h : s.Tracked) {t i beginTs : ℕ} {readOnly : Bool}
    (hphase : s.phase t = .claiming readOnly beginTs i) (hi : i < maxConcurrentTxn)
    (hfree : s.oracle.slots.getD i 0 = 0) :
    ({ s with world := s.world.withOracle (s.oracle.setSlot i beginTs) }.to t
      (.active (newTxn readOnly beginTs (some i)))).Tracked := by
  have hbegin : ∀ t', (({ s with world := s.world.withOracle (s.oracle.setSlot i beginTs) }.to t
      (.active (newTxn readOnly beginTs (some i)))).phase t').beginTs = (s.phase t').beginTs :=
    Threads.to_view (s := { s with world := s.world.withOracle (s.oracle.setSlot i beginTs) })
      (f := Phase.beginTs) (by simp only [hphase]; rfl)
  have hnone : (s.phase t).slot = none := by
    rw [hphase]
    rfl
  -- the other claimed slots have a timestamp, this one had none
  have hother : ∀ t' j, (s.phase t').slot = some j → j ≠ i := by
    rintro t' j hj rfl
    obtain ⟨-, hheld⟩ := h.held t' j hj
    have hpos := (h.begun t' _ hheld).1
    omega
  have hslot : ∀ t' j, (({ s with world := s.world.withOracle (s.oracle.setSlot i beginTs) }.to t
      (.active (newTxn readOnly beginTs (some i)))).phase t').slot = some j →
      (t' = t ∧ j = i) ∨ (t' ≠ t ∧ (s.phase t').slot = some j) := by
    intro t' j hj
    rw [Threads.to_phase] at hj
    split at hj
    · exact Or.inl ⟨by assumption, (Option.some.inj hj).symm⟩
    · exact Or.inr ⟨by assumption, hj⟩
  have hget : ∀ j, (s.oracle.slots.set i beginTs).getD j 0 =
      if j = i then beginTs else s.oracle.slots.getD j 0 := by
    intro j
    have hlen : i < s.oracle.slots.length := by
      rw [s.oracle.length_slots]
      exact hi
    rw [List.getD_eq_getElem?_getD, List.getElem?_set, List.getD_eq_getElem?_getD]
    by_cases hj : i = j
    · rw [if_pos hj, if_pos hlen, if_pos hj.symm, Option.getD_some]
    · rw [if_neg hj, if_neg fun hji => hj hji.symm]
  refine ⟨h.clock_pos, fun t' b hb => ?_, fun t' j hj => ?_, fun t₁ t₂ j h₁ h₂ => ?_,
    fun c m k hc => ⟨(h.scanned c m k hc).1, fun t' b hb => ?_⟩⟩
  · rw [hbegin] at hb
    exact h.begun t' b hb
  · rw [hbegin]
    show j < maxConcurrentTxn ∧ (s.phase t').beginTs =
      some ((s.oracle.slots.set i beginTs).getD j 0)
    rw [hget]
    rcases hslot t' j hj with ⟨rfl, rfl⟩ | ⟨-, hold⟩
    · rw [if_pos rfl, hphase]
      exact ⟨hi, rfl⟩
    · rw [if_neg (hother t' j hold)]
      exact h.held t' j hold
  · rcases hslot t₁ j h₁ with ⟨heq₁, hji⟩ | ⟨-, hold₁⟩
    · rcases hslot t₂ j h₂ with ⟨heq₂, -⟩ | ⟨-, hold₂⟩
      · exact heq₁.trans heq₂.symm
      · exact absurd hji (hother t₂ j hold₂)
    · rcases hslot t₂ j h₂ with ⟨-, hji⟩ | ⟨-, hold₂⟩
      · exact absurd hji (hother t₁ j hold₁)
      · exact h.apart t₁ t₂ j hold₁ hold₂
  · rw [hbegin] at hb
    rcases (h.scanned c m k hc).2 t' b hb with hle | ⟨j, hj, hkj⟩
    · exact Or.inl hle
    · refine Or.inr ⟨j, ?_, hkj⟩
      rw [Threads.to_phase, if_neg]
      · exact hj
      · rintro rfl
        rw [hnone] at hj
        cases hj

/-- A slot is released. -/
theorem Threads.Tracked.release (h : s.Tracked) {t : ℕ} {txn : Txn} {rc : Option Err}
    (hphase : s.phase t = .closing txn rc) :
    ({ s with world := s.world.withOracle (oracleRelease s.oracle txn.oracleSlot) }.to t
      (.closed rc)).Tracked := by
  -- nothing is left of the transaction, and the slots of the others are untouched
  have hview : ∀ t', (t' = t ∧ (({ s with
        world := s.world.withOracle (oracleRelease s.oracle txn.oracleSlot) }.to t
          (.closed rc)).phase t') = .closed rc) ∨
      (t' ≠ t ∧ (({ s with
        world := s.world.withOracle (oracleRelease s.oracle txn.oracleSlot) }.to t
          (.closed rc)).phase t') = s.phase t') := by
    intro t'
    rw [Threads.to_phase]
    split
    · exact Or.inl ⟨by assumption, rfl⟩
    · exact Or.inr ⟨by assumption, rfl⟩
  have hslots : ∀ t' j, t' ≠ t → (s.phase t').slot = some j →
      (oracleRelease s.oracle txn.oracleSlot).slots.getD j 0 = s.oracle.slots.getD j 0 := by
    intro t' j hne hj
    unfold oracleRelease
    split
    · rename_i k hk
      have hkj : k ≠ j := by
        rintro rfl
        refine hne (h.apart t' t k hj ?_)
        rw [hphase]
        exact hk
      split
      · show (s.oracle.slots.set k 0).getD j 0 = _
        rw [List.getD_eq_getElem?_getD, List.getElem?_set_ne hkj, ← List.getD_eq_getElem?_getD]
      · rfl
    · rfl
  have hclock : ({ s with world := s.world.withOracle (oracleRelease s.oracle txn.oracleSlot) }.to t
      (.closed rc)).clock = s.clock := clock_oracleRelease s.oracle txn.oracleSlot
  refine ⟨?_, fun t' b hb => ?_, fun t' j hj => ?_, fun t₁ t₂ j h₁ h₂ => ?_, fun c m i hc => ?_⟩
  · rw [hclock]
    exact h.clock_pos
  · rw [hclock]
    rcases hview t' with ⟨-, heq⟩ | ⟨-, heq⟩
    · rw [heq] at hb
      cases hb
    · rw [heq] at hb
      exact h.begun t' b hb
  · rcases hview t' with ⟨-, heq⟩ | ⟨hne, heq⟩
    · rw [heq] at hj
      cases hj
    · rw [heq] at hj ⊢
      show _ ∧ _ = some ((oracleRelease s.oracle txn.oracleSlot).slots.getD j 0)
      rw [hslots t' j hne hj]
      exact h.held t' j hj
  · rcases hview t₁ with ⟨-, heq⟩ | ⟨-, heq⟩
    · rw [heq] at h₁
      cases h₁
    · rcases hview t₂ with ⟨-, heq'⟩ | ⟨-, heq'⟩
      · rw [heq'] at h₂
        cases h₂
      · rw [heq] at h₁
        rw [heq'] at h₂
        exact h.apart t₁ t₂ j h₁ h₂
  · rw [hclock]
    obtain ⟨hle, hall⟩ := h.scanned c m i hc
    refine ⟨hle, fun t' b hb => ?_⟩
    rcases hview t' with ⟨-, heq⟩ | ⟨-, heq⟩
    · rw [heq] at hb
      cases hb
    · rw [heq] at hb ⊢
      exact hall t' b hb

/-- A collector reads the clock. -/
theorem Threads.Tracked.readClock (h : s.Tracked) (hregistered : s.Registered) (c : ℕ) :
    ({ s with scan := Function.update s.scan c (some (s.clock, 0)) } : Threads).Tracked := by
  refine ⟨h.clock_pos, h.begun, h.held, h.apart, fun c' m i hc => ?_⟩
  simp only [Function.update_apply] at hc
  split at hc
  · simp only [Option.some.injEq, Prod.mk.injEq] at hc
    obtain ⟨rfl, rfl⟩ := hc
    refine ⟨Nat.le_refl _, fun t b hb => Or.inr ?_⟩
    have hslot : (s.phase t).slot ≠ none := hregistered t (by rw [hb]; exact Option.some_ne_none b)
    obtain ⟨j, hj⟩ := Option.ne_none_iff_exists'.mp hslot
    exact ⟨j, hj, Nat.zero_le j⟩
  · exact h.scanned c' m i hc

/-- A collector reads a slot. -/
theorem Threads.Tracked.readSlot (h : s.Tracked) {c minTs i : ℕ}
    (hscan : s.scan c = some (minTs, i)) :
    ({ s with
      scan := Function.update s.scan c
        (some (if s.oracle.slots.getD i 0 ≠ 0 ∧ s.oracle.slots.getD i 0 < minTs
          then s.oracle.slots.getD i 0 else minTs, i + 1)) } : Threads).Tracked := by
  refine ⟨h.clock_pos, h.begun, h.held, h.apart, fun c' m k hc => ?_⟩
  simp only [Function.update_apply] at hc
  split at hc
  · simp only [Option.some.injEq, Prod.mk.injEq] at hc
    obtain ⟨hm, rfl⟩ := hc
    obtain ⟨hle, hall⟩ := h.scanned c minTs i hscan
    have hmin : m ≤ minTs := by
      rw [← hm]
      split <;> omega
    refine ⟨hmin.trans hle, fun t b hb => ?_⟩
    rcases hall t b hb with hmb | ⟨j, hj, hij⟩
    · exact Or.inl (hmin.trans hmb)
    · by_cases hji : j = i
      · -- this is the slot of the transaction
        left
        subst hji
        obtain ⟨-, hheld⟩ := h.held t j hj
        rw [hb] at hheld
        have hb' : b = s.oracle.slots.getD j 0 := Option.some.inj hheld
        have hpos := (h.begun t b hb).1
        rw [← hm, ← hb']
        split <;> omega
      · exact Or.inr ⟨j, hj, by omega⟩
  · exact h.scanned c' m k hc

/-- A step in a schedule in which the clock is read when every transaction is registered. -/
theorem Threads.Tracked.step (h : s.Tracked) (hclock : s.clock + 1 < tsMax) {a : ThreadStep}
    (hp : ReadsRegistered s a) : (threadStep s a).Tracked := by
  have heffect := threadStep_effect s a
  generalize threadStep s a = s' at heffect
  cases heffect with
  | stay => exact h
  | refused hphase => exact h.to rfl (by rw [hphase]; rfl) (by rw [hphase]; rfl)
  | drawn hphase => exact h.draw hclock hphase _
  | taken hphase => exact h.to rfl (by rw [hphase]; rfl) (by rw [hphase]; rfl)
  | claimed hphase hi hfree => exact h.claim hphase hi hfree
  | unclaimed hphase _ => exact h.to rfl (by rw [hphase]; rfl) (by rw [hphase]; rfl)
  | wrote hphase hcollects =>
    refine h.to rfl ?_ ?_
    · rw [hphase]
      exact congrArg some hcollects.beginTs
    · rw [hphase]
      exact hcollects.slot
  | ended hphase => exact h.to rfl (by rw [hphase]; rfl) (by rw [hphase]; rfl)
  | locked hphase => exact h.to rfl (by rw [hphase]; rfl) (by rw [hphase]; rfl)
  | drewCommit hphase =>
    refine (h.tick hclock).frame rfl rfl (Threads.to_view (f := Phase.beginTs) ?_)
      (Threads.to_view (f := Phase.slot) ?_)
    · simp only [hphase]
      rfl
    · simp only [hphase]
      rfl
  | appended hphase _ =>
    exact h.to (congrArg TxnMgr.oracle (logEntry_txnMgr _ _ _)) (by rw [hphase]; rfl)
      (by rw [hphase]; rfl)
  | appendFailed hphase _ =>
    exact h.to (congrArg TxnMgr.oracle (logEntry_txnMgr _ _ _)) (by rw [hphase]; rfl)
      (by rw [hphase]; rfl)
  | installed hphase =>
    refine h.to ?_ (by rw [hphase]; rfl) (by rw [hphase]; rfl)
    simp only [applyEntry_txnMgr]
    rfl
  | unlocked hphase => exact h.to rfl (by rw [hphase]; rfl) (by rw [hphase]; rfl)
  | unlockedFailed hphase => exact h.to rfl (by rw [hphase]; rfl) (by rw [hphase]; rfl)
  | released hphase => exact h.release hphase
  | clockRead _ => exact h.readClock hp _
  | slotRead hscan _ => exact h.readSlot hscan
  | @collected c _ _ _ _ =>
    refine ⟨h.clock_pos, h.begun, h.held, h.apart, fun c' m i hc => ?_⟩
    simp only [Function.update_apply] at hc
    split at hc
    · cases hc
    · exact h.scanned c' m i hc

end Step

/-! ## Schedules -/

/-- A database that was just opened. -/
theorem Threads.Tracked.start {opts : Opts} {fresh : Uuid} {disk : Disk} {w : World}
    (hopen : fastkvOpen opts fresh disk = .ok w) : (Threads.start w).Tracked := by
  refine ⟨?_, fun t b hb => (nomatch hb), fun t j hj => (nomatch hj),
    fun t t' j hj => (nomatch hj), fun c m i hc => (nomatch hc)⟩
  obtain ⟨s, snapTs, walMaxTs, wal, rc, -, hdb, -, -⟩ := fastkvOpen_cases hopen
  show 0 < w.db.clock
  rw [hdb]
  simp only [Opts.assemble, Db.clock, clock_oracleAdvance]
  have hone : txnMgrInit.oracle.clock = 1 := rfl
  omega

/-- Transactions of any number and collectors of any number run side by side, and every collector
reads the clock in a moment in which each transaction that has drawn its timestamp holds a
slot. Then, whenever a collector is about to collect, its bound is not above the timestamp of
any transaction that has begun and not ended, and the collection keeps every version that such
a transaction can read. -/
theorem collector_spares_open {opts : Opts} {fresh : Uuid} {disk : Disk} {w : World}
    (hopen : fastkvOpen opts fresh disk = .ok w) (steps : List ThreadStep)
    (hclock : w.db.clock + steps.length < tsMax)
    (hreads : Permitted threadStep ReadsRegistered (Threads.start w) steps) {c minActive i : ℕ}
    (hscan : (exec threadStep (Threads.start w) steps).scan c = some (minActive, i))
    (hdone : maxConcurrentTxn ≤ i) {t b : ℕ}
    (hbegun : ((exec threadStep (Threads.start w) steps).phase t).beginTs = some b) :
    minActive ≤ b ∧
      ∀ key, ∀ v ∈ (exec threadStep (Threads.start w) steps).ht.versions key,
        v.beginTs ≤ b → b < v.endTs →
          v ∈ (threadStep (exec threadStep (Threads.start w) steps)
            (.collect c)).ht.versions key := by
  obtain ⟨h, -⟩ := exec_induction Threads.clock
    (fun s a (_ : s.Tracked) hlt => (threadStep_clock hlt a).2)
    (fun s a hs hlt hp => hs.step hlt hp) steps (Threads.Tracked.start hopen) hclock hreads
  generalize exec threadStep (Threads.start w) steps = s at hscan hbegun h
  have hmin : minActive ≤ b := by
    rcases (h.scanned c minActive i hscan).2 t b hbegun with hle | ⟨j, hj, hij⟩
    · exact hle
    · have hlt := (h.held t j hj).1
      omega
  refine ⟨hmin, fun key v hv _ hend => ?_⟩
  have hcollect : (threadStep s (.collect c)).ht = (htGc s.ht minActive).2 := by
    simp only [threadStep, hscan, if_neg (not_lt.mpr hdone)]
    rfl
  rw [hcollect, versions_htGc, List.mem_reverse, List.mem_filter]
  refine ⟨hv, ?_⟩
  simp only [Version.survives, decide_eq_true_eq]
  omega

/-! ## Two schedules -/

/-- A reader begins between two commits of the same key. -/
def readerBetween (begin : List ThreadStep) : List ThreadStep :=
  commitOf 0 [1] [10] ++ begin ++ commitOf 2 [1] [20]

/-- A collector computes its bound. -/
def scanSteps : List ThreadStep := .readClock 0 :: List.replicate maxConcurrentTxn (.readSlot 0)

/-- The reader has claimed its slot before the collector reads the clock. -/
def earlyClaim : List ThreadStep := readerBetween [.draw 1 true, .claim 1] ++ scanSteps

/-- The collector keeps the version that the reader needs. -/
theorem collector_spares_open_early : ∃ minActive,
    (exec threadStep (Threads.start newWorld) earlyClaim).scan 0 =
      some (minActive, maxConcurrentTxn) ∧ minActive ≤ 3 ∧
    ∀ v ∈ (exec threadStep (Threads.start newWorld) earlyClaim).ht.versions [1],
      v.beginTs ≤ 3 → 3 < v.endTs →
        v ∈ (threadStep (exec threadStep (Threads.start newWorld) earlyClaim)
          (.collect 0)).ht.versions [1] := by
  obtain ⟨hscan, hbegun⟩ : (exec threadStep (Threads.start newWorld) earlyClaim).scan 0 =
      some (3, maxConcurrentTxn) ∧
      ((exec threadStep (Threads.start newWorld) earlyClaim).phase 1).beginTs = some 3 := by
    decide +kernel
  have hreads : Permitted threadStep ReadsRegistered (Threads.start newWorld) earlyClaim := by
    refine (permitted_append _).mpr ⟨.of_forall _ _ ?_, ?_, .of_forall _ _ ?_⟩
    · simp [readerBetween, commitOf, ReadsRegistered]
    · intro t hbegun
      rcases t with - | - | - | t
      · exact absurd (by decide +kernel) hbegun
      · decide +kernel
      · exact absurd (by decide +kernel) hbegun
      · exact absurd rfl hbegun
    · simp [ReadsRegistered]
  obtain ⟨hmin, hkept⟩ := collector_spares_open newWorld_opened _ (by decide +kernel) hreads hscan
    (Nat.le_refl _) hbegun
  exact ⟨3, hscan, hmin, hkept [1]⟩

/-- The reader claims its slot after the collector has passed it. -/
def lateClaim : List ThreadStep := readerBetween [.draw 1 true] ++ scanSteps ++ [.claim 1]

/-- The bound is above the timestamp of the reader, and the collection takes away the version
that the reader has just read. -/
theorem late_claim_loses_version :
    (exec threadStep (Threads.start newWorld) lateClaim).scan 0 = some (6, maxConcurrentTxn) ∧
      ((exec threadStep (Threads.start newWorld) lateClaim).phase 1).beginTs = some 3 ∧
      htGet (exec threadStep (Threads.start newWorld) lateClaim).ht 3 [1] = .ok [10] ∧
      htGet (threadStep (exec threadStep (Threads.start newWorld) lateClaim)
        (.collect 0)).ht 3 [1] =
        .error .notfound := by
  decide +kernel

end FastKV
