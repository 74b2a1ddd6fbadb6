import FastKV.ActiveScan
import FastKV.Lib.Places

/-!
# Slots for running transactions

`fastkv_oracle_begin` tries the 256 slots of the oracle one after the other, beside other
threads that claim and release slots at the same time. A slot that is released after it was
tried is missed, so it is not clear that a begin finds a slot whenever there is one. It does as
long as at most 256 transactions run at any time, those still looking for a slot included: the
slot at which it fails belongs to somebody.
-/

namespace FastKV

open Lib

/-- How far a transaction has got in the table of slots: the slot that it tries or holds, or the
end of the table. -/
def Phase.place : Phase → Option ℕ
  | .claiming _ _ i => some i
  | p => p.txn.map fun txn => txn.oracleSlot.getD maxConcurrentTxn

/-- At most 256 transactions have begun and not ended. -/
def Threads.FewRunning (s : Threads) : Prop := Few maxConcurrentTxn fun t => (s.phase t).beginTs

/-- A transaction has a place from its timestamp on. -/
theorem Phase.place_ne_none {p : Phase} : p.place ≠ none ↔ p.beginTs ≠ none := by
  cases p <;> simp [Phase.place, Phase.beginTs, Phase.txn]

/-- A transaction that holds a slot is at that place. -/
theorem Phase.place_of_slot {p : Phase} {i : ℕ} (h : p.slot = some i) : p.place = some i := by
  obtain ⟨txn, htxn, hslot⟩ := Option.bind_eq_some_iff.mp h
  cases p <;> simp only [Phase.txn, Option.some.injEq, reduceCtorEq] at htxn <;>
    simp [Phase.place, Phase.txn, htxn, hslot]

/-- The invariant of schedules with at most 256 transactions at a time. -/
structure Threads.Seated (s : Threads) : Prop where
  /-- The transactions are spread over the table. -/
  spread : Spread maxConcurrentTxn fun t => (s.phase t).place
  /-- A slot with a timestamp belongs to a transaction. -/
  owned : ∀ i < maxConcurrentTxn, s.oracle.slots.getD i 0 ≠ 0 → ∃ t, (s.phase t).slot = some i
  /-- Zero is not a timestamp. -/
  clock_pos : 0 < s.clock
  /-- Nor did a transaction draw it. -/
  begun : ∀ t b, (s.phase t).beginTs = some b → 0 < b
  /-- A claimed slot has a timestamp. -/
  held : ∀ t j, (s.phase t).slot = some j → s.oracle.slots.getD j 0 ≠ 0
  /-- No two transactions have claimed one slot. -/
  apart : ∀ t t' j, (s.phase t).slot = some j → (s.phase t').slot = some j → t = t'

/-- A slot that is tried in vain has a timestamp. -/
theorem threadStep_claim_taken {s : Threads} {t i beginTs : ℕ} {readOnly : Bool}
    (hphase : s.phase t = .claiming readOnly beginTs i)
    (h : (threadStep s (.claim t)).phase t = .claiming readOnly beginTs (i + 1)) :
    i < maxConcurrentTxn ∧ s.oracle.slots.getD i 0 ≠ 0 := by
  simp only [threadStep, hphase] at h
  split at h
  · rename_i hi
    split at h
    · rw [Threads.to_phase, if_pos rfl] at h
      cases h
    · exact ⟨hi, by assumption⟩
  · rw [Threads.to_phase, if_pos rfl] at h
    cases h

section Step

variable {s s' : Threads}

/-- A step that involves neither the oracle nor the places. -/
theorem Threads.Seated.frame (h : s.Seated) (horacle : s'.oracle = s.oracle)
    (hplace : ∀ t, (s'.phase t).place = (s.phase t).place)
    (hslot : ∀ t, (s'.phase t).slot = (s.phase t).slot)
    (hbegin : ∀ t b, (s'.phase t).beginTs = some b → (s.phase t).beginTs = some b) :
    s'.Seated := by
  have hclock : s'.clock = s.clock := congrArg Oracle.clock horacle
  refine ⟨?_, ?_, ?_, fun t b hb => h.begun t b (hbegin t b hb), ?_, ?_⟩
  · simp only [hplace]
    exact h.spread
  · simp only [horacle, hslot]
    exact h.owned
  · rw [hclock]
    exact h.clock_pos
  · simp only [horacle, hslot]
    exact h.held
  · simp only [hslot]
    exact h.apart

/-- A step of one transaction of this kind. -/
theorem Threads.Seated.to (h : s.Seated) {t : ℕ} {p : Phase} {world : World} {lock : Option ℕ}
    {commits : List (ℕ × List WriteEntry)} (horacle : world.db.txnMgr.oracle = s.oracle)
    (hplace : p.place = (s.phase t).place) (hslot : p.slot = (s.phase t).slot)
    (hbegin : p.beginTs = (s.phase t).beginTs) :
    (({ s with world, lock, commits } : Threads).to t p).Seated := by
  refine h.frame horacle (Threads.to_view (f := Phase.place) hplace)
    (Threads.to_view (f := Phase.slot) hslot) fun t' b hb => ?_
  rw [← Threads.to_view (s := { s with world, lock, commits }) (f := Phase.beginTs) hbegin t']
  exact hb

/-- The clock moves on. -/
theorem Threads.Seated.tick (h : s.Seated) (hclock : s.clock + 1 < tsMax) :
    ({ s with world := s.world.drawn } : Threads).Seated := by
  have htick : ({ s with world := s.world.drawn } : Threads).clock = s.clock + 1 :=
    Threads.clock_drawn hclock
  exact ⟨h.spread, h.owned, by omega, h.begun, h.held, h.apart⟩

/-- A transaction draws its timestamp. -/
theorem Threads.Seated.draw (h : s.Seated) (hclock : s.clock + 1 < tsMax) {t : ℕ}
    {readOnly : Bool} (hphase : s.phase t = .idle)
    (hfew : ({ s with world := s.world.drawn }.to t
      (.claiming readOnly s.clock 0)).FewRunning) :
    ({ s with world := s.world.drawn }.to t (.claiming readOnly s.clock 0)).Seated := by
  have hnext := h.tick hclock
  have hslot : ∀ t', (({ s with world := s.world.drawn }.to t
      (.claiming readOnly s.clock 0)).phase t').slot = (s.phase t').slot :=
    Threads.to_view (s := { s with world := s.world.drawn }) (f := Phase.slot)
      (by simp only [hphase]; rfl)
  refine ⟨h.spread.enter (t := t) (fun u hu => ?_) ?_ fun users hall => ?_, ?_, hnext.clock_pos,
    Threads.to_all (P := fun _ q => ∀ b, q.beginTs = some b → 0 < b) (fun b hb => ?_)
      fun t' _ => h.begun t', ?_, ?_⟩
  · simp only [Threads.to_phase, if_neg hu]
  · simp only [Threads.to_phase, if_true, Phase.place]
  · exact hfew users fun u hu => Phase.place_ne_none.mp (hall u hu)
  · simp only [hslot]
    exact hnext.owned
  · rw [← Option.some.inj hb]
    exact h.clock_pos
  · simp only [hslot]
    exact hnext.held
  · simp only [hslot]
    exact hnext.apart

/-- A slot is taken, and the next one is tried. -/
theorem Threads.Seated.taken (h : s.Seated) {t i beginTs : ℕ} {readOnly : Bool}
    (hphase : s.phase t = .claiming readOnly beginTs i) (hi : i < maxConcurrentTxn)
    (hne : s.oracle.slots.getD i 0 ≠ 0) :
    (s.to t (.claiming readOnly beginTs (i + 1))).Seated := by
  obtain ⟨u, hu⟩ := h.owned i hi hne
  have hut : u ≠ t := by
    rintro rfl
    rw [hphase] at hu
    cases hu
  have hslot : ∀ t', ((s.to t (.claiming readOnly beginTs (i + 1))).phase t').slot =
      (s.phase t').slot := Threads.to_view (f := Phase.slot) (by simp only [hphase]; rfl)
  have hbegin : ∀ t', ((s.to t (.claiming readOnly beginTs (i + 1))).phase t').beginTs =
      (s.phase t').beginTs := Threads.to_view (f := Phase.beginTs) (by simp only [hphase]; rfl)
  refine ⟨h.spread.climb (t := t) (u := u) (k := i) (fun v hv => ?_) ?_ ?_ hut
    (Phase.place_of_slot hu), ?_, h.clock_pos, ?_, ?_, ?_⟩
  · simp only [Threads.to_phase, if_neg hv]
  · simp only [Threads.to_phase, if_true, Phase.place]
  · show (s.phase t).place = some i
    rw [hphase]
    rfl
  · simp only [hslot]
    exact h.owned
  · simp only [hbegin]
    exact h.begun
  · simp only [hslot]
    exact h.held
  · simp only [hslot]
    exact h.apart

/-- A slot is free. -/
theorem Threads.Seated.claimed (h : s.Seated) {t i beginTs : ℕ} {readOnly : Bool}
    (hphase : s.phase t = .claiming readOnly beginTs i) (hi : i < maxConcurrentTxn)
    (hfree : s.oracle.slots.getD i 0 = 0) :
    ({ s with world := s.world.withOracle (s.oracle.setSlot i beginTs) }.to t
      (.active (newTxn readOnly beginTs (some i)))).Seated := by
  have hslot : ∀ t' j, (({ s with world := s.world.withOracle (s.oracle.setSlot i beginTs) }.to t
      (.active (newTxn readOnly beginTs (some i)))).phase t').slot = some j →
      (t' = t ∧ j = i) ∨ (j ≠ i ∧ (s.phase t').slot = some j) := by
    intro t' j hj
    rw [Threads.to_phase] at hj
    split at hj
    · exact Or.inl ⟨by assumption, (Option.some.inj hj).symm⟩
    · refine Or.inr ⟨?_, hj⟩
      rintro rfl
      exact h.held t' j hj hfree
  have hother : ∀ j, j ≠ i → (s.oracle.setSlot i beginTs).slots.getD j 0 =
      s.oracle.slots.getD j 0 := by
    intro j hj
    show (s.oracle.slots.set i beginTs).getD j 0 = _
    rw [List.getD_eq_getElem?_getD, List.getElem?_set_ne (Ne.symm hj),
      ← List.getD_eq_getElem?_getD]
  have hpos : 0 < beginTs := h.begun t beginTs (by rw [hphase]; rfl)
  refine ⟨h.spread.mono fun u p hp => ?_, fun j hj hne => ?_, h.clock_pos,
    Threads.to_all (P := fun _ q => ∀ b, q.beginTs = some b → 0 < b) (fun b hb => ?_)
      fun t' _ => h.begun t', fun t' j hj => ?_, fun t₁ t₂ j h₁ h₂ => ?_⟩
  · simp only [Threads.to_phase] at hp
    split at hp
    · rename_i heq
      have hplace : (s.phase t).place = some i := by
        rw [hphase]
        rfl
      rw [heq]
      exact ⟨i, hplace, (Option.some.inj hp).ge⟩
    · exact ⟨p, hp, Nat.le_refl p⟩
  · by_cases hji : j = i
    · refine ⟨t, ?_⟩
      rw [hji, Threads.to_phase, if_pos rfl]
      rfl
    · obtain ⟨u, hu⟩ := h.owned j hj (by rw [← hother j hji]; exact hne)
      refine ⟨u, ?_⟩
      rw [Threads.to_phase, if_neg]
      · exact hu
      · rintro rfl
        rw [hphase] at hu
        cases hu
  · rw [← Option.some.inj hb]
    exact hpos
  · show (s.oracle.setSlot i beginTs).slots.getD j 0 ≠ 0
    rcases hslot t' j hj with ⟨-, rfl⟩ | ⟨hji, hold⟩
    · have hlen : j < s.oracle.slots.length := by
        rw [s.oracle.length_slots]
        exact hi
      show (s.oracle.slots.set j beginTs).getD j 0 ≠ 0
      rw [List.getD_eq_getElem?_getD, List.getElem?_set_self hlen, Option.getD_some]
      omega
    · rw [hother j hji]
      exact h.held t' j hold
  · rcases hslot t₁ j h₁ with ⟨heq₁, hj₁⟩ | ⟨hj₁, hold₁⟩
    · rcases hslot t₂ j h₂ with ⟨heq₂, -⟩ | ⟨hj₂, -⟩
      · exact heq₁.trans heq₂.symm
      · exact absurd hj₁ hj₂
    · rcases hslot t₂ j h₂ with ⟨-, hj₂⟩ | ⟨-, hold₂⟩
      · exact absurd hj₂ hj₁
      · exact h.apart t₁ t₂ j hold₁ hold₂

/-- Releasing a slot gives no slot a timestamp and takes it from this slot only. -/
theorem getD_oracleRelease (o : Oracle) (slot : Option ℕ) {j : ℕ} (hj : j < maxConcurrentTxn) :
    (oracleRelease o slot).slots.getD j 0 = if slot = some j then 0 else o.slots.getD j 0 := by
  unfold oracleRelease
  cases slot with
  | none => rfl
  | some k =>
    simp only [Option.some.injEq]
    have hlen : j < o.slots.length := by
      rw [o.length_slots]
      exact hj
    by_cases hkj : k = j
    · rw [if_pos (hkj ▸ hj), if_pos hkj, hkj]
      show (o.slots.set j 0).getD j 0 = 0
      rw [List.getD_eq_getElem?_getD, List.getElem?_set_self hlen, Option.getD_some]
    · rw [if_neg hkj]
      split
      · show (o.slots.set k 0).getD j 0 = _
        rw [List.getD_eq_getElem?_getD, List.getElem?_set_ne hkj, ← List.getD_eq_getElem?_getD]
      · rfl

/-- A slot is released. -/
theorem Threads.Seated.release (h : s.Seated) {t : ℕ} {txn : Txn} {rc : Option Err}
    (hphase : s.phase t = .closing txn rc) :
    ({ s with world := s.world.withOracle (oracleRelease s.oracle txn.oracleSlot) }.to t
      (.closed rc)).Seated := by
  -- nothing is left of the transaction
  have hgone : ∀ (t' j : ℕ), (({ s with
      world := s.world.withOracle (oracleRelease s.oracle txn.oracleSlot) }.to t
        (.closed rc)).phase t').slot = some j → t' ≠ t ∧ (s.phase t').slot = some j := by
    intro t' j hj
    rw [Threads.to_phase] at hj
    split at hj
    · cases hj
    · exact ⟨by assumption, hj⟩
  have hown : (s.phase t).slot = txn.oracleSlot := by
    rw [hphase]
    rfl
  refine ⟨h.spread.mono fun u p hp => ?_, fun j hj hne => ?_, ?_,
    Threads.to_all (P := fun _ q => ∀ b, q.beginTs = some b → 0 < b) (fun b hb => nomatch hb)
      fun t' _ => h.begun t', fun t' j hj => ?_, fun t₁ t₂ j h₁ h₂ =>
      h.apart t₁ t₂ j (hgone t₁ j h₁).2 (hgone t₂ j h₂).2⟩
  · simp only [Threads.to_phase] at hp
    split at hp
    · cases hp
    · exact ⟨p, hp, Nat.le_refl p⟩
  · have hne' : (oracleRelease s.oracle txn.oracleSlot).slots.getD j 0 ≠ 0 := hne
    rw [getD_oracleRelease s.oracle txn.oracleSlot hj] at hne'
    split at hne'
    · exact absurd rfl hne'
    · rename_i hslot
      obtain ⟨u, hu⟩ := h.owned j hj hne'
      refine ⟨u, ?_⟩
      rw [Threads.to_phase, if_neg]
      · exact hu
      · rintro rfl
        exact hslot (hown.symm.trans hu)
  · show 0 < (oracleRelease s.oracle txn.oracleSlot).clock
    rw [clock_oracleRelease]
    exact h.clock_pos
  · obtain ⟨hne, hold⟩ := hgone t' j hj
    have hlt := h.spread.lt (Phase.place_of_slot hold)
    show (oracleRelease s.oracle txn.oracleSlot).slots.getD j 0 ≠ 0
    rw [getD_oracleRelease s.oracle txn.oracleSlot hlt, if_neg]
    · exact h.held t' j hold
    · intro heq
      exact hne (h.apart t' t j hold (hown.trans heq))

/-- A step after which at most 256 transactions run. -/
theorem Threads.Seated.step (h : s.Seated) (hclock : s.clock + 1 < tsMax) {a : ThreadStep}
    (hfew : (threadStep s a).FewRunning) : (threadStep s a).Seated := by
  have heffect := threadStep_effect s a
  generalize hs' : threadStep s a = s' at heffect hfew
  cases heffect with
  | stay => exact h
  | refused hphase =>
    exact h.to rfl (by rw [hphase]; rfl) (by rw [hphase]; rfl) (by rw [hphase]; rfl)
  | drawn hphase => exact h.draw hclock hphase hfew
  | @taken t i beginTs readOnly hphase =>
    have htaken := threadStep_claim_taken hphase (by rw [hs', Threads.to_phase, if_pos rfl])
    exact h.taken hphase htaken.1 htaken.2
  | claimed hphase hi hfree => exact h.claimed hphase hi hfree
  | @unclaimed t i beginTs readOnly hphase hi =>
    have hlt := h.spread.lt (show (s.phase t).place = some i by rw [hphase]; rfl)
    omega
  | @wrote t _ txn txn' hphase hcollects =>
    refine h.to rfl ?_ ?_ ?_
    · rw [hphase]
      exact congrArg (fun slot : Option ℕ => some (slot.getD maxConcurrentTxn)) hcollects.slot
    · rw [hphase]
      exact hcollects.slot
    · rw [hphase]
      exact congrArg some hcollects.beginTs
  | appended hphase _ =>
    exact h.to (congrArg TxnMgr.oracle (logEntry_txnMgr _ _ _))
      (by rw [hphase]; rfl) (by rw [hphase]; rfl) (by rw [hphase]; rfl)
  | appendFailed hphase _ =>
    exact h.to (congrArg TxnMgr.oracle (logEntry_txnMgr _ _ _))
      (by rw [hphase]; rfl) (by rw [hphase]; rfl) (by rw [hphase]; rfl)
  | installed hphase =>
    exact h.to (congrArg TxnMgr.oracle (applyEntry_txnMgr _ _ _))
      (by rw [hphase]; rfl) (by rw [hphase]; rfl) (by rw [hphase]; rfl)
  | drewCommit hphase =>
    exact (h.tick hclock).to (s := { s with world := s.world.drawn }) rfl
      (by simp only [hphase]; rfl) (by simp only [hphase]; rfl) (by simp only [hphase]; rfl)
  | ended hphase | locked hphase | unlocked hphase | unlockedFailed hphase =>
    exact h.to rfl (by rw [hphase]; rfl) (by rw [hphase]; rfl) (by rw [hphase]; rfl)
  | released hphase => exact h.release hphase
  | clockRead _ | slotRead _ _ | collected _ _ =>
    exact h.frame rfl (fun _ => rfl) (fun _ => rfl) fun _ _ hb => hb

end Step

/-- A database that was just opened has no transactions. -/
theorem Threads.Seated.start {opts : Opts} {fresh : Uuid} {disk : Disk} {w : World}
    (hopen : fastkvOpen opts fresh disk = .ok w) : (Threads.start w).Seated := by
  refine ⟨.empty fun t => rfl, fun i hi hne => absurd ?_ hne,
    (Threads.Tracked.start hopen).clock_pos, fun t b hb => (nomatch hb),
    fun t j hj => (nomatch hj), fun t t' j hj => (nomatch hj)⟩
  obtain ⟨s, snapTs, walMaxTs, wal, rc, -, hdb, -, -⟩ := fastkvOpen_cases hopen
  have hadvance : ∀ (o : Oracle) (n : ℕ), (oracleAdvance o n).slots = o.slots := by
    intro o n
    unfold oracleAdvance
    split <;> rfl
  show w.db.txnMgr.oracle.slots.getD i 0 = 0
  rw [hdb]
  simp only [Opts.assemble, hadvance]
  show (List.replicate maxConcurrentTxn 0).getD i 0 = 0
  rw [List.getD_eq_getElem?_getD, List.getElem?_replicate]
  split <;> rfl

/-- Any number of threads begin and end transactions at the same time, step by step, and after
every step at most 256 transactions have drawn a timestamp and not ended. Then every
transaction finds a slot: it never tries a slot beyond the last one, it holds a slot of the
table as long as it runs, and two running transactions hold different slots. -/
theorem transactions_find_slots {opts : Opts} {fresh : Uuid} {disk : Disk} {w : World}
    (hopen : fastkvOpen opts fresh disk = .ok w) (steps : List ThreadStep)
    (hclock : w.db.clock + steps.length < tsMax)
    (hfew : Permitted threadStep (fun s a => (threadStep s a).FewRunning) (Threads.start w) steps)
    {s : Threads} (hs : s = exec threadStep (Threads.start w) steps) :
    (∀ t readOnly beginTs i, s.phase t = .claiming readOnly beginTs i → i < maxConcurrentTxn) ∧
    (∀ t txn, (s.phase t).txn = some txn → ∃ i < maxConcurrentTxn, txn.oracleSlot = some i) ∧
    ∀ t t' i, (s.phase t).slot = some i → (s.phase t').slot = some i → t = t' := by
  obtain ⟨h, -⟩ := exec_induction Threads.clock
    (fun s a (_ : s.Seated) hlt => (threadStep_clock hlt a).2)
    (fun s a hs hlt hp => hs.step hlt hp) steps (Threads.Seated.start hopen) hclock hfew
  rw [← hs] at h
  refine ⟨fun t readOnly beginTs i hphase => ?_, fun t txn htxn => ?_, h.apart⟩
  · exact h.spread.lt (show (s.phase t).place = some i by rw [hphase]; rfl)
  · have hplace : (s.phase t).place = some (txn.oracleSlot.getD maxConcurrentTxn) := by
      cases hp : s.phase t <;> rw [hp] at htxn <;>
        simp only [Phase.txn, Option.some.injEq, reduceCtorEq] at htxn <;>
        simp [Phase.place, Phase.txn, htxn]
    have hlt := h.spread.lt hplace
    cases hslot : txn.oracleSlot with
    | none =>
      rw [hslot, Option.getD_none] at hlt
      exact absurd hlt (Nat.lt_irrefl _)
    | some i =>
      rw [hslot, Option.getD_some] at hlt
      exact ⟨i, hlt, rfl⟩

/-- Two transactions begin side by side, and one takes the slot that the other tries first. -/
def beginsTogether : List ThreadStep :=
  [.draw 0 true, .draw 1 true, .claim 1, .claim 0, .claim 0]

/-- If only the first two transactions are running, there are few. -/
theorem few_of_two {s : Threads} (h : ∀ t, s.phase (t + 2) = .idle) : s.FewRunning := by
  intro users hall
  have hsub : users ⊆ Finset.range 2 := by
    intro t ht
    rw [Finset.mem_range]
    by_contra hge
    obtain ⟨u, rfl⟩ := Nat.exists_eq_add_of_le' (Nat.le_of_not_lt hge)
    exact hall (u + 2) ht (congrArg Phase.beginTs (h u))
  exact (Finset.card_le_card hsub).trans (by decide)

/-- Both find one. -/
theorem transactions_find_slots_two :
    ∃ txn, (exec threadStep (Threads.start newWorld) beginsTogether).phase 0 = .active txn ∧
      ∃ i < maxConcurrentTxn, txn.oracleSlot = some i := by
  have hfew : Permitted threadStep (fun s a => (threadStep s a).FewRunning)
      (Threads.start newWorld) beginsTogether :=
    ⟨few_of_two fun t => rfl, few_of_two fun t => rfl, few_of_two fun t => rfl,
      few_of_two fun t => rfl, few_of_two fun t => rfl, trivial⟩
  have hphase : (exec threadStep (Threads.start newWorld) beginsTogether).phase 0 =
      .active (newTxn true 1 (some 1)) := by
    decide +kernel
  obtain ⟨-, hslot, -⟩ := transactions_find_slots newWorld_opened beginsTogether
    (by decide +kernel) hfew rfl
  exact ⟨_, hphase, hslot 0 _ (by rw [hphase]; rfl)⟩

end FastKV
