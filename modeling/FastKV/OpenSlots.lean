import Mathlib.Data.Finset.Card
import Mathlib.Data.Finset.Range
import FastKV.FirstCommitter

/-!
# The slots of open transactions

In runs of atomic calls the table of the oracle is exact as long as no transaction begins when
all slots are taken: every open transaction has a slot of its own that holds its begin timestamp,
and every slot that is taken is that of an open transaction. So a slot is free whenever fewer
transactions are open than there are slots, and no collection goes beyond an open transaction.
-/

namespace FastKV

/-! ## The table -/

/-- The smallest active timestamp is not after that of any slot. -/
theorem oracleMinActive_le_slot {o : Oracle} {k ts : ℕ} (h : o.slots[k]? = some ts)
    (hts : ts ≠ 0) : oracleMinActive o ≤ ts := by
  have hmem : ts ∈ o.slots := List.mem_of_getElem? h
  have hle : ∀ (slots : List ℕ) (m : ℕ),
      slots.foldl (fun minTs ts => if ts ≠ 0 ∧ ts < minTs then ts else minTs) m ≤ m := by
    intro slots
    induction slots with
    | nil => exact fun m => Nat.le_refl _
    | cons x slots ih =>
      intro m
      rw [List.foldl_cons]
      refine (ih _).trans ?_
      split
      · rename_i hx
        exact hx.2.le
      · exact Nat.le_refl _
  have hmin : ∀ (slots : List ℕ) (m : ℕ), ts ∈ slots →
      slots.foldl (fun minTs ts => if ts ≠ 0 ∧ ts < minTs then ts else minTs) m ≤ ts := by
    intro slots
    induction slots with
    | nil => exact fun m hx => by cases hx
    | cons x slots ih =>
      intro m hx
      rw [List.foldl_cons]
      rcases List.mem_cons.mp hx with rfl | hx
      · refine (hle slots _).trans ?_
        split
        · exact Nat.le_refl _
        · rename_i hskip
          exact Nat.le_of_not_lt fun hlt => hskip ⟨hts, hlt⟩
      · exact ih _ hx
  exact hmin o.slots o.clock hmem

/-- A slot after another one, or the same, has been written. -/
theorem getElem?_setSlot {o : Oracle} {k : ℕ} (hk : k < maxConcurrentTxn) (ts k' : ℕ) :
    (o.setSlot k ts).slots[k']? = if k' = k then some ts else o.slots[k']? := by
  show (o.slots.set k ts)[k']? = _
  have hlt : k < o.slots.length := by rw [o.length_slots]; exact hk
  by_cases hkk : k' = k
  · subst hkk
    rw [List.getElem?_set_self hlt, if_pos rfl]
  · rw [List.getElem?_set_ne (Ne.symm hkk), if_neg hkk]

/-- A transaction that finds a slot takes a free one. -/
theorem oracleBegin_of_free {o : Oracle} (hfree : 0 ∈ o.slots) : ∃ k < maxConcurrentTxn,
    o.slots[k]? = some 0 ∧ oracleBegin o = (o.clock, some k, o.tick.setSlot k o.clock) := by
  cases hfind : o.slots.findIdx? (· = 0) with
  | none =>
    rw [List.findIdx?_eq_none_iff] at hfind
    exact absurd (hfind 0 hfree) (by simp)
  | some k =>
    obtain ⟨hk, hzero, -⟩ := List.findIdx?_eq_some_iff_getElem.mp hfind
    refine ⟨k, by rw [← o.length_slots]; exact hk, ?_, by rw [oracleBegin, hfind]⟩
    rw [List.getElem?_eq_getElem hk]
    exact congrArg some (of_decide_eq_true hzero)

/-! ## Open transactions -/

/-- The table of the engine. -/
def Sys.slots (s : Sys) : List ℕ := s.world.db.txnMgr.oracle.slots

/-- The number of open transactions. -/
def Sys.numOpen (s : Sys) : ℕ :=
  ((Finset.range s.txns.length).filter fun i => (s.txn i).isSome).card

/-- The table and the open transactions agree. -/
structure Sys.Registered (s : Sys) : Prop where
  /-- Timestamps are not zero. -/
  clock_pos : 0 < s.clock
  /-- Nor are those of open transactions. -/
  begun : ∀ i txn, s.txn i = some txn → 0 < txn.beginTs
  /-- An open transaction has a slot. -/
  taken : ∀ i txn, s.txn i = some txn → ∃ k < maxConcurrentTxn, txn.oracleSlot = some k ∧
    s.slots[k]? = some txn.beginTs
  /-- It is its own. -/
  apart : ∀ i j txn txn', s.txn i = some txn → s.txn j = some txn' →
    txn.oracleSlot = txn'.oracleSlot → i = j
  /-- A slot that is taken is that of an open transaction. -/
  owned : ∀ k ts, s.slots[k]? = some ts → ts ≠ 0 →
    ∃ i txn, s.txn i = some txn ∧ txn.oracleSlot = some k

section Registered

variable {s s' : Sys}

/-- A transaction that is open was begun. -/
theorem Sys.lt_of_txn {i : ℕ} {txn : Txn} (h : s.txn i = some txn) : i < s.txns.length := by
  by_contra hi
  rw [Sys.txn, List.getElem?_eq_none (Nat.le_of_not_lt hi)] at h
  cases h

/-- The transactions after one of them was replaced or closed. -/
theorem Sys.txn_of_set {i : ℕ} {txn : Txn} {new : Option Txn} (hopen : s.txn i = some txn)
    (htxns : s'.txns = s.txns.set i new) (j : ℕ) : s'.txn j = if j = i then new else s.txn j := by
  unfold Sys.txn
  rw [htxns]
  by_cases hji : j = i
  · subst hji
    rw [List.getElem?_set_self (Sys.lt_of_txn hopen), if_pos rfl]
    rfl
  · rw [List.getElem?_set_ne (Ne.symm hji), if_neg hji]

/-- The transactions after one has begun. -/
theorem Sys.txn_of_append {new : Txn} (htxns : s'.txns = s.txns ++ [some new]) (j : ℕ) :
    s'.txn j = if j = s.txns.length then some new else s.txn j := by
  unfold Sys.txn
  rw [htxns]
  rcases Nat.lt_trichotomy j s.txns.length with hj | hj | hj
  · rw [List.getElem?_append_left hj, if_neg (Nat.ne_of_lt hj)]
  · rw [hj, List.getElem?_concat_length, if_pos rfl]
    rfl
  · rw [List.getElem?_eq_none (by simp; omega), if_neg (by omega),
      List.getElem?_eq_none (Nat.le_of_lt hj)]

/-- A slot is free when fewer transactions are open than there are slots. -/
theorem Sys.Registered.free (h : s.Registered) (hopen : s.numOpen < maxConcurrentTxn) :
    0 ∈ s.slots := by
  by_contra hfull
  have hlen : s.slots.length = maxConcurrentTxn := s.world.db.txnMgr.oracle.length_slots
  have howner : ∀ k ∈ Finset.range maxConcurrentTxn,
      ∃ i txn, s.txn i = some txn ∧ txn.oracleSlot = some k := by
    intro k hk
    have hk' : k < s.slots.length := by rw [hlen]; exact Finset.mem_range.mp hk
    refine h.owned k _ (List.getElem?_eq_getElem hk') fun hzero => hfull ?_
    rw [← hzero]
    exact List.getElem_mem hk'
  choose! owner hown using howner
  have hmaps : ∀ k ∈ Finset.range maxConcurrentTxn,
      owner k ∈ (Finset.range s.txns.length).filter fun i => (s.txn i).isSome := by
    intro k hk
    obtain ⟨txn, htxn, -⟩ := hown k hk
    rw [Finset.mem_filter, Finset.mem_range, htxn]
    exact ⟨Sys.lt_of_txn htxn, rfl⟩
  have hinj : ∀ k ∈ Finset.range maxConcurrentTxn, ∀ k' ∈ Finset.range maxConcurrentTxn,
      owner k = owner k' → k = k' := by
    intro k hk k' hk' heq
    obtain ⟨txn, htxn, hslot⟩ := hown k hk
    obtain ⟨txn', htxn', hslot'⟩ := hown k' hk'
    rw [heq, htxn'] at htxn
    cases htxn
    rw [hslot] at hslot'
    exact Option.some.inj hslot'
  have hcard := Finset.card_le_card_of_injOn owner hmaps hinj
  rw [Finset.card_range] at hcard
  exact absurd hopen (Nat.not_lt.mpr hcard)

/-- No collection goes beyond an open transaction. -/
theorem Sys.Registered.minActive_le (h : s.Registered) {i : ℕ} {txn : Txn}
    (hopen : s.txn i = some txn) : oracleMinActive s.world.db.txnMgr.oracle ≤ txn.beginTs := by
  obtain ⟨k, -, -, hslot⟩ := h.taken i txn hopen
  exact oracleMinActive_le_slot hslot (Nat.pos_iff_ne_zero.mp (h.begun i txn hopen))

/-- The table and the slots of the transactions are as they were. -/
theorem Sys.Registered.same (h : s.Registered) (hclock : s.clock ≤ s'.clock)
    (hslots : s'.slots = s.slots)
    (htxns : ∀ i txn', s'.txn i = some txn' → ∃ txn, s.txn i = some txn ∧
      txn'.oracleSlot = txn.oracleSlot ∧ txn'.beginTs = txn.beginTs)
    (hopen : ∀ i txn, s.txn i = some txn → ∃ txn', s'.txn i = some txn' ∧
      txn'.oracleSlot = txn.oracleSlot) : s'.Registered := by
  refine ⟨Nat.lt_of_lt_of_le h.clock_pos hclock, fun i txn' hi => ?_, fun i txn' hi => ?_,
    fun i j txn₁ txn₂ hi hj heq => ?_, fun k ts hk hts => ?_⟩
  · obtain ⟨txn, htxn, -, hbegin⟩ := htxns i txn' hi
    rw [hbegin]
    exact h.begun i txn htxn
  · obtain ⟨txn, htxn, hslot, hbegin⟩ := htxns i txn' hi
    rw [hslot, hbegin, hslots]
    exact h.taken i txn htxn
  · obtain ⟨txn, htxn, hslot, -⟩ := htxns i txn₁ hi
    obtain ⟨txn', htxn', hslot', -⟩ := htxns j txn₂ hj
    exact h.apart i j txn txn' htxn htxn' (by rw [← hslot, ← hslot', heq])
  · rw [hslots] at hk
    obtain ⟨i, txn, htxn, hslot⟩ := h.owned k ts hk hts
    obtain ⟨txn', htxn', hslot'⟩ := hopen i txn htxn
    exact ⟨i, txn', htxn', hslot'.trans hslot⟩

/-- A transaction begins. -/
theorem Sys.Registered.begin (h : s.Registered) {k : ℕ} {txn : Txn} (hk : k < maxConcurrentTxn)
    (hfree : s.slots[k]? = some 0) (hslot : txn.oracleSlot = some k)
    (hbegin : txn.beginTs = s.clock) (hclock : s.clock ≤ s'.clock)
    (hslots : ∀ k', s'.slots[k']? = if k' = k then some s.clock else s.slots[k']?)
    (htxns : s'.txns = s.txns ++ [some txn]) : s'.Registered := by
  have htxn := Sys.txn_of_append htxns
  have hother : ∀ i txn', s.txn i = some txn' → txn'.oracleSlot ≠ some k := by
    intro i txn' hi hc
    obtain ⟨k', -, hslot', hts⟩ := h.taken i txn' hi
    rw [hslot'] at hc
    cases hc
    rw [hfree] at hts
    exact absurd (Option.some.inj hts).symm (Nat.pos_iff_ne_zero.mp (h.begun i txn' hi))
  have hlen : ∀ i txn', s.txn i = some txn' → i ≠ s.txns.length := fun i txn' hi =>
    Nat.ne_of_lt (Sys.lt_of_txn hi)
  refine ⟨Nat.lt_of_lt_of_le h.clock_pos hclock, fun i txn' hi => ?_, fun i txn' hi => ?_,
    fun i j txn₁ txn₂ hi hj heq => ?_, fun k' ts hk' hts => ?_⟩
  · rw [htxn] at hi
    split at hi
    · cases hi
      rw [hbegin]
      exact h.clock_pos
    · exact h.begun i txn' hi
  · rw [htxn] at hi
    split at hi
    · cases hi
      exact ⟨k, hk, hslot, by rw [hslots, if_pos rfl, hbegin]⟩
    · obtain ⟨k', hk', hslot', hts⟩ := h.taken i txn' hi
      refine ⟨k', hk', hslot', ?_⟩
      have hne : k' ≠ k := fun hc => hother i txn' hi (by rw [hslot', hc])
      rw [hslots, if_neg hne, hts]
  · rw [htxn] at hi hj
    split at hi
    · rename_i hi'
      split at hj
      · rename_i hj'
        rw [hi', hj']
      · cases hi
        exact absurd (heq.symm.trans hslot) (hother j txn₂ hj)
    · split at hj
      · cases hj
        exact absurd (heq.trans hslot) (hother i txn₁ hi)
      · exact h.apart i j txn₁ txn₂ hi hj heq
  · rw [hslots] at hk'
    split at hk'
    · rename_i hkk
      rw [hkk]
      exact ⟨s.txns.length, txn, by rw [htxn, if_pos rfl], hslot⟩
    · obtain ⟨i, txn', hi, hslot'⟩ := h.owned k' ts hk' hts
      exact ⟨i, txn', by rw [htxn, if_neg (hlen i txn' hi), hi], hslot'⟩

/-- A transaction ends. -/
theorem Sys.Registered.close (h : s.Registered) {i : ℕ} {txn : Txn} (hopen : s.txn i = some txn)
    (hclock : s.clock ≤ s'.clock)
    (hslots : s'.slots = (oracleRelease s.world.db.txnMgr.oracle txn.oracleSlot).slots)
    (htxns : s'.txns = s.txns.set i none) : s'.Registered := by
  have htxn := Sys.txn_of_set hopen htxns
  obtain ⟨k, hk, hslot, hts⟩ := h.taken i txn hopen
  have hget : ∀ k', s'.slots[k']? = if k' = k then some 0 else s.slots[k']? := by
    intro k'
    rw [hslots, hslot]
    simp only [oracleRelease, if_pos hk]
    exact getElem?_setSlot hk 0 k'
  have hstill : ∀ j txn', s'.txn j = some txn' → s.txn j = some txn' ∧ j ≠ i := by
    intro j txn' hj
    rw [htxn] at hj
    split at hj
    · cases hj
    · rename_i hji
      exact ⟨hj, hji⟩
  refine ⟨Nat.lt_of_lt_of_le h.clock_pos hclock,
    fun j txn' hj => h.begun j txn' (hstill j txn' hj).1, fun j txn' hj => ?_,
    fun j₁ j₂ txn₁ txn₂ h₁ h₂ heq => ?_, fun k' ts hk' hne => ?_⟩
  · obtain ⟨hj', hji⟩ := hstill j txn' hj
    obtain ⟨k', hk', hslot', hts'⟩ := h.taken j txn' hj'
    have hkk : k' ≠ k := fun hc => hji (h.apart j i txn' txn hj' hopen (by rw [hslot', hslot, hc]))
    exact ⟨k', hk', hslot', by rw [hget, if_neg hkk, hts']⟩
  · exact h.apart j₁ j₂ txn₁ txn₂ (hstill j₁ txn₁ h₁).1 (hstill j₂ txn₂ h₂).1 heq
  · rw [hget] at hk'
    split at hk'
    · cases hk'
      exact absurd rfl hne
    · rename_i hkk
      obtain ⟨j, txn', hj, hslot'⟩ := h.owned k' ts hk' hne
      have hji : j ≠ i := by
        rintro rfl
        rw [hopen] at hj
        cases hj
        rw [hslot] at hslot'
        exact hkk (Option.some.inj hslot').symm
      exact ⟨j, txn', by rw [htxn, if_neg hji, hj], hslot'⟩

/-! ## Steps -/

/-- Aborting an open transaction frees its slot. -/
theorem slots_abort {w : World} {txn : Txn} (hactive : txn.state = .active) :
    (w.abort txn).1.db.txnMgr.oracle.slots =
      (oracleRelease w.db.txnMgr.oracle txn.oracleSlot).slots := by
  unfold World.abort txnMgrAbort
  rw [if_neg (by rw [hactive]; exact fun hc => by cases hc)]

/-- Releasing looks at the slots only. -/
theorem slots_oracleRelease {o o' : Oracle} (h : o.slots = o'.slots) (slot : Option ℕ) :
    (oracleRelease o slot).slots = (oracleRelease o' slot).slots := by
  cases slot with
  | none => exact h
  | some k =>
    simp only [oracleRelease]
    split
    · show o.slots.set k 0 = o'.slots.set k 0
      rw [h]
    · exact h

/-- A commit of an open transaction frees its slot, whether it succeeds or not. -/
theorem slots_txnCommit {w : World} {txn : Txn} (hactive : txn.state = .active) :
    (txnCommit w txn).2.1.db.txnMgr.oracle.slots =
      (oracleRelease w.db.txnMgr.oracle txn.oracleSlot).slots := by
  have hstate : ¬ txn.state ≠ .active := fun hc => hc hactive
  unfold txnCommit txnMgrCommit
  rw [if_neg hstate]
  split
  · dsimp only
    split
    · generalize hworld : ({ w with db := { w.db with txnMgr := { w.db.txnMgr with
        oracle := (oracleCommit w.db.txnMgr.oracle).2 } } } : World) = drawn
      have hdrawn : drawn.db.txnMgr.oracle.slots = w.db.txnMgr.oracle.slots := by
        rw [← hworld]
        rfl
      rcases happly : dbApplyWriteSet (oracleCommit w.db.txnMgr.oracle).1 txn.writes drawn
        with ⟨rc, w'⟩
      have hmgr : w'.db.txnMgr = drawn.db.txnMgr := by
        obtain ⟨k, wal, hdb, -⟩ := dbApplyWriteSet_cases (oracleCommit w.db.txnMgr.oracle).1
          txn.writes drawn
        rw [happly] at hdb
        have hdb' : w'.db = { applyEntries (oracleCommit w.db.txnMgr.oracle).1 (txn.writes.take k)
          drawn.db with wal } := hdb
        rw [hdb']
        exact applyEntries_txnMgr _ _ _
      dsimp only
      split
      · exact slots_oracleRelease (by rw [hmgr, hdrawn]) _
      · have habort := slots_abort (w := w')
          (show ({ txn with commitTs := (oracleCommit w.db.txnMgr.oracle).1 } : Txn).state = .active
            from hactive)
        exact habort.trans (slots_oracleRelease (by rw [hmgr, hdrawn]) _)
    · exact slots_abort hactive
  · rfl

/-- A step keeps the table exact, if no transaction begins when all slots are taken. -/
theorem Sys.Registered.step (h : s.Registered) (hsound : s.Sound) (hclock : s.clock + 1 < tsMax)
    {a : Action} (hroom : ∀ readOnly, a = .call (.begin readOnly) → s.numOpen < maxConcurrentTxn) :
    (FastKV.step s a).2.Registered := by
  obtain ⟨-, hle, -⟩ := hsound.step hclock a
  have hkept : ∀ {s' : Sys}, s.clock ≤ s'.clock → s'.slots = s.slots → s'.txns = s.txns →
      s'.Registered := fun hc hslots htxns =>
    h.same hc hslots (fun i txn hi => ⟨txn, by unfold Sys.txn at hi ⊢; rwa [htxns] at hi, rfl, rfl⟩)
      fun i txn hi => ⟨txn, by unfold Sys.txn at hi ⊢; rwa [htxns], rfl⟩
  have hwrote : ∀ {s' : Sys} {i : ℕ} {txn txn' : Txn}, s.clock ≤ s'.clock → s'.slots = s.slots →
      s.txn i = some txn → s'.txns = s.txns.set i (some txn') →
      txn'.oracleSlot = txn.oracleSlot → txn'.beginTs = txn.beginTs → s'.Registered := by
    intro s' i txn txn' hc hslots hopen htxns hslot hts
    have htxn := Sys.txn_of_set hopen htxns
    refine h.same hc hslots (fun j txn₁ hj => ?_) fun j txn₁ hj => ?_
    · rw [htxn] at hj
      split at hj
      · rename_i hji
        cases hj
        exact ⟨txn, hji ▸ hopen, hslot, hts⟩
      · exact ⟨txn₁, hj, rfl, rfl⟩
    · rw [htxn]
      split
      · rename_i hji
        rw [hji, hopen] at hj
        cases hj
        exact ⟨txn', rfl, hslot⟩
      · exact ⟨txn₁, hj, rfl⟩
  cases a with
  | gc => exact hkept hle rfl rfl
  | checkpoint snapId segId now =>
    refine hkept hle ?_ rfl
    obtain ⟨wal, n, heq⟩ := fastkvCheckpoint_db hsound.ttl snapId segId now
    show (fastkvCheckpoint s.world snapId segId now).2.db.txnMgr.oracle.slots = _
    rcases heq with heq | heq <;> rw [heq] <;> rfl
  | call c =>
    cases c with
    | begin readOnly =>
      have hfree := h.free (hroom readOnly rfl)
      simp only [FastKV.step, callStep] at hle ⊢
      cases hbegin : txnBegin s.world.db readOnly with
      | error rc => exact h
      | ok r =>
        obtain ⟨txn, db⟩ := r
        rw [hbegin] at hle
        obtain ⟨k, hk, hzero, horacle⟩ := oracleBegin_of_free hfree
        have hdb : db.txnMgr.oracle = s.world.db.txnMgr.oracle.tick.setSlot k s.clock ∧
            txn.oracleSlot = some k ∧ txn.beginTs = s.clock := by
          unfold txnBegin at hbegin
          split at hbegin
          · cases hbegin
          · simp only [txnMgrBegin, horacle, Except.ok.injEq, Prod.mk.injEq] at hbegin
            obtain ⟨rfl, rfl⟩ := hbegin
            exact ⟨rfl, rfl, rfl⟩
        refine h.begin hk hzero hdb.2.1 hdb.2.2 hle (fun k' => ?_) rfl
        show db.txnMgr.oracle.slots[k']? = _
        rw [hdb.1, getElem?_setSlot hk]
        rfl
    | get i key =>
      simp only [FastKV.step, callStep]
      split
      · exact h
      · split <;> exact h
    | put i key value =>
      simp only [FastKV.step, callStep] at hle ⊢
      split
      · exact h
      · rename_i txn hopen
        have hsame : (txnPut txn key value).2.oracleSlot = txn.oracleSlot ∧
            (txnPut txn key value).2.beginTs = txn.beginTs := by
          unfold txnPut txnWritePut writeEntryAdd
          repeat' split
          all_goals exact ⟨rfl, rfl⟩
        exact hwrote (Nat.le_refl _) rfl hopen rfl hsame.1 hsame.2
    | delete i key =>
      simp only [FastKV.step, callStep] at hle ⊢
      split
      · exact h
      · rename_i txn hopen
        have hsame : (txnDelete txn key).2.oracleSlot = txn.oracleSlot ∧
            (txnDelete txn key).2.beginTs = txn.beginTs := by
          unfold txnDelete txnWriteDelete writeEntryAdd
          repeat' split
          all_goals exact ⟨rfl, rfl⟩
        exact hwrote (Nat.le_refl _) rfl hopen rfl hsame.1 hsame.2
    | commit i =>
      simp only [FastKV.step, callStep] at hle ⊢
      cases hopen : s.txn i with
      | none => exact h
      | some txn =>
        rw [hopen] at hle
        exact h.close hopen hle (slots_txnCommit (hsound.txns i txn hopen).active) rfl
    | abort i =>
      simp only [FastKV.step, callStep] at hle ⊢
      cases hopen : s.txn i with
      | none => exact h
      | some txn =>
        rw [hopen] at hle
        exact h.close hopen hle (slots_abort (hsound.txns i txn hopen).active) rfl

/-- A database that was just opened. -/
theorem Sys.Registered.start {opts : Opts} {fresh : Uuid} {disk : Disk} {w : World}
    (h : fastkvOpen opts fresh disk = .ok w) : (Sys.start w).Registered := by
  obtain ⟨stores, snapTs, walMaxTs, wal, rc, -, hdb, -⟩ := fastkvOpen_cases h
  have hnone : ∀ i, (Sys.start w).txn i = none := fun i => rfl
  have hpos : 0 < w.db.clock := by
    rw [hdb]
    simp only [Opts.assemble, Db.clock, clock_oracleAdvance]
    have hone : txnMgrInit.oracle.clock = 1 := rfl
    omega
  have hslots : (Sys.start w).slots = List.replicate maxConcurrentTxn 0 := by
    show w.db.txnMgr.oracle.slots = _
    rw [hdb]
    have hadvance : ∀ (o : Oracle) (n : ℕ), (oracleAdvance o n).slots = o.slots := by
      intro o n
      unfold oracleAdvance
      split <;> rfl
    simp only [Opts.assemble, hadvance]
    rfl
  refine ⟨hpos, fun i txn hi => ?_, fun i txn hi => ?_, fun i j txn txn' hi => ?_,
    fun k ts hk hts => ?_⟩
  · rw [hnone] at hi
    cases hi
  · rw [hnone] at hi
    cases hi
  · rw [hnone] at hi
    cases hi
  · rw [hslots, List.getElem?_replicate] at hk
    split at hk
    · cases hk
      exact absurd rfl hts
    · cases hk

end Registered

end FastKV
