import FastKV.Commute
import FastKV.TtlMirror

/-!
# One pass of the expiry

`fastkv_ttl_expire` collects keys from the tree of times, which has the earliest time first, and
deletes them one at a time. The scan stops at the first time that lies ahead and passes over
keys that do not fit into the buffer for a key. The buffer for all keys has a fixed number of
places: a pass deletes everything that has expired only if that is enough.
-/

namespace FastKV

open Lib BTree

/-! ## One deletion -/

/-- A deletion that succeeds removes the value and the expiry time of the key. -/
theorem fastkvDelete_ok {w : World} {key : Bytes} (hclock : w.db.clock + 2 < tsMax)
    (hok : (fastkvDelete w key).1 = .ok) :
    (∀ key', (fastkvDelete w key).2.db.ht.live key' =
      if key' = key then none else w.db.ht.live key') ∧
      (fastkvDelete w key).2.db.ttl = ttlRemove w.db.ttl key := by
  unfold fastkvDelete singleWrite at hok ⊢
  split at hok
  · rename_i rc hbegin
    unfold txnBegin at hbegin
    split at hbegin
    · cases hbegin
      cases hok
    · cases hbegin
  · rename_i txn db hbegin
    obtain ⟨-, -, hwrites, hro, hht, httl, -, -⟩ := txnBegin_spec hbegin
    have hroom := (txnBegin_evolves (by omega) hbegin).clock_le_add
    simp only at hok ⊢
    split at hok
    · rename_i hdelete
      obtain ⟨-, heq⟩ := txnDelete_ok hdelete
      have hset : (txnDelete txn key).2.writes = [⟨key, none⟩] := by
        rw [heq] at hdelete ⊢
        exact writeEntryAdd_writes hwrites hdelete
      rw [if_pos hdelete]
      rcases txnCommit_cases { w with db } (txnDelete txn key).2 with ⟨hrefusal, -⟩ | ⟨happlies, -⟩
      · rw [show (txnCommit { w with db } (txnDelete txn key).2).1 = .ok from hok] at hrefusal
        have hro' : (txnDelete txn key).2.readOnly = false := by
          rw [heq]
          unfold writeEntryAdd
          split
          · exact hro
          · split <;> exact hro
        cases hrefusal with
        | nothing _ hnothing =>
          rw [hro', hset] at hnothing
          simp at hnothing
      · obtain ⟨k, wal, mgr, -, hall, hdb⟩ :=
          happlies.db_eq (w := { w with db }) (by show db.clock + 1 < tsMax; omega)
        rw [hall hok, hset] at hdb
        rw [hdb]
        constructor
        · intro key'
          show (applyEntries _ _ db).ht.live key' = _
          rw [live_applyEntries, hht]
          by_cases hkey : key' = key
          · rw [if_pos hkey, hkey, writesOn_cons_self ⟨key, none⟩ []]
            rfl
          · rw [if_neg hkey, writesOn_cons_of_ne (e := ⟨key, none⟩) (Ne.symm hkey) []]
            rfl
        · show (applyEntries _ _ db).ttl = _
          rw [applyEntries_ttl_eq, httl]
          rfl
    · rename_i hrefused
      exact absurd hok hrefused

/-- Nothing has changed since the transaction began, so there is no conflict. -/
theorem dbCheckConflicts_of_bounded {db : Db} {clock : ℕ} (h : db.ht.Bounded clock)
    (writes : List WriteEntry) : dbCheckConflicts db writes clock = .ok := by
  have hnone : (writes.any fun e => conflictsAt db.ht clock e.key) = false := by
    rw [List.any_eq_false]
    intro e _ hconflict
    unfold conflictsAt at hconflict
    split at hconflict
    · rename_i v hv
      have hmem : v ∈ db.ht.versions e.key := by
        apply List.mem_filter.mpr
        exact ⟨List.mem_of_find?_eq_some hv, by simpa using List.find?_some hv⟩
      have hlt := (h e.key v hmem).1
      have hgt := of_decide_eq_true hconflict
      omega
    · cases hconflict
  unfold dbCheckConflicts
  rw [if_neg (by rw [hnone]; decide)]

/-- A database that can be written: its log works. -/
structure World.Writable (w : World) : Prop where
  /-- The database is sound. -/
  sound : w.db.Sound
  /-- The log works. -/
  working : w.Working
  /-- It was opened for writing. -/
  readWrite : w.db.opts.readOnly = false

/-- Writing entries keeps the options. -/
theorem applyEntries_opts (commitTs : ℕ) (es : List WriteEntry) : ∀ db : Db,
    (applyEntries commitTs es db).opts = db.opts := by
  induction es with
  | nil => exact fun _ => rfl
  | cons e es ih =>
    intro db
    have hfirst : (applyEntry db e commitTs).opts = db.opts := by
      unfold applyEntry
      cases e.value <;> rfl
    rw [← hfirst]
    exact ih (applyEntry db e commitTs)

/-- A single write of a database that can be written succeeds. It can be written again, and its
expiry trees have been kept in step. -/
theorem World.Writable.singleWrite {w : World} (h : w.Writable) (hclock : w.db.clock + 2 < tsMax)
    {write : Txn → Err × Txn} {e : WriteEntry}
    (hwrite : ∀ txn, txn.readOnly = false → txn.state = .active →
      write txn = writeEntryAdd txn e.key e.value) :
    (FastKV.singleWrite w write).1 = .ok ∧ (FastKV.singleWrite w write).2.Writable ∧
      (FastKV.singleWrite w write).2.db.ttl = ttlUpkeep w.db.ttl e := by
  obtain ⟨txn, db, hbegin⟩ : ∃ txn db, txnBegin w.db false = .ok (txn, db) := by
    unfold txnBegin
    rw [h.readWrite]
    exact ⟨_, _, rfl⟩
  obtain ⟨hts, hstate, hwrites, hro, hht, -, -, hwal⟩ := txnBegin_spec hbegin
  have hevolves := txnBegin_evolves (by omega) hbegin
  obtain ⟨hopts, httl⟩ : db.opts = w.db.opts ∧ db.ttl = w.db.ttl := by
    unfold txnBegin at hbegin
    rw [h.readWrite] at hbegin
    cases hbegin
    exact ⟨rfl, rfl⟩
  have hadd : writeEntryAdd txn e.key e.value = (.ok, { txn with
      writes := [e], writeCount := (txn.writeCount + 1) % 2 ^ 32 }) := by
    unfold writeEntryAdd
    rw [if_neg (by simp [hro]), if_neg (by simp [hstate]), hwrites]
  have hclock' := hevolves.clock_le_add
  have hsound : db.Sound :=
    (txnBegin_moves (P := fun _ _ => True) (by omega) hbegin).invariant
      (fun _ _ hmove hs => hs.move hmove) h.sound
  have hworking : World.Working { w with db } := by
    intro wal' hwal'
    exact h.working wal' (hwal ▸ hwal')
  have hactive : Txn.state { txn with
      writes := [e], writeCount := (txn.writeCount + 1) % 2 ^ 32 } = .active := hstate
  obtain ⟨hrc, hworking', mgr, wal, hdb⟩ := txnCommit_applied hworking
    (by show db.clock + 1 < tsMax; omega) hactive hro
  have hnoconflict : dbCheckConflicts db [e] txn.beginTs = .ok := by
    rw [hts]
    apply dbCheckConflicts_of_bounded
    rw [hht]
    exact h.sound.bounded
  have hmoves : Db.Moves (fun _ _ => True) db (txnCommit { w with db } { txn with
      writes := [e], writeCount := (txn.writeCount + 1) % 2 ^ 32 }).2.1.db := by
    apply txnCommit_moves (w := { w with db })
    · show db.clock + 1 < tsMax
      omega
    · exact fun _ _ _ _ _ => trivial
  unfold FastKV.singleWrite
  simp only [hbegin, hwrite txn hro hstate, hadd, if_true]
  refine ⟨hrc.trans hnoconflict, ⟨?_, hworking', ?_⟩, ?_⟩
  · exact hmoves.invariant (fun _ _ hmove hs => hs.move hmove) hsound
  · rw [hdb]
    show (applyEntries _ _ db).opts.readOnly = false
    rw [applyEntries_opts, hopts]
    exact h.readWrite
  · rw [hdb]
    show (applyEntries _ (applied db _) db).ttl = ttlUpkeep w.db.ttl e
    unfold applied
    rw [if_pos hnoconflict, applyEntries_ttl_eq, httl]
    rfl

/-- A deletion of a key of permitted size. -/
theorem World.Writable.delete {w : World} (h : w.Writable) (hclock : w.db.clock + 2 < tsMax)
    {key : Bytes} (hkey : key.length ≤ maxKeyLen) :
    (fastkvDelete w key).1 = .ok ∧ (fastkvDelete w key).2.Writable := by
  have hwrite : ∀ txn : Txn, txn.readOnly = false → txn.state = .active →
      txnDelete txn key = writeEntryAdd txn key none := by
    intro txn _ _
    unfold txnDelete
    rw [if_neg (by omega)]
    rfl
  obtain ⟨hok, hwritable, -⟩ := h.singleWrite (e := ⟨key, none⟩) hclock hwrite
  exact ⟨hok, hwritable⟩

/-! ## The loop of a pass -/

/-- The body of the loop of `fastkv_ttl_expire`. -/
def expireStep (now : ℕ) (w : World) (pk : Bytes) : World :=
  match w.db.ttl.expiry pk with
  | some expiry => if now < expiry then w else (fastkvDelete w pk).2
  | none => w

/-- The loop. -/
theorem ttlExpire_eq (w : World) (now : ℕ) :
    ttlExpire w now = exec (expireStep now) w (expiredKeys w.db.ttl now) := rfl

/-- The expiry time of a key has come. -/
def Ttl.Due (t : Ttl) (now : ℕ) (key : Bytes) : Prop := ∃ expiry ∈ t.expiry key, expiry ≤ now

/-- The deletion of an iteration, if there is one, does not fail. -/
def Deletes (now : ℕ) (w : World) (pk : Bytes) : Prop :=
  w.db.ttl.Due now pk → (fastkvDelete w pk).1 = .ok

/-- An iteration deletes the key or does nothing. -/
theorem expireStep_cases (now : ℕ) (w : World) (pk : Bytes) :
    (w.db.ttl.Due now pk ∧ expireStep now w pk = (fastkvDelete w pk).2) ∨
      (¬ w.db.ttl.Due now pk ∧ expireStep now w pk = w) := by
  unfold expireStep Ttl.Due
  cases w.db.ttl.expiry pk with
  | none => exact Or.inr ⟨by simp, rfl⟩
  | some expiry =>
    simp only [Option.mem_some_iff, exists_eq_left']
    by_cases hlt : now < expiry
    · rw [if_pos hlt]
      exact Or.inr ⟨by omega, rfl⟩
    · rw [if_neg hlt]
      exact Or.inl ⟨by omega, rfl⟩

/-- What iterations for some keys do. -/
structure Expires (now : ℕ) (keys : List Bytes) (w w' : World) : Prop where
  /-- The database stays sound. -/
  sound : w'.db.Sound
  /-- Every iteration draws at most two timestamps. -/
  clock : w'.db.clock ≤ w.db.clock + 2 * keys.length
  /-- The trees of times stay in step. -/
  holds : w'.db.ttl.Holds w'.db.ttl.expiry
  /-- The keys are deleted if their time has come. -/
  gone : ∀ key ∈ keys, w.db.ttl.Due now key →
    w'.db.ht.live key = none ∧ w'.db.ttl.expiry key = none
  /-- Everything else is left alone. -/
  kept : ∀ key, ¬ (key ∈ keys ∧ w.db.ttl.Due now key) →
    w'.db.ht.live key = w.db.ht.live key ∧ w'.db.ttl.expiry key = w.db.ttl.expiry key

/-- One iteration. -/
theorem expireStep_expires {now : ℕ} {w : World} {pk : Bytes} (hsound : w.db.Sound)
    (hholds : w.db.ttl.Holds w.db.ttl.expiry) (hclock : w.db.clock + 2 < tsMax)
    (hok : Deletes now w pk) : Expires now [pk] w (expireStep now w pk) := by
  rcases expireStep_cases now w pk with ⟨hdue, heq⟩ | ⟨hdue, heq⟩
  · obtain ⟨hlive, httl⟩ := fastkvDelete_ok hclock (hok hdue)
    have hremove := hholds.remove pk
    have hafter : ∀ key, (ttlRemove w.db.ttl pk).expiry key =
        if key = pk then none else w.db.ttl.expiry key := by
      intro key
      rw [hremove.expiry, Function.update_apply]
    have hmoves : Db.Moves (fun _ _ => True) w.db (fastkvDelete w pk).2.db :=
      fastkvDelete_moves hclock fun _ _ => trivial
    rw [heq]
    constructor
    · exact hmoves.invariant (fun _ _ hmove hs => hs.move hmove) hsound
    · exact (singleWrite_evolves hclock _).clock_le_add
    · rw [httl]
      exact hremove.self
    · intro key hkey _
      rw [List.mem_singleton] at hkey
      rw [hlive, httl, hafter, if_pos hkey, if_pos hkey]
      exact ⟨rfl, rfl⟩
    · intro key hkey
      have hne : key ≠ pk := by
        rintro rfl
        exact hkey ⟨List.mem_singleton_self key, hdue⟩
      rw [hlive, httl, hafter, if_neg hne, if_neg hne]
      exact ⟨rfl, rfl⟩
  · rw [heq]
    refine ⟨hsound, Nat.le_add_right _ _, hholds, fun key hkey hkeyDue => ?_,
      fun key _ => ⟨rfl, rfl⟩⟩
    rw [List.mem_singleton] at hkey
    rw [hkey] at hkeyDue
    exact absurd hkeyDue hdue

/-- Iterations in a row. -/
theorem Expires.trans {now : ℕ} {keys keys' : List Bytes} {w w₁ w' : World}
    (h : Expires now keys w w₁) (h' : Expires now keys' w₁ w') :
    Expires now (keys ++ keys') w w' := by
  have hdue : ∀ {key}, key ∉ keys ∨ ¬ w.db.ttl.Due now key →
      (w₁.db.ttl.Due now key ↔ w.db.ttl.Due now key) := by
    intro key hkey
    unfold Ttl.Due
    rw [(h.kept key (by tauto)).2]
  have hclock := h.clock
  have hclock' := h'.clock
  constructor
  · exact h'.sound
  · rw [List.length_append]
    omega
  · exact h'.holds
  · intro key hkey hkeyDue
    by_cases hfirst : key ∈ keys
    · obtain ⟨hlive, hexpiry⟩ := h.gone key hfirst hkeyDue
      -- once deleted, the key has no expiry time that could come
      have hnotDue : ¬ w₁.db.ttl.Due now key := by
        rintro ⟨expiry, hmem, -⟩
        rw [hexpiry] at hmem
        cases hmem
      obtain ⟨hlive', hexpiry'⟩ := h'.kept key fun hboth => hnotDue hboth.2
      rw [hlive', hexpiry']
      exact ⟨hlive, hexpiry⟩
    · have hlast := (List.mem_append.mp hkey).resolve_left hfirst
      exact h'.gone key hlast ((hdue (Or.inl hfirst)).mpr hkeyDue)
  · intro key hkey
    rw [List.mem_append] at hkey
    have hfirst : key ∉ keys ∨ ¬ w.db.ttl.Due now key := by tauto
    have hdue' := hdue hfirst
    obtain ⟨hlive, hexpiry⟩ := h.kept key (by tauto)
    obtain ⟨hlive', hexpiry'⟩ := h'.kept key (by tauto)
    rw [hlive', hexpiry']
    exact ⟨hlive, hexpiry⟩

/-- The whole loop. -/
theorem exec_expires {now : ℕ} (keys : List Bytes) : ∀ {w : World}, w.db.Sound →
    w.db.ttl.Holds w.db.ttl.expiry → w.db.clock + 2 * keys.length < tsMax →
    Permitted (expireStep now) (Deletes now) w keys →
    Expires now keys w (exec (expireStep now) w keys) := by
  induction keys with
  | nil =>
    intro w hsound hholds _ _
    exact ⟨hsound, Nat.le_refl _, hholds, fun key hkey => (by cases hkey),
      fun key _ => ⟨rfl, rfl⟩⟩
  | cons pk keys ih =>
    intro w hsound hholds hclock hok
    rw [List.length_cons] at hclock
    have hfirst := expireStep_expires hsound hholds (by omega) hok.1
    have hle := hfirst.clock
    rw [List.length_singleton] at hle
    exact hfirst.trans (ih hfirst.sound hfirst.holds (by omega) hok.2)

/-- In a database that can be written no deletion of the loop fails. -/
theorem permitted_of_writable {now : ℕ} (keys : List Bytes) : ∀ {w : World}, w.Writable →
    w.db.clock + 2 * keys.length < tsMax → (∀ key ∈ keys, key.length ≤ maxKeyLen) →
    Permitted (expireStep now) (Deletes now) w keys := by
  induction keys with
  | nil => exact fun _ _ _ => trivial
  | cons pk keys ih =>
    intro w hw hclock hkeys
    rw [List.length_cons] at hclock
    obtain ⟨hok, hw'⟩ := hw.delete (by omega) (hkeys pk List.mem_cons_self)
    refine ⟨fun _ => hok, ?_⟩
    have hrest : ∀ key ∈ keys, key.length ≤ maxKeyLen :=
      fun key hkey => hkeys key (List.mem_cons_of_mem _ hkey)
    have hle : (fastkvDelete w pk).2.db.clock ≤ w.db.clock + 2 :=
      (singleWrite_evolves (by omega) _).clock_le_add
    rcases expireStep_cases now w pk with ⟨-, heq⟩ | ⟨-, heq⟩
    · rw [heq]
      exact ih hw' (by omega) hrest
    · rw [heq]
      exact ih hw (by omega) hrest

/-! ## The scan -/

/-- The keys whose time has come, in the order of the tree of times. -/
def Ttl.dueKeys (t : Ttl) (now : ℕ) : List Bytes :=
  (t.exp.toMap.filter fun x => decide (beToU64 x.1 ≤ now)).map fun x => x.1.drop 8

/-- Entries as `make_exp_key` writes them. -/
def ExpKeys (es : List (Bytes × Bytes)) : Prop :=
  ∀ x ∈ es, ∃ pk, ∃ e < 2 ^ 64, x.1 = makeExpKey e pk

/-- The entries of the tree of times are so. -/
theorem Ttl.Holds.expKeys {t : Ttl} {times : Bytes → Option ℕ} (h : t.Holds times) :
    ExpKeys t.exp.toMap := by
  intro x hx
  obtain ⟨-, pk, e, hpk, heq⟩ := (h.mem_exp x).mp hx
  exact ⟨pk, e, h.bounded hpk, heq⟩

/-- The keys whose time has come are the ones with such a time. -/
theorem Ttl.Holds.mem_dueKeys {t : Ttl} (h : t.Holds t.expiry) (now : ℕ) (key : Bytes) :
    key ∈ t.dueKeys now ↔ t.Due now key := by
  unfold Ttl.dueKeys Ttl.Due
  simp only [List.mem_map, List.mem_filter, decide_eq_true_eq]
  constructor
  · rintro ⟨x, ⟨hx, hle⟩, rfl⟩
    obtain ⟨-, pk, e, hpk, heq⟩ := (h.mem_exp x).mp hx
    rw [heq, beToU64_makeExpKey (h.bounded hpk)] at hle
    rw [heq, drop_makeExpKey]
    exact ⟨e, hpk, hle⟩
  · rintro ⟨e, hmem, hle⟩
    refine ⟨(makeExpKey e key, []), ⟨?_, ?_⟩, drop_makeExpKey e key⟩
    · exact (h.mem_exp _).mpr ⟨rfl, key, e, hmem, rfl⟩
    · rwa [beToU64_makeExpKey (h.bounded hmem)]

/-- None of them is there twice. -/
theorem Ttl.Holds.nodup_dueKeys {t : Ttl} (h : t.Holds t.expiry) (now : ℕ) :
    (t.dueKeys now).Nodup := by
  apply List.Nodup.map_on
  · intro x hx y hy heq
    obtain ⟨hxv, pk, e, hpk, hxk⟩ := (h.mem_exp x).mp (List.mem_of_mem_filter hx)
    obtain ⟨hyv, pk', e', hpk', hyk⟩ := (h.mem_exp y).mp (List.mem_of_mem_filter hy)
    rw [hxk, hyk, drop_makeExpKey, drop_makeExpKey] at heq
    rw [heq, hpk', Option.some.injEq] at hpk
    exact Prod.ext (by rw [hxk, hyk, heq, hpk]) (by rw [hxv, hyv])
  · apply List.Nodup.filter
    exact h.expOrdered.sorted.imp fun hlt heq => absurd hlt (by rw [heq]; exact lt_irrefl _)

/-- Keys that fit into the buffer, from entries whose time has come. -/
def fittingKeys (now : ℕ) (es : List (Bytes × Bytes)) : List Bytes :=
  ((es.filter fun x => decide (beToU64 x.1 ≤ now)).map fun x => x.1.drop 8).filter fun key =>
    decide (key.length ≤ maxKeyLen)

/-- Feeding the entries of the tree of times to `collect_expired` fills the buffer with the
first keys whose time has come. -/
theorem feed_collectExpired (now : ℕ) (es : List (Bytes × Bytes)) (hkeys : ExpKeys es)
    (hsorted : SortedKeys es) : ∀ keys : List Bytes, keys.length ≤ expireBatch →
    (feed (collectExpired now) es keys).2 = (keys ++ fittingKeys now es).take expireBatch := by
  induction es with
  | nil =>
    intro keys hlen
    rw [fittingKeys, List.filter_nil, List.map_nil, List.filter_nil, List.append_nil,
      List.take_of_length_le hlen]
    rfl
  | cons x es ih =>
    intro keys hlen
    obtain ⟨pk, e, he, hx⟩ := hkeys x List.mem_cons_self
    have hkeys' : ExpKeys es := fun y hy => hkeys y (List.mem_cons_of_mem _ hy)
    obtain ⟨hbefore, hsorted'⟩ := List.pairwise_cons.mp hsorted
    have hlen8 : ¬ x.1.length < 8 := by
      rw [hx, makeExpKey, List.length_append, length_u64ToBe]
      omega
    have hread : beToU64 x.1 = e := by rw [hx, beToU64_makeExpKey he]
    have hdrop : x.1.drop 8 = pk := by rw [hx, drop_makeExpKey]
    have hpklen : x.1.length - 8 = pk.length := by
      rw [hx, makeExpKey, List.length_append, length_u64ToBe]
      omega
    unfold feed collectExpired
    rw [if_neg hlen8, hread, hpklen, hdrop]
    by_cases hahead : now < e
    · -- the entries behind have times at least as late
      have hlater : ∀ y ∈ x :: es, ¬ beToU64 y.1 ≤ now := by
        intro y hy hle
        rcases List.mem_cons.mp hy with rfl | hy
        · rw [hread] at hle
          omega
        · obtain ⟨pk', e', he', hy'⟩ := hkeys' y hy
          rw [hy', beToU64_makeExpKey he'] at hle
          have hlt := hbefore y hy
          rw [hx, hy'] at hlt
          exact absurd hlt (lt_asymm (makeExpKey_lt he (by omega) pk' pk))
      have hfilter : (x :: es).filter (fun y => decide (beToU64 y.1 ≤ now)) = [] := by
        rw [List.filter_eq_nil_iff]
        intro y hy
        simpa using hlater y hy
      have hnone : fittingKeys now (x :: es) = [] := by
        simp only [fittingKeys, hfilter, List.map_nil, List.filter_nil]
      rw [if_pos hahead, hnone, List.append_nil, List.take_of_length_le hlen]
    · rw [if_neg hahead]
      have hfirst : fittingKeys now (x :: es) =
          (if pk.length ≤ maxKeyLen then [pk] else []) ++ fittingKeys now es := by
        unfold fittingKeys
        rw [List.filter_cons_of_pos (by simpa [hread] using not_lt.mp hahead), List.map_cons,
          hdrop, List.filter_cons]
        by_cases hfit : pk.length ≤ maxKeyLen <;> simp [hfit]
      rw [hfirst]
      by_cases hroom : keys.length < expireBatch ∧ pk.length ≤ maxKeyLen
      · rw [if_pos hroom, if_pos hroom.2]
        have hrest := ih hkeys' hsorted' (keys ++ [pk])
          (by rw [List.length_append, List.length_singleton]; omega)
        rw [List.append_assoc] at hrest
        exact hrest
      · rw [if_neg hroom]
        have hrest := ih hkeys' hsorted' keys hlen
        by_cases hfit : pk.length ≤ maxKeyLen
        · -- the buffer is full, and no more keys get in
          have hfull : keys.length = expireBatch := by
            have hnot : ¬ keys.length < expireBatch := fun hlt => hroom ⟨hlt, hfit⟩
            omega
          rw [List.take_left' hfull]
          rw [List.take_left' hfull] at hrest
          exact hrest
        · rw [if_neg hfit]
          exact hrest

/-- A pass collects the first keys that fit and whose time has come. -/
theorem Ttl.Holds.expiredKeys_eq {t : Ttl} {times : Bytes → Option ℕ} (h : t.Holds times)
    (now : ℕ) : expiredKeys t now =
      ((t.dueKeys now).filter fun key => decide (key.length ≤ maxKeyLen)).take expireBatch := by
  have hrange : t.exp.range none none = t.exp.toMap := by
    unfold BTree.range
    simp
  unfold expiredKeys
  rw [btreeScan_forward h.expOrdered h.expLinked, hrange]
  show (feed (collectExpired now) t.exp.toMap []).2 = _
  rw [feed_collectExpired now t.exp.toMap h.expKeys h.expOrdered.sorted [] (Nat.zero_le _),
    List.nil_append]
  rfl

/-- What a pass collects fits into the buffer for a key. -/
theorem Ttl.Holds.length_le_of_mem_expiredKeys {t : Ttl} {times : Bytes → Option ℕ}
    (h : t.Holds times) {now : ℕ} {key : Bytes} (hkey : key ∈ expiredKeys t now) :
    key.length ≤ maxKeyLen := by
  rw [h.expiredKeys_eq] at hkey
  simpa using List.of_mem_filter (List.mem_of_mem_take hkey)

end FastKV
