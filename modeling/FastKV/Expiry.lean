import FastKV.Upkeep

/-!
# Which keys expire

An expiry time is set by `fastkv_put_ttl` and dropped when its key is deleted. A plain put
leaves it alone, so a key can expire although its latest write did not ask for that. Where every
plain put meets a key without an expiry time, or its transaction also deletes the key, the keys
that were put plainly last have none, and `fastkv_ttl_expire` does not touch them.
-/

namespace FastKV

open Lib

/-! ## Expiry times -/

section Ttl

variable {t : Ttl} {key : Bytes}

/-- The stored expiry in terms of the tree of keys. -/
theorem Ttl.expiry_eq (h : t.key.WellFormed) (key : Bytes) :
    t.expiry key = (Lib.find t.key.toMap key).bind fun exp =>
      if exp.length = 8 then some (beToU64 exp) else none := by
  unfold Ttl.expiry
  rw [btreeGet_eq h]
  cases Lib.find t.key.toMap key <;> rfl

/-- Removing an expiry time. -/
theorem ttlRemove_spec (h : t.key.WellFormed) (key : Bytes) :
    (ttlRemove t key).key.WellFormed ∧ (ttlRemove t key).expiry key = none ∧
      ∀ key', t.expiry key' = none → (ttlRemove t key).expiry key' = none := by
  unfold ttlRemove
  split
  · obtain ⟨hwf, hmap⟩ := btreeDelete_spec h key
    refine ⟨hwf, ?_, fun key' hnone => ?_⟩
    · rw [Ttl.expiry_eq hwf, hmap, find_erase, if_pos rfl]
      rfl
    · rw [Ttl.expiry_eq hwf, hmap, find_erase]
      split
      · rfl
      · rwa [Ttl.expiry_eq h] at hnone
  · rename_i hnone
    exact ⟨h, hnone, fun _ hnone' => hnone'⟩

/-- Setting an expiry time for another key. -/
theorem ttlSet_spec (h : t.key.WellFormed) (now : ℕ) (key : Bytes) (ttlMs : ℕ) :
    (ttlSet t now key ttlMs).key.WellFormed ∧
      ∀ key', key' ≠ key → t.expiry key' = none → (ttlSet t now key ttlMs).expiry key' = none := by
  obtain ⟨hwf, hmap⟩ := btreeInsert_spec h key (u64ToBe (add64 now ttlMs))
  refine ⟨hwf, fun key' hne hnone => ?_⟩
  rw [Ttl.expiry_eq (show (ttlSet t now key ttlMs).key.WellFormed from hwf)]
  show (Lib.find (btreeInsert t.key key (u64ToBe (add64 now ttlMs))).toMap key').bind _ = none
  rw [hmap, find_insert, if_neg hne]
  rwa [Ttl.expiry_eq h] at hnone

/-- A write set sets no expiry time, and drops those of the keys it deletes. -/
theorem foldl_ttlUpkeep_spec (es : List WriteEntry) : ∀ {t : Ttl}, t.key.WellFormed →
    (es.foldl ttlUpkeep t).key.WellFormed ∧
      ∀ key, t.expiry key = none ∨ ⟨key, none⟩ ∈ es → (es.foldl ttlUpkeep t).expiry key = none := by
  induction es with
  | nil => exact fun h => ⟨h, fun key hnone => hnone.elim id fun hmem => by cases hmem⟩
  | cons e es ih =>
    intro t h
    rw [List.foldl_cons]
    cases hv : e.value with
    | some value =>
      have hstep : ttlUpkeep t e = t := by simp only [ttlUpkeep, hv]
      rw [hstep]
      refine ⟨(ih h).1, fun key hnone => (ih h).2 key (hnone.imp_right fun hmem => ?_)⟩
      rcases List.mem_cons.mp hmem with heq | hmem
      · rw [← heq] at hv
        cases hv
      · exact hmem
    | none =>
      have hstep : ttlUpkeep t e = ttlRemove t e.key := by simp only [ttlUpkeep, hv]
      obtain ⟨hwf, hself, hkeep⟩ := ttlRemove_spec h e.key
      rw [hstep]
      refine ⟨(ih hwf).1, fun key hnone => (ih hwf).2 key ?_⟩
      rcases hnone with hnone | hmem
      · exact Or.inl (hkeep key hnone)
      · rcases List.mem_cons.mp hmem with heq | hmem
        · exact Or.inl (by rw [← heq] at hself ⊢; exact hself)
        · exact Or.inr hmem

end Ttl

/-! ## One key -/

/-- The key has no expiry time. -/
structure Db.NoExpiry (key : Bytes) (db : Db) : Prop where
  /-- The tree of keys is in order. -/
  wellFormed : db.ttl.key.WellFormed
  /-- Nothing is stored for the key. -/
  none : db.ttl.expiry key = none

/-- Only an expiry time for the key itself changes that. -/
theorem Db.NoExpiry.move {P : Db → Change → Prop} {key : Bytes}
    (hP : ∀ db, ¬ P db (.expiry key)) {db db' : Db} (h : db.NoExpiry key)
    (hmove : Db.Move P db db') : db'.NoExpiry key := by
  cases hmove with
  | manage | collect | indexCreate => exact ⟨h.wellFormed, h.none⟩
  | indexDrop name =>
    unfold fastkvIndexDrop
    split <;> exact ⟨h.wellFormed, h.none⟩
  | write es txnMgr wal hroom hclock hcond =>
    obtain ⟨hwf, hnone⟩ := foldl_ttlUpkeep_spec es h.wellFormed
    have hnone' := hnone key (Or.inl h.none)
    rw [← applyEntries_ttl_eq db.clock] at hwf hnone'
    exact ⟨hwf, hnone'⟩
  | expiry now key' ttlMs hcond =>
    obtain ⟨hwf, hkeep⟩ := ttlSet_spec h.wellFormed now key' ttlMs
    exact ⟨hwf, hkeep key (fun heq => hP db (by rwa [heq])) h.none⟩

/-- The key has a value and no expiry time. -/
structure Db.Spared (key : Bytes) (value : Slice) (db : Db) : Prop where
  /-- The database is sound. -/
  sound : db.Sound
  /-- The key has no expiry time. -/
  noExpiry : db.NoExpiry key
  /-- It has the value. -/
  live : db.ht.live key = value

/-- Changes to other keys. -/
def Elsewhere (key : Bytes) (_ : Db) : Change → Prop
  | .write es => ∀ e ∈ es, e.key ≠ key
  | .expiry key' => key' ≠ key
  | .index _ => True

/-- They leave the key alone. -/
theorem Db.Spared.move {key : Bytes} {value : Slice} {db db' : Db} (h : db.Spared key value)
    (hmove : Db.Move (Elsewhere key) db db') : db'.Spared key value := by
  refine ⟨h.sound.move hmove, h.noExpiry.move (fun _ hself => hself rfl) hmove, ?_⟩
  cases hmove with
  | manage | expiry | indexCreate => exact h.live
  | indexDrop name =>
    unfold fastkvIndexDrop
    split <;> exact h.live
  | collect m hm => exact (live_htGc h.sound.oneLive hm key).trans h.live
  | write es txnMgr wal hroom hclock hcond =>
    refine (live_applyEntries_of_nil ?_).trans h.live
    unfold writesOn
    rw [List.filter_eq_nil_iff.mpr fun e he => by simpa using hcond e he]
    rfl

/-- A key without an expiry time survives `fastkv_ttl_expire`. -/
theorem ttlExpire_spares {w : World} {key : Bytes} {value : Slice} (h : w.db.Spared key value)
    (hclock : w.db.clock + drawsMax < tsMax) (now : ℕ) : (ttlExpire w now).db.Spared key value := by
  have hrun : (ttlExpire w now).db.Spared key value ∧
      (ttlExpire w now).db.clock + 2 * ([] : List Bytes).length < tsMax := by
    apply ttlExpire_induction (P := fun keys w' => w'.db.Spared key value ∧
      w'.db.clock + 2 * keys.length < tsMax)
    · rintro pk keys w' ⟨hspared, hroom⟩
      rw [List.length_cons] at hroom
      exact ⟨hspared, by omega⟩
    · rintro pk keys w' ⟨hspared, hroom⟩ hexpires
      rw [List.length_cons] at hroom
      have hne : pk ≠ key := by
        rintro rfl
        rw [hspared.noExpiry.none] at hexpires
        cases hexpires
      have hle : (fastkvDelete w' pk).2.db.clock ≤ w'.db.clock + 2 :=
        (singleWrite_evolves (by omega) _).clock_le_add
      have hmoves : Db.Moves (Elsewhere key) w'.db (fastkvDelete w' pk).2.db :=
        fastkvDelete_moves (by omega) fun _ mgr e he => by rwa [List.mem_singleton.mp he]
      exact ⟨hmoves.invariant (fun _ _ hmove hs => hs.move hmove) hspared, by omega⟩
    · have hlength := length_expiredKeys w.db.ttl now
      unfold drawsMax at hclock
      exact ⟨h, by omega⟩
  exact hrun.1

/-! ## The latest write of each key -/

/-- How a key was written. -/
inductive WriteKind
  /-- A plain put. -/
  | put
  /-- `fastkv_put_ttl`. -/
  | putTtl
  /-- A deletion. -/
  | delete
  deriving DecidableEq

/-- The kind of an entry of a write set. -/
def WriteKind.ofValue (value : Slice) : WriteKind := if value.isSome then .put else .delete

/-- The kind of the latest committed write of each key, after a request. A transaction counts
with its own last write of the key, which is the first one in the write set. -/
def latestKind (s : Session) (last : Bytes → Option WriteKind) (r : Request) :
    Bytes → Option WriteKind :=
  if (serve s r).1 ≠ .ok then last
  else
    match r with
    | .put key value => Function.update last key (some (.ofValue value))
    | .delete key => Function.update last key (some .delete)
    | .putTtl _ key _ _ => Function.update last key (some .putTtl)
    | .action (.call (.commit i)) => fun key =>
      match (s.txn i).bind fun txn => firstOn key txn.writes with
      | some value => some (.ofValue value)
      | none => last key
    | _ => last

/-- A session and the kinds of the latest writes in it. -/
structure Watched where
  /-- The session. -/
  session : Session
  /-- The kind of the latest committed write of each key. -/
  last : Bytes → Option WriteKind

/-- Serve a request. -/
def Watched.after (s : Watched) (r : Request) : Watched :=
  ⟨s.session.after r, latestKind s.session s.last r⟩

/-- Nothing was written since the database was opened. -/
def Watched.start (w : World) : Watched := ⟨.start w, fun _ => none⟩

/-- A plain put that the request commits finds no expiry time, or the transaction also deletes
the key. -/
structure TtlCleared (s : Session) (r : Request) : Prop where
  /-- `fastkv_put`. -/
  put : ∀ key value, r = .put key (some value) → s.world.db.ttl.expiry key = none
  /-- `fastkv_txn_commit`. -/
  commit : ∀ i txn, r = .action (.call (.commit i)) → s.txn i = some txn → Applies s.world txn →
    ∀ key value, ⟨key, some value⟩ ∈ txn.writes →
      s.world.db.ttl.expiry key = none ∨ ⟨key, none⟩ ∈ txn.writes

/-- What holds in a session with such requests. -/
structure Watched.Kept (s : Watched) : Prop where
  /-- The database is sound. -/
  sound : s.session.world.db.Sound
  /-- Transactions are as the engine made them. -/
  txns : s.session.TxnsOk
  /-- The tree of keys with an expiry time is in order. -/
  ttl : s.session.world.db.ttl.key.WellFormed
  /-- A key that was put plainly last has no expiry time. -/
  plain : ∀ key, s.last key = some .put → s.session.world.db.ttl.expiry key = none

/-- Every move keeps the tree of keys in order. -/
theorem Db.Move.ttl_wellFormed {P : Db → Change → Prop} {db db' : Db} (hmove : Db.Move P db db')
    (h : db.ttl.key.WellFormed) : db'.ttl.key.WellFormed := by
  cases hmove with
  | manage | collect | indexCreate => exact h
  | indexDrop name =>
    unfold fastkvIndexDrop
    split <;> exact h
  | write es txnMgr wal hroom hclock hcond =>
    have hwf := (foldl_ttlUpkeep_spec es h).1
    rw [← applyEntries_ttl_eq db.clock] at hwf
    exact hwf
  | expiry now key ttlMs hcond => exact (ttlSet_spec h now key ttlMs).1

/-- A request that does not set the expiry time of a key leaves it without one. -/
theorem Db.NoExpiry.after {s : Session} {key : Bytes} (h : s.world.db.NoExpiry key)
    (hclock : s.clock + drawsMax < tsMax) {r : Request}
    (hr : ∀ now value ttlMs, r = .putTtl now key value ttlMs → (serve s r).1 ≠ .ok) :
    (s.after r).world.db.NoExpiry key := by
  have hputTtl : ∀ now key' value ttlMs, r = .putTtl now key' value ttlMs →
      (s.after r).world.db.NoExpiry key := by
    rintro now key' value ttlMs rfl
    have hroom : s.world.db.clock + 2 < tsMax := by
      unfold Session.clock drawsMax expireBatch at hclock
      omega
    have hput : Db.Moves (fun _ c => c ≠ .expiry key) s.world.db
        (fastkvPut s.world key' value).2.db := fastkvPut_moves hroom fun _ _ => by simp
    have hnone := hput.invariant (fun _ _ hmove hs => hs.move (fun _ hself => hself rfl) hmove) h
    have hr' := hr now value ttlMs
    simp only [Session.after, serve, fastkvPutTtl] at hr' ⊢
    split
    · rename_i hok
      obtain ⟨hwf, hkeep⟩ := ttlSet_spec hnone.wellFormed now key' ttlMs
      refine ⟨hwf, hkeep key ?_ hnone.none⟩
      rintro rfl
      simp [hok] at hr'
    · exact hnone
  by_cases hkind : ∃ now key' value ttlMs, r = .putTtl now key' value ttlMs
  · obtain ⟨now, key', value, ttlMs, heq⟩ := hkind
    exact hputTtl now key' value ttlMs heq
  · have hmeets : r.Meets (fun _ c => c ≠ .expiry key) s :=
      ⟨fun _ _ _ _ _ _ _ _ _ => by simp, fun _ _ _ _ => by simp,
        fun now key' value ttlMs heq => absurd ⟨now, key', value, ttlMs, heq⟩ hkind,
        fun _ _ _ => by simp⟩
    exact (serve_moves hclock (fun _ _ _ => by simp) hmeets).invariant
      (fun _ _ hmove hs => hs.move (fun _ hself => hself rfl) hmove) h

/-- A transaction that deletes a key drops its expiry time. -/
theorem commit_drops_expiry {s : Session} {i : ℕ} {txn : Txn} {key : Bytes}
    (hopen : s.txn i = some txn) (happlies : Applies s.world txn)
    (hclock : s.clock + drawsMax < tsMax) (httl : s.world.db.ttl.key.WellFormed)
    (hok : (serve s (.action (.call (.commit i)))).1 = .ok) (hdelete : ⟨key, none⟩ ∈ txn.writes) :
    (s.after (.action (.call (.commit i)))).world.db.ttl.expiry key = none := by
  have hroom : s.world.db.clock + 1 < tsMax := by
    unfold Session.clock drawsMax expireBatch at hclock
    omega
  have hsys : s.sys.txn i = some txn := hopen
  simp only [Session.after, serve, step, callStep, hsys, Sys.commit] at hok ⊢
  obtain ⟨k, wal, mgr, -, hall, hdb⟩ := happlies.db_eq hroom
  show (txnCommit s.world txn).2.1.db.ttl.expiry key = none
  rw [hdb, hall hok]
  show (applyEntries s.world.db.clock txn.writes s.world.db).ttl.expiry key = none
  rw [applyEntries_ttl_eq]
  exact (foldl_ttlUpkeep_spec txn.writes httl).2 key (Or.inr hdelete)

/-- Keys that were put plainly last still have no expiry time after a request. -/
theorem Watched.Kept.plain_after {s : Watched} (h : s.Kept)
    (hclock : s.session.clock + drawsMax < tsMax) {r : Request} (hr : TtlCleared s.session r)
    {key : Bytes} (hkey : (s.after r).last key = some .put) :
    (s.after r).session.world.db.ttl.expiry key = none := by
  have hkeep : s.session.world.db.ttl.expiry key = none →
      (∀ now value ttlMs, r = .putTtl now key value ttlMs → (serve s.session r).1 ≠ .ok) →
      (s.after r).session.world.db.ttl.expiry key = none := by
    intro hnone hother
    have hno : s.session.world.db.NoExpiry key := ⟨h.ttl, hnone⟩
    exact (hno.after hclock hother).none
  have hkind : latestKind s.session s.last r key = some .put := hkey
  unfold latestKind at hkind
  split at hkind
  · rename_i hfailed
    exact hkeep (h.plain key hkind) fun _ _ _ _ => hfailed
  · rename_i hok
    rw [ne_eq, not_not] at hok
    cases r with
    | put key' value =>
      refine hkeep ?_ fun _ _ _ heq => by cases heq
      by_cases heq : key = key'
      · subst heq
        simp only [Function.update_self, Option.some.injEq] at hkind
        cases value with
        | none => cases hkind
        | some v => exact hr.put key v rfl
      · simp only [Function.update_of_ne heq] at hkind
        exact h.plain key hkind
    | delete key' =>
      refine hkeep ?_ fun _ _ _ heq => by cases heq
      by_cases heq : key = key'
      · subst heq
        simp at hkind
      · simp only [Function.update_of_ne heq] at hkind
        exact h.plain key hkind
    | putTtl now key' value ttlMs =>
      by_cases heq : key = key'
      · subst heq
        simp at hkind
      · simp only [Function.update_of_ne heq] at hkind
        refine hkeep (h.plain key hkind) fun _ _ _ hsame => ?_
        cases hsame
        exact absurd rfl heq
    | expire | indexCreate | indexDrop =>
      exact hkeep (h.plain key hkind) fun _ _ _ heq => by cases heq
    | action a =>
      have hold : s.last key = some .put →
          (s.after (.action a)).session.world.db.ttl.expiry key = none :=
        fun hlast => hkeep (h.plain key hlast) fun _ _ _ heq => by cases heq
      cases a with
      | gc | checkpoint => exact hold hkind
      | call c =>
        cases c with
        | begin | get | put | delete | abort => exact hold hkind
        | commit i =>
          cases hopen : s.session.txn i with
          | none =>
            simp only [hopen, Option.bind_none] at hkind
            exact hold hkind
          | some txn =>
            simp only [hopen, Option.bind_some] at hkind
            cases hfirst : firstOn key txn.writes with
            | none =>
              simp only [hfirst] at hkind
              exact hold hkind
            | some value =>
              simp only [hfirst, Option.some.injEq] at hkind
              obtain ⟨e, hmem, rfl, rfl⟩ := firstOn_eq_some hfirst
              have happlies := h.txns.applies hopen (List.ne_nil_of_mem hmem) hok
              cases hv : e.value with
              | none =>
                rw [hv] at hkind
                cases hkind
              | some v =>
                have hmem' : (⟨e.key, some v⟩ : WriteEntry) ∈ txn.writes := by
                  rw [← hv]
                  exact hmem
                rcases hr.commit i txn rfl hopen happlies e.key v hmem' with hnone | hdelete
                · exact hkeep hnone fun _ _ _ heq => by cases heq
                · exact commit_drops_expiry hopen happlies hclock h.ttl hok hdelete

/-- A request keeps it. -/
theorem Watched.Kept.after {s : Watched} (h : s.Kept)
    (hclock : s.session.clock + drawsMax < tsMax) {r : Request} (hr : TtlCleared s.session r) :
    (s.after r).Kept := by
  have hmoves := serve_moves hclock (fun _ _ _ => trivial) (Request.Meets.trivially s.session r)
  exact ⟨hmoves.invariant (fun _ _ hmove hs => hs.move hmove) h.sound, h.txns.after hclock r,
    hmoves.invariant (I := fun db => db.ttl.key.WellFormed)
      (fun _ _ hmove hwf => hmove.ttl_wellFormed hwf) h.ttl,
    fun _ hkey => h.plain_after hclock hr hkey⟩

/-- A database that was just opened has no expiry times. -/
theorem Watched.kept_start {opts : Opts} {fresh : Uuid} {disk : Disk} {w : World}
    (hintact : Intact opts disk.files) (hopen : fastkvOpen opts fresh disk = .ok w) :
    (Watched.start w).Kept := by
  refine ⟨fastkvOpen_sound hintact hopen, Session.start_txnsOk w, ?_, fun _ hkey => by cases hkey⟩
  obtain ⟨s, snapTs, walMaxTs, wal, rc, -, hdb, -⟩ := fastkvOpen_cases hopen
  show w.db.ttl.key.WellFormed
  rw [hdb]
  exact btreeCreate_wellFormed.1

/-- In every session whose plain puts find no expiry time or come with a deletion of the key,
`fastkv_ttl_expire` does not delete a key whose latest write was a plain put, at any time. -/
theorem plain_put_not_expired {opts : Opts} {fresh : Uuid} {disk : Disk} {w : World}
    (hintact : Intact opts disk.files) (hopen : fastkvOpen opts fresh disk = .ok w)
    {rs : List Request} (hclock : w.db.clock + drawsMax * (rs.length + 1) < tsMax)
    (hcleared : Permitted Watched.after (fun s r => TtlCleared s.session r) (.start w) rs)
    {key : Bytes} (hput : (exec Watched.after (.start w) rs).last key = some .put) (now : ℕ) :
    (ttlExpire (exec Watched.after (.start w) rs).session.world now).db.newest key =
      (exec Watched.after (.start w) rs).session.world.db.newest key := by
  obtain ⟨hkept, hle⟩ := exec_induction_of_growth (I := Watched.Kept)
    (fun s => s.session.clock) drawsMax
    (fun s r _ (hroom : _ < tsMax) => Session.clock_after hroom r)
    (fun s r h hroom hr => h.after hroom hr) rs (Watched.kept_start hintact hopen)
    (by show w.db.clock + drawsMax * rs.length < tsMax; rw [Nat.mul_succ] at hclock; omega)
    hcleared
  generalize exec Watched.after (.start w) rs = s at hput hkept hle ⊢
  have hroom : s.session.world.db.clock + drawsMax < tsMax := by
    have hle' : s.session.world.db.clock ≤ w.db.clock + drawsMax * rs.length := hle
    rw [Nat.mul_succ] at hclock
    omega
  have hspared : s.session.world.db.Spared key (s.session.world.db.ht.live key) :=
    ⟨hkept.sound, ⟨hkept.ttl, hkept.plain key hput⟩, rfl⟩
  have hafter := ttlExpire_spares hspared hroom now
  have hle'' : (ttlExpire s.session.world now).db.clock ≤ _ := (ttlExpire_clock hroom).2
  rw [hafter.sound.newest_eq (by omega), hkept.sound.newest_eq (by omega), hafter.live]

/-- A key with an expiry time is deleted before it is put plainly. -/
def deletedBetween : List Request :=
  [.putTtl 0 [1] (some [10]) 5, .delete [1], .put [1] (some [20])]

/-- It does not expire. -/
theorem plain_put_not_expired_after_delete :
    (ttlExpire (exec Watched.after (.start newWorld) deletedBetween).session.world 10).db.newest
      [1] = some [20] := by
  have hputTtl : ∀ s, TtlCleared s (.putTtl 0 [1] (some [10]) 5) :=
    fun s => ⟨fun _ _ heq => (by cases heq), fun _ _ heq => (by cases heq)⟩
  have hdelete : ∀ s, TtlCleared s (.delete [1]) :=
    fun s => ⟨fun _ _ heq => (by cases heq), fun _ _ heq => (by cases heq)⟩
  have hput : TtlCleared (exec Watched.after (.start newWorld) (deletedBetween.take 2)).session
      (.put [1] (some [20])) := by
    refine ⟨fun key value heq => ?_, fun _ _ heq => by cases heq⟩
    cases heq
    decide +kernel
  have hlast : (exec Watched.after (.start newWorld) deletedBetween).last [1] = some .put := by
    decide +kernel
  have hcleared : Permitted Watched.after (fun s r => TtlCleared s.session r) (.start newWorld)
      deletedBetween := ⟨hputTtl _, hdelete _, hput, trivial⟩
  rw [plain_put_not_expired (intact_empty oneBucket) newWorld_opened (by decide +kernel) hcleared
    hlast 10]
  decide +kernel

/-- A key with an expiry time is put plainly. -/
def overwritten : List Request := [.putTtl 0 [1] (some [10]) 5, .put [1] (some [20])]

/-- It expires all the same. -/
theorem plain_put_expires : ¬ ∀ (opts : Opts) (fresh : Uuid) (disk : Disk) (w : World),
    Intact opts disk.files → fastkvOpen opts fresh disk = .ok w → ∀ rs : List Request,
    w.db.clock + drawsMax * (rs.length + 1) < tsMax → ∀ key,
    (exec Watched.after (.start w) rs).last key = some .put → ∀ now,
    (ttlExpire (exec Watched.after (.start w) rs).session.world now).db.newest key =
      (exec Watched.after (.start w) rs).session.world.db.newest key := by
  intro hclaim
  have hsame := hclaim oneBucket firstId ⟨∅, [], []⟩ newWorld (intact_empty oneBucket)
    newWorld_opened overwritten (by decide +kernel) [1] (by decide +kernel) 10
  have hbefore : (exec Watched.after (.start newWorld) overwritten).session.world.db.newest [1] =
      some [20] := by decide +kernel
  have hafter : (ttlExpire (exec Watched.after (.start newWorld) overwritten).session.world
      10).db.newest [1] = none := by decide +kernel
  rw [hbefore, hafter] at hsame
  cases hsame

end FastKV
