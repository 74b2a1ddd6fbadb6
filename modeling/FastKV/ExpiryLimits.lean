import FastKV.ExpiryPass

/-!
# Limits of the expiry

Two limits of key expiry. One pass of `fastkv_ttl_expire` deletes everything that has expired
if and only if that fits into its buffers. And an expiry time is a sum of 64 bits: a key stays
until its time if and only if the sum does not overflow, since otherwise the time that is
stored has already passed.
-/

namespace FastKV

open Lib

/-! ## How much one pass deletes -/

/-- The key is neither in the database nor in the expiry trees. -/
structure World.Lacks (w : World) (key : Bytes) : Prop where
  /-- It has no value. -/
  value : w.db.newest key = none
  /-- It is not in the tree of keys. -/
  keyTree : btreeGet w.db.ttl.key key = .error .notfound
  /-- It is not in the tree of times. -/
  expTree : ∀ e < 2 ^ 64, btreeGet w.db.ttl.exp (makeExpKey e key) = .error .notfound

/-- The key has the same value and the same expiry time in both. -/
structure World.SameKey (w w' : World) (key : Bytes) : Prop where
  /-- The value. -/
  value : w'.db.newest key = w.db.newest key
  /-- The entry of the tree of keys. -/
  keyTree : btreeGet w'.db.ttl.key key = btreeGet w.db.ttl.key key
  /-- The entries of the tree of times. -/
  expTree : ∀ e < 2 ^ 64, btreeGet w'.db.ttl.exp (makeExpKey e key) =
    btreeGet w.db.ttl.exp (makeExpKey e key)

/-- A pass deletes the keys whose time has come and leaves the others alone. -/
structure World.Purged (now : ℕ) (w w' : World) : Prop where
  /-- The keys whose time has come. -/
  gone : ∀ key, w.db.ttl.Due now key → w'.Lacks key
  /-- The other keys. -/
  kept : ∀ key, ¬ w.db.ttl.Due now key → w.SameKey w' key

section Pass

variable {w : World} {now : ℕ}

/-- What a pass without failing deletions does. -/
theorem ttlExpire_expires (hsound : w.db.Sound) (hholds : w.db.ttl.Holds w.db.ttl.expiry)
    (hclock : w.db.clock + drawsMax < tsMax)
    (hok : Permitted (expireStep now) (Deletes now) w (expiredKeys w.db.ttl now)) :
    Expires now (expiredKeys w.db.ttl now) w (ttlExpire w now) ∧
      (ttlExpire w now).db.clock < tsMax := by
  have hlength := length_expiredKeys w.db.ttl now
  unfold drawsMax at hclock
  have hrun := exec_expires (expiredKeys w.db.ttl now) hsound hholds (by omega) hok
  rw [← ttlExpire_eq] at hrun
  have hle := hrun.clock
  constructor
  · exact hrun
  · omega

/-- A key that was deleted has been collected. -/
theorem Expires.mem_of_due {keys : List Bytes} {w' : World} (h : Expires now keys w w')
    {key : Bytes} (hdue : w.db.ttl.Due now key) (hnone : w'.db.ttl.expiry key = none) :
    key ∈ keys := by
  by_contra hnot
  obtain ⟨expiry, hmem, -⟩ := hdue
  rw [← (h.kept key fun hboth => hnot hboth.1).2, hnone] at hmem
  cases hmem

/-- Trees without an entry for a key have no time for it. -/
theorem World.Lacks.expiry_eq {key : Bytes} (h : w.Lacks key) : w.db.ttl.expiry key = none := by
  unfold Ttl.expiry
  rw [h.keyTree]

/-- A pass that deletes everything whose time has come has found room for it. -/
theorem Expires.length_dueKeys_le {w' : World} (hholds : w.db.ttl.Holds w.db.ttl.expiry)
    (h : Expires now (expiredKeys w.db.ttl now) w w')
    (hgone : ∀ key, w.db.ttl.Due now key → w'.Lacks key) :
    (w.db.ttl.dueKeys now).length ≤ expireBatch ∧
      ∀ key, w.db.ttl.Due now key → key.length ≤ maxKeyLen := by
  have hmem : ∀ key, w.db.ttl.Due now key → key ∈ expiredKeys w.db.ttl now :=
    fun key hdue => h.mem_of_due hdue (hgone key hdue).expiry_eq
  constructor
  · have hsubset : w.db.ttl.dueKeys now ⊆ expiredKeys w.db.ttl now :=
      fun key hkey => hmem key ((hholds.mem_dueKeys now key).mp hkey)
    have hlength := ((hholds.nodup_dueKeys now).subperm hsubset).length_le
    exact hlength.trans (length_expiredKeys w.db.ttl now)
  · exact fun key hdue => hholds.length_le_of_mem_expiredKeys (hmem key hdue)

/-- A key whose time has come is collected if all such keys find room. -/
theorem mem_expiredKeys_of_few {key : Bytes} (hholds : w.db.ttl.Holds w.db.ttl.expiry)
    (hfew : (w.db.ttl.dueKeys now).length ≤ expireBatch) (hdue : w.db.ttl.Due now key)
    (hfit : key.length ≤ maxKeyLen) : key ∈ expiredKeys w.db.ttl now := by
  have hlength : ((w.db.ttl.dueKeys now).filter fun key =>
      decide (key.length ≤ maxKeyLen)).length ≤ expireBatch :=
    (List.length_filter_le _ _).trans hfew
  rw [hholds.expiredKeys_eq, List.take_of_length_le hlength, List.mem_filter]
  constructor
  · exact (hholds.mem_dueKeys now key).mpr hdue
  · simpa using hfit

/-- A pass of `fastkv_ttl_expire` whose deletions succeed deletes all keys whose time has come,
and only those, if and only if there are at most 256 of them and none is longer than a key may
be. -/
theorem ttl_expire_complete_iff (hsound : w.db.Sound)
    (hholds : w.db.ttl.Holds w.db.ttl.expiry) (hclock : w.db.clock + drawsMax < tsMax)
    (hok : Permitted (expireStep now) (Deletes now) w (expiredKeys w.db.ttl now)) :
    w.Purged now (ttlExpire w now) ↔ (w.db.ttl.dueKeys now).length ≤ expireBatch ∧
      ∀ key, w.db.ttl.Due now key → key.length ≤ maxKeyLen := by
  obtain ⟨hrun, hclock'⟩ := ttlExpire_expires hsound hholds hclock hok
  constructor
  · exact fun h => hrun.length_dueKeys_le hholds h.gone
  · rintro ⟨hfew, hfit⟩
    have hbefore : w.db.newest = w.db.ht.live := hsound.newest_eq (by omega)
    have hafter : (ttlExpire w now).db.newest = (ttlExpire w now).db.ht.live :=
      hrun.sound.newest_eq hclock'
    constructor
    · intro key hdue
      have hmem := mem_expiredKeys_of_few hholds hfew hdue (hfit key hdue)
      obtain ⟨hlive, hexpiry⟩ := hrun.gone key hmem hdue
      constructor
      · rw [hafter, hlive]
      · rw [hrun.holds.get_key, hexpiry]
        rfl
      · intro e he
        rw [hrun.holds.get_exp he, hexpiry]
        rfl
    · intro key hdue
      obtain ⟨hlive, hexpiry⟩ := hrun.kept key fun hboth => hdue hboth.2
      constructor
      · rw [hafter, hbefore, hlive]
      · rw [hrun.holds.get_key, hholds.get_key, hexpiry]
      · intro e he
        rw [hrun.holds.get_exp he, hholds.get_exp he, hexpiry]

end Pass

/-! ## A crowd of keys -/

/-- The database with other expiry trees. -/
def World.withTimes (w : World) (ttl : Ttl) : World := { w with db := { w.db with ttl } }

/-- It can be written as before. -/
theorem World.Writable.withTimes {w : World} (h : w.Writable) (ttl : Ttl) :
    (w.withTimes ttl).Writable := by
  have hsound := h.sound
  constructor
  · exact ⟨hsound.clock_pos, hsound.bounded, hsound.oneLive, hsound.noEmpty, hsound.wellFormed,
      hsound.linked⟩
  · exact h.working
  · exact h.readWrite

/-- A new database can be written. -/
theorem newWorld_writable : newWorld.Writable := by
  constructor
  · exact fastkvOpen_sound (intact_empty oneBucket) newWorld_opened
  · intro wal hwal
    cases hwal
    exact ⟨rfl, fun o ho => (by cases ho)⟩
  · rfl

/-- No deletion of a pass fails in a database that can be written. -/
theorem World.Writable.permitted {w : World} (h : w.Writable)
    (hholds : w.db.ttl.Holds w.db.ttl.expiry) (hclock : w.db.clock + drawsMax < tsMax) (now : ℕ) :
    Permitted (expireStep now) (Deletes now) w (expiredKeys w.db.ttl now) := by
  apply permitted_of_writable
  · exact h
  · have hlength := length_expiredKeys w.db.ttl now
    unfold drawsMax at hclock
    omega
  · exact fun key hkey => hholds.length_le_of_mem_expiredKeys hkey

/-- A new database with expiry times. -/
def timed (ttl : Ttl) : World := newWorld.withTimes ttl

/-- It can be written. -/
theorem timed_writable (ttl : Ttl) : (timed ttl).Writable := newWorld_writable.withTimes ttl

/-- Its clock has room for a pass. -/
theorem timed_clock (ttl : Ttl) : (timed ttl).db.clock + drawsMax < tsMax := by
  have hclock : (timed ttl).db.clock = 1 := rfl
  rw [hclock]
  decide

/-- A put with a time to live that succeeds. -/
theorem fastkvPutTtl_of_ok {w : World} {key : Bytes} {value : Slice}
    (hok : (fastkvPut w key value).1 = .ok) (now ttlMs : ℕ) :
    fastkvPutTtl w now key value ttlMs = (.ok, (fastkvPut w key value).2.withTimes
      (ttlSet (fastkvPut w key value).2.db.ttl now key ttlMs)) := by
  unfold fastkvPutTtl
  simp only [if_pos hok]
  rfl

/-- It leaves a database that can be written, with one more time in the expiry trees. -/
theorem World.Writable.putTtl {w : World} (h : w.Writable) (hclock : w.db.clock + 2 < tsMax)
    {times : Bytes → Option ℕ} (hholds : w.db.ttl.Holds times) {key value : Bytes}
    (hkey : key.length ≤ maxKeyLen) (hvalue : value.length ≤ maxValLen)
    (now ttlMs : ℕ) :
    (fastkvPutTtl w now key (some value) ttlMs).2.Writable ∧
      (fastkvPutTtl w now key (some value) ttlMs).2.db.ttl.Holds
        (Function.update times key (some (add64 now ttlMs))) := by
  have hwrite : ∀ txn : Txn, txn.readOnly = false → txn.state = .active →
      txnPut txn key (some value) = writeEntryAdd txn key (some value) := by
    intro txn _ _
    unfold txnPut
    rw [if_neg (by omega), if_neg (by rw [Option.getD_some]; omega)]
    rfl
  obtain ⟨hok, hput, hkept⟩ := h.singleWrite (e := ⟨key, some value⟩) hclock hwrite
  rw [fastkvPutTtl_of_ok hok, show (fastkvPut w key (some value)).2.db.ttl = w.db.ttl from hkept]
  exact ⟨hput.withTimes _, hholds.set now key ttlMs⟩

/-- A new database with a key that expires at once. -/
def oneTime : World := (fastkvPutTtl newWorld 0 [1] (some [10]) 0).2

/-- It can be written, and has this time. -/
theorem oneTime_spec : oneTime.Writable ∧ oneTime.db.ttl.Holds
    (Function.update (fun _ => none) [1] (some (add64 0 0))) :=
  newWorld_writable.putTtl (by decide) ttlInit_holds (by decide) (by decide) 0 0

/-- The database with another key, which expires later. -/
def twoTimes : World := (fastkvPutTtl oneTime 0 [2] (some [20]) 100).2

/-- It can be written as well, and has both times. -/
theorem twoTimes_spec : twoTimes.Writable ∧ twoTimes.db.ttl.Holds
    (Function.update (Function.update (fun _ => none) [1] (some (add64 0 0))) [2]
      (some (add64 0 100))) :=
  oneTime_spec.1.putTtl (by decide +kernel) oneTime_spec.2 (by decide) (by decide) 0 100

/-- A pass deletes the first key and leaves the second one alone. -/
theorem ttl_expire_complete_twoTimes :
    twoTimes.Purged 5 (ttlExpire twoTimes 5) ∧
      [[1], [2]].map twoTimes.db.newest = [some [10], some [20]] ∧
      [[1], [2]].map (ttlExpire twoTimes 5).db.newest = [none, some [20]] := by
  refine ⟨?_, by decide +kernel, by decide +kernel⟩
  obtain ⟨hwritable, htimes⟩ := twoTimes_spec
  have hclock : twoTimes.db.clock + drawsMax < tsMax := by decide +kernel
  have hfew : (twoTimes.db.ttl.dueKeys 5).length ≤ expireBatch := by decide +kernel
  -- nothing else about this database is needed
  generalize twoTimes = w at hwritable htimes hclock hfew
  have hholds := htimes.self
  refine (ttl_expire_complete_iff hwritable.sound hholds hclock
    (hwritable.permitted hholds hclock 5)).mpr ⟨hfew, ?_⟩
  rintro key ⟨e, hmem, -⟩
  rw [htimes.expiry] at hmem
  by_cases hlater : key = [2]
  · rw [hlater]
    decide
  · rw [Function.update_of_ne hlater] at hmem
    by_cases hkey : key = [1]
    · rw [hkey]
      decide
    · rw [Function.update_of_ne hkey] at hmem
      cases hmem

/-- The expiry trees with the given number of keys of two bytes that expire at once. -/
def crowd (n : ℕ) : Ttl := (List.range n).foldl (fun t i => ttlSet t 0 (beBytes 2 i) 0) ttlInit

/-- All of them have a time. -/
theorem crowd_holds (n : ℕ) : ∃ times, (crowd n).Holds times ∧
    ∀ i < n, times (beBytes 2 i) = some 0 := by
  induction n with
  | zero => exact ⟨_, ttlInit_holds, fun i hi => absurd hi (Nat.not_lt_zero i)⟩
  | succ n ih =>
    obtain ⟨times, hholds, htimes⟩ := ih
    have hnext : crowd (n + 1) = ttlSet (crowd n) 0 (beBytes 2 n) 0 := by
      unfold crowd
      rw [List.range_succ, List.foldl_append, List.foldl_cons, List.foldl_nil]
    rw [hnext]
    refine ⟨_, hholds.set 0 (beBytes 2 n) 0, fun i hi => ?_⟩
    rw [Function.update_apply]
    split
    · rfl
    · rename_i hne
      apply htimes
      have hin : i ≠ n := fun heq => hne (by rw [heq])
      omega

/-- Of 257 keys that have expired, a pass leaves one. -/
theorem ttl_expire_leaves_one : ¬ ∀ (w : World) (now : ℕ), w.db.Sound →
    w.db.ttl.Holds w.db.ttl.expiry → w.db.clock + drawsMax < tsMax →
    Permitted (expireStep now) (Deletes now) w (expiredKeys w.db.ttl now) →
    w.Purged now (ttlExpire w now) := by
  intro hclaim
  obtain ⟨times, htimes, hzero⟩ := crowd_holds 257
  generalize crowd 257 = ttl at htimes
  have hholds := htimes.self
  have hsound := (timed_writable ttl).sound
  have hpermitted := (timed_writable ttl).permitted hholds (timed_clock ttl) 0
  have hpurged := hclaim (timed ttl) 0 hsound hholds (timed_clock ttl) hpermitted
  obtain ⟨hrun, -⟩ := ttlExpire_expires hsound hholds (timed_clock ttl) hpermitted
  have hfew := (hrun.length_dueKeys_le hholds hpurged.gone).1
  -- the keys are different, and the time of each has come
  have hsubset : (List.range 257).map (beBytes 2) ⊆ ttl.dueKeys 0 := by
    intro key hkey
    obtain ⟨i, hi, rfl⟩ := List.mem_map.mp hkey
    rw [hholds.mem_dueKeys]
    refine ⟨0, ?_, Nat.le_refl 0⟩
    rw [htimes.expiry, hzero i (List.mem_range.mp hi)]
    rfl
  have hnodup : ((List.range 257).map (beBytes 2)).Nodup := by
    apply List.Nodup.map_on
    · intro i hi j hj heq
      have hvalue := congrArg beValue heq
      rw [beValue_beBytes, beValue_beBytes] at hvalue
      rw [List.mem_range] at hi hj
      omega
    · exact List.nodup_range
  have hmany := (hnodup.subperm hsubset).length_le
  rw [List.length_map, List.length_range] at hmany
  have hfew' : (ttl.dueKeys 0).length ≤ 256 := hfew
  omega

/-! ## When a key expires -/

/-- A sound database whose expiry trees are in step. -/
structure Db.Timed (db : Db) : Prop where
  /-- The database is sound. -/
  sound : db.Sound
  /-- The trees of times are in step. -/
  holds : ∃ times, db.ttl.Holds times

/-- The key expires at the given time, or not at all. -/
structure Db.Expiring (key : Bytes) (time : ℕ) (db : Db) : Prop where
  /-- The trees of times are in step. -/
  timed : db.Timed
  /-- No other time is stored. -/
  only : ∀ e ∈ db.ttl.expiry key, e = time

/-- A write set sets no expiry time. -/
theorem foldl_ttlUpkeep_only {key : Bytes} {e : ℕ} (es : List WriteEntry) : ∀ {t : Ttl}
    {times : Bytes → Option ℕ}, t.Holds times → e ∈ (es.foldl ttlUpkeep t).expiry key →
    e ∈ t.expiry key := by
  induction es with
  | nil => exact fun _ he => he
  | cons entry es ih =>
    intro t times h he
    rw [List.foldl_cons] at he
    unfold ttlUpkeep at he
    split at he
    · exact ih h he
    · have hremove := h.remove entry.key
      have hfirst := ih hremove he
      rw [hremove.expiry, Function.update_apply] at hfirst
      split at hfirst
      · cases hfirst
      · rw [h.expiry]
        exact hfirst

/-- Moves of the database set and remove times. -/
theorem Db.Move.ttl_moves {P : Db → Change → Prop} {db db' : Db} (hmove : Db.Move P db db') :
    db.ttl.Moves db'.ttl := by
  cases hmove with
  | manage | collect | indexCreate => exact .refl
  | indexDrop name =>
    unfold fastkvIndexDrop
    split <;> exact .refl
  | write es txnMgr wal hroom hclock hcond =>
    show db.ttl.Moves (applyEntries db.clock es db).ttl
    rw [applyEntries_ttl_eq]
    exact foldl_ttlUpkeep_moves es db.ttl
  | expiry now key ttlMs hcond => exact .single (.set now key ttlMs)

/-- They keep the database sound and its expiry trees in step. -/
theorem Db.Timed.move {P : Db → Change → Prop} {db db' : Db} (h : db.Timed)
    (hmove : Db.Move P db db') : db'.Timed :=
  ⟨h.sound.move hmove, hmove.ttl_moves.holds h.holds⟩

/-- Only `fastkv_put_ttl` for the key itself changes its time. -/
theorem Db.Expiring.move {P : Db → Change → Prop} {key : Bytes} {time : ℕ}
    (hP : ∀ db, ¬ P db (.expiry key)) {db db' : Db} (h : db.Expiring key time)
    (hmove : Db.Move P db db') : db'.Expiring key time := by
  have htimed := h.timed.move hmove
  obtain ⟨times, htimes⟩ := h.timed.holds
  refine ⟨htimed, fun e he => h.only e ?_⟩
  cases hmove with
  | manage | collect | indexCreate => exact he
  | indexDrop name =>
    unfold fastkvIndexDrop at he
    split at he <;> exact he
  | write es txnMgr wal hroom hclock hcond =>
    change e ∈ (applyEntries db.clock es db).ttl.expiry key at he
    rw [applyEntries_ttl_eq] at he
    exact foldl_ttlUpkeep_only es htimes he
  | expiry now key' ttlMs hcond =>
    have hset := htimes.set now key' ttlMs
    change e ∈ (ttlSet db.ttl now key' ttlMs).expiry key at he
    have hne : key ≠ key' := fun heq => hP db (by rw [heq]; exact hcond)
    rw [hset.expiry, Function.update_of_ne hne] at he
    rw [htimes.expiry]
    exact he

/-- Changes to other keys leave the value of a key alone. -/
theorem Db.Sound.live_elsewhere {key : Bytes} {db db' : Db} (h : db.Sound)
    (hmove : Db.Move (Elsewhere key) db db') : db'.ht.live key = db.ht.live key := by
  cases hmove with
  | manage | expiry | indexCreate => rfl
  | indexDrop name =>
    unfold fastkvIndexDrop
    split <;> rfl
  | collect m hm => exact live_htGc h.oneLive hm key
  | write es txnMgr wal hroom hclock hcond =>
    apply live_applyEntries_of_nil
    unfold writesOn
    rw [List.filter_eq_nil_iff.mpr fun e he => by simpa using hcond e he]
    rfl

section Early

variable {key : Bytes} {time now : ℕ}

/-- An iteration of a pass before the time of a key leaves the key alone. -/
theorem expireStep_elsewhere {w : World} (h : w.db.Expiring key time) (hnow : now < time)
    (hclock : w.db.clock + 2 < tsMax) (pk : Bytes) :
    Db.Moves (Elsewhere key) w.db (expireStep now w pk).db ∧
      (expireStep now w pk).db.clock ≤ w.db.clock + 2 := by
  rcases expireStep_cases now w pk with ⟨⟨expiry, hmem, hle⟩, heq⟩ | ⟨-, heq⟩
  · have hne : pk ≠ key := by
      rintro rfl
      have htime := h.only expiry hmem
      omega
    rw [heq]
    constructor
    · apply fastkvDelete_moves hclock
      intro _ mgr e he
      rwa [List.mem_singleton.mp he]
    · exact (singleWrite_evolves hclock _).clock_le_add
  · rw [heq]
    exact ⟨.refl, by omega⟩

/-- Moves elsewhere keep the time of a key. -/
theorem Db.Expiring.moves {db db' : Db} (h : db.Expiring key time)
    (hmoves : Db.Moves (Elsewhere key) db db') : db'.Expiring key time :=
  hmoves.invariant (fun _ _ hmove hs => hs.move (fun _ hself => hself rfl) hmove) h

/-- A pass before the time of a key leaves the key alone. -/
theorem ttlExpire_elsewhere {w : World} (h : w.db.Expiring key time) (hnow : now < time)
    (hclock : w.db.clock + drawsMax < tsMax) :
    Db.Moves (Elsewhere key) w.db (ttlExpire w now).db := by
  have hrun : ∀ (keys : List Bytes) {w : World}, w.db.Expiring key time →
      w.db.clock + 2 * keys.length < tsMax →
      Db.Moves (Elsewhere key) w.db (exec (expireStep now) w keys).db := by
    intro keys
    induction keys with
    | nil => exact fun _ _ => .refl
    | cons pk keys ih =>
      intro w h hclock
      rw [List.length_cons] at hclock
      obtain ⟨hfirst, hle⟩ := expireStep_elsewhere h hnow (by omega) pk
      exact hfirst.trans (ih (h.moves hfirst) (by omega))
  have hlength := length_expiredKeys w.db.ttl now
  unfold drawsMax at hclock
  rw [ttlExpire_eq]
  exact hrun _ h (by omega)

/-- The time at which a request runs a pass. -/
def Request.expiresAt : Request → Option ℕ
  | .expire now => some now
  | .action (.checkpoint _ _ now) => some now
  | _ => none

/-- Such a request before the time of a key leaves the key alone. -/
theorem serve_elsewhere {s : Session} {r : Request} (h : s.world.db.Expiring key time)
    (hnow : now < time) (hclock : s.clock + drawsMax < tsMax) (hr : r.expiresAt = some now) :
    Db.Moves (Elsewhere key) s.world.db (s.after r).world.db := by
  cases r with
  | expire now' =>
    obtain rfl : now' = now := Option.some.inj hr
    exact ttlExpire_elsewhere h hnow hclock
  | action a =>
    cases a with
    | gc | call => cases hr
    | checkpoint snapId segId now' =>
      obtain rfl : now' = now := Option.some.inj hr
      have hroom : s.world.db.clock + drawsMax < tsMax := hclock
      show Db.Moves (Elsewhere key) s.world.db (fastkvCheckpoint s.world snapId segId now').2.db
      rcases fastkvCheckpoint_cases s.world snapId segId now' with
        ⟨wal, heq⟩ | ⟨-, wal, disk, heq⟩
      · rw [heq]
        exact .single (.manage s.world.db.txnMgr wal _ (Nat.le_refl _))
      · rw [heq]
        have hlog : Db.Moves (Elsewhere key) s.world.db { s.world.db with wal := some wal } :=
          .single (.manage s.world.db.txnMgr (some wal) _ (Nat.le_refl _))
        have hpass : Db.Moves (Elsewhere key) { s.world.db with wal := some wal }
            (ttlExpire ⟨{ s.world.db with wal := some wal }, disk⟩ now').db :=
          ttlExpire_elsewhere (w := ⟨{ s.world.db with wal := some wal }, disk⟩) (h.moves hlog)
            hnow hclock
        have hle : (ttlExpire ⟨{ s.world.db with wal := some wal }, disk⟩ now').db.clock ≤
            s.world.db.clock + drawsMax :=
          (ttlExpire_clock (w := ⟨{ s.world.db with wal := some wal }, disk⟩) hclock).2
        have hmin := oracleMinActive_le
          (ttlExpire ⟨{ s.world.db with wal := some wal }, disk⟩ now').db.txnMgr.oracle
        have hcollect := (hlog.trans hpass).tail
          (.collect _ (hmin.trans (by unfold Db.clock at hle hroom; omega)))
        exact hcollect.tail (.manage _ _ _ (Nat.le_refl _))
  | put | delete | putTtl | indexCreate | indexDrop => cases hr

end Early

/-! ## Early expiry -/

/-- The request writes the key. -/
def Request.Writes (s : Session) (key : Bytes) : Request → Prop
  | .put key' _ | .delete key' | .putTtl _ key' _ _ => key' = key
  | .action (.call (.commit i)) => ∃ txn ∈ s.txn i, ∃ e ∈ txn.writes, e.key = key
  | _ => False

/-- A request that does not write a key leaves its time alone, or removes it. -/
theorem Db.Expiring.after {s : Session} {key : Bytes} {time : ℕ}
    (h : s.world.db.Expiring key time) (hclock : s.clock + drawsMax < tsMax) {r : Request}
    (hr : ¬ r.Writes s key) : (s.after r).world.db.Expiring key time := by
  have hmeets : r.Meets (fun _ c => c ≠ .expiry key) s := by
    constructor
    · exact fun _ _ _ _ _ _ _ _ _ => by simp
    · exact fun _ _ _ _ => by simp
    · rintro now key' value ttlMs rfl db hsame
      exact hr (Change.expiry.inj hsame)
    · exact fun _ _ _ => by simp
  exact (serve_moves hclock (fun _ _ _ => by simp) hmeets).invariant
    (fun _ _ hmove hs => hs.move (fun _ hself => hself rfl) hmove) h

/-- The time that a successful `fastkv_put_ttl` stores. -/
theorem expiring_putTtl {s : Session} (h : s.world.db.Timed) (hclock : s.clock + drawsMax < tsMax)
    {now ttlMs : ℕ} {key : Bytes} {value : Slice}
    (hok : (serve s (.putTtl now key value ttlMs)).1 = .ok) :
    (s.after (.putTtl now key value ttlMs)).world.db.Expiring key (add64 now ttlMs) := by
  have htimed := (serve_moves hclock (fun _ _ _ => trivial)
    (Request.Meets.trivially s (.putTtl now key value ttlMs))).invariant
    (fun _ _ hmove hs => hs.move hmove) h
  have hput : (fastkvPut s.world key value).1 = .ok := by
    simp only [serve, fastkvPutTtl] at hok
    split at hok
    · assumption
    · exact hok
  have hroom : s.world.db.clock + 2 < tsMax := by
    unfold Session.clock drawsMax expireBatch at hclock
    omega
  have hfirst : (fastkvPut s.world key value).2.db.Timed := by
    have hmoves : Db.Moves (fun _ _ => True) s.world.db (fastkvPut s.world key value).2.db :=
      fastkvPut_moves hroom fun _ _ => trivial
    exact hmoves.invariant (fun _ _ hmove hs => hs.move hmove) h
  refine ⟨htimed, fun e he => ?_⟩
  simp only [Session.after, serve, fastkvPutTtl, if_pos hput] at he
  obtain ⟨times, htimes⟩ := hfirst.holds
  rw [(htimes.set now key ttlMs).expiry, Function.update_self, Option.mem_some_iff] at he
  exact he.symm

/-- A key that is put at time `t0` with this time to live, and not written after that, is not
deleted by a pass at a time `t` with `t - t0 < ttlMs`. -/
def NotExpiredEarly (t0 ttlMs : ℕ) : Prop :=
  ∀ (opts : Opts) (fresh : Uuid) (disk : Disk) (w : World), Intact opts disk.files →
    fastkvOpen opts fresh disk = .ok w →
    ∀ (before after : List Request) (key : Bytes) (value : Slice),
      w.db.clock + drawsMax * (before.length + after.length + 2) < tsMax →
      (serve (session (.start w) before) (.putTtl t0 key value ttlMs)).1 = .ok →
      Permitted Session.after (fun s r => ¬ r.Writes s key)
        ((session (.start w) before).after (.putTtl t0 key value ttlMs)) after →
      ∀ (r : Request) (t : ℕ), r.expiresAt = some t → (t : ℤ) - t0 < ttlMs →
        ((session ((session (.start w) before).after (.putTtl t0 key value ttlMs)) after).after
            r).world.db.newest key =
          (session ((session (.start w) before).after (.putTtl t0 key value ttlMs))
            after).world.db.newest key

/-- A time that does not overflow is not reached early. -/
theorem notExpiredEarly_of_fits {t0 ttlMs : ℕ} (hfits : t0 + ttlMs < 2 ^ 64) :
    NotExpiredEarly t0 ttlMs := by
  intro opts fresh disk w hintact hopen before after key value hclock hok hafter r t hr ht
  have hstart : (Session.start w).world.db.Timed := by
    refine ⟨fastkvOpen_sound hintact hopen, ?_⟩
    exact exec_ttl_holds hopen []
  have hgrowth : ∀ (s : Session) (r : Request), s.clock + drawsMax < tsMax →
      (s.after r).clock ≤ s.clock + drawsMax := fun s r hroom => Session.clock_after hroom r
  obtain ⟨htimed, hle⟩ := exec_induction_of_growth (P := fun _ _ => True)
    (I := fun s : Session => s.world.db.Timed) Session.clock drawsMax
    (fun s r _ hroom => hgrowth s r hroom)
    (fun s r hs hroom _ => (serve_moves hroom (fun _ _ _ => trivial)
      (Request.Meets.trivially s r)).invariant (fun _ _ hmove hdb => hdb.move hmove) hs)
    before hstart (by show w.db.clock + _ < _; rw [Nat.mul_add, Nat.mul_add] at hclock; omega)
    (Permitted.of_forall before _ fun _ _ _ => trivial)
  change (session (.start w) before).clock ≤ w.db.clock + drawsMax * before.length at hle
  change (session (.start w) before).world.db.Timed at htimed
  generalize session (.start w) before = s at hok hafter htimed hle ⊢
  have hput := expiring_putTtl htimed
    (by rw [Nat.mul_add, Nat.mul_add] at hclock; omega) hok
  have hput' := hgrowth s (.putTtl t0 key value ttlMs)
    (by rw [Nat.mul_add, Nat.mul_add] at hclock; omega)
  rw [add64_eq hfits] at hput
  generalize s.after (.putTtl t0 key value ttlMs) = s₁ at hafter hput hput' ⊢
  obtain ⟨hexpiring, hle'⟩ := exec_induction_of_growth
    (I := fun s : Session => s.world.db.Expiring key (t0 + ttlMs)) Session.clock drawsMax
    (fun s r _ hroom => hgrowth s r hroom) (fun s r hs hroom hw => hs.after hroom hw)
    after hput (by rw [Nat.mul_add, Nat.mul_add] at hclock; omega) hafter
  change (session s₁ after).clock ≤ s₁.clock + drawsMax * after.length at hle'
  change (session s₁ after).world.db.Expiring key (t0 + ttlMs) at hexpiring
  generalize session s₁ after = s₂ at hexpiring hle' ⊢
  have hroom : s₂.clock + drawsMax < tsMax := by
    rw [Nat.mul_add, Nat.mul_add] at hclock
    omega
  have hmoves := serve_elsewhere hexpiring (by omega) hroom hr
  have hlive : (s₂.after r).world.db.ht.live key = s₂.world.db.ht.live key ∧
      (s₂.after r).world.db.Sound := by
    refine hmoves.invariant (I := fun db => db.ht.live key = s₂.world.db.ht.live key ∧ db.Sound)
      (fun db db' hmove hdb => ?_) ⟨rfl, hexpiring.timed.sound⟩
    exact ⟨(hdb.2.live_elsewhere hmove).trans hdb.1, hdb.2.move hmove⟩
  have hclock₂ : (s₂.after r).world.db.clock < tsMax :=
    (Session.clock_after hroom r).trans_lt hroom
  have hclock₁ : s₂.world.db.clock < tsMax := (Nat.le_add_right _ _).trans_lt hroom
  rw [hlive.2.newest_eq hclock₂, hexpiring.timed.sound.newest_eq hclock₁, hlive.1]

/-- A pass deletes the only key with an expiry time if that has come. -/
theorem ttlExpire_only {w : World} {now : ℕ} {key : Bytes} {e : ℕ} (hw : w.Writable)
    (hclock : w.db.clock + drawsMax < tsMax)
    (htimes : w.db.ttl.Holds (Function.update (fun _ => none) key (some e))) (he : e ≤ now)
    (hfit : key.length ≤ maxKeyLen) : (ttlExpire w now).db.newest key = none := by
  have hholds := htimes.self
  have hdue : ∀ key', w.db.ttl.Due now key' ↔ key' = key := by
    intro key'
    unfold Ttl.Due
    rw [htimes.expiry]
    by_cases hkey : key' = key
    · rw [hkey, Function.update_self]
      simpa using he
    · rw [Function.update_of_ne hkey]
      simpa using hkey
  have hsubset : w.db.ttl.dueKeys now ⊆ [key] := by
    intro key' hkey
    rw [hholds.mem_dueKeys, hdue] at hkey
    rw [hkey]
    exact List.mem_singleton_self _
  have hone := ((hholds.nodup_dueKeys now).subperm hsubset).length_le
  rw [List.length_singleton] at hone
  have hfew : (w.db.ttl.dueKeys now).length ≤ expireBatch := by
    unfold expireBatch
    omega
  obtain ⟨hrun, hclock'⟩ := ttlExpire_expires hw.sound hholds hclock
    (hw.permitted hholds hclock now)
  have hmem := mem_expiredKeys_of_few hholds hfew ((hdue key).mpr rfl) hfit
  rw [hrun.sound.newest_eq hclock', (hrun.gone key hmem ((hdue key).mpr rfl)).1]

/-- A time that overflows has already come. -/
theorem expiredEarly_of_overflow {t0 ttlMs : ℕ} (h0 : t0 < 2 ^ 64) (httl : ttlMs < 2 ^ 64)
    (hover : 2 ^ 64 ≤ t0 + ttlMs) : ¬ NotExpiredEarly t0 ttlMs := by
  intro hclaim
  have hok : (fastkvPut newWorld [1] (some [10])).1 = .ok := by decide +kernel
  have hputTtl := fastkvPutTtl_of_ok hok t0 ttlMs
  have hsame := hclaim oneBucket firstId ⟨∅, [], []⟩ newWorld (intact_empty oneBucket)
    newWorld_opened [] [] [1] (some [10]) (by decide)
    (by show (fastkvPutTtl newWorld t0 [1] (some [10]) ttlMs).1 = .ok; rw [hputTtl]) trivial
    (.expire t0) t0 rfl (by omega)
  change (ttlExpire (fastkvPutTtl newWorld t0 [1] (some [10]) ttlMs).2 t0).db.newest [1] =
    (fastkvPutTtl newWorld t0 [1] (some [10]) ttlMs).2.db.newest [1] at hsame
  have hput : (fastkvPut newWorld [1] (some [10])).2.Writable :=
    (newWorld_writable.singleWrite (e := ⟨[1], some [10]⟩) (by decide) fun txn _ _ => rfl).2.1
  have hclock : (fastkvPut newWorld [1] (some [10])).2.db.clock + drawsMax < tsMax := by
    decide +kernel
  have hvalue : (fastkvPut newWorld [1] (some [10])).2.db.newest [1] = some [10] := by
    decide +kernel
  have hfresh : (fastkvPut newWorld [1] (some [10])).2.db.ttl = ttlInit := rfl
  rw [hputTtl, hfresh] at hsame
  generalize (fastkvPut newWorld [1] (some [10])).2 = w at hput hclock hvalue hsame
  have hpassed : add64 t0 ttlMs ≤ t0 := by
    unfold add64
    omega
  have hnone := ttlExpire_only (hput.withTimes (ttlSet ttlInit t0 [1] ttlMs)) hclock
    (ttlInit_holds.set t0 [1] ttlMs) hpassed (by decide)
  rw [hnone] at hsame
  change none = w.db.newest [1] at hsame
  rw [hvalue] at hsame
  cases hsame

/-- A key with a time to live is never deleted early if and only if its expiry time fits into
64 bits. -/
theorem not_expired_early_iff {t0 ttlMs : ℕ} (h0 : t0 < 2 ^ 64) (httl : ttlMs < 2 ^ 64) :
    NotExpiredEarly t0 ttlMs ↔ t0 + ttlMs < 2 ^ 64 := by
  constructor
  · intro h
    by_contra hover
    exact expiredEarly_of_overflow h0 httl (not_lt.mp hover) h
  · exact notExpiredEarly_of_fits

/-- Five milliseconds after the beginning of time. -/
theorem not_expired_early_five : NotExpiredEarly 0 5 :=
  (not_expired_early_iff (by decide) (by decide)).mpr (by decide)

/-- The largest time to live is over at once. -/
theorem expires_early : ¬ ∀ t0 < 2 ^ 64, ∀ ttlMs < 2 ^ 64, NotExpiredEarly t0 ttlMs :=
  fun hclaim => expiredEarly_of_overflow (show 1 < 2 ^ 64 by decide)
    (show 2 ^ 64 - 1 < 2 ^ 64 by decide) (by decide)
    (hclaim 1 (by decide) (2 ^ 64 - 1) (by decide))

end FastKV
