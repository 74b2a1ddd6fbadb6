import FastKV.Expiry
import FastKV.OrderedIndex
import FastKV.Lib.Digits

/-!
# The two expiry trees mirror each other

What the two trees of `persist/ttl.c` stand for is one map from keys to expiry times. The tree
of keys has the times as eight bytes, the most significant one first, and the tree of times has
these bytes in front of the key. Since their number is fixed the two can be told apart again,
whatever bytes the key consists of, and the order of the tree of times is first of all that of
the times. Setting a time removes the entry that the old time left; so every call keeps both
trees in step with the map, and neither has an entry that the other lacks.
-/

namespace FastKV

open Lib

/-! ## Eight bytes -/

/-- The number that a byte string denotes, the most significant byte first. -/
def beValue (bs : Bytes) : ℕ := bs.foldl (fun v b => v * 256 + b.toNat) 0

/-- A byte string has the value of its bytes as digits. -/
theorem beValue_eq_number (bs : Bytes) : beValue bs = number 256 (bs.map UInt8.toNat) := by
  induction bs using List.reverseRecOn with
  | nil => rfl
  | append_singleton bs b ih =>
    rw [beValue, List.foldl_append, List.foldl_cons, List.foldl_nil]
    change beValue bs * 256 + b.toNat = _
    rw [ih, List.map_append, number_append, List.map_singleton, number_cons]
    simp [number, Nat.mul_comm, Nat.add_comm]

/-- Bytes as digits. -/
theorem ofNat_lt_ofNat_iff : ∀ d < 256, ∀ e < 256, (UInt8.ofNat d < UInt8.ofNat e ↔ d < e) := by
  intro d hd e he
  rw [UInt8.lt_iff_toNat_lt, UInt8.toNat_ofNat_of_lt' hd, UInt8.toNat_ofNat_of_lt' he]

/-- Byte strings of one length are ordered as their values. -/
theorem lt_iff_beValue_lt {a b : Bytes} (h : a.length = b.length) :
    a < b ↔ beValue a < beValue b := by
  have hback : ∀ bs : Bytes, (bs.map UInt8.toNat).map UInt8.ofNat = bs := by
    intro bs
    rw [List.map_map]
    exact (List.map_congr_left fun b _ => UInt8.ofNat_toNat).trans (List.map_id bs)
  have hdigit : ∀ bs : Bytes, ∀ d ∈ bs.map UInt8.toNat, d < 256 := by
    intro bs d hd
    obtain ⟨b, _, rfl⟩ := List.mem_map.mp hd
    exact b.toNat_lt
  have hlen : (a.map UInt8.toNat).length = (b.map UInt8.toNat).length := by
    rw [List.length_map, List.length_map, h]
  rw [beValue_eq_number, beValue_eq_number,
    ← lt_iff_number_lt (by decide) hlen (hdigit a) (hdigit b),
    ← map_lt_map_iff ofNat_lt_ofNat_iff hlen (hdigit a) (hdigit b), hback, hback]

/-- The bytes are as many as asked for. -/
theorem length_beBytes (width : ℕ) : ∀ v : ℕ, (beBytes width v).length = width := by
  induction width with
  | zero => exact fun _ => rfl
  | succ width ih =>
    intro v
    rw [beBytes, List.length_append, ih, List.length_singleton]

/-- They denote the number, as far as their width goes. -/
theorem beValue_beBytes (width : ℕ) : ∀ v : ℕ, beValue (beBytes width v) = v % 256 ^ width := by
  induction width with
  | zero =>
    intro v
    rw [Nat.pow_zero, Nat.mod_one]
    rfl
  | succ width ih =>
    intro v
    have hfirst := ih (v / 256)
    have hbyte : (UInt8.ofNat v).toNat = v % 256 := UInt8.toNat_ofNat'
    rw [beValue] at hfirst
    rw [beBytes, beValue, List.foldl_append, hfirst, List.foldl_cons, List.foldl_nil, hbyte,
      Nat.pow_succ', Nat.mod_mul]
    omega

/-- `u64_to_be` writes eight bytes. -/
@[simp] theorem length_u64ToBe (v : ℕ) : (u64ToBe v).length = 8 := length_beBytes 8 v

/-- `be_to_u64` reads back what `u64_to_be` wrote, whatever follows. -/
theorem beToU64_makeExpKey {e : ℕ} (he : e < 2 ^ 64) (pk : Bytes) :
    beToU64 (makeExpKey e pk) = e := by
  have htake : (makeExpKey e pk).take 8 = u64ToBe e := List.take_left' (length_u64ToBe e)
  have hvalue : beValue (u64ToBe e) = e % 256 ^ 8 := beValue_beBytes 8 e
  rw [beToU64, htake]
  change beValue (u64ToBe e) = e
  rw [hvalue, Nat.mod_eq_of_lt (by omega)]

/-- The same without anything behind. -/
theorem beToU64_u64ToBe {e : ℕ} (he : e < 2 ^ 64) : beToU64 (u64ToBe e) = e := by
  have hread := beToU64_makeExpKey he []
  rwa [makeExpKey, List.append_nil] at hread

/-- Expiry times can be told apart. -/
theorem u64ToBe_inj {e e' : ℕ} (he : e < 2 ^ 64) (he' : e' < 2 ^ 64) (h : u64ToBe e = u64ToBe e') :
    e = e' := by
  rw [← beToU64_u64ToBe he, h, beToU64_u64ToBe he']

/-- The key behind the expiry time. -/
@[simp] theorem drop_makeExpKey (e : ℕ) (pk : Bytes) : (makeExpKey e pk).drop 8 = pk :=
  List.drop_left' (length_u64ToBe e)

/-- An entry of the tree of times determines its time and its key. -/
theorem makeExpKey_inj {e e' : ℕ} {pk pk' : Bytes} (he : e < 2 ^ 64) (he' : e' < 2 ^ 64) :
    makeExpKey e pk = makeExpKey e' pk' ↔ e = e' ∧ pk = pk' := by
  constructor
  · intro h
    constructor
    · rw [← beToU64_makeExpKey he pk, h, beToU64_makeExpKey he' pk']
    · rw [← drop_makeExpKey e pk, h, drop_makeExpKey]
  · rintro ⟨rfl, rfl⟩
    rfl

/-- A difference in front decides the order of two byte strings. -/
theorem append_lt_append {a b : Bytes} (hlen : a.length = b.length) (h : a < b) (c d : Bytes) :
    a ++ c < b ++ d := by
  induction a generalizing b with
  | nil =>
    obtain rfl := List.eq_nil_of_length_eq_zero hlen.symm
    exact absurd h (lt_irrefl _)
  | cons x a ih =>
    cases b with
    | nil => cases hlen
    | cons y b =>
      rw [List.cons_lt_cons_iff] at h
      rw [List.cons_append, List.cons_append, List.cons_lt_cons_iff]
      rcases h with hxy | ⟨rfl, hab⟩
      · exact Or.inl hxy
      · exact Or.inr ⟨rfl, ih (Nat.succ.inj hlen) hab⟩

/-- Earlier times come first. -/
theorem makeExpKey_lt {e e' : ℕ} (he' : e' < 2 ^ 64) (h : e < e') (pk pk' : Bytes) :
    makeExpKey e pk < makeExpKey e' pk' := by
  have hlen : (u64ToBe e).length = (u64ToBe e').length := by simp
  apply append_lt_append hlen
  rw [lt_iff_beValue_lt hlen, u64ToBe, u64ToBe, beValue_beBytes, beValue_beBytes,
    Nat.mod_eq_of_lt (by omega), Nat.mod_eq_of_lt (by omega)]
  exact h

/-! ## The map of expiry times -/

/-- The trees stand for a map of expiry times. -/
structure Ttl.Holds (t : Ttl) (times : Bytes → Option ℕ) : Prop where
  /-- Expiry times have 64 bits. -/
  bounded : ∀ {pk e}, times pk = some e → e < 2 ^ 64
  /-- The tree of keys is in order. -/
  keyOrdered : t.key.WellFormed
  /-- It has the times. -/
  key : ∀ pk, Lib.find t.key.toMap pk = (times pk).map u64ToBe
  /-- The tree of times is in order. -/
  expOrdered : t.exp.WellFormed
  /-- Its leaves are linked. -/
  expLinked : t.exp.Linked
  /-- It has an entry without a value for every time. -/
  exp : ∀ k v, Lib.find t.exp.toMap k = some v ↔
    v = [] ∧ ∃ pk e, times pk = some e ∧ k = makeExpKey e pk

section Holds

variable {t : Ttl} {times : Bytes → Option ℕ}

/-- New trees hold no times. -/
theorem ttlInit_holds : ttlInit.Holds fun _ => none := by
  refine ⟨fun h => (by cases h), btreeCreate_wellFormed.1, fun pk => ?_, btreeCreate_wellFormed.1,
    btreeCreate_linked, fun k v => ?_⟩
  · show Lib.find btreeCreate.toMap pk = none
    rw [btreeCreate_wellFormed.2]
    rfl
  · have hempty : Lib.find ttlInit.exp.toMap k = none := by
      show Lib.find btreeCreate.toMap k = none
      rw [btreeCreate_wellFormed.2]
      rfl
    rw [hempty]
    constructor
    · intro h
      cases h
    · rintro ⟨-, pk, e, h, -⟩
      cases h

/-- The stored expiry is the one in the map. -/
theorem Ttl.Holds.expiry (h : t.Holds times) (pk : Bytes) : t.expiry pk = times pk := by
  rw [Ttl.expiry_eq h.keyOrdered, h.key]
  cases hpk : times pk with
  | none => rfl
  | some e =>
    rw [Option.map_some, Option.bind_some, if_pos (length_u64ToBe e),
      beToU64_u64ToBe (h.bounded hpk)]

/-- The stored expiry times are the map that the trees hold. -/
theorem Ttl.Holds.self (h : t.Holds times) : t.Holds t.expiry := by
  have heq : t.expiry = times := funext h.expiry
  rw [heq]
  exact h

/-- What a lookup in the tree of keys finds. -/
theorem Ttl.Holds.get_key (h : t.Holds times) (pk : Bytes) :
    btreeGet t.key pk = lookupResult ((times pk).map u64ToBe) := by
  rw [btreeGet_eq h.keyOrdered, h.key]
  cases times pk <;> rfl

/-- The entries of the tree of times. -/
theorem Ttl.Holds.mem_exp (h : t.Holds times) (x : Bytes × Bytes) :
    x ∈ t.exp.toMap ↔ x.2 = [] ∧ ∃ pk e, times pk = some e ∧ x.1 = makeExpKey e pk :=
  (h.expOrdered.sorted.mem_iff_find x.1 x.2).trans (h.exp x.1 x.2)

/-- What a lookup in the tree of times finds. -/
theorem Ttl.Holds.get_exp (h : t.Holds times) {e : ℕ} (he : e < 2 ^ 64) (pk : Bytes) :
    btreeGet t.exp (makeExpKey e pk) =
      if times pk = some e then .ok [] else .error .notfound := by
  rw [btreeGet_eq h.expOrdered]
  by_cases hpk : times pk = some e
  · have hfind := (h.exp (makeExpKey e pk) []).mpr ⟨rfl, pk, e, hpk, rfl⟩
    rw [if_pos hpk, hfind]
  · have hnone : Lib.find t.exp.toMap (makeExpKey e pk) = none := by
      rw [Option.eq_none_iff_forall_ne_some]
      intro v hv
      obtain ⟨-, pk', e', hpk', heq⟩ := (h.exp _ _).mp hv
      obtain ⟨rfl, rfl⟩ := (makeExpKey_inj he (h.bounded hpk')).mp heq
      exact hpk hpk'
    rw [if_neg hpk, hnone]

/-- The tree of times without the entry of one key. -/
def Ttl.expWithout (t : Ttl) (key : Bytes) : BTree :=
  match t.expiry key with
  | some oldExpiry => (btreeDelete t.exp (makeExpKey oldExpiry key)).2
  | none => t.exp

/-- It has the entries of all other keys. -/
theorem Ttl.Holds.expWithout (h : t.Holds times) (key : Bytes) :
    (t.expWithout key).WellFormed ∧ (t.expWithout key).Linked ∧
      ∀ k v, Lib.find (t.expWithout key).toMap k = some v ↔
        v = [] ∧ ∃ pk e, pk ≠ key ∧ times pk = some e ∧ k = makeExpKey e pk := by
  unfold Ttl.expWithout
  rw [h.expiry]
  cases hkey : times key with
  | none =>
    refine ⟨h.expOrdered, h.expLinked, fun k v => ?_⟩
    rw [h.exp]
    constructor
    · rintro ⟨hv, pk, e, hpk, hk⟩
      refine ⟨hv, pk, e, ?_, hpk, hk⟩
      rintro rfl
      rw [hkey] at hpk
      cases hpk
    · rintro ⟨hv, pk, e, -, hpk, hk⟩
      exact ⟨hv, pk, e, hpk, hk⟩
  | some old =>
    obtain ⟨hordered, hmap⟩ := btreeDelete_spec h.expOrdered (makeExpKey old key)
    refine ⟨hordered, h.expLinked.delete _, fun k v => ?_⟩
    rw [hmap, find_erase]
    by_cases hold : k = makeExpKey old key
    · rw [if_pos hold]
      constructor
      · intro hnone
        cases hnone
      · rintro ⟨-, pk, e, hne, hpk, hk⟩
        rw [hold, makeExpKey_inj (h.bounded hkey) (h.bounded hpk)] at hk
        exact absurd hk.2.symm hne
    · rw [if_neg hold, h.exp]
      constructor
      · rintro ⟨hv, pk, e, hpk, hk⟩
        refine ⟨hv, pk, e, ?_, hpk, hk⟩
        rintro rfl
        rw [hkey, Option.some.injEq] at hpk
        exact hold (by rw [hk, hpk])
      · rintro ⟨hv, pk, e, -, hpk, hk⟩
        exact ⟨hv, pk, e, hpk, hk⟩

/-- `fastkv_ttl_remove` forgets the time of a key. -/
theorem Ttl.Holds.remove (h : t.Holds times) (key : Bytes) :
    (ttlRemove t key).Holds (Function.update times key none) := by
  cases hkey : times key with
  | none =>
    have hsame : ttlRemove t key = t := by
      unfold ttlRemove
      rw [h.expiry, hkey]
    rw [hsame, ← hkey, Function.update_eq_self]
    exact h
  | some old =>
    obtain ⟨hordered, hlinked, hexp⟩ := h.expWithout key
    have heq : ttlRemove t key = ⟨t.expWithout key, (btreeDelete t.key key).2⟩ := by
      unfold ttlRemove Ttl.expWithout
      rw [h.expiry, hkey]
    obtain ⟨hkeyOrdered, hmap⟩ := btreeDelete_spec h.keyOrdered key
    rw [heq]
    refine ⟨fun {pk e} hpk => ?_, hkeyOrdered, fun pk => ?_, hordered, hlinked, fun k v => ?_⟩
    · by_cases hne : pk = key
      · rw [hne, Function.update_self] at hpk
        cases hpk
      · rw [Function.update_of_ne hne] at hpk
        exact h.bounded hpk
    · rw [hmap, find_erase]
      by_cases hne : pk = key
      · rw [if_pos hne, hne, Function.update_self]
        rfl
      · rw [if_neg hne, Function.update_of_ne hne]
        exact h.key pk
    · rw [hexp]
      constructor
      · rintro ⟨hv, pk, e, hne, hpk, hk⟩
        exact ⟨hv, pk, e, by rw [Function.update_of_ne hne, hpk], hk⟩
      · rintro ⟨hv, pk, e, hpk, hk⟩
        by_cases hne : pk = key
        · rw [hne, Function.update_self] at hpk
          cases hpk
        · rw [Function.update_of_ne hne] at hpk
          exact ⟨hv, pk, e, hne, hpk, hk⟩

/-- `fastkv_ttl_set` replaces the time of a key. -/
theorem Ttl.Holds.set (h : t.Holds times) (now : ℕ) (key : Bytes) (ttlMs : ℕ) :
    (ttlSet t now key ttlMs).Holds (Function.update times key (some (add64 now ttlMs))) := by
  have hnew : add64 now ttlMs < 2 ^ 64 := Nat.mod_lt _ (by decide)
  obtain ⟨hordered, hlinked, hexp⟩ := h.expWithout key
  have heq : ttlSet t now key ttlMs =
      ⟨btreeInsert (t.expWithout key) (makeExpKey (add64 now ttlMs) key) [],
        btreeInsert t.key key (u64ToBe (add64 now ttlMs))⟩ := rfl
  obtain ⟨hkeyOrdered, hmap⟩ := btreeInsert_spec h.keyOrdered key (u64ToBe (add64 now ttlMs))
  obtain ⟨hexpOrdered, hexpMap⟩ :=
    btreeInsert_spec hordered (makeExpKey (add64 now ttlMs) key) []
  rw [heq]
  refine ⟨fun {pk e} hpk => ?_, hkeyOrdered, fun pk => ?_, hexpOrdered,
    hlinked.insert hordered _ _, fun k v => ?_⟩
  · by_cases hne : pk = key
    · rw [hne, Function.update_self, Option.some.injEq] at hpk
      rw [← hpk]
      exact hnew
    · rw [Function.update_of_ne hne] at hpk
      exact h.bounded hpk
  · rw [hmap, find_insert]
    by_cases hne : pk = key
    · rw [if_pos hne, hne, Function.update_self]
      rfl
    · rw [if_neg hne, Function.update_of_ne hne]
      exact h.key pk
  · rw [hexpMap, find_insert]
    by_cases hself : k = makeExpKey (add64 now ttlMs) key
    · rw [if_pos hself, Option.some.injEq]
      constructor
      · rintro rfl
        exact ⟨rfl, key, _, Function.update_self _ _ _, hself⟩
      · rintro ⟨rfl, -⟩
        rfl
    · rw [if_neg hself, hexp]
      constructor
      · rintro ⟨hv, pk, e, hne, hpk, hk⟩
        exact ⟨hv, pk, e, by rw [Function.update_of_ne hne, hpk], hk⟩
      · rintro ⟨hv, pk, e, hpk, hk⟩
        by_cases hne : pk = key
        · rw [hne, Function.update_self, Option.some.injEq] at hpk
          rw [← hpk, hne] at hk
          exact absurd hk hself
        · rw [Function.update_of_ne hne] at hpk
          exact ⟨hv, pk, e, hne, hpk, hk⟩

end Holds

/-! ## What calls do to the trees -/

/-- A time is set or removed. -/
inductive Ttl.Move (t : Ttl) : Ttl → Prop
  /-- `fastkv_ttl_set`. -/
  | set (now : ℕ) (key : Bytes) (ttlMs : ℕ) : Move t (ttlSet t now key ttlMs)
  /-- `fastkv_ttl_remove`. -/
  | remove (key : Bytes) : Move t (ttlRemove t key)

/-- Any number of times are set or removed. -/
abbrev Ttl.Moves : Ttl → Ttl → Prop := Relation.ReflTransGen Ttl.Move

/-- Moves keep the trees in step. -/
theorem Ttl.Moves.holds {t t' : Ttl} (h : t.Moves t') (ht : ∃ times, t.Holds times) :
    ∃ times, t'.Holds times := by
  induction h with
  | refl => exact ht
  | tail _ hlast ih =>
    obtain ⟨times, htimes⟩ := ih
    cases hlast with
    | set now key ttlMs => exact ⟨_, htimes.set now key ttlMs⟩
    | remove key => exact ⟨_, htimes.remove key⟩

/-- A write set drops the times of the keys it deletes. -/
theorem foldl_ttlUpkeep_moves (es : List WriteEntry) :
    ∀ t : Ttl, t.Moves (es.foldl ttlUpkeep t) := by
  induction es with
  | nil => exact fun _ => .refl
  | cons e es ih =>
    intro t
    have hfirst : t.Moves (ttlUpkeep t e) := by
      unfold ttlUpkeep
      split
      · exact .refl
      · exact .single (.remove e.key)
    exact hfirst.trans (ih _)

/-- A commit drops the times of the keys it deletes, at whatever entry it stops. -/
theorem txnCommit_ttl (w : World) (txn : Txn) :
    w.db.ttl.Moves (txnCommit w txn).2.1.db.ttl := by
  rcases txnCommit_cases w txn with ⟨-, mgr, -, heq⟩ | ⟨-, -, -, mgr, -, heq⟩
  · rw [heq]
    exact .refl
  · obtain ⟨k, wal, hdb, -⟩ := dbApplyWriteSet_cases w.db.clock txn.writes w.drawn
    rw [heq]
    show w.db.ttl.Moves (dbApplyWriteSet w.db.clock txn.writes w.drawn).2.db.ttl
    rw [hdb]
    show w.db.ttl.Moves (applyEntries w.db.clock (txn.writes.take k) w.drawn.db).ttl
    rw [applyEntries_ttl_eq]
    exact foldl_ttlUpkeep_moves _ _

/-- A single write is a commit. -/
theorem singleWrite_ttl (w : World) (write : Txn → Err × Txn) :
    w.db.ttl.Moves (singleWrite w write).2.db.ttl := by
  unfold singleWrite
  split
  · exact .refl
  · rename_i txn db hbegin
    obtain ⟨-, -, -, -, -, hsame, -, -⟩ := txnBegin_spec hbegin
    simp only
    split
    · have hcommit := txnCommit_ttl { w with db } (write txn).2
      rwa [show ({ w with db } : World).db.ttl = w.db.ttl from hsame] at hcommit
    · rw [(World.abort_db { w with db } (write txn).2).2.1]
      show w.db.ttl.Moves db.ttl
      rw [hsame]

/-- Expiry deletes keys one at a time. -/
theorem ttlExpire_ttl (w : World) (now : ℕ) : w.db.ttl.Moves (ttlExpire w now).db.ttl := by
  apply ttlExpire_induction (P := fun _ w' => w.db.ttl.Moves w'.db.ttl)
  · exact fun pk keys w' h => h
  · exact fun pk keys w' h _ => h.trans (singleWrite_ttl w' _)
  · exact .refl

/-- A checkpoint runs the expiry. -/
theorem fastkvCheckpoint_ttl (w : World) (snapId segId : Uuid) (now : ℕ) :
    w.db.ttl.Moves (fastkvCheckpoint w snapId segId now).2.db.ttl := by
  rcases fastkvCheckpoint_cases w snapId segId now with ⟨wal, heq⟩ | ⟨-, wal, disk, heq⟩
  · rw [heq]
  · rw [heq]
    exact ttlExpire_ttl ⟨{ w.db with wal := some wal }, disk⟩ now

/-- A call on a transaction. -/
theorem callStep_ttl (s : Sys) (c : Call) :
    s.world.db.ttl.Moves (callStep s c).2.world.db.ttl := by
  rcases callStep_cases s c with ⟨hworld, -⟩ | ⟨readOnly, txn, db, -, hbegin, hworld, -⟩ |
    ⟨i, txn, -, -, heq⟩ | ⟨i, txn, -, -, hworld, -⟩
  · rw [hworld]
  · obtain ⟨-, -, -, -, -, hsame, -, -⟩ := txnBegin_spec hbegin
    rw [hworld, ← hsame]
  · rw [heq]
    exact txnCommit_ttl s.world txn
  · rw [hworld, (s.world.abort_db txn).2.1]

/-- Every request. -/
theorem serve_ttl (s : Session) (r : Request) :
    s.world.db.ttl.Moves (s.after r).world.db.ttl := by
  cases r with
  | action a =>
    cases a with
    | gc => exact .refl
    | checkpoint snapId segId now => exact fastkvCheckpoint_ttl s.world snapId segId now
    | call c => exact callStep_ttl s.sys c
  | put key value => exact singleWrite_ttl s.world _
  | delete key => exact singleWrite_ttl s.world _
  | putTtl now key value ttlMs =>
    have hput : s.world.db.ttl.Moves (fastkvPut s.world key value).2.db.ttl :=
      singleWrite_ttl s.world _
    simp only [Session.after, serve, fastkvPutTtl]
    split
    · exact hput.tail (.set now key ttlMs)
    · exact hput
  | expire now => exact ttlExpire_ttl s.world now
  | indexCreate name fn => exact .refl
  | indexDrop name =>
    simp only [Session.after, serve, fastkvIndexDrop]
    split <;> exact .refl

/-! ## Any sequence of calls -/

/-- A request, or a direct call on the expiry trees. -/
inductive TtlCall
  /-- `fastkv_ttl_set` at the wall-clock time `now`. -/
  | set (now : ℕ) (key : Bytes) (ttlMs : ℕ)
  /-- `fastkv_ttl_remove`. -/
  | remove (key : Bytes)
  /-- Any request, deleting commits and `fastkv_ttl_expire` among them. -/
  | request (r : Request)

/-- Replace the expiry trees. -/
def Session.withTtl (s : Session) (ttl : Ttl) : Session :=
  { s with world := { s.world with db := { s.world.db with ttl } } }

/-- Execute a call. -/
def TtlCall.run (s : Session) : TtlCall → Session
  | .set now key ttlMs => s.withTtl (ttlSet s.world.db.ttl now key ttlMs)
  | .remove key => s.withTtl (ttlRemove s.world.db.ttl key)
  | .request r => s.after r

/-- Every call sets and removes times. -/
theorem TtlCall.run_moves (s : Session) (c : TtlCall) :
    s.world.db.ttl.Moves (c.run s).world.db.ttl := by
  cases c with
  | set now key ttlMs => exact .single (.set now key ttlMs)
  | remove key => exact .single (.remove key)
  | request r => exact serve_ttl s r

/-- After any calls on an opened database the trees hold some map of expiry times. -/
theorem exec_ttl_holds {opts : Opts} {fresh : Uuid} {disk : Disk} {w : World}
    (hopen : fastkvOpen opts fresh disk = .ok w) (cs : List TtlCall) :
    ∃ times, (exec TtlCall.run (.start w) cs).world.db.ttl.Holds times := by
  have hstart : ∃ times, (Session.start w).world.db.ttl.Holds times := by
    obtain ⟨s, snapTs, walMaxTs, wal, rc, -, hdb, -⟩ := fastkvOpen_cases hopen
    refine ⟨fun _ => none, ?_⟩
    show w.db.ttl.Holds _
    rw [hdb]
    exact ttlInit_holds
  generalize Session.start w = s at hstart ⊢
  induction cs generalizing s with
  | nil => exact hstart
  | cons c cs ih => exact ih _ ((c.run_moves s).holds hstart)

/-- The two trees mirror each other. -/
structure Ttl.Mirrored (t : Ttl) : Prop where
  /-- The tree of keys has a time if and only if the tree of times has it in front of the key. -/
  mirror : ∀ (pk : Bytes) (e : ℕ), e < 2 ^ 64 →
    (btreeGet t.key pk = .ok (u64ToBe e) ↔ ∃ v, btreeGet t.exp (u64ToBe e ++ pk) = .ok v)
  /-- No key is pending twice. -/
  once : ∀ (pk : Bytes) (e e' : ℕ), e < 2 ^ 64 → e' < 2 ^ 64 →
    (∃ v, btreeGet t.exp (u64ToBe e ++ pk) = .ok v) →
    (∃ v, btreeGet t.exp (u64ToBe e' ++ pk) = .ok v) → e = e'
  /-- Every entry of the tree of keys has its partner. -/
  keyPaired : ∀ entry ∈ t.key.toMap, ∃ e < 2 ^ 64, entry.2 = u64ToBe e ∧
    ∃ v, btreeGet t.exp (u64ToBe e ++ entry.1) = .ok v
  /-- Every entry of the tree of times has its partner. -/
  expPaired : ∀ entry ∈ t.exp.toMap, ∃ pk, ∃ e < 2 ^ 64, entry.1 = u64ToBe e ++ pk ∧
    btreeGet t.key pk = .ok (u64ToBe e)

/-- Trees that hold a map mirror each other. -/
theorem Ttl.Holds.mirrored {t : Ttl} {times : Bytes → Option ℕ} (h : t.Holds times) :
    t.Mirrored := by
  have hkey : ∀ pk v, btreeGet t.key pk = .ok v ↔ ∃ e, times pk = some e ∧ u64ToBe e = v := by
    intro pk v
    rw [h.get_key, lookupResult_eq_ok, Option.map_eq_some_iff]
  have hexp : ∀ pk e, e < 2 ^ 64 →
      ((∃ v, btreeGet t.exp (u64ToBe e ++ pk) = .ok v) ↔ times pk = some e) := by
    intro pk e he
    have hget := h.get_exp he pk
    unfold makeExpKey at hget
    rw [hget]
    by_cases hpk : times pk = some e <;> simp [hpk]
  refine ⟨fun pk e he => ?_, fun pk e e' he he' hv hv' => ?_, fun entry hentry => ?_,
    fun entry hentry => ?_⟩
  · rw [hkey, hexp pk e he]
    constructor
    · rintro ⟨e', hpk, heq⟩
      rw [hpk, u64ToBe_inj (h.bounded hpk) he heq]
    · exact fun hpk => ⟨e, hpk, rfl⟩
  · have hpk := (hexp pk e he).mp hv
    have hpk' := (hexp pk e' he').mp hv'
    rw [hpk, Option.some.injEq] at hpk'
    exact hpk'
  · have hfind : Lib.find t.key.toMap entry.1 = some entry.2 :=
      (h.keyOrdered.sorted.mem_iff_find entry.1 entry.2).mp hentry
    rw [h.key, Option.map_eq_some_iff] at hfind
    obtain ⟨e, hpk, heq⟩ := hfind
    exact ⟨e, h.bounded hpk, heq.symm, (hexp entry.1 e (h.bounded hpk)).mpr hpk⟩
  · obtain ⟨-, pk, e, hpk, hk⟩ := (h.mem_exp entry).mp hentry
    exact ⟨pk, e, h.bounded hpk, hk, (hkey pk _).mpr ⟨e, hpk, rfl⟩⟩

/-- After any calls on an opened database, at any readings of the clock, the two trees mirror
each other. -/
theorem ttl_mirrored {opts : Opts} {fresh : Uuid} {disk : Disk} {w : World}
    (hopen : fastkvOpen opts fresh disk = .ok w) (cs : List TtlCall) :
    (exec TtlCall.run (.start w) cs).world.db.ttl.Mirrored := by
  obtain ⟨times, htimes⟩ := exec_ttl_holds hopen cs
  exact htimes.mirrored

/-- A key is set twice, and another one is deleted. -/
def renewed : List TtlCall :=
  [.set 0 [1] 5, .set 3 [1] 700, .set 0 [2] 9, .request (.delete [2])]

/-- Only the second time of the first key is left. -/
theorem ttl_mirrored_renewed :
    (exec TtlCall.run (.start newWorld) renewed).world.db.ttl.Mirrored ∧
      (exec TtlCall.run (.start newWorld) renewed).world.db.ttl.exp.toMap =
        [([0, 0, 0, 0, 0, 0, 2, 191, 1], [])] := by
  constructor
  · exact ttl_mirrored newWorld_opened renewed
  · decide +kernel

end FastKV
