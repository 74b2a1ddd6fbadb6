import FastKV.BTree

/-!
# Secondary indexes and key expiry

`index/secondary.c` and the tree operations of `persist/ttl.c`. A secondary index maps the
key that a user function extracts from an entry to the primary key; expiry times are kept in
two trees, one ordered by time and one by key. Allocations succeed here.
-/

namespace FastKV

/-- `fastkv_index_t`; the list order stands for the `next` pointers. -/
structure Index where
  /-- The name of the index. -/
  name : List Char
  /-- The user function: the index key of an entry, or nothing to leave it out. -/
  fn : Bytes → Bytes → Option Bytes
  /-- The tree of composite keys. -/
  btree : BTree

/-- `make_composite`. -/
def makeComposite (ik pk : Bytes) : Bytes := ik ++ 0 :: pk

/-- `remove_index_entry`. -/
def removeIndexEntry (idx : Index) (pk val : Bytes) : Index :=
  match idx.fn pk val with
  | some ik => { idx with btree := (btreeDelete idx.btree (makeComposite ik pk)).2 }
  | none => idx

/-- `add_index_entry`. -/
def addIndexEntry (idx : Index) (pk val : Bytes) : Index :=
  match idx.fn pk val with
  | some ik => { idx with btree := btreeInsert idx.btree (makeComposite ik pk) pk }
  | none => idx

/-- `secondary_on_put`; `old` is the value before the put, if there was one. -/
def secondaryOnPut (indexes : List Index) (pk : Bytes) (old : Option Bytes) (new : Bytes) :
    List Index :=
  indexes.map fun idx =>
    let idx := match old with
      | some oldVal => removeIndexEntry idx pk oldVal
      | none => idx
    addIndexEntry idx pk new

/-- `secondary_on_delete`. -/
def secondaryOnDelete (indexes : List Index) (pk oldVal : Bytes) : List Index :=
  indexes.map fun idx => removeIndexEntry idx pk oldVal

/-- The `width` low-order bytes of `v`, most significant first. -/
def beBytes : ℕ → ℕ → Bytes
  | 0, _ => []
  | width + 1, v => beBytes width (v / 256) ++ [UInt8.ofNat v]

/-- `u64_to_be`. -/
def u64ToBe (v : ℕ) : Bytes := beBytes 8 v

/-- `be_to_u64`, which reads eight bytes. -/
def beToU64 (buf : Bytes) : ℕ := (buf.take 8).foldl (fun v b => v * 256 + b.toNat) 0

/-- `make_exp_key`. -/
def makeExpKey (expiryMs : ℕ) (pk : Bytes) : Bytes := u64ToBe expiryMs ++ pk

/-- The two expiry trees. -/
structure Ttl where
  /-- `ttl_exp`: expiry time and key. -/
  exp : BTree
  /-- `ttl_key`: key to expiry time. -/
  key : BTree

/-- `fastkv_ttl_init`. -/
def ttlInit : Ttl := ⟨btreeCreate, btreeCreate⟩

/-- The stored expiry of a key, if there is one of eight bytes. -/
def Ttl.expiry (t : Ttl) (key : Bytes) : Option ℕ :=
  match btreeGet t.key key with
  | .ok exp => if exp.length = 8 then some (beToU64 exp) else none
  | .error _ => none

/-- `fastkv_ttl_set` at the wall-clock time `now`. -/
def ttlSet (t : Ttl) (now : ℕ) (key : Bytes) (ttlMs : ℕ) : Ttl :=
  let expiry := add64 now ttlMs
  let exp := match t.expiry key with
    | some oldExpiry => (btreeDelete t.exp (makeExpKey oldExpiry key)).2
    | none => t.exp
  ⟨btreeInsert exp (makeExpKey expiry key) [], btreeInsert t.key key (u64ToBe expiry)⟩

/-- `fastkv_ttl_remove`. -/
def ttlRemove (t : Ttl) (key : Bytes) : Ttl :=
  match t.expiry key with
  | some oldExpiry =>
    ⟨(btreeDelete t.exp (makeExpKey oldExpiry key)).2, (btreeDelete t.key key).2⟩
  | none => t

/-- The number of keys that one expiry pass collects at most. -/
def expireBatch : ℕ := 256

/-- `collect_expired`, the callback of the scan over `ttl_exp`. -/
def collectExpired (now : ℕ) (keys : List Bytes) (expKey _val : Bytes) : Err × List Bytes :=
  if expKey.length < 8 then (.ok, keys)
  else if now < beToU64 expKey then (.cursorEof, keys)
  else if keys.length < expireBatch ∧ expKey.length - 8 ≤ maxKeyLen then
    (.ok, keys ++ [expKey.drop 8])
  else (.ok, keys)

/-- The keys that the first half of `fastkv_ttl_expire` collects. -/
def expiredKeys (t : Ttl) (now : ℕ) : List Bytes :=
  (btreeScan t.exp none none .forward (collectExpired now) []).2

end FastKV
