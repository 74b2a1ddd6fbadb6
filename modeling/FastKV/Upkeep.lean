import FastKV.Requests
import FastKV.VersionMap
import FastKV.WriteSet

/-!
# What a commit keeps up beside the stores

For every write a commit also adjusts the key counter and the secondary indexes, and a deletion
drops the expiry time of its key. Counter and indexes go by the value that the key had just
before the timestamp of the commit. All writes of one transaction share that timestamp, so the
value they go by is the one before the commit, whatever the transaction wrote to the key
earlier.
-/

namespace FastKV

open Lib

/-! ## The writes on one key -/

/-- The values that are written to a key, in the order in which they are applied. -/
def writesOn (key : Bytes) (es : List WriteEntry) : List Slice :=
  (es.filter fun e => decide (e.key = key)).map WriteEntry.value

/-- The writes of two parts. -/
theorem writesOn_append (key : Bytes) (es es' : List WriteEntry) :
    writesOn key (es ++ es') = writesOn key es ++ writesOn key es' := by
  simp [writesOn]

/-- An entry of the key comes first. -/
theorem writesOn_cons_self (e : WriteEntry) (es : List WriteEntry) :
    writesOn e.key (e :: es) = e.value :: writesOn e.key es := by
  simp [writesOn]

/-- Entries of other keys do not count. -/
theorem writesOn_cons_of_ne {key : Bytes} {e : WriteEntry} (h : e.key ≠ key)
    (es : List WriteEntry) : writesOn key (e :: es) = writesOn key es := by
  simp [writesOn, h]

/-- A single write has none before it. -/
theorem writesOn_singleton {key : Bytes} {e : WriteEntry} {before : List Slice} {last : Slice}
    (h : writesOn key [e] = before ++ [last]) : before = [] := by
  have hlength : (writesOn key [e]).length ≤ 1 := by
    unfold writesOn
    rw [List.length_map]
    exact List.length_filter_le _ _
  rw [h, List.length_append, List.length_singleton] at hlength
  exact List.length_eq_zero_iff.mp (by omega)

/-- A value written to a key. -/
theorem mem_writesOn {key : Bytes} {es : List WriteEntry} {value : Slice} :
    value ∈ writesOn key es ↔ ⟨key, value⟩ ∈ es := by
  simp only [writesOn, List.mem_map, List.mem_filter, decide_eq_true_eq]
  constructor
  · rintro ⟨e, ⟨he, rfl⟩, rfl⟩
    exact he
  · intro he
    exact ⟨_, ⟨he, rfl⟩, rfl⟩

/-- The write that is applied last is the first one from the end. -/
theorem firstOn_reverse (key : Bytes) (es : List WriteEntry) :
    firstOn key es.reverse = (writesOn key es).getLast? := by
  rw [firstOn, writesOn, ← List.head?_filter, List.filter_reverse, List.head?_reverse,
    List.getLast?_map]

/-- The map after some writes: the one that is applied last counts. -/
theorem live_applyEntries (commitTs : ℕ) (es : List WriteEntry) (db : Db) (key : Bytes) :
    (applyEntries commitTs es db).ht.live key = match (writesOn key es).getLast? with
      | some value => sliceDup value
      | none => db.ht.live key := by
  have hlive := live_insertEntries commitTs es key db.ht
  rw [firstOn_reverse] at hlive
  rw [applyEntries_ht]
  exact hlive

/-- A key that is not written keeps its value. -/
theorem live_applyEntries_of_nil {commitTs : ℕ} {es : List WriteEntry} {db : Db} {key : Bytes}
    (h : writesOn key es = []) : (applyEntries commitTs es db).ht.live key = db.ht.live key := by
  rw [live_applyEntries, h]
  rfl

/-- A key that is written gets the value that is applied last. -/
theorem live_applyEntries_of_append {commitTs : ℕ} {es : List WriteEntry} {db : Db} {key : Bytes}
    {before : List Slice} {last : Slice} (h : writesOn key es = before ++ [last])
    (hne : last ≠ some []) : (applyEntries commitTs es db).ht.live key = last := by
  rw [live_applyEntries, h, List.getLast?_concat]
  cases last with
  | none => rfl
  | some value => exact sliceDup_of_ne fun hnil => hne (by rw [hnil])

/-! ## The value before the commit -/

/-- Before a commit, the read just below the clock finds the value in the map. -/
theorem Db.Sound.htGet_before {db : Db} (h : db.Sound) (hroom : db.clock + 1 < tsMax)
    (key : Bytes) : htGet db.ht (sub64 db.clock 1) key = readResult (db.ht.live key) := by
  have hpos := h.clock_pos
  have hsub : sub64 db.clock 1 = db.clock - 1 := sub64_eq hpos (by unfold tsMax at hroom; omega)
  exact h.bounded.htGet_eq_of_le_succ (by omega) (by omega) key

/-- The read does not change while the writes are applied. -/
theorem htGet_applyEntry {db : Db} {commitTs : ℕ} (hpos : 0 < commitTs) (hts : commitTs < tsMax)
    (e : WriteEntry) (key : Bytes) :
    htGet (applyEntry db e commitTs).ht (sub64 commitTs 1) key =
      htGet db.ht (sub64 commitTs 1) key := by
  have hsub : sub64 commitTs 1 = commitTs - 1 := sub64_eq hpos (by unfold tsMax at hts; omega)
  rw [applyEntry_ht, htGet_eq_visible, htGet_eq_visible,
    visible_insert_later db.ht (by omega) (by omega)]

/-- What a write does to an index if its key had the given value before. -/
def Index.upkeep (old : Slice) (idx : Index) (e : WriteEntry) : Index :=
  let idx := match old with
    | some oldVal => removeIndexEntry idx e.key oldVal
    | none => idx
  match e.value with
  | some value => addIndexEntry idx e.key value
  | none => idx

/-- What a write does to the key counter if its key had the given value before. -/
def countUpkeep (old : Slice) (n : ℕ) (e : WriteEntry) : ℕ :=
  match e.value with
  | some _ => if old.isSome then n else add64 n 1
  | none => if old.isSome then sub64 n 1 else n

/-- A deletion drops the expiry time. -/
def ttlUpkeep (t : Ttl) (e : WriteEntry) : Ttl :=
  match e.value with
  | some _ => t
  | none => ttlRemove t e.key

/-- A write whose read of the old value finds `old`. -/
theorem applyEntry_upkeep {db : Db} {e : WriteEntry} {commitTs : ℕ} {old : Slice}
    (h : htGet db.ht (sub64 commitTs 1) e.key = readResult old) :
    (applyEntry db e commitTs).indexes = db.indexes.map (fun idx => idx.upkeep old e) ∧
      (applyEntry db e commitTs).statNumKeys = countUpkeep old db.statNumKeys e := by
  have hold : (htGet db.ht (sub64 commitTs 1) e.key).toOption = old := by
    rw [h]
    cases old <;> rfl
  unfold applyEntry countUpkeep
  rw [hold]
  cases hv : e.value with
  | some value =>
    refine ⟨List.map_congr_left fun idx _ => ?_, rfl⟩
    simp only [Index.upkeep, hv]
    cases old <;> rfl
  | none =>
    refine ⟨?_, rfl⟩
    cases old with
    | some oldVal =>
      refine List.map_congr_left fun idx _ => ?_
      simp only [Index.upkeep, hv]
    | none =>
      have hid : (fun idx : Index => idx.upkeep none e) = id := by
        funext idx
        simp only [Index.upkeep, hv, id_eq]
      simp only [hid, List.map_id]

/-- The upkeep of a whole write set goes by the values `m` before the commit. -/
theorem applyEntries_upkeep {commitTs : ℕ} (hpos : 0 < commitTs) (hts : commitTs < tsMax)
    {m : Bytes → Slice} (es : List WriteEntry) : ∀ {db : Db},
    (∀ key, htGet db.ht (sub64 commitTs 1) key = readResult (m key)) →
    (applyEntries commitTs es db).indexes =
        db.indexes.map (fun idx => es.foldl (fun idx e => idx.upkeep (m e.key) e) idx) ∧
      (applyEntries commitTs es db).statNumKeys =
        es.foldl (fun n e => countUpkeep (m e.key) n e) db.statNumKeys := by
  induction es with
  | nil => exact fun _ => ⟨(List.map_id _).symm, rfl⟩
  | cons e es ih =>
    intro db hread
    obtain ⟨hidx, hcount⟩ := applyEntry_upkeep (hread e.key)
    obtain ⟨hidx', hcount'⟩ := @ih (applyEntry db e commitTs) fun key =>
      (htGet_applyEntry hpos hts e key).trans (hread key)
    rw [hidx, List.map_map] at hidx'
    rw [hcount] at hcount'
    exact ⟨hidx', hcount'⟩

/-- The expiry times after a write set. -/
theorem applyEntries_ttl_eq (commitTs : ℕ) (es : List WriteEntry) : ∀ db : Db,
    (applyEntries commitTs es db).ttl = es.foldl ttlUpkeep db.ttl := by
  induction es with
  | nil => exact fun _ => rfl
  | cons e es ih =>
    intro db
    have hfirst : (applyEntry db e commitTs).ttl = ttlUpkeep db.ttl e := by
      unfold applyEntry ttlUpkeep
      cases e.value <;> rfl
    rw [List.foldl_cons, ← hfirst]
    exact ih (applyEntry db e commitTs)

/-- The value of a key that a transaction finds which begins now. -/
def Db.newest (db : Db) (key : Bytes) : Slice := (htGet db.ht db.clock key).toOption

/-- It is the value in the map. -/
theorem Db.newest_of_bounded {db : Db} (h : db.ht.Bounded db.clock) (hclock : db.clock < tsMax) :
    db.newest = db.ht.live := by
  funext key
  rw [Db.newest, h.htGet_eq (Nat.le_refl _) hclock]
  cases db.ht.live key <;> rfl

/-- It is so in a sound database. -/
theorem Db.Sound.newest_eq {db : Db} (h : db.Sound) (hclock : db.clock < tsMax) :
    db.newest = db.ht.live := Db.newest_of_bounded h.bounded hclock

/-- Nothing can be read in a new database. -/
theorem newWorld_newest (key : Bytes) : newWorld.db.newest key = none := by
  rw [(fastkvOpen_sound (intact_empty oneBucket) newWorld_opened).newest_eq (by decide),
    show newWorld.db.ht = (htCreate 1 ⟨0, by decide, rfl⟩) from rfl, Ht.live, versions_htCreate]
  rfl

end FastKV
