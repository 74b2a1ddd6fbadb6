import Mathlib.Data.Finset.Card
import FastKV.Upkeep

/-!
# The key counter

`stat_num_keys` is meant to be the number of keys that can be read. Opening a database starts it
at zero whatever recovery has found. After that a put adds one if its key could not be read
before the commit, and a deletion takes one away if it could; so the counter stays right as long
as each write of a transaction finds its key as the commit found it.
-/

namespace FastKV

open Lib

/-- The keys that a transaction can read which begins now. -/
def Db.visibleKeys (db : Db) : Finset Bytes :=
  (db.ht.buckets.flatten.map Version.key).toFinset.filter fun key => (db.newest key).isSome

/-- The keys that have a value in the map. -/
def Ht.liveKeys (ht : Ht) : Finset Bytes :=
  (ht.buckets.flatten.map Version.key).toFinset.filter fun key => (ht.live key).isSome

/-- They are all in the table. -/
theorem Ht.mem_liveKeys {ht : Ht} {key : Bytes} : key ∈ ht.liveKeys ↔ (ht.live key).isSome := by
  rw [Ht.liveKeys, Finset.mem_filter, and_iff_right_iff_imp]
  intro hlive
  obtain ⟨value, hvalue⟩ := Option.isSome_iff_exists.mp hlive
  obtain ⟨v, hfind, -⟩ := Option.bind_eq_some_iff.mp hvalue
  have hmem := List.mem_of_find?_eq_some hfind
  have hkey := Ht.key_of_mem_versions hmem
  obtain ⟨chain, hchain, hv⟩ := Ht.exists_bucket_of_mem_versions hmem
  rw [List.mem_toFinset]
  exact List.mem_map.mpr ⟨v, List.mem_flatten.mpr ⟨chain, List.mem_of_getElem? hchain, hv⟩, hkey⟩

/-- Both are the same in a sound database. -/
theorem Db.Sound.visibleKeys_eq {db : Db} (h : db.Sound) (hclock : db.clock < tsMax) :
    db.visibleKeys = db.ht.liveKeys := by
  rw [Db.visibleKeys, h.newest_eq hclock]
  rfl

/-! ## One write -/

/-- The counter agrees with the number of keys, as far as 64 bits can. -/
def Db.Counted (db : Db) : Prop := db.statNumKeys = db.ht.liveKeys.card % 2 ^ 64

/-- The keys after a version has been inserted. -/
theorem mem_liveKeys_insert {ht : Ht} {commitTs : ℕ} {key key' : Bytes} {value : Slice}
    (hne : value ≠ some []) : key' ∈ (htInsertVersion ht commitTs key value).liveKeys ↔
      if key' = key then value.isSome = true else key' ∈ ht.liveKeys := by
  have hdup : sliceDup value = value := by
    cases value with
    | none => rfl
    | some v => exact sliceDup_of_ne fun hnil => hne (by rw [hnil])
  rw [Ht.mem_liveKeys, live_htInsertVersion, hdup]
  split
  · rfl
  · exact Ht.mem_liveKeys.symm

/-- A write whose key is as readable as before the commit keeps the counter right. -/
theorem countUpkeep_eq {ht : Ht} {old : Slice} {n commitTs : ℕ} {e : WriteEntry}
    (hn : n = ht.liveKeys.card % 2 ^ 64) (hne : e.value ≠ some [])
    (hsame : (ht.live e.key).isSome = old.isSome) :
    countUpkeep old n e =
      (htInsertVersion ht commitTs e.key e.value).liveKeys.card % 2 ^ 64 := by
  have hmem : ∀ key', key' ∈ (htInsertVersion ht commitTs e.key e.value).liveKeys ↔
      if key' = e.key then e.value.isSome = true else key' ∈ ht.liveKeys :=
    fun _ => mem_liveKeys_insert hne
  have hkey : e.key ∈ ht.liveKeys ↔ old.isSome := by rw [Ht.mem_liveKeys, hsame]
  cases hv : e.value with
  | some value =>
    have hinsert : (htInsertVersion ht commitTs e.key (some value)).liveKeys =
        insert e.key ht.liveKeys := by
      ext key'
      rw [← hv, hmem key', hv, Finset.mem_insert]
      by_cases h : key' = e.key <;> simp [h]
    rw [hinsert]
    simp only [countUpkeep, hv]
    cases hold : old.isSome with
    | true => rw [if_pos rfl, Finset.insert_eq_of_mem (hkey.mpr hold), hn]
    | false =>
      rw [if_neg (by simp), Finset.card_insert_of_notMem (by rw [hkey, hold]; simp), hn, add64]
      omega
  | none =>
    have herase : (htInsertVersion ht commitTs e.key none).liveKeys = ht.liveKeys.erase e.key := by
      ext key'
      rw [← hv, hmem key', hv, Finset.mem_erase]
      by_cases h : key' = e.key <;> simp [h]
    rw [herase]
    simp only [countUpkeep, hv]
    cases hold : old.isSome with
    | true =>
      have hpos : 0 < ht.liveKeys.card := Finset.card_pos.mpr ⟨_, hkey.mpr hold⟩
      rw [if_pos rfl, Finset.card_erase_of_mem (hkey.mpr hold), hn, sub64]
      omega
    | false => rw [if_neg (by simp), Finset.erase_eq_of_notMem (by rw [hkey, hold]; simp), hn]

/-! ## Whole write sets -/

/-- On every key, the writes before the one applied last leave it as readable as it was before
the commit: deletions if it could not be read, puts if it could. -/
def SteadySet (m : Bytes → Slice) (es : List WriteEntry) : Prop :=
  ∀ key before last, writesOn key es = before ++ [last] →
    ∀ value ∈ before, value.isSome = (m key).isSome

/-- The first writes of a steady set are steady. -/
theorem SteadySet.of_prefix {m : Bytes → Slice} {es es' : List WriteEntry} (h : SteadySet m es')
    (hes : es <+: es') : SteadySet m es := by
  obtain ⟨rest, rfl⟩ := hes
  intro key before last hwrites value hvalue
  rcases List.eq_nil_or_concat (writesOn key rest) with hnil | ⟨init, last', hrest⟩
  · refine h key before last ?_ value hvalue
    rw [writesOn_append, hwrites, hnil, List.append_nil]
  · refine h key (before ++ last :: init) last' ?_ value (List.mem_append_left _ hvalue)
    rw [writesOn_append, hwrites, hrest, List.concat_eq_append]
    simp

/-- After the first write, the rest of a steady set is steady, and what it still writes is as
readable as before the commit. -/
theorem SteadySet.tail {m : Bytes → Slice} {e : WriteEntry} {es : List WriteEntry}
    (h : SteadySet m (e :: es)) : SteadySet m es ∧
      (writesOn e.key es ≠ [] → e.value.isSome = (m e.key).isSome) := by
  constructor
  · intro key before last hwrites value hvalue
    by_cases hkey : e.key = key
    · subst hkey
      refine h e.key (e.value :: before) last ?_ value (List.mem_cons_of_mem _ hvalue)
      rw [writesOn_cons_self, hwrites, List.cons_append]
    · refine h key before last ?_ value hvalue
      rw [writesOn_cons_of_ne hkey, hwrites]
  · intro hne
    obtain ⟨before, last, hwrites⟩ := (List.eq_nil_or_concat _).resolve_left hne
    refine h e.key (e.value :: before) last ?_ e.value List.mem_cons_self
    rw [writesOn_cons_self, hwrites, List.concat_eq_append, List.cons_append]

/-- A steady write set keeps the counter right. -/
theorem foldl_countUpkeep_eq {m : Bytes → Slice} (commitTs : ℕ) (es : List WriteEntry) :
    ∀ {ht : Ht} {n : ℕ}, n = ht.liveKeys.card % 2 ^ 64 → (∀ e ∈ es, e.value ≠ some []) →
      SteadySet m es → (∀ key, writesOn key es ≠ [] → (ht.live key).isSome = (m key).isSome) →
      es.foldl (fun n e => countUpkeep (m e.key) n e) n =
        (insertEntries commitTs es ht).liveKeys.card % 2 ^ 64 := by
  induction es with
  | nil => exact fun hn _ _ _ => hn
  | cons e es ih =>
    intro ht n hn hne hsteady hsame
    obtain ⟨hrest, hfirst⟩ := hsteady.tail
    have hhead := hsame e.key (by rw [writesOn_cons_self]; simp)
    have hnext : countUpkeep (m e.key) n e =
        (htInsertVersion ht commitTs e.key e.value).liveKeys.card % 2 ^ 64 :=
      countUpkeep_eq hn (hne e List.mem_cons_self) hhead
    refine ih hnext (fun e' he' => hne e' (List.mem_cons_of_mem _ he')) hrest fun key hkey => ?_
    rw [live_htInsertVersion]
    split
    · rename_i heq
      rw [heq] at hkey ⊢
      rw [← hfirst hkey]
      cases hv : e.value with
      | none => rfl
      | some v =>
        have hv' := hne e List.mem_cons_self
        rw [hv] at hv'
        rw [sliceDup_of_ne fun hnil => hv' (by rw [hnil])]
    · rename_i hother
      exact hsame key (by rwa [writesOn_cons_of_ne fun h => hother h.symm])

/-! ## Sessions -/

/-- The request puts no empty values. -/
structure CountUse (s : Session) (r : Request) : Prop where
  /-- In a commit. -/
  commit : ∀ i txn, r = .action (.call (.commit i)) → s.txn i = some txn →
    ∀ e ∈ txn.writes, e.value ≠ some []
  /-- In a single operation. -/
  single : ∀ e, r.entry = some e → e.value ≠ some []

/-- A commit, if the request is one, applies a steady write set. -/
def SteadyCommit (s : Session) (r : Request) : Prop :=
  ∀ i txn, r = .action (.call (.commit i)) → s.txn i = some txn → Applies s.world txn →
    SteadySet s.world.db.newest txn.writes

/-- The condition on changes that such requests meet. -/
def SteadyChange (db : Db) : Change → Prop
  | .write es => (∀ e ∈ es, e.value ≠ some []) ∧ SteadySet db.ht.live es
  | .expiry _ => True
  | .index _ => True

/-- A single write is steady. -/
theorem steadySet_singleton (m : Bytes → Slice) (e : WriteEntry) : SteadySet m [e] := by
  intro key before last hwrites
  rw [writesOn_singleton hwrites]
  exact fun value hvalue => by cases hvalue

/-- The requests meet the condition. -/
theorem CountUse.meets {s : Session} {r : Request} (h : CountUse s r) (hsteady : SteadyCommit s r)
    (hclock : s.clock < tsMax) (hsound : s.world.db.Sound) : r.Meets SteadyChange s := by
  refine ⟨fun i txn hr hopen happlies es _ hes _ => ?_, fun e hentry _ mgr => ?_,
    fun _ _ _ _ _ _ => trivial, fun _ _ _ => trivial⟩
  · have hset := hsteady i txn hr hopen happlies
    rw [hsound.newest_eq hclock] at hset
    exact ⟨fun e he => h.commit i txn hr hopen e (hes.subset he), hset.of_prefix hes⟩
  · refine ⟨fun e' he' => ?_, steadySet_singleton _ e⟩
    rw [List.mem_singleton.mp he']
    exact h.single e hentry

/-- Moves under the condition keep the counter right. -/
theorem Db.Move.counted {db db' : Db} (hmove : Db.Move SteadyChange db db') (hsound : db.Sound)
    (h : db.Counted) : db'.Counted := by
  cases hmove with
  | manage | expiry | indexCreate => exact h
  | indexDrop name =>
    unfold fastkvIndexDrop
    split <;> exact h
  | collect m hm =>
    have hkeys : (htGc db.ht m).2.liveKeys = db.ht.liveKeys := by
      ext key
      rw [Ht.mem_liveKeys, Ht.mem_liveKeys, live_htGc hsound.oneLive hm key]
    show db.statNumKeys = (htGc db.ht m).2.liveKeys.card % 2 ^ 64
    rw [hkeys]
    exact h
  | write es txnMgr wal hroom hclock hcond =>
    show (applyEntries db.clock es db).statNumKeys =
      (applyEntries db.clock es db).ht.liveKeys.card % 2 ^ 64
    rw [(applyEntries_upkeep hsound.clock_pos (by omega) es
      fun key => hsound.htGet_before hroom key).2, applyEntries_ht]
    exact foldl_countUpkeep_eq db.clock es h hcond.1 hcond.2 fun key _ => rfl

/-- In every session that starts without keys and whose commits apply steady write sets, the
counter is the number of keys that can be read. -/
theorem key_counter_of_steady {opts : Opts} {fresh : Uuid} {disk : Disk} {w : World}
    (hintact : Intact opts disk.files) (hopen : fastkvOpen opts fresh disk = .ok w)
    (hempty : ∀ key, w.db.newest key = none) {rs : List Request}
    (hclock : w.db.clock + drawsMax * rs.length < tsMax)
    (huse : Permitted Session.after CountUse (.start w) rs)
    (hsteady : Permitted Session.after SteadyCommit (.start w) rs)
    (hfew : (session (.start w) rs).world.db.visibleKeys.card < 2 ^ 64) :
    (session (.start w) rs).world.db.statNumKeys =
      (session (.start w) rs).world.db.visibleKeys.card := by
  have hsound := fastkvOpen_sound hintact hopen
  have hcounted : w.db.Counted := by
    obtain ⟨s, snapTs, walMaxTs, wal, rc, -, hdb, -⟩ := fastkvOpen_cases hopen
    have hnone : w.db.ht.liveKeys = ∅ := by
      refine Finset.eq_empty_of_forall_notMem fun key hkey => ?_
      rw [Ht.mem_liveKeys, ← hsound.newest_eq (by omega), hempty key] at hkey
      cases hkey
    rw [Db.Counted, hnone, hdb]
    rfl
  obtain ⟨⟨hsound', hcounted'⟩, -, hle⟩ := session_invariant
    (P := SteadyChange) (Q := fun s r => CountUse s r ∧ SteadyCommit s r)
    (I := fun db => db.Sound ∧ db.Counted)
    (fun db key _ => ⟨fun e he => by rw [List.mem_singleton.mp he]; simp,
      steadySet_singleton _ _⟩)
    (fun s r hroom _ hI hq => hq.1.meets hq.2 (by omega) hI.1)
    (fun db db' hmove hI => ⟨hI.1.move hmove, hmove.counted hI.1 hI.2⟩)
    (Session.start_txnsOk w) ⟨hsound, hcounted⟩ hclock (Permitted.and rs huse hsteady)
  have hkeys := hsound'.visibleKeys_eq (lt_of_le_of_lt hle hclock)
  rw [hkeys] at hfew ⊢
  rw [hcounted', Nat.mod_eq_of_lt hfew]

/-- A key is put, put again and deleted, and another one is put. -/
def putAndDelete : List Request :=
  [.put [1] (some [10]), .put [1] (some [20]), .delete [1], .put [2] (some [10])]

/-- One key is counted. -/
theorem key_counter_after_delete :
    (session (.start newWorld) putAndDelete).world.db.statNumKeys = 1 := by
  have huse : ∀ (s : Session) (r : Request) (e : WriteEntry), r.entry = some e →
      e.value ≠ some [] → CountUse s r ∧ SteadyCommit s r := by
    intro s r e he hvalue
    refine ⟨⟨fun i txn hr => ?_, fun e' he' => ?_⟩, fun i txn hr => ?_⟩
    · rw [hr] at he
      cases he
    · rw [he] at he'
      rwa [← Option.some.inj he']
    · rw [hr] at he
      cases he
  have hput : ∀ (s : Session) (k b : UInt8), CountUse s (.put [k] (some [b])) ∧
      SteadyCommit s (.put [k] (some [b])) := fun s k b => huse s _ _ rfl (by simp)
  have hdelete : ∀ s : Session, CountUse s (.delete [1]) ∧ SteadyCommit s (.delete [1]) :=
    fun s => huse s _ _ rfl (by simp)
  have hkeys : (session (.start newWorld) putAndDelete).world.db.visibleKeys.card = 1 := by
    decide +kernel
  have hsteady : Permitted Session.after SteadyCommit (.start newWorld) putAndDelete :=
    ⟨(hput _ 1 10).2, (hput _ 1 20).2, (hdelete _).2, (hput _ 2 10).2, trivial⟩
  have hcounts : Permitted Session.after CountUse (.start newWorld) putAndDelete :=
    ⟨(hput _ 1 10).1, (hput _ 1 20).1, (hdelete _).1, (hput _ 2 10).1, trivial⟩
  rw [key_counter_of_steady (intact_empty oneBucket) newWorld_opened newWorld_newest
    (by decide +kernel) hcounts hsteady (by rw [hkeys]; decide), hkeys]

/-- A transaction puts a key twice. -/
def countTwice : List Request :=
  [.action (.call (.begin false)), .action (.call (.put 0 [1] (some [10]))),
    .action (.call (.put 0 [1] (some [20]))), .action (.call (.commit 0))]

/-- The key is counted twice. -/
theorem key_counted_twice : ¬ ∀ (opts : Opts) (fresh : Uuid) (disk : Disk) (w : World),
    Intact opts disk.files → fastkvOpen opts fresh disk = .ok w → ∀ rs : List Request,
    w.db.clock + drawsMax * rs.length < tsMax → Permitted Session.after CountUse (.start w) rs →
    (session (.start w) rs).world.db.visibleKeys.card < 2 ^ 64 →
    (session (.start w) rs).world.db.statNumKeys =
      (session (.start w) rs).world.db.visibleKeys.card := by
  intro hclaim
  have hcall : ∀ (s : Session) (c : Call), (∀ i, c ≠ .commit i) →
      CountUse s (.action (.call c)) := by
    refine fun s c hc => ⟨fun i txn hr => ?_, fun e he => (by cases he)⟩
    cases hr
    exact absurd rfl (hc i)
  have hcommit : CountUse (session (.start newWorld) (countTwice.take 3))
      (.action (.call (.commit 0))) := by
    refine ⟨fun i txn hr hopen => ?_, fun e he => (by cases he)⟩
    cases hr
    have hwrites : ((session (.start newWorld) (countTwice.take 3)).txn 0).map Txn.writes =
        some [⟨[1], some [20]⟩, ⟨[1], some [10]⟩] := by decide +kernel
    rw [hopen, Option.map_some] at hwrites
    rw [Option.some.inj hwrites]
    simp
  have hkeys : (session (.start newWorld) countTwice).world.db.visibleKeys.card = 1 := by
    decide +kernel
  have hcounter := hclaim oneBucket firstId ⟨∅, [], []⟩ newWorld (intact_empty oneBucket)
    newWorld_opened countTwice (by decide +kernel)
    ⟨hcall _ _ (by simp), hcall _ _ (by simp), hcall _ _ (by simp), hcommit, trivial⟩
    (by rw [hkeys]; decide)
  rw [hkeys] at hcounter
  have htwo : (session (.start newWorld) countTwice).world.db.statNumKeys = 2 := by decide +kernel
  rw [htwo] at hcounter
  cases hcounter

end FastKV
