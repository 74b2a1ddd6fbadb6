import FastKV.Upkeep

/-!
# Secondary indexes and repeated writes

An index should hold one entry for each key that can be read, under the index key of its value.
A commit removes the entry of the value before the commit and adds the entry of the value it
writes, once for every write. A value that the transaction itself replaces was never the value
before the commit, so its entry stays: the index is right after a commit exactly if no write
other than the last one applied has added an entry of its own.
-/

namespace FastKV

open Lib

/-! ## Entries of an index -/

/-- The composite key under which an index holds a key with the given value. -/
def compositeOf (fn : Bytes → Bytes → Option Bytes) (key : Bytes) (value : Slice) : Option Bytes :=
  (value.bind (fn key)).map fun ik => makeComposite ik key

/-- Index keys hold no zero byte, which separates them from the primary key. -/
def ZeroFree (fn : Bytes → Bytes → Option Bytes) : Prop :=
  ∀ key value ik, fn key value = some ik → (0 : UInt8) ∉ ik

/-- A composite key can be taken apart. -/
theorem makeComposite_inj {ik ik' pk pk' : Bytes} (h : (0 : UInt8) ∉ ik) (h' : (0 : UInt8) ∉ ik')
    (heq : makeComposite ik pk = makeComposite ik' pk') : ik = ik' ∧ pk = pk' := by
  unfold makeComposite at heq
  induction ik generalizing ik' with
  | nil =>
    cases ik' with
    | nil => exact ⟨rfl, (List.cons.inj heq).2⟩
    | cons b ik' =>
      have hb : 0 = b := (List.cons.inj heq).1
      exact absurd (by rw [hb]; exact List.mem_cons_self) h'
  | cons a ik ih =>
    cases ik' with
    | nil =>
      have ha : a = 0 := (List.cons.inj heq).1
      exact absurd (by rw [ha]; exact List.mem_cons_self) h
    | cons b ik' =>
      obtain ⟨hhead, htail⟩ := List.cons.inj heq
      obtain ⟨hik, hpk⟩ := ih (fun hmem => h (List.mem_cons_of_mem _ hmem))
        (fun hmem => h' (List.mem_cons_of_mem _ hmem)) htail
      exact ⟨by rw [hhead, hik], hpk⟩

section Composite

variable {fn : Bytes → Bytes → Option Bytes}

/-- A composite key belongs to one key. -/
theorem ZeroFree.key_eq (h : ZeroFree fn) {key key' c : Bytes} {value value' : Slice}
    (hc : compositeOf fn key value = some c) (hc' : compositeOf fn key' value' = some c) :
    key = key' := by
  obtain ⟨ik, hik, rfl⟩ := Option.map_eq_some_iff.mp hc
  obtain ⟨ik', hik', heq⟩ := Option.map_eq_some_iff.mp hc'
  obtain ⟨v, -, hv⟩ := Option.bind_eq_some_iff.mp hik
  obtain ⟨v', -, hv'⟩ := Option.bind_eq_some_iff.mp hik'
  exact (makeComposite_inj (h _ _ _ hv') (h _ _ _ hv) heq).2.symm

/-- Under one key, different index keys give different composite keys. -/
theorem compositeOf_inj {key : Bytes} {value value' : Slice}
    (h : compositeOf fn key value = compositeOf fn key value') :
    value.bind (fn key) = value'.bind (fn key) := by
  refine Option.map_injective (fun ik ik' heq => ?_) h
  exact List.append_cancel_right (show ik ++ 0 :: key = ik' ++ 0 :: key from heq)

end Composite

/-- The tree of an index is in order. -/
structure Index.InOrder (idx : Index) : Prop where
  /-- Keys are ordered. -/
  wellFormed : idx.btree.WellFormed
  /-- Leaves are linked. -/
  linked : idx.btree.Linked

/-- What an index holds under a composite key. -/
def Index.find (idx : Index) (c : Bytes) : Option Bytes := Lib.find idx.btree.toMap c

section Entries

variable {idx : Index}

/-- `remove_index_entry`. -/
theorem removeIndexEntry_spec (h : idx.InOrder) (pk val : Bytes) :
    (removeIndexEntry idx pk val).InOrder ∧ (removeIndexEntry idx pk val).fn = idx.fn ∧
      ∀ c, (removeIndexEntry idx pk val).find c =
        if compositeOf idx.fn pk (some val) = some c then none else idx.find c := by
  cases hik : idx.fn pk val with
  | none =>
    simp only [removeIndexEntry, compositeOf, Option.bind_some, hik]
    exact ⟨h, trivial, fun c => by simp⟩
  | some ik =>
    obtain ⟨hwf, hmap⟩ := btreeDelete_spec h.wellFormed (makeComposite ik pk)
    simp only [removeIndexEntry, compositeOf, Option.bind_some, hik]
    refine ⟨⟨hwf, h.linked.delete _⟩, trivial, fun c => ?_⟩
    simp only [Index.find, hmap, find_erase, Option.map_some, Option.some.injEq, eq_comm (a := c)]

/-- `add_index_entry`. -/
theorem addIndexEntry_spec (h : idx.InOrder) (pk val : Bytes) :
    (addIndexEntry idx pk val).InOrder ∧ (addIndexEntry idx pk val).fn = idx.fn ∧
      ∀ c, (addIndexEntry idx pk val).find c =
        if compositeOf idx.fn pk (some val) = some c then some pk else idx.find c := by
  cases hik : idx.fn pk val with
  | none =>
    simp only [addIndexEntry, compositeOf, Option.bind_some, hik]
    exact ⟨h, trivial, fun c => by simp⟩
  | some ik =>
    obtain ⟨hwf, hmap⟩ := btreeInsert_spec h.wellFormed (makeComposite ik pk) pk
    simp only [addIndexEntry, compositeOf, Option.bind_some, hik]
    refine ⟨⟨hwf, h.linked.insert h.wellFormed _ _⟩, trivial, fun c => ?_⟩
    simp only [Index.find, hmap, find_insert, Option.map_some, Option.some.injEq, eq_comm (a := c)]

/-- A write replaces the entry of the value before the commit. -/
theorem Index.upkeep_spec (h : idx.InOrder) (old : Slice) (e : WriteEntry) :
    (idx.upkeep old e).InOrder ∧ (idx.upkeep old e).fn = idx.fn ∧
      ∀ c, (idx.upkeep old e).find c =
        if compositeOf idx.fn e.key e.value = some c then some e.key
        else if compositeOf idx.fn e.key old = some c then none else idx.find c := by
  have hadd : ∀ idx' : Index, idx'.InOrder → idx'.fn = idx.fn →
      (∀ c, idx'.find c = if compositeOf idx.fn e.key old = some c then none else idx.find c) →
      (idx'.upkeep none e).InOrder ∧ (idx'.upkeep none e).fn = idx.fn ∧
        ∀ c, (idx'.upkeep none e).find c = if compositeOf idx.fn e.key e.value = some c
          then some e.key
          else if compositeOf idx.fn e.key old = some c then none else idx.find c := by
    intro idx' horder hfn hfind
    unfold Index.upkeep
    cases e.value with
    | none => exact ⟨horder, hfn, fun c => by simp [compositeOf, hfind c]⟩
    | some value =>
      obtain ⟨horder', hfn', hfind'⟩ := addIndexEntry_spec horder e.key value
      refine ⟨horder', hfn'.trans hfn, fun c => ?_⟩
      rw [hfind' c, hfn, hfind c]
  cases old with
  | none => exact hadd idx h rfl fun c => by simp [compositeOf]
  | some oldVal =>
    obtain ⟨horder, hfn, hfind⟩ := removeIndexEntry_spec h e.key oldVal
    exact hadd _ horder hfn hfind

end Entries

/-! ## The writes on one key -/

/-- The entries of a key after a write to it: that of the new value, and those there were except
that of the value before the commit. -/
def keyUpkeep (fn : Bytes → Bytes → Option Bytes) (key : Bytes) (old : Slice)
    (entries : Bytes → Prop) (value : Slice) : Bytes → Prop :=
  fun c => compositeOf fn key value = some c ∨ (entries c ∧ compositeOf fn key old ≠ some c)

section Key

variable {fn : Bytes → Bytes → Option Bytes} {key : Bytes} {old : Slice}

/-- An entry was there before or comes from one of the writes. -/
theorem keyUpkeep_from (values : List Slice) : ∀ {entries : Bytes → Prop} {c : Bytes},
    values.foldl (keyUpkeep fn key old) entries c →
      entries c ∨ ∃ value ∈ values, compositeOf fn key value = some c := by
  induction values with
  | nil => exact fun h => Or.inl h
  | cons value values ih =>
    intro entries c h
    rcases ih h with (hnew | ⟨hold, -⟩) | ⟨value', hmem, hc⟩
    · exact Or.inr ⟨value, List.mem_cons_self, hnew⟩
    · exact Or.inl hold
    · exact Or.inr ⟨value', List.mem_cons_of_mem _ hmem, hc⟩

/-- Entries other than that of the value before the commit stay. -/
theorem keyUpkeep_stays (values : List Slice) : ∀ {entries : Bytes → Prop} {c : Bytes},
    entries c → compositeOf fn key old ≠ some c →
      values.foldl (keyUpkeep fn key old) entries c := by
  induction values with
  | nil => exact fun h _ => h
  | cons value values ih => exact fun h hne => ih (Or.inr ⟨h, hne⟩) hne

/-- The entry of a written value stays unless it is that of the value before the commit. -/
theorem keyUpkeep_adds {values : List Slice} {value : Slice} (hmem : value ∈ values)
    {entries : Bytes → Prop} {c : Bytes} (hc : compositeOf fn key value = some c)
    (hne : compositeOf fn key old ≠ some c) : values.foldl (keyUpkeep fn key old) entries c := by
  obtain ⟨before, after, rfl⟩ := List.append_of_mem hmem
  rw [List.foldl_append, List.foldl_cons]
  exact keyUpkeep_stays after (Or.inl hc) hne

/-- Of the writes before the last one, each adds no entry, or that of the value before the
commit, or that of the last one. -/
def CleanWrites (fn : Bytes → Bytes → Option Bytes) (key : Bytes) (old : Slice)
    (before : List Slice) (last : Slice) : Prop :=
  ∀ value ∈ before, value.bind (fn key) = none ∨ value.bind (fn key) = old.bind (fn key) ∨
    value.bind (fn key) = last.bind (fn key)

/-- Exactly then the entry of the last write is the only one. -/
theorem keyUpkeep_last_iff (before : List Slice) (last : Slice) :
    (∀ c, (before ++ [last]).foldl (keyUpkeep fn key old)
        (fun c => compositeOf fn key old = some c) c ↔ compositeOf fn key last = some c) ↔
      CleanWrites fn key old before last := by
  constructor
  · intro h value hmem
    cases hc : compositeOf fn key value with
    | none => exact Or.inl (Option.map_eq_none_iff.mp hc)
    | some c =>
      by_cases hold : compositeOf fn key old = some c
      · exact Or.inr (Or.inl (compositeOf_inj (hc.trans hold.symm)))
      · have hlast := (h c).mp (keyUpkeep_adds (List.mem_append_left _ hmem) hc hold)
        exact Or.inr (Or.inr (compositeOf_inj (hc.trans hlast.symm)))
  · intro h c
    rw [List.foldl_append]
    show (compositeOf fn key last = some c ∨ _) ↔ _
    refine ⟨fun hc => ?_, Or.inl⟩
    rcases hc with hc | ⟨hc, hne⟩
    · exact hc
    · rcases keyUpkeep_from before hc with hold | ⟨value, hmem, hvalue⟩
      · exact absurd hold hne
      · rcases h value hmem with hnone | hsame | hsame
        · rw [compositeOf, hnone] at hvalue
          cases hvalue
        · rw [compositeOf, hsame] at hvalue
          exact absurd hvalue hne
        · rwa [compositeOf, hsame] at hvalue

end Key

/-! ## Whole write sets -/

/-- An index holds one entry for each key of a map, under the index key of its value, and no
other entry. -/
structure Index.Consistent (idx : Index) (m : Bytes → Slice) : Prop where
  /-- The tree is in order, so that no composite key occurs twice. -/
  inOrder : idx.InOrder
  /-- Its entries. -/
  entries : ∀ c pk, (c, pk) ∈ idx.btree.toMap ↔ compositeOf idx.fn pk (m pk) = some c

/-- Entries are found under their composite key. -/
theorem Index.InOrder.mem_iff {idx : Index} (h : idx.InOrder) (c pk : Bytes) :
    (c, pk) ∈ idx.btree.toMap ↔ idx.find c = some pk := h.wellFormed.sorted.mem_iff_find c pk

/-- The entries after a write set, key by key. -/
theorem Index.foldl_upkeep_spec {m : Bytes → Slice} (es : List WriteEntry) :
    ∀ {idx : Index} {S : Bytes → Bytes → Prop}, ZeroFree idx.fn → idx.InOrder →
      (∀ pk c, S pk c → ∃ value, compositeOf idx.fn pk value = some c) →
      (∀ c pk, idx.find c = some pk ↔ S pk c) →
      (es.foldl (fun idx e => idx.upkeep (m e.key) e) idx).InOrder ∧
        (es.foldl (fun idx e => idx.upkeep (m e.key) e) idx).fn = idx.fn ∧
        ∀ c pk, (es.foldl (fun idx e => idx.upkeep (m e.key) e) idx).find c = some pk ↔
          (writesOn pk es).foldl (keyUpkeep idx.fn pk (m pk)) (S pk) c := by
  induction es with
  | nil => exact fun _ horder _ hfind => ⟨horder, rfl, hfind⟩
  | cons e es ih =>
    intro idx S hzero horder hS hfind
    obtain ⟨horder', hfn, hfind'⟩ := Index.upkeep_spec horder (m e.key) e
    -- only the entries of the written key change
    let S' : Bytes → Bytes → Prop := fun pk =>
      if e.key = pk then keyUpkeep idx.fn pk (m pk) (S pk) e.value else S pk
    have hS' : ∀ pk c, S' pk c → ∃ value, compositeOf idx.fn pk value = some c := by
      intro pk c h
      simp only [S'] at h
      split at h
      · rename_i hkey
        rcases h with h | ⟨h, -⟩
        · exact ⟨e.value, h⟩
        · exact hS pk c h
      · exact hS pk c h
    have hstep : ∀ c pk, (idx.upkeep (m e.key) e).find c = some pk ↔ S' pk c := by
      intro c pk
      rw [hfind' c]
      simp only [S']
      by_cases hkey : e.key = pk
      · subst hkey
        simp only [if_true, keyUpkeep]
        by_cases hnew : compositeOf idx.fn e.key e.value = some c
        · simp [hnew]
        · by_cases hold : compositeOf idx.fn e.key (m e.key) = some c
          · simp [hnew, hold]
          · simp [hnew, hold, hfind c]
      · have hother : ∀ value, compositeOf idx.fn e.key value = some c → ¬ S pk c := by
          intro value hvalue hpk
          obtain ⟨value', hvalue'⟩ := hS pk c hpk
          exact hkey (hzero.key_eq hvalue hvalue')
        simp only [if_neg hkey]
        by_cases hnew : compositeOf idx.fn e.key e.value = some c
        · simp [hnew, hkey, hother _ hnew]
        · by_cases hold : compositeOf idx.fn e.key (m e.key) = some c
          · simp [hnew, hold, hother _ hold]
          · simp [hnew, hold, hfind c]
    have hrest := @ih (idx.upkeep (m e.key) e) S' (by rw [hfn]; exact hzero) horder'
      (by rw [hfn]; exact hS') hstep
    rw [hfn] at hrest
    refine ⟨hrest.1, hrest.2.1, fun c pk => (hrest.2.2 c pk).trans ?_⟩
    simp only [S']
    by_cases hkey : e.key = pk
    · subst hkey
      rw [if_pos rfl, writesOn_cons_self]
      rfl
    · rw [if_neg hkey, writesOn_cons_of_ne hkey]

/-- Write sets change neither the name nor the function of an index. -/
theorem Index.foldl_upkeep_same {m : Bytes → Slice} (es : List WriteEntry) : ∀ idx : Index,
    (es.foldl (fun idx e => idx.upkeep (m e.key) e) idx).name = idx.name ∧
      (es.foldl (fun idx e => idx.upkeep (m e.key) e) idx).fn = idx.fn := by
  have hremove : ∀ (idx : Index) (pk val : Bytes), (removeIndexEntry idx pk val).name = idx.name ∧
      (removeIndexEntry idx pk val).fn = idx.fn := by
    intro idx pk val
    unfold removeIndexEntry
    split <;> exact ⟨rfl, rfl⟩
  have hadd : ∀ (idx : Index) (pk val : Bytes), (addIndexEntry idx pk val).name = idx.name ∧
      (addIndexEntry idx pk val).fn = idx.fn := by
    intro idx pk val
    unfold addIndexEntry
    split <;> exact ⟨rfl, rfl⟩
  induction es with
  | nil => exact fun _ => ⟨rfl, rfl⟩
  | cons e es ih =>
    intro idx
    have hfirst : (idx.upkeep (m e.key) e).name = idx.name ∧
        (idx.upkeep (m e.key) e).fn = idx.fn := by
      cases hv : e.value with
      | none => cases m e.key <;> simp only [Index.upkeep, hv, hremove, and_self]
      | some value => cases m e.key <;> simp only [Index.upkeep, hv, hadd, hremove, and_self]
    obtain ⟨hname, hfn⟩ := ih (idx.upkeep (m e.key) e)
    exact ⟨hname.trans hfirst.1, hfn.trans hfirst.2⟩

/-- A write set that leaves an index right: on every key, the writes before the one applied last
have added nothing of their own. -/
def CleanSet (fn : Bytes → Bytes → Option Bytes) (m : Bytes → Slice) (es : List WriteEntry) :
    Prop :=
  ∀ key before last, writesOn key es = before ++ [last] → CleanWrites fn key (m key) before last

/-- After a write set with no empty values, a consistent index is consistent with the new map
exactly if the write set is clean. -/
theorem Index.Consistent.upkeep_iff {idx : Index} {db : Db} (h : idx.Consistent db.ht.live)
    (hzero : ZeroFree idx.fn) {es : List WriteEntry} (hne : ∀ e ∈ es, e.value ≠ some [])
    (commitTs : ℕ) :
    (es.foldl (fun idx e => idx.upkeep (db.ht.live e.key) e) idx).Consistent
        (applyEntries commitTs es db).ht.live ↔ CleanSet idx.fn db.ht.live es := by
  obtain ⟨horder, hfn, hfind⟩ := Index.foldl_upkeep_spec (m := db.ht.live) es
    (S := fun pk c => compositeOf idx.fn pk (db.ht.live pk) = some c) hzero h.inOrder
    (fun pk c hc => ⟨_, hc⟩) fun c pk => by rw [← h.inOrder.mem_iff]; exact h.entries c pk
  have hentries : ∀ c pk, (c, pk) ∈
      (es.foldl (fun idx e => idx.upkeep (db.ht.live e.key) e) idx).btree.toMap ↔
        (writesOn pk es).foldl (keyUpkeep idx.fn pk (db.ht.live pk))
          (fun c => compositeOf idx.fn pk (db.ht.live pk) = some c) c :=
    fun c pk => (horder.mem_iff c pk).trans (hfind c pk)
  have hlive : ∀ {pk : Bytes} {before : List Slice} {last : Slice},
      writesOn pk es = before ++ [last] → (applyEntries commitTs es db).ht.live pk = last := by
    intro pk before last hwrites
    refine live_applyEntries_of_append hwrites (hne ⟨pk, last⟩ (mem_writesOn.mp ?_))
    rw [hwrites]
    exact List.mem_append_right _ List.mem_cons_self
  constructor
  · rintro ⟨-, hafter⟩ pk before last hwrites
    refine (keyUpkeep_last_iff before last).mp fun c => ?_
    have hc := (hentries c pk).symm.trans (hafter c pk)
    rwa [hwrites, hlive hwrites, hfn] at hc
  · refine fun hclean => ⟨horder, fun c pk => (hentries c pk).trans ?_⟩
    rw [hfn]
    rcases List.eq_nil_or_concat (writesOn pk es) with hnil | ⟨before, last, hwrites⟩
    · rw [hnil, live_applyEntries_of_nil hnil]
      rfl
    · rw [List.concat_eq_append] at hwrites
      rw [hwrites, hlive hwrites]
      exact (keyUpkeep_last_iff before last).mpr (hclean pk before last hwrites) c

/-! ## Sessions -/

/-- Requests that put no empty values, whose commits go through once they pass the conflict
check, and that create indexes for the function on an empty database only. -/
structure IndexUse (fn : Bytes → Bytes → Option Bytes) (s : Session) (r : Request) : Prop where
  /-- Commits. -/
  commit : ∀ i txn, r = .action (.call (.commit i)) → s.txn i = some txn → Applies s.world txn →
    (serve s r).1 = .ok ∧ ∀ e ∈ txn.writes, e.value ≠ some []
  /-- Single operations. -/
  single : ∀ e, r.entry = some e → e.value ≠ some []
  /-- Creations. -/
  create : ∀ name, r = .indexCreate name fn → ∀ key, s.world.db.newest key = none

/-- A commit, if the request is one, applies a clean write set. -/
def CleanCommit (fn : Bytes → Bytes → Option Bytes) (s : Session) (r : Request) : Prop :=
  ∀ i txn, r = .action (.call (.commit i)) → s.txn i = some txn → Applies s.world txn →
    CleanSet fn s.world.db.newest txn.writes

/-- The condition on changes that such requests meet. -/
def CleanChange (fn : Bytes → Bytes → Option Bytes) (db : Db) : Change → Prop
  | .write es => (∀ e ∈ es, e.value ≠ some []) ∧ CleanSet fn db.ht.live es
  | .expiry _ => True
  | .index fn' => fn' = fn → ∀ key, db.ht.live key = none

/-- A single write is clean. -/
theorem cleanSet_singleton (fn : Bytes → Bytes → Option Bytes) (m : Bytes → Slice)
    (e : WriteEntry) : CleanSet fn m [e] := by
  intro key before last hwrites
  rw [writesOn_singleton hwrites]
  exact fun value hvalue => by cases hvalue

/-- The requests meet the condition. -/
theorem IndexUse.meets {fn : Bytes → Bytes → Option Bytes} {s : Session} {r : Request}
    (h : IndexUse fn s r) (hclean : CleanCommit fn s r) (hclock : s.clock < tsMax)
    (hsound : s.world.db.Sound) : r.Meets (CleanChange fn) s := by
  have hnewest := hsound.newest_eq hclock
  refine ⟨fun i txn hr hopen happlies es hne hes hall => ?_, fun e hentry _ mgr => ?_,
    fun _ _ _ _ _ _ => trivial, fun name fn' hr => ?_⟩
  · obtain ⟨hok, hvalues⟩ := h.commit i txn hr hopen happlies
    have hset := hclean i txn hr hopen happlies
    rw [hnewest] at hset
    rw [hall hok]
    exact ⟨hvalues, hset⟩
  · refine ⟨fun e' he' => ?_, cleanSet_singleton fn _ e⟩
    rw [List.mem_singleton.mp he']
    exact h.single e hentry
  · intro hfn key
    rw [← hnewest]
    exact h.create name (hr.trans (by rw [hfn])) key

/-- All indexes for a function are consistent. -/
def Db.IndexesConsistent (fn : Bytes → Bytes → Option Bytes) (db : Db) : Prop :=
  ∀ idx ∈ db.indexes, idx.fn = fn → idx.Consistent db.ht.live

/-- A new index on an empty database is consistent. -/
theorem Index.consistent_new {m : Bytes → Slice} (hm : ∀ key, m key = none) (name : List Char)
    (fn : Bytes → Bytes → Option Bytes) : Index.Consistent ⟨name, fn, btreeCreate⟩ m := by
  refine ⟨⟨btreeCreate_wellFormed.1, btreeCreate_linked⟩, fun c pk => ?_⟩
  simp only [btreeCreate_wellFormed.2, hm pk]
  simp [compositeOf]

/-- Moves under the condition keep the indexes consistent. -/
theorem Db.Move.indexesConsistent {fn : Bytes → Bytes → Option Bytes} (hzero : ZeroFree fn)
    {db db' : Db} (hmove : Db.Move (CleanChange fn) db db') (hsound : db.Sound)
    (h : db.IndexesConsistent fn) : db'.IndexesConsistent fn := by
  cases hmove with
  | manage | expiry => exact h
  | collect m hm =>
    intro idx hidx hfn
    have hlive : ({ db with ht := (htGc db.ht m).2 } : Db).ht.live = db.ht.live :=
      funext fun key => live_htGc hsound.oneLive hm key
    rw [hlive]
    exact h idx hidx hfn
  | indexDrop name =>
    unfold fastkvIndexDrop
    split
    · exact fun idx hidx hfn => h idx (List.mem_of_mem_eraseP hidx) hfn
    · exact h
  | indexCreate name fn' hempty =>
    intro idx hidx hfn
    rcases List.mem_cons.mp hidx with rfl | hold
    · exact Index.consistent_new (hempty hfn) _ _
    · exact h idx hold hfn
  | write es txnMgr wal hroom hclock hcond =>
    intro idx hidx hfn
    have hidx' : idx ∈ (applyEntries db.clock es db).indexes := hidx
    rw [(applyEntries_upkeep hsound.clock_pos (by omega) es
      fun key => hsound.htGet_before hroom key).1] at hidx'
    obtain ⟨idx₀, hidx₀, rfl⟩ := List.mem_map.mp hidx'
    have hfn₀ : idx₀.fn = fn := by
      rw [← hfn]
      exact (Index.foldl_upkeep_same es idx₀).2.symm
    have hconsistent := h idx₀ hidx₀ hfn₀
    refine (hconsistent.upkeep_iff (by rw [hfn₀]; exact hzero) hcond.1 db.clock).mpr ?_
    rw [hfn₀]
    exact hcond.2

/-- In every session whose commits apply clean write sets, each index that was created on an
empty database holds one entry for every key that can be read and has an index key, and no
other. -/
theorem index_consistent_of_clean {fn : Bytes → Bytes → Option Bytes} (hzero : ZeroFree fn)
    {opts : Opts} {fresh : Uuid} {disk : Disk} {w : World} (hintact : Intact opts disk.files)
    (hopen : fastkvOpen opts fresh disk = .ok w) {rs : List Request}
    (hclock : w.db.clock + drawsMax * rs.length < tsMax)
    (huse : Permitted Session.after (IndexUse fn) (.start w) rs)
    (hclean : Permitted Session.after (CleanCommit fn) (.start w) rs) {idx : Index}
    (hidx : idx ∈ (session (.start w) rs).world.db.indexes) (hfn : idx.fn = fn) :
    idx.Consistent (session (.start w) rs).world.db.newest := by
  have hnone : w.db.IndexesConsistent fn := by
    obtain ⟨s, snapTs, walMaxTs, wal, rc, -, hdb, -⟩ := fastkvOpen_cases hopen
    intro idx hidx
    rw [hdb] at hidx
    cases hidx
  obtain ⟨⟨hsound, hconsistent⟩, -, hle⟩ := session_invariant
    (P := CleanChange fn) (Q := fun s r => IndexUse fn s r ∧ CleanCommit fn s r)
    (I := fun db => db.Sound ∧ db.IndexesConsistent fn)
    (fun db key _ => ⟨fun e he => by rw [List.mem_singleton.mp he]; simp,
      cleanSet_singleton fn _ _⟩)
    (fun s r hroom _ hI hq => hq.1.meets hq.2 (by omega) hI.1)
    (fun db db' hmove hI => ⟨hI.1.move hmove, hmove.indexesConsistent hzero hI.1 hI.2⟩)
    (Session.start_txnsOk w) ⟨fastkvOpen_sound hintact hopen, hnone⟩ hclock
    (Permitted.and rs huse hclean)
  rw [hsound.newest_eq (lt_of_le_of_lt hle hclock)]
  exact hconsistent idx hidx hfn

/-- Index entries by their value, unless that holds a zero byte. -/
def byValue (_key value : Bytes) : Option Bytes :=
  if (0 : UInt8) ∈ value then none else some value

/-- Its index keys hold no zero byte. -/
theorem byValue_zeroFree : ZeroFree byValue := by
  intro key value ik h
  unfold byValue at h
  split at h
  · cases h
  · rename_i hzero
    rwa [← Option.some.inj h]

section Requests

variable {fn : Bytes → Bytes → Option Bytes} {s : Session}

/-- Calls other than commits are not restricted. -/
theorem IndexUse.of_call {c : Call} (h : ∀ i, c ≠ .commit i) :
    IndexUse fn s (.action (.call c)) ∧ CleanCommit fn s (.action (.call c)) := by
  refine ⟨⟨fun i txn hr => ?_, fun e he => (by cases he), fun name hr => (by cases hr)⟩,
    fun i txn hr => ?_⟩
  all_goals
    cases hr
    exact absurd rfl (h i)

/-- A put of a value with at least one byte. -/
theorem IndexUse.of_put {key value : Bytes} (h : value ≠ []) :
    IndexUse fn s (.put key (some value)) ∧ CleanCommit fn s (.put key (some value)) := by
  refine ⟨⟨fun i txn hr => (by cases hr), fun e he => ?_, fun name hr => (by cases hr)⟩,
    fun i txn hr => (by cases hr)⟩
  rw [← Option.some.inj he]
  exact fun hnil => h (Option.some.inj hnil)

/-- A creation on an empty database. -/
theorem IndexUse.of_create {name : List Char} (h : ∀ key, s.world.db.newest key = none) :
    IndexUse fn s (.indexCreate name fn) ∧ CleanCommit fn s (.indexCreate name fn) :=
  ⟨⟨fun i txn hr => (by cases hr), fun e he => (by cases he), fun _ _ => h⟩,
    fun i txn hr => (by cases hr)⟩

end Requests

/-- A key is put and put again. -/
def putAgain : List Request :=
  [.indexCreate [] byValue, .put [1] (some [10]), .put [1] (some [20])]

/-- Its entry is replaced. -/
theorem index_consistent_after_update :
    ∃ idx ∈ (session (.start newWorld) putAgain).world.db.indexes,
      idx.Consistent (session (.start newWorld) putAgain).world.db.newest := by
  obtain ⟨idx, hidx, hfn⟩ : ∃ idx,
      (session (.start newWorld) putAgain).world.db.indexes = [idx] ∧ idx.fn = byValue :=
    ⟨_, rfl, rfl⟩
  have hmem : idx ∈ (session (.start newWorld) putAgain).world.db.indexes := by
    rw [hidx]
    exact List.mem_cons_self
  obtain ⟨hcreate, hcreate'⟩ : IndexUse byValue (.start newWorld) (.indexCreate [] byValue) ∧
      CleanCommit byValue (.start newWorld) (.indexCreate [] byValue) :=
    IndexUse.of_create newWorld_newest
  have hput : ∀ (s : Session) (b : UInt8), IndexUse byValue s (.put [1] (some [b])) ∧
      CleanCommit byValue s (.put [1] (some [b])) := fun s b => IndexUse.of_put (by simp)
  exact ⟨idx, hmem, index_consistent_of_clean byValue_zeroFree (intact_empty oneBucket)
    newWorld_opened (by decide +kernel)
    (show Permitted Session.after (IndexUse byValue) (.start newWorld) putAgain from
      ⟨hcreate, (hput _ 10).1, (hput _ 20).1, trivial⟩)
    ⟨hcreate', (hput _ 10).2, (hput _ 20).2, trivial⟩ hmem hfn⟩

/-- A transaction puts a key twice. -/
def putTwice : List Request :=
  [.indexCreate [] byValue, .action (.call (.begin false)),
    .action (.call (.put 0 [1] (some [10]))), .action (.call (.put 0 [1] (some [20]))),
    .action (.call (.commit 0))]

/-- The index keeps the entries of both values. -/
theorem index_keeps_replaced_entry : ¬ ∀ (fn : Bytes → Bytes → Option Bytes), ZeroFree fn →
    ∀ (opts : Opts) (fresh : Uuid) (disk : Disk) (w : World), Intact opts disk.files →
    fastkvOpen opts fresh disk = .ok w → ∀ rs : List Request,
    w.db.clock + drawsMax * rs.length < tsMax →
    Permitted Session.after (IndexUse fn) (.start w) rs →
    ∀ idx ∈ (session (.start w) rs).world.db.indexes, idx.fn = fn →
      idx.Consistent (session (.start w) rs).world.db.newest := by
  intro hclaim
  obtain ⟨idx, hidx, hfn⟩ : ∃ idx,
      (session (.start newWorld) putTwice).world.db.indexes = [idx] ∧ idx.fn = byValue :=
    ⟨_, rfl, rfl⟩
  have hcommit : IndexUse byValue (session (.start newWorld) (putTwice.take 4))
      (.action (.call (.commit 0))) := by
    refine ⟨fun i txn hr hopen _ => ⟨by decide +kernel, ?_⟩, fun e he => (by cases he),
      fun name hr => (by cases hr)⟩
    cases hr
    have hwrites : ((session (.start newWorld) (putTwice.take 4)).txn 0).map Txn.writes =
        some [⟨[1], some [20]⟩, ⟨[1], some [10]⟩] := by decide +kernel
    rw [hopen, Option.map_some] at hwrites
    rw [Option.some.inj hwrites]
    simp
  have hconsistent := hclaim byValue byValue_zeroFree oneBucket firstId ⟨∅, [], []⟩ newWorld
    (intact_empty oneBucket) newWorld_opened putTwice (by decide +kernel)
    ⟨(IndexUse.of_create newWorld_newest).1, (IndexUse.of_call (by simp)).1,
      (IndexUse.of_call (by simp)).1, (IndexUse.of_call (by simp)).1, hcommit, trivial⟩
    idx (by rw [hidx]; exact List.mem_cons_self) hfn
  have hentries : (session (.start newWorld) putTwice).world.db.indexes.map
      (fun idx => idx.btree.toMap) = [[([10, 0, 1], [1]), ([20, 0, 1], [1])]] := by decide +kernel
  rw [hidx, List.map_singleton, List.cons.injEq] at hentries
  have hstale := (hconsistent.entries [20, 0, 1] [1]).mp (by rw [hentries.1]; simp)
  have hnewest : (session (.start newWorld) putTwice).world.db.newest [1] = some [10] := by
    decide +kernel
  rw [hnewest, hfn] at hstale
  exact absurd hstale (by decide)

end FastKV
