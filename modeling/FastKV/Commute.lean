import FastKV.Quiet
import FastKV.SecondaryIndex

/-!
# Commits of different keys commute

Two transactions that write different keys can be committed in either order. The conflict check
of one looks at the versions of its own keys, which the other does not change, and so does the
look at the value before the commit. What the two orders leave behind differs in timestamps and
in the shape of the trees, but not in anything that a reader, a scan or an index lookup returns.
-/

namespace FastKV

open Lib

/-! ## Index entries belong to their keys -/

/-- Every entry of an index is that of some value of its key. -/
structure Index.Keyed (idx : Index) : Prop where
  /-- The tree is in order. -/
  inOrder : idx.InOrder
  /-- Entries are composite keys of the key they point to. -/
  composite : ∀ pk c, idx.find c = some pk → ∃ value, compositeOf idx.fn pk value = some c

/-- A write keeps the entries with their keys. -/
theorem Index.Keyed.upkeep {idx : Index} (h : idx.Keyed) (old : Slice) (e : WriteEntry) :
    (idx.upkeep old e).Keyed := by
  obtain ⟨horder, hfn, hfind⟩ := Index.upkeep_spec h.inOrder old e
  refine ⟨horder, fun pk c hc => ?_⟩
  rw [hfind] at hc
  rw [hfn]
  split at hc
  · rename_i hnew
    rw [← Option.some.inj hc]
    exact ⟨e.value, hnew⟩
  · split at hc
    · cases hc
    · exact h.composite pk c hc

/-- So does a write set. -/
theorem Index.Keyed.foldl_upkeep {m : Bytes → Slice} (es : List WriteEntry) : ∀ {idx : Index},
    idx.Keyed → (es.foldl (fun idx e => idx.upkeep (m e.key) e) idx).Keyed := by
  induction es with
  | nil => exact fun h => h
  | cons e es ih => exact fun h => ih (h.upkeep (m e.key) e)

/-- All indexes of a database. -/
def Db.IndexesKeyed (db : Db) : Prop := ∀ idx ∈ db.indexes, idx.Keyed

/-- Every move keeps their entries with their keys. -/
theorem Db.Move.indexesKeyed {P : Db → Change → Prop} {db db' : Db} (hmove : Db.Move P db db')
    (hsound : db.Sound) (h : db.IndexesKeyed) : db'.IndexesKeyed := by
  cases hmove with
  | manage | expiry | collect => exact h
  | indexDrop name =>
    unfold fastkvIndexDrop
    split
    · exact fun idx hidx => h idx (List.mem_of_mem_eraseP hidx)
    · exact h
  | indexCreate name fn hcond =>
    intro idx hidx
    rcases List.mem_cons.mp hidx with rfl | hold
    · refine ⟨⟨btreeCreate_wellFormed.1, btreeCreate_linked⟩, fun pk c hc => ?_⟩
      simp only [Index.find, btreeCreate_wellFormed.2] at hc
      cases hc
    · exact h idx hold
  | write es txnMgr wal hroom hclock hcond =>
    intro idx hidx
    have hidx' : idx ∈ (applyEntries db.clock es db).indexes := hidx
    rw [(applyEntries_upkeep hsound.clock_pos (by omega) es
      fun key => hsound.htGet_before hroom key).1] at hidx'
    obtain ⟨idx₀, hidx₀, rfl⟩ := List.mem_map.mp hidx'
    exact (h idx₀ hidx₀).foldl_upkeep es

/-! ## One write set after the other -/

/-- The tree after some writes: on each key the one applied last counts. -/
theorem find_applyEntries (commitTs : ℕ) (es : List WriteEntry) (key : Bytes) : ∀ {db : Db},
    db.btree.WellFormed → Lib.find (applyEntries commitTs es db).btree.toMap key =
      ((writesOn key es).getLast?).getD (Lib.find db.btree.toMap key) := by
  induction es with
  | nil => exact fun _ => rfl
  | cons e es ih =>
    intro db hwf
    have hfirst : (applyEntry db e commitTs).btree.WellFormed ∧
        Lib.find (applyEntry db e commitTs).btree.toMap key =
          if key = e.key then e.value else Lib.find db.btree.toMap key := by
      unfold applyEntry
      cases e.value with
      | some value =>
        obtain ⟨hwf', hmap⟩ := btreeInsert_spec hwf e.key value
        refine ⟨hwf', ?_⟩
        by_cases hkey : key = e.key <;> simp [hmap, find_insert, hkey]
      | none =>
        obtain ⟨hwf', hmap⟩ := btreeDelete_spec hwf e.key
        refine ⟨hwf', ?_⟩
        by_cases hkey : key = e.key <;> simp [hmap, find_erase, hkey]
    have hrest := ih hfirst.1
    rw [hfirst.2] at hrest
    refine hrest.trans ?_
    by_cases hkey : e.key = key
    · subst hkey
      rw [if_pos rfl, writesOn_cons_self, List.getLast?_cons]
      rfl
    · rw [if_neg fun h => hkey h.symm, writesOn_cons_of_ne hkey]

/-- No key is written by both. -/
def DisjointWrites (es es' : List WriteEntry) : Prop := ∀ e ∈ es, ∀ e' ∈ es', e.key ≠ e'.key

/-- On every key, one of the two has no writes. -/
theorem DisjointWrites.writesOn {es es' : List WriteEntry} (h : DisjointWrites es es')
    (key : Bytes) : writesOn key es = [] ∨ writesOn key es' = [] := by
  by_contra hboth
  rw [not_or] at hboth
  obtain ⟨value, hvalue⟩ := List.exists_mem_of_ne_nil _ hboth.1
  obtain ⟨value', hvalue'⟩ := List.exists_mem_of_ne_nil _ hboth.2
  exact h _ (mem_writesOn.mp hvalue) _ (mem_writesOn.mp hvalue') rfl

/-- The order does not matter. -/
theorem DisjointWrites.symm {es es' : List WriteEntry} (h : DisjointWrites es es') :
    DisjointWrites es' es := fun e he e' he' heq => h e' he' e he heq.symm

section Indexes

variable {m : Bytes → Slice} {idx : Index}

/-- The entries of a key after two write sets of which at most one writes it. -/
theorem Index.Keyed.foldl_foldl {es es' : List WriteEntry} {m' : Bytes → Slice} (h : idx.Keyed)
    (hzero : ZeroFree idx.fn) (hdisjoint : DisjointWrites es es')
    (hm' : ∀ key, writesOn key es = [] → m' key = m key) (c pk : Bytes) :
    (es'.foldl (fun idx e => idx.upkeep (m' e.key) e)
        (es.foldl (fun idx e => idx.upkeep (m e.key) e) idx)).find c = some pk ↔
      (writesOn pk es ++ writesOn pk es').foldl (keyUpkeep idx.fn pk (m pk))
        (fun c => idx.find c = some pk) c := by
  obtain ⟨horder, hfn, hfind⟩ := Index.foldl_upkeep_spec (m := m) es
    (S := fun pk c => idx.find c = some pk) hzero h.inOrder h.composite fun _ _ => Iff.rfl
  have hkeyed : (es.foldl (fun idx e => idx.upkeep (m e.key) e) idx).Keyed := h.foldl_upkeep es
  obtain ⟨-, -, hfind'⟩ := Index.foldl_upkeep_spec (m := m') es'
    (S := fun pk c => (es.foldl (fun idx e => idx.upkeep (m e.key) e) idx).find c = some pk)
    (by rw [hfn]; exact hzero) horder hkeyed.composite fun _ _ => Iff.rfl
  rw [hfind' c pk, hfn]
  have hfirst : (fun c => (es.foldl (fun idx e => idx.upkeep (m e.key) e) idx).find c = some pk) =
      (writesOn pk es).foldl (keyUpkeep idx.fn pk (m pk)) fun c => idx.find c = some pk :=
    funext fun c => propext (hfind c pk)
  rw [hfirst, List.foldl_append]
  rcases hdisjoint.writesOn pk with hnil | hnil
  · rw [hm' pk hnil]
  · rw [hnil]
    rfl

/-- An index is the same after two write sets in either order. -/
theorem Index.Keyed.commute {es es' : List WriteEntry} {m₁ m₂ : Bytes → Slice} (h : idx.Keyed)
    (hzero : ZeroFree idx.fn) (hdisjoint : DisjointWrites es es')
    (hm₁ : ∀ key, writesOn key es = [] → m₁ key = m key)
    (hm₂ : ∀ key, writesOn key es' = [] → m₂ key = m key) :
    (es'.foldl (fun idx e => idx.upkeep (m₁ e.key) e)
        (es.foldl (fun idx e => idx.upkeep (m e.key) e) idx)).btree.toMap =
      (es.foldl (fun idx e => idx.upkeep (m₂ e.key) e)
        (es'.foldl (fun idx e => idx.upkeep (m e.key) e) idx)).btree.toMap := by
  have hwf := ((h.foldl_upkeep (m := m) es).foldl_upkeep (m := m₁) es').inOrder.wellFormed
  have hwf' := ((h.foldl_upkeep (m := m) es').foldl_upkeep (m := m₂) es).inOrder.wellFormed
  refine hwf.sorted.ext hwf'.sorted fun c => Option.ext fun pk => ?_
  have hone := h.foldl_foldl hzero hdisjoint hm₁ c pk
  have htwo := h.foldl_foldl hzero hdisjoint.symm hm₂ c pk
  have hswap : writesOn pk es ++ writesOn pk es' = writesOn pk es' ++ writesOn pk es := by
    rcases hdisjoint.writesOn pk with hnil | hnil <;> rw [hnil] <;> simp
  rw [hswap] at hone
  exact hone.trans htwo.symm

end Indexes

/-! ## Commits -/

/-- Nothing that is read or scanned tells the two databases apart. -/
structure Db.SameContents (db db' : Db) : Prop where
  /-- The values that a transaction finds which begins now. -/
  newest : ∀ key, db.newest key = db'.newest key
  /-- The contents of the tree. -/
  btree : db.btree.toMap = db'.btree.toMap
  /-- The indexes, and the contents of those whose index keys hold no zero byte. -/
  indexes : List.Forall₂ (fun idx idx' => idx.name = idx'.name ∧ idx.fn = idx'.fn ∧
    (ZeroFree idx.fn → idx.btree.toMap = idx'.btree.toMap)) db.indexes db'.indexes

/-- The writes that a commit applies. -/
def applied (db : Db) (txn : Txn) : List WriteEntry :=
  if dbCheckConflicts db txn.writes txn.beginTs = .ok then txn.writes else []

/-- They are writes of the transaction. -/
theorem mem_applied {db : Db} {txn : Txn} {e : WriteEntry} (he : e ∈ applied db txn) :
    e ∈ txn.writes := by
  unfold applied at he
  split at he
  · exact he
  · cases he

/-- No key is written by the commits of both. -/
theorem DisjointWrites.applied {txn txn' : Txn} (h : DisjointWrites txn.writes txn'.writes)
    (db : Db) : DisjointWrites (applied db txn) (applied db txn') :=
  fun e he e' he' => h e (mem_applied he) e' (mem_applied he')

/-- The conflict check depends on the versions of the written keys. -/
theorem dbCheckConflicts_congr {db db' : Db} {writes : List WriteEntry} {beginTs : ℕ}
    (h : ∀ e ∈ writes, db'.ht.versions e.key = db.ht.versions e.key) :
    dbCheckConflicts db' writes beginTs = dbCheckConflicts db writes beginTs := by
  have hfirst : ∀ (ht : Ht) (key : Bytes), (ht.chain key).find? (fun v => decide (v.key = key)) =
      (ht.versions key).head? := fun ht key => List.head?_filter.symm
  have hany : (writes.any fun e => conflictsAt db'.ht beginTs e.key) =
      writes.any fun e => conflictsAt db.ht beginTs e.key := by
    rw [Bool.eq_iff_iff, List.any_eq_true, List.any_eq_true]
    refine exists_congr fun e => and_congr_right fun he => ?_
    unfold conflictsAt
    rw [hfirst, hfirst, h e he]
  unfold dbCheckConflicts
  rw [hany]

/-- Writes leave the versions of other keys alone. -/
theorem versions_insertEntries {commitTs : ℕ} {key : Bytes} (es : List WriteEntry) :
    ∀ {ht : Ht}, (∀ e ∈ es, e.key ≠ key) →
      (insertEntries commitTs es ht).versions key = ht.versions key := by
  induction es with
  | nil => exact fun _ => rfl
  | cons e es ih =>
    intro ht h
    have hrest : (insertEntries commitTs es (htInsertVersion ht commitTs e.key e.value)).versions
        key = (htInsertVersion ht commitTs e.key e.value).versions key :=
      ih fun e' he' => h e' (List.mem_cons_of_mem _ he')
    exact hrest.trans (versions_htInsertVersion_other (h e List.mem_cons_self).symm ..)

/-- What a commit of an open transaction does while the log works. -/
theorem txnCommit_applied {w : World} {txn : Txn} (hworking : w.Working)
    (hclock : w.db.clock + 1 < tsMax) (hactive : txn.state = .active)
    (hrw : txn.readOnly = false) :
    (txnCommit w txn).1 = dbCheckConflicts w.db txn.writes txn.beginTs ∧
      (txnCommit w txn).2.1.Working ∧ ∃ mgr wal, (txnCommit w txn).2.1.db =
        { applyEntries w.db.clock (applied w.db txn) w.db with txnMgr := mgr, wal } := by
  rcases txnCommit_cases w txn with ⟨hrefusal, mgr, -, heq⟩ | ⟨happlies, hrc, -, mgr, -, heq⟩
  · have hnone : applied w.db txn = [] ∧
        (txnCommit w txn).1 = dbCheckConflicts w.db txn.writes txn.beginTs := by
      generalize (txnCommit w txn).1 = rc at hrefusal
      cases hrefusal with
      | closed hstate => exact absurd hactive hstate
      | nothing _ hnothing =>
        have hnil : txn.writes = [] := hnothing.resolve_left (by simp [hrw])
        unfold applied dbCheckConflicts
        simp [hnil]
      | conflict _ _ hcheck =>
        exact ⟨if_neg hcheck, (dbCheckConflicts_ne_ok hcheck).symm⟩
    rw [heq, hnone.1]
    exact ⟨hnone.2, hworking, mgr, w.db.wal, rfl⟩
  · obtain ⟨hok, hworking'⟩ := dbApplyWriteSet_working w.db.clock txn.writes w.drawn hworking
    obtain ⟨k, wal, mgr', -, hall, hdb⟩ := happlies.db_eq hclock
    rw [hall (hrc.trans hok)] at hdb
    refine ⟨by rw [hrc, hok, happlies.noConflict], ?_, mgr', wal, ?_⟩
    · rw [heq]
      exact hworking'
    · rw [hdb, applied, if_pos happlies.noConflict]

/-- The database after one commit and another. -/
theorem applied_applied {db db₁ : Db} {txn txn' : Txn} {ts : ℕ} {mgr : TxnMgr} {wal : Option Wal}
    (hdb₁ : db₁ = { applyEntries ts (applied db txn) db with txnMgr := mgr, wal })
    (hdisjoint : DisjointWrites txn.writes txn'.writes) :
    dbCheckConflicts db₁ txn'.writes txn'.beginTs = dbCheckConflicts db txn'.writes txn'.beginTs ∧
      applied db₁ txn' = applied db txn' := by
  have hcheck : dbCheckConflicts db₁ txn'.writes txn'.beginTs =
      dbCheckConflicts db txn'.writes txn'.beginTs := by
    refine dbCheckConflicts_congr fun e he => ?_
    rw [hdb₁]
    show (applyEntries ts (applied db txn) db).ht.versions e.key = _
    rw [applyEntries_ht]
    exact versions_insertEntries _ fun e' he' => hdisjoint e' (mem_applied he') e he
  exact ⟨hcheck, by unfold applied; rw [hcheck]⟩

/-- The write sets of two commits in a row: the second finds the versions of its keys as they
were before the first. -/
structure TwoCommits (db db₁ db₂ : Db) (es es' : List WriteEntry) : Prop where
  /-- The first commit. -/
  first : ∃ mgr wal, db₁ = { applyEntries db.clock es db with txnMgr := mgr, wal }
  /-- The second commit. -/
  second : ∃ mgr wal, db₂ = { applyEntries db₁.clock es' db₁ with txnMgr := mgr, wal }
  /-- Before the first. -/
  sound : db.Sound ∧ db.clock + 1 < tsMax
  /-- Between the two. -/
  sound₁ : db₁.Sound ∧ db₁.clock + 1 < tsMax

namespace TwoCommits

variable {db db₁ db₂ db₁' db₂' : Db} {es es' : List WriteEntry}

/-- The map after the first commit. -/
theorem live_first (h : TwoCommits db db₁ db₂ es es') {key : Bytes} (hnil : writesOn key es = []) :
    db₁.ht.live key = db.ht.live key := by
  obtain ⟨mgr, wal, hdb₁⟩ := h.first
  rw [hdb₁]
  exact live_applyEntries_of_nil hnil

/-- The map after both, where the second does not write. -/
theorem live_second (h : TwoCommits db db₁ db₂ es es') {key : Bytes}
    (hnil : writesOn key es' = []) : db₂.ht.live key = db₁.ht.live key := by
  obtain ⟨mgr, wal, hdb₂⟩ := h.second
  rw [hdb₂]
  exact live_applyEntries_of_nil hnil

/-- The map is the same after both orders. -/
theorem live_eq (h : TwoCommits db db₁ db₂ es es') (h' : TwoCommits db db₁' db₂' es' es)
    (hdisjoint : DisjointWrites es es') (key : Bytes) : db₂.ht.live key = db₂'.ht.live key := by
  obtain ⟨mgr, wal, hdb₁⟩ := h.first
  obtain ⟨mgr', wal', hdb₁'⟩ := h'.first
  obtain ⟨mgr₂, wal₂, hdb₂⟩ := h.second
  obtain ⟨mgr₂', wal₂', hdb₂'⟩ := h'.second
  rcases hdisjoint.writesOn key with hnil | hnil
  · rw [h'.live_second hnil, hdb₁', hdb₂]
    refine (live_applyEntries _ _ _ _).trans (Eq.trans ?_ (live_applyEntries _ _ _ _).symm)
    rw [h.live_first hnil]
  · rw [h.live_second hnil, hdb₁, hdb₂']
    refine (live_applyEntries _ _ _ _).trans (Eq.trans ?_ (live_applyEntries _ _ _ _).symm)
    rw [h'.live_first hnil]

/-- The tree has the same contents after both orders. -/
theorem btree_eq (h : TwoCommits db db₁ db₂ es es') (h' : TwoCommits db db₁' db₂' es' es)
    (hdisjoint : DisjointWrites es es') : db₂.btree.toMap = db₂'.btree.toMap := by
  have hfind : ∀ {db₁ db₂ : Db} {es es' : List WriteEntry}, TwoCommits db db₁ db₂ es es' →
      db₂.btree.WellFormed ∧ ∀ key, Lib.find db₂.btree.toMap key =
        ((writesOn key es').getLast?).getD
          (((writesOn key es).getLast?).getD (Lib.find db.btree.toMap key)) := by
    intro db₁ db₂ es es' h
    obtain ⟨mgr, wal, hdb₁⟩ := h.first
    obtain ⟨mgr₂, wal₂, hdb₂⟩ := h.second
    have hwf₁ := h.sound₁.1.wellFormed
    refine ⟨?_, fun key => ?_⟩
    · rw [hdb₂]
      exact (applyEntries_btree _ es' hwf₁ h.sound₁.1.linked).1
    · have hfirst : Lib.find db₁.btree.toMap key =
          ((writesOn key es).getLast?).getD (Lib.find db.btree.toMap key) := by
        rw [hdb₁]
        exact find_applyEntries db.clock es key h.sound.1.wellFormed
      rw [← hfirst, hdb₂]
      exact find_applyEntries db₁.clock es' key hwf₁
  obtain ⟨hwf, hone⟩ := hfind h
  obtain ⟨hwf', htwo⟩ := hfind h'
  refine hwf.sorted.ext hwf'.sorted fun key => ?_
  rw [hone, htwo]
  rcases hdisjoint.writesOn key with hnil | hnil <;> rw [hnil] <;> rfl

/-- The indexes after both commits. -/
theorem indexes_eq (h : TwoCommits db db₁ db₂ es es') : db₂.indexes = db.indexes.map fun idx =>
    es'.foldl (fun idx e => idx.upkeep (db₁.ht.live e.key) e)
      (es.foldl (fun idx e => idx.upkeep (db.ht.live e.key) e) idx) := by
  obtain ⟨mgr, wal, hdb₁⟩ := h.first
  obtain ⟨mgr₂, wal₂, hdb₂⟩ := h.second
  have hfirst : db₁.indexes = db.indexes.map fun idx =>
      es.foldl (fun idx e => idx.upkeep (db.ht.live e.key) e) idx := by
    rw [hdb₁]
    exact (applyEntries_upkeep h.sound.1.clock_pos (by have := h.sound.2; omega) es
      fun key => h.sound.1.htGet_before h.sound.2 key).1
  have hsecond : db₂.indexes = db₁.indexes.map fun idx =>
      es'.foldl (fun idx e => idx.upkeep (db₁.ht.live e.key) e) idx := by
    rw [hdb₂]
    exact (applyEntries_upkeep h.sound₁.1.clock_pos (by have := h.sound₁.2; omega) es'
      fun key => h.sound₁.1.htGet_before h.sound₁.2 key).1
  rw [hsecond, hfirst, List.map_map]
  rfl

/-- Both orders leave the same contents. -/
theorem sameContents (h : TwoCommits db db₁ db₂ es es') (h' : TwoCommits db db₁' db₂' es' es)
    (hdisjoint : DisjointWrites es es') (hkeyed : db.IndexesKeyed)
    (hsound₂ : db₂.Sound ∧ db₂.clock < tsMax) (hsound₂' : db₂'.Sound ∧ db₂'.clock < tsMax) :
    db₂.SameContents db₂' := by
  refine ⟨fun key => ?_, h.btree_eq h' hdisjoint, ?_⟩
  · rw [hsound₂.1.newest_eq hsound₂.2, hsound₂'.1.newest_eq hsound₂'.2]
    exact h.live_eq h' hdisjoint key
  · rw [h.indexes_eq, h'.indexes_eq, List.forall₂_map_left_iff, List.forall₂_map_right_iff,
      List.forall₂_same]
    intro idx hidx
    obtain ⟨hname, hfn⟩ := Index.foldl_upkeep_same (m := db.ht.live) es idx
    obtain ⟨hname₂, hfn₂⟩ := Index.foldl_upkeep_same (m := db₁.ht.live) es'
      (es.foldl (fun idx e => idx.upkeep (db.ht.live e.key) e) idx)
    obtain ⟨hname', hfn'⟩ := Index.foldl_upkeep_same (m := db.ht.live) es' idx
    obtain ⟨hname₂', hfn₂'⟩ := Index.foldl_upkeep_same (m := db₁'.ht.live) es
      (es'.foldl (fun idx e => idx.upkeep (db.ht.live e.key) e) idx)
    refine ⟨by rw [hname₂, hname, hname₂', hname'], by rw [hfn₂, hfn, hfn₂', hfn'], fun hzero => ?_⟩
    rw [hfn₂, hfn] at hzero
    exact (hkeyed idx hidx).commute hzero hdisjoint (fun key hnil => h.live_first hnil)
      fun key hnil => h'.live_first hnil

end TwoCommits

/-! ## Either order -/

/-- Committing an open transaction. -/
theorem serve_commit {s : Session} {i : ℕ} {txn : Txn} (hopen : s.txn i = some txn) :
    serve s (.action (.call (.commit i))) =
      ((txnCommit s.world txn).1, ⟨(txnCommit s.world txn).2.1, s.txns.set i none⟩) := by
  have hsys : s.sys.txn i = some txn := hopen
  simp only [serve, step, callStep, hsys]
  rfl

/-- Another transaction stays open. -/
theorem Session.txn_after_commit {s : Session} {i j : ℕ} {txn txn' : Txn} (hij : i ≠ j)
    (hopen : s.txn i = some txn) (hopen' : s.txn j = some txn') :
    (s.after (.action (.call (.commit i)))).txn j = some txn' := by
  unfold Session.after
  rw [serve_commit hopen]
  unfold Session.txn at hopen' ⊢
  rw [List.getElem?_set_ne hij]
  exact hopen'

/-- A session whose database is as the engine made it. -/
structure Session.Good (s : Session) : Prop where
  /-- The open transactions. -/
  txnsOk : s.TxnsOk
  /-- The stores. -/
  sound : s.world.db.Sound
  /-- The indexes. -/
  indexesKeyed : s.world.db.IndexesKeyed

/-- Every session is. -/
theorem Session.Good.after {s : Session} (h : s.Good) (hclock : s.clock + drawsMax < tsMax)
    (r : Request) : (s.after r).Good := by
  have hstores := (serve_moves hclock (fun _ _ _ => trivial)
    (Request.Meets.trivially s r)).invariant (I := fun db => db.Sound ∧ db.IndexesKeyed)
    (fun _ _ hmove h => ⟨h.1.move hmove, hmove.indexesKeyed h.1 h.2⟩) ⟨h.sound, h.indexesKeyed⟩
  exact ⟨h.txnsOk.after hclock r, hstores.1, hstores.2⟩

/-- A database that has been opened. -/
theorem session_good {opts : Opts} {fresh : Uuid} {disk : Disk} {w : World}
    (hintact : Intact opts disk.files) (h : fastkvOpen opts fresh disk = .ok w)
    (rs : List Request) (hclock : w.db.clock + drawsMax * rs.length < tsMax) :
    (session (.start w) rs).Good ∧
      (session (.start w) rs).clock ≤ w.db.clock + drawsMax * rs.length := by
  have hindexes : w.db.IndexesKeyed := by
    obtain ⟨s, snapTs, walMaxTs, wal, rc, -, hdb, -⟩ := fastkvOpen_cases h
    rw [hdb]
    intro idx hidx
    cases hidx
  unfold session
  exact exec_induction_of_growth (I := Session.Good) Session.clock drawsMax
    (fun s r _ hroom => Session.clock_after hroom r) (fun s r h hroom _ => h.after hroom r) rs
    ⟨Session.start_txnsOk w, fastkvOpen_sound hintact h, hindexes⟩ hclock
    (Permitted.of_forall rs _ fun _ _ _ => trivial)

/-- Two commits in a row, of transactions that write different keys. -/
theorem Session.Good.two_commits {s : Session} (h : s.Good)
    (hclock : s.clock + 2 * drawsMax < tsMax) (hworking : s.world.Working) {i j : ℕ}
    {txn txn' : Txn} (hij : i ≠ j) (hopen : s.txn i = some txn) (hopen' : s.txn j = some txn')
    (hrw : txn.readOnly = false) (hrw' : txn'.readOnly = false)
    (hdisjoint : DisjointWrites txn.writes txn'.writes) :
    let one := serve s (.action (.call (.commit i)))
    let two := serve one.2 (.action (.call (.commit j)))
    one.1 = dbCheckConflicts s.world.db txn.writes txn.beginTs ∧
      two.1 = dbCheckConflicts s.world.db txn'.writes txn'.beginTs ∧
      TwoCommits s.world.db one.2.world.db two.2.world.db (applied s.world.db txn)
        (applied s.world.db txn') ∧ two.2.world.db.Sound ∧ two.2.world.db.clock < tsMax := by
  intro one two
  have hroom : s.clock + drawsMax < tsMax := by omega
  have hfew : 1 < drawsMax := by decide
  have hgood₁ : one.2.Good := h.after hroom _
  have hle₁ : one.2.clock ≤ s.clock + drawsMax := Session.clock_after hroom _
  have hroom₁ : one.2.clock + drawsMax < tsMax := by omega
  have hle₂ : two.2.clock ≤ one.2.clock + drawsMax := Session.clock_after hroom₁ _
  have hopen₁ : one.2.txn j = some txn' := Session.txn_after_commit hij hopen hopen'
  have hroomOne : s.world.db.clock + 1 < tsMax := by
    unfold Session.clock at hroom
    omega
  have hroomTwo : one.2.world.db.clock + 1 < tsMax := by
    unfold Session.clock at hroom₁
    omega
  obtain ⟨hrc, hworking₁, mgr, wal, hdb₁⟩ :=
    txnCommit_applied hworking hroomOne (h.txnsOk i txn hopen).active hrw
  have hone : one = ((txnCommit s.world txn).1, ⟨(txnCommit s.world txn).2.1, s.txns.set i none⟩) :=
    serve_commit hopen
  have hworld₁ : one.2.world = (txnCommit s.world txn).2.1 := by rw [hone]
  rw [← hworld₁] at hworking₁ hdb₁
  obtain ⟨hrc₂, -, mgr₂, wal₂, hdb₂⟩ :=
    txnCommit_applied hworking₁ hroomTwo (hgood₁.txnsOk j txn' hopen₁).active hrw'
  obtain ⟨hcheck, happlied⟩ := applied_applied hdb₁ hdisjoint
  have htwo : two = ((txnCommit one.2.world txn').1,
      ⟨(txnCommit one.2.world txn').2.1, one.2.txns.set j none⟩) := serve_commit hopen₁
  have hworld₂ : two.2.world = (txnCommit one.2.world txn').2.1 := by rw [htwo]
  rw [← hworld₂, happlied] at hdb₂
  refine ⟨by rw [hone]; exact hrc, by rw [htwo]; exact hrc₂.trans hcheck,
    ⟨⟨mgr, wal, hdb₁⟩, ⟨mgr₂, wal₂, hdb₂⟩, ⟨h.sound, hroomOne⟩, hgood₁.sound, hroomTwo⟩,
    (hgood₁.after hroom₁ _).sound, ?_⟩
  unfold Session.clock at hle₂ hroom₁
  omega

/-- Two open transactions that write different keys can be committed in either order: each gets
the same return code, and the databases have the same contents. The log, if there
is one, is assumed to work: it has a segment, and the disk fails no call. -/
theorem commits_commute {opts : Opts} {fresh : Uuid} {disk : Disk} {w : World}
    (hintact : Intact opts disk.files) (h : fastkvOpen opts fresh disk = .ok w)
    (rs : List Request) (hclock : w.db.clock + drawsMax * (rs.length + 2) < tsMax)
    {i j : ℕ} (hij : i ≠ j) {txn txn' : Txn} :
    let s := session (.start w) rs
    s.txn i = some txn → s.txn j = some txn' → txn.readOnly = false → txn'.readOnly = false →
    DisjointWrites txn.writes txn'.writes → s.world.Working →
    let one := serve s (.action (.call (.commit i)))
    let two := serve one.2 (.action (.call (.commit j)))
    let one' := serve s (.action (.call (.commit j)))
    let two' := serve one'.2 (.action (.call (.commit i)))
    one.1 = two'.1 ∧ two.1 = one'.1 ∧ two.2.world.db.SameContents two'.2.world.db := by
  intro s hopen hopen' hrw hrw' hdisjoint hworking one two one' two'
  have hmul : drawsMax * (rs.length + 2) = drawsMax * rs.length + 2 * drawsMax := by ring
  obtain ⟨hgood, hle⟩ := session_good hintact h rs (by omega)
  have hroom : s.clock + 2 * drawsMax < tsMax := by
    have hs : s.clock ≤ w.db.clock + drawsMax * rs.length := hle
    omega
  obtain ⟨hone, htwo, hruns, hsound⟩ :=
    hgood.two_commits hroom hworking hij hopen hopen' hrw hrw' hdisjoint
  obtain ⟨hone', htwo', hruns', hsound'⟩ :=
    hgood.two_commits hroom hworking hij.symm hopen' hopen hrw' hrw hdisjoint.symm
  exact ⟨hone.trans htwo'.symm, htwo.trans hone'.symm, hruns.sameContents hruns'
    (hdisjoint.applied s.world.db) hgood.indexesKeyed hsound hsound'⟩

/-- Two transactions with a key each, in a table with one bucket and an index. -/
def writersApart : List Request :=
  [.indexCreate [] byValue, .action (.call (.begin false)), .action (.call (.begin false)),
    .action (.call (.put 0 [1] (some [10]))), .action (.call (.put 1 [2] (some [10])))]

/-- They can be committed in either order. -/
theorem commits_commute_writersApart :
    let s := session (.start newWorld) writersApart
    let one := serve s (.action (.call (.commit 0)))
    let two := serve one.2 (.action (.call (.commit 1)))
    let one' := serve s (.action (.call (.commit 1)))
    let two' := serve one'.2 (.action (.call (.commit 0)))
    one.1 = two'.1 ∧ two.1 = one'.1 ∧ two.2.world.db.SameContents two'.2.world.db := by
  have hworking : (session (.start newWorld) writersApart).world.Working := by
    intro wal hwal
    cases hwal
    exact ⟨rfl, fun o ho => (by cases ho)⟩
  have hfirst : (session (.start newWorld) writersApart).txn 0 =
      some ⟨1, tsInvalid, .active, false, some 0, [⟨[1], some [10]⟩], 1⟩ := rfl
  have hsecond : (session (.start newWorld) writersApart).txn 1 =
      some ⟨2, tsInvalid, .active, false, some 1, [⟨[2], some [10]⟩], 1⟩ := rfl
  refine commits_commute (intact_empty oneBucket) newWorld_opened writersApart (by decide +kernel)
    (by decide : (0 : ℕ) ≠ 1) hfirst hsecond rfl rfl ?_ hworking
  intro e he e' he'
  rw [List.mem_singleton.mp he, List.mem_singleton.mp he']
  decide

end FastKV
