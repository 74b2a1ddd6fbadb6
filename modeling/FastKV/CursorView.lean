import FastKV.Agreement
import FastKV.Cursor
import FastKV.Requests
import FastKV.WriteSet

/-!
# What a cursor lists

A cursor is opened on a transaction but copies the B+tree, which holds the newest committed
values. Read from one end to the other it therefore lists, each key once and in order, what a
transaction would read that begins when the cursor is opened. Neither the time at which its own
transaction began nor the writes which that has not committed yet play a part.
-/

namespace FastKV

open Lib

/-! ## Sessions without empty values -/

/-- No value that the request puts is empty. -/
def Request.NonEmpty : Request → Prop
  | .action (.call (.put _ _ value)) => value ≠ some []
  | .put _ value => value ≠ some []
  | .putTtl _ _ value _ => value ≠ some []
  | _ => True

/-- Sessions that put no empty values and do not use up the clock, from a directory that such
sessions have left: segments of the log and, possibly, a snapshot. -/
inductive Session.Reached : Session → Prop
  /-- A directory without a snapshot is opened. -/
  | created {opts : Opts} {fresh : Uuid} {disk : Disk} {segs : List (Uuid × List Record)}
      {w : World} :
      NewestSnap disk.files none → SegmentLog disk.files segs →
      (∀ r ∈ segs.flatMap Prod.snd, r.Proper) → fastkvOpen opts fresh disk = .ok w →
      Reached (.start w)
  /-- A directory with the snapshot of an earlier session is opened. -/
  | opened {opts : Opts} {fresh : Uuid} {disk : Disk} {segs : List (Uuid × List Record)}
      {s₀ : Session} {w : World} (id : Uuid) (ts : ℕ) : Reached s₀ →
      NewestSnap disk.files (some ⟨id, ts, s₀.world.db.ht⟩) → SegmentLog disk.files segs →
      (∀ r ∈ segs.flatMap Prod.snd, r.Proper) → fastkvOpen opts fresh disk = .ok w →
      Reached (.start w)
  /-- A request is served. -/
  | request {s : Session} (r : Request) : Reached s → s.clock + drawsMax < tsMax → r.NonEmpty →
      Reached (s.after r)

/-- The stores agree, and all keys have the permitted length. -/
structure Stores.Tidy (s : Stores) : Prop extends s.Agree where
  /-- Keys that can be read have the permitted length. -/
  fits : ∀ key value, s.ht.live key = some value → key.length ≤ maxKeyLen

/-- A record with a key of permitted length. -/
def Record.Fitting (r : Record) : Prop := r.Proper ∧ r.key.length ≤ maxKeyLen

/-- Such records and collections keep the stores tidy. -/
theorem Stores.Tidy.runs {s s' : Stores} (h : s.Tidy) (hruns : s.Runs Record.Fitting s') :
    s'.Tidy := by
  refine hruns.invariant (fun s r hr hs => ?_) (fun s m hm hs => ?_) h
  · refine ⟨hs.replayRecord hr.1, fun key value hlive => ?_⟩
    rw [live_replayRecord] at hlive
    unfold Record.update at hlive
    have hupdate : ∀ new : Slice, Function.update s.ht.live r.key new key = some value →
        key.length ≤ maxKeyLen := by
      intro new hnew
      by_cases hkey : key = r.key
      · rw [hkey]
        exact hr.2
      · rw [Function.update_of_ne hkey] at hnew
        exact hs.fits key value hnew
    cases htype : r.type with
    | put | delete =>
      simp only [htype] at hlive
      exact hupdate _ hlive
    | commit | begin =>
      simp only [htype] at hlive
      exact hs.fits key value hlive
  · refine ⟨hs.gc hm, fun key value hlive => hs.fits key value ?_⟩
    exact (live_htGc hs.oneLive hm key).symm.trans hlive

/-- Opening a directory whose snapshot, if there is one, is of a tidy table. -/
theorem fastkvOpen_tidy {opts : Opts} {fresh : Uuid} {disk : Disk} {snap : Option Snap}
    {segs : List (Uuid × List Record)} {w : World} (hsnap : NewestSnap disk.files snap)
    (hlog : SegmentLog disk.files segs) (hproper : ∀ r ∈ segs.flatMap Prod.snd, r.Proper)
    (htidy : ∀ sn ∈ snap, sn.ts < tsMax ∧ ∃ s₀ : Stores, s₀.Tidy ∧ sn.ht = s₀.ht)
    (hopen : fastkvOpen opts fresh disk = .ok w) :
    w.db.Sound ∧ w.db.stores.Tidy ∧ w.db.clock ≤ tsMax := by
  have hts : ∀ r ∈ segs.flatMap Prod.snd, r.ts < tsMax := fun r hr => (hproper r hr).1
  have hintact := hlog.intact hsnap hts opts
  have hnew : opts.stores.Tidy := by
    refine ⟨opts.stores_agree, fun key value hlive => ?_⟩
    rw [Opts.stores, Ht.live, versions_htCreate] at hlive
    cases hlive
  have hloaded : opts.stores.Runs Record.Fitting (loaded opts.stores snap) := by
    rw [loaded_eq_records]
    refine .records _ fun r hr => ?_
    cases snap with
    | none => cases hr
    | some sn =>
      obtain ⟨hsnTs, s₀, hs₀, hht⟩ := htidy sn rfl
      obtain ⟨e, he, rfl⟩ := List.mem_map.mp hr
      rw [hht] at he
      have hlive := hs₀.oneLive.live_of_mem_snapEntries he
      exact ⟨⟨hsnTs, fun _ => hs₀.noEmpty.live_ne hlive⟩, hs₀.fits _ _ hlive⟩
  have hreplayed : (loaded opts.stores snap).Runs Record.Fitting w.db.stores := by
    rw [hlog.stores_open hsnap rfl hopen]
    refine .records _ fun r hr => ?_
    have hmem := List.mem_of_mem_filter hr
    obtain ⟨seg, hseg, hr'⟩ := List.mem_flatMap.mp hmem
    exact ⟨hproper r hmem, ((hlog.holds seg hseg).valid r hr').key_le⟩
  exact ⟨fastkvOpen_sound hintact hopen, hnew.runs (hloaded.trans hreplayed),
    fastkvOpen_clock_le hintact hopen⟩

/-- Writes that put no empty values and have permitted sizes. -/
def FittingWrites (_ : Db) : Change → Prop
  | .write es => ∀ e ∈ es, e.value ≠ some [] ∧ e.Permitted
  | .expiry _ => True
  | .index _ => True

/-- Moves with such entries keep the stores tidy. -/
theorem Db.Move.tidy {db db' : Db} (hmove : Db.Move FittingWrites db db') (h : db.stores.Tidy) :
    db'.stores.Tidy := by
  cases hmove with
  | manage | expiry | indexCreate => exact h
  | indexDrop name =>
    unfold fastkvIndexDrop
    split <;> exact h
  | collect m hm => exact h.runs (.gc m .refl hm)
  | write es txnMgr wal hroom hclock hcond =>
    show (applyEntries db.clock es db).stores.Tidy
    rw [applyEntries_stores]
    refine h.runs (.records _ fun r hr => ?_)
    obtain ⟨e, he, rfl⟩ := List.mem_map.mp hr
    exact ⟨WriteEntry.record_proper (hcond e he).1 (by omega), (hcond e he).2.1⟩

/-- What holds in such sessions. -/
structure Session.Tidy (s : Session) : Prop where
  /-- The database is sound. -/
  sound : s.world.db.Sound
  /-- Table and tree agree. -/
  stores : s.world.db.stores.Tidy
  /-- The clock is in range. -/
  clock_le : s.clock ≤ tsMax
  /-- Transactions are as the engine made them. -/
  txns : s.TxnsOk
  /-- They put no empty values. -/
  nonEmpty : ∀ i txn, s.txn i = some txn → ∀ e ∈ txn.writes, e.value ≠ some []

/-- A request keeps it. -/
theorem Session.Tidy.after {s : Session} (h : s.Tidy) {r : Request}
    (hclock : s.clock + drawsMax < tsMax) (hr : r.NonEmpty) : (s.after r).Tidy := by
  have hmeets : r.Meets FittingWrites s := by
    refine ⟨fun i txn _ hopen _ es _ hes _ e he => ?_, fun e hentry hfit mgr e' he' => ?_,
      fun _ _ _ _ _ _ => trivial, fun _ _ _ => trivial⟩
    · have hmem := hes.subset he
      exact ⟨h.nonEmpty i txn hopen e hmem, (h.txns i txn hopen).permitted e hmem⟩
    · rw [List.mem_singleton.mp he']
      refine ⟨?_, hfit⟩
      cases r with
      | put key value => exact Option.some.inj hentry ▸ hr
      | putTtl now key value ttlMs => exact Option.some.inj hentry ▸ hr
      | delete key => exact Option.some.inj hentry ▸ (by simp)
      | action | expire | indexCreate | indexDrop => cases hentry
  have hdelete : ∀ (db : Db) (key : Bytes), key.length ≤ maxKeyLen →
      FittingWrites db (.write [⟨key, none⟩]) := by
    intro db key hkey e he
    rw [List.mem_singleton.mp he]
    exact ⟨by simp, hkey, fun v hv => by cases hv⟩
  have hmoves := serve_moves hclock hdelete hmeets
  have hle := Session.clock_after hclock r
  refine ⟨hmoves.invariant (fun _ _ hm hs => hs.move hm) h.sound,
    hmoves.invariant (I := fun db => db.stores.Tidy) (fun _ _ hm hs => hm.tidy hs) h.stores,
    by omega, h.txns.after hclock r, fun i txn hopen e he => ?_⟩
  rcases Session.mem_writes_after hopen he with ⟨txn₀, hopen₀, he₀⟩ | rfl | ⟨-, hnone⟩
  · exact h.nonEmpty i txn₀ hopen₀ e he₀
  · exact hr
  · rw [hnone]
    simp

/-- It holds in every one of them. -/
theorem Session.Reached.tidy {s : Session} (h : s.Reached) : s.Tidy := by
  have hstart : ∀ {w : World}, w.db.Sound ∧ w.db.stores.Tidy ∧ w.db.clock ≤ tsMax →
      (Session.start w).Tidy := by
    rintro w ⟨hsound, htidy, hle⟩
    refine ⟨hsound, htidy, hle, Session.start_txnsOk w, fun i txn hopen => ?_⟩
    simp [Session.txn, Session.start] at hopen
  induction h with
  | created hsnap hlog hproper hopen =>
    exact hstart (fastkvOpen_tidy hsnap hlog hproper (fun sn hsn => by cases hsn) hopen)
  | opened id ts _ hsnap hlog hproper hopen ih =>
    refine hstart (fastkvOpen_tidy hsnap hlog hproper (fun sn hsn => ?_) hopen)
    rw [← Option.some.inj hsn]
    exact ⟨hsnap.ts_lt, _, ih.stores, rfl⟩
  | request r _ hclock hr ih => exact ih.after hclock hr

/-! ## Draining a cursor -/

/-- Read a cursor to its end: key and value under it, then one step, at most `fuel` times. -/
def drain : ℕ → Cursor → List (Bytes × Bytes)
  | 0, _ => []
  | fuel + 1, c =>
    match cursorKey c, cursorValue c with
    | .ok key, .ok value => (key, value) :: drain fuel (cursorNext c).2
    | _, _ => []

/-- Inside the entries, one of them is read before the step. -/
theorem drain_succ {c : Cursor} {pos : ℕ} (hpos : c.pos = pos) (hlt : pos < c.entries.length)
    (fuel : ℕ) : drain (fuel + 1) c = c.entries[pos] :: drain fuel (cursorNext c).2 := by
  have hentry : c.entry = .ok c.entries[pos] := by
    unfold Cursor.entry
    rw [if_neg (by omega), hpos]
    simp [List.getD_eq_getElem?_getD, List.getElem?_eq_getElem hlt]
  simp only [drain, cursorKey, cursorValue, hentry, Except.map]

/-- Outside the entries nothing is read. -/
theorem drain_of_outside {c : Cursor} (h : c.pos < 0 ∨ c.entries.length ≤ c.pos) (fuel : ℕ) :
    drain fuel c = [] := by
  have hentry : c.entry = .error .cursorEof := by
    unfold Cursor.entry
    rw [if_pos h]
  cases fuel with
  | zero => rfl
  | succ fuel => simp only [drain, cursorKey, hentry, Except.map]

/-- A forward cursor reads the entries from its position on. -/
theorem drain_forward (entries : List (Bytes × Bytes)) (fuel : ℕ) : ∀ pos : ℕ,
    entries.length < pos + fuel → drain fuel ⟨entries, pos, .forward⟩ = entries.drop pos := by
  induction fuel with
  | zero =>
    intro pos hfuel
    rw [List.drop_eq_nil_of_le (by omega)]
    rfl
  | succ fuel ih =>
    intro pos hfuel
    by_cases hlt : pos < entries.length
    · have hnext : (cursorNext ⟨entries, pos, .forward⟩).2 =
          ⟨entries, ((pos + 1 : ℕ) : ℤ), .forward⟩ := by simp [cursorNext]
      rw [drain_succ rfl hlt, hnext, ih (pos + 1) (by omega)]
      exact (List.drop_eq_getElem_cons hlt).symm
    · rw [drain_of_outside (Or.inr (by simpa using hlt)), List.drop_eq_nil_of_le (by omega)]

/-- A backward cursor reads the entries in front of its end in reverse. -/
theorem drain_backward (entries : List (Bytes × Bytes)) (fuel : ℕ) : ∀ n : ℕ, n ≤ entries.length →
    n < fuel → drain fuel ⟨entries, n - 1, .backward⟩ = (entries.take n).reverse := by
  induction fuel with
  | zero => exact fun n _ hfuel => absurd hfuel (Nat.not_lt_zero n)
  | succ fuel ih =>
    intro n hn hfuel
    cases n with
    | zero => exact drain_of_outside (Or.inl (by simp)) _
    | succ n =>
      have hpos : ((n + 1 : ℕ) : ℤ) - 1 = (n : ℕ) := by omega
      have hnext : (cursorNext ⟨entries, n, .backward⟩).2 = ⟨entries, n - 1, .backward⟩ := rfl
      rw [hpos, drain_succ rfl hn, hnext, ih n (by omega) (by omega),
        List.take_succ_eq_append_getElem hn, List.reverse_append, List.reverse_singleton,
        List.singleton_append]

/-- The order in which a direction lists keys. -/
def CursorDir.Before : CursorDir → Bytes → Bytes → Prop
  | .forward, a, b => a < b
  | .backward, a, b => b < a

/-- A new cursor, read to its end, lists the pairs of a view, each key once and in order. -/
def CursorLists (db : Db) (dir : CursorDir) (view : Bytes → Bytes → Prop) : Prop :=
  ∃ c pairs, cursorOpen db dir = .ok c ∧ (∀ fuel, c.entries.length < fuel → drain fuel c = pairs) ∧
    (pairs.Pairwise fun a b => dir.Before a.1 b.1) ∧
    ∀ key value, (key, value) ∈ pairs ↔ view key value

/-- A cursor lists the tree. -/
theorem cursorLists_tree {db : Db} (hwf : db.btree.WellFormed) (hlinked : db.btree.Linked)
    (dir : CursorDir) :
    CursorLists db dir fun key value => Lib.find db.btree.toMap key = some value := by
  have hsorted := hwf.sorted
  have hmem : ∀ key value, (key, value) ∈ db.btree.toMap ↔
      Lib.find db.btree.toMap key = some value := fun key value => hsorted.mem_iff_find key value
  cases dir with
  | forward =>
    refine ⟨_, db.btree.toMap, cursorOpen_eq hwf hlinked _, fun fuel hfuel => ?_, hsorted, hmem⟩
    exact drain_forward db.btree.toMap fuel 0 (by simpa using hfuel)
  | backward =>
    refine ⟨_, db.btree.toMap.reverse, cursorOpen_eq hwf hlinked _, fun fuel hfuel => ?_, ?_, ?_⟩
    · have hall := drain_backward db.btree.toMap fuel db.btree.toMap.length (Nat.le_refl _) hfuel
      rw [List.take_length] at hall
      exact hall
    · exact List.pairwise_reverse.mpr hsorted
    · intro key value
      rw [List.mem_reverse]
      exact hmem key value

/-- In every state of a session without empty values, a cursor lists what a transaction reads
that begins at this moment. -/
theorem cursor_lists_committed {s : Session} (h : s.Reached) (hclock : s.clock < tsMax)
    (dir : CursorDir) : ∃ txn db, txnBegin s.world.db true = .ok (txn, db) ∧
      CursorLists s.world.db dir fun key value => txnGet db txn key = .ok value := by
  have htidy := h.tidy
  obtain ⟨txn, db, hbegin⟩ : ∃ txn db, txnBegin s.world.db true = .ok (txn, db) := ⟨_, _, rfl⟩
  refine ⟨txn, db, hbegin, ?_⟩
  obtain ⟨c, pairs, hopen, hdrain, horder, hmem⟩ :=
    cursorLists_tree htidy.sound.wellFormed htidy.sound.linked dir
  refine ⟨c, pairs, hopen, hdrain, horder, fun key value => (hmem key value).trans ?_⟩
  have hfind : Lib.find s.world.db.btree.toMap key = s.world.db.ht.live key := htidy.stores.find key
  show Lib.find s.world.db.btree.toMap key = some value ↔ txnGet db txn key = .ok value
  rw [txnGet_begun hbegin htidy.sound.bounded hclock, hfind]
  constructor
  · intro hlive
    rw [if_neg (Nat.not_lt.mpr (htidy.stores.fits key value hlive)), hlive]
    rfl
  · intro hread
    split at hread
    · cases hread
    · exact readResult_inj hread

/-- A new database without a snapshot or a log. -/
theorem Session.reached_new : (Session.start newWorld).Reached :=
  .created NewestSnap.empty SegmentLog.empty (by simp) newWorld_opened

/-- A transaction has begun, and after that a key is put. -/
def putAfterBegin : Session :=
  session (.start newWorld) [.action (.call (.begin true)), .put [1] (some [10])]

/-- The cursor lists the key. -/
theorem cursor_lists_committed_later : ∃ txn db,
    txnBegin putAfterBegin.world.db true = .ok (txn, db) ∧
      CursorLists putAfterBegin.world.db .backward fun key value =>
        txnGet db txn key = .ok value := by
  have hbegun := Session.Reached.request (.action (.call (.begin true))) Session.reached_new
    (by decide +kernel) trivial
  have hput := Session.Reached.request (.put [1] (some [10])) hbegun (by decide +kernel)
    (by simp [Request.NonEmpty])
  exact cursor_lists_committed hput (by decide +kernel) .backward

/-- A transaction that has put a key and not committed yet. -/
def ownPut : Session :=
  session (.start newWorld)
    [.action (.call (.begin false)), .action (.call (.put 0 [1] (some [10])))]

/-- A transaction reads its own write and its cursor does not list it. -/
theorem cursor_misses_own_write : ¬ ∀ s : Session, s.Reached → s.clock < tsMax → ∀ i txn,
    s.txn i = some txn → ∀ dir, CursorLists s.world.db dir fun key value =>
      txnGet s.world.db txn key = .ok value := by
  intro hclaim
  have hbegun := Session.Reached.request (.action (.call (.begin false))) Session.reached_new
    (by decide +kernel) trivial
  have hput := Session.Reached.request (.action (.call (.put 0 [1] (some [10])))) hbegun
    (by decide +kernel) (by simp [Request.NonEmpty])
  obtain ⟨txn, htxn, hget⟩ : ∃ txn, ownPut.txn 0 = some txn ∧
      txnGet ownPut.world.db txn [1] = .ok [10] := ⟨_, rfl, by decide +kernel⟩
  obtain ⟨c, pairs, hopen, hdrain, -, hmem⟩ :=
    hclaim ownPut hput (by decide +kernel) 0 txn htxn .forward
  have hempty : cursorOpen ownPut.world.db .forward = .ok ⟨[], 0, .forward⟩ := by decide +kernel
  rw [hempty] at hopen
  have hnone := hdrain 1 (by rw [← Except.ok.inj hopen]; decide)
  rw [← Except.ok.inj hopen] at hnone
  have hlisted := (hmem [1] [10]).mpr hget
  rw [← hnone] at hlisted
  cases hlisted

end FastKV
