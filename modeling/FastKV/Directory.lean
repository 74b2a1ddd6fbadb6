import FastKV.Quiet
import FastKV.Replay
import FastKV.SnapshotRoundTrip
import FastKV.WriteSet

/-!
# What a directory stands for

A directory with a complete newest snapshot and readable segments opens, and the map of the
opened database is the one of the snapshot, updated by the records that are newer than it.
The lemmas here say what single file operations do to the two parts.
-/

namespace FastKV

open Lib

/-! ## Names -/

/-- No name is that of a segment and of a snapshot. -/
theorem matchName_exclusive (n : Name) :
    matchName walPfx walSfx n = none ∨ matchName snapPfx snapSfx n = none := by
  cases n with
  | nil => exact Or.inl rfl
  | cons c cs =>
    by_cases hc : 'w' = c
    · right
      have hpre : snapPfx.isPrefixOf (c :: cs) = false := by
        rw [← hc]
        rfl
      simp [matchName, hpre]
    · left
      have hpre : walPfx.isPrefixOf (c :: cs) = false := by
        simp [walPfx, List.isPrefixOf, hc]
      simp [matchName, hpre]

/-- A segment is not a snapshot. -/
theorem matchName_snap_segName (id : Uuid) : matchName snapPfx snapSfx (segName id.hex) = none :=
  (matchName_exclusive _).resolve_left (by simp [matchName_segName])

/-- A name with an identifier passes the test. -/
theorem IsSnap.matchName_ne {id : Uuid} {n : Name} (h : IsSnap id n) :
    matchName snapPfx snapSfx n ≠ none := by
  obtain ⟨rest, -, hmatch⟩ := h
  simp [hmatch]

/-- A snapshot is not a segment. -/
theorem IsSnap.matchName_wal {id : Uuid} {n : Name} (h : IsSnap id n) :
    matchName walPfx walSfx n = none :=
  (matchName_exclusive n).resolve_right h.matchName_ne

/-- A temporary file is not a snapshot. -/
theorem snapTmpName_ne_snapName (a b : Uuid) : snapTmpName a.hex ≠ snapName b.hex := by
  intro heq
  have hlen := congrArg List.length heq
  simp [snapTmpName, snapName, a.length_hex, b.length_hex] at hlen

/-! ## Snapshots -/

/-- A snapshot: its identifier, its timestamp and the table it was taken from. -/
structure Snap where
  /-- The identifier. -/
  id : Uuid
  /-- The timestamp. -/
  ts : ℕ
  /-- The table. -/
  ht : Ht

/-- The snapshot is in the directory, complete, and there is no newer one. -/
structure Snap.In (snap : Snap) (files : Files) : Prop where
  /-- The file. -/
  file : files.lookup (snapName snap.id.hex) = some (snapshotBytes snap.ts snap.ht)
  /-- Other files are older, or not snapshots. -/
  newest : ∀ n ∈ files, matchName snapPfx snapSfx n = none ∨ n = snapName snap.id.hex ∨
    ∃ id < snap.id, IsSnap id n
  /-- Lengths fit their fields. -/
  fits : ∀ e ∈ snapEntries snap.ht, FitsEntry e
  /-- The timestamp is an ordinary one. -/
  ts_lt : snap.ts < tsMax

/-- The newest snapshot of a directory, if there is one. -/
def NewestSnap (files : Files) : Option Snap → Prop
  | none => ∀ n ∈ files, matchName snapPfx snapSfx n = none
  | some snap => snap.In files

/-- The timestamp from which the log is replayed. -/
def snapTs : Option Snap → ℕ
  | none => 0
  | some snap => snap.ts

/-- The structures after loading. -/
def loaded (s : Stores) : Option Snap → Stores
  | none => s
  | some snap => (snapEntries snap.ht).foldl (loadEntry snap.ts) s

section NewestSnap

variable {files files' : Files} {snap : Option Snap}

/-- The newest snapshot is picked. -/
theorem Snap.In.find {snap : Snap} (h : snap.In files) :
    findLatestSnapshot files = some (snapName snap.id.hex) := by
  refine findLatestSnapshot_eq (isSnap_snapName snap.id) ?_ h.newest
  rw [← AList.lookup_isSome, h.file]
  rfl

/-- An empty directory has no snapshot. -/
theorem NewestSnap.empty : NewestSnap ∅ none := fun n hn => absurd hn (AList.notMem_empty n)

/-- The newest snapshot is loaded. -/
theorem NewestSnap.load (h : NewestSnap files snap) (s : Stores) :
    snapshotLoad files s = (.ok, loaded s snap, snapTs snap) := by
  cases snap with
  | none => simp only [snapshotLoad, findLatestSnapshot_eq_none h, loaded, snapTs]
  | some snap =>
    have hin : snap.In files := h
    have hts := hin.ts_lt
    simp only [snapshotLoad, hin.find, hin.file, loaded, snapTs]
    exact loadFile_snapshotBytes hin.fits (by unfold tsMax at hts; omega) s

/-- The timestamp of a snapshot is an ordinary one. -/
theorem NewestSnap.ts_lt (h : NewestSnap files snap) : snapTs snap < tsMax := by
  cases snap with
  | none => exact (by decide : 0 < tsMax)
  | some snap => exact Snap.In.ts_lt h

/-- Files that are not snapshots do not matter. -/
theorem NewestSnap.of_lookup (h : NewestSnap files snap)
    (heq : ∀ n, matchName snapPfx snapSfx n ≠ none → files'.lookup n = files.lookup n) :
    NewestSnap files' snap := by
  have hmem : ∀ n ∈ files', matchName snapPfx snapSfx n ≠ none → n ∈ files := by
    intro n hn hmatch
    rw [← AList.lookup_isSome, heq n hmatch] at hn
    exact AList.lookup_isSome.mp hn
  cases snap with
  | none =>
    intro n hn
    by_contra hmatch
    exact hmatch (h n (hmem n hn hmatch))
  | some snap =>
    have hin : snap.In files := h
    refine ⟨?_, fun n hn => ?_, hin.fits, hin.ts_lt⟩
    · rw [heq _ (isSnap_snapName snap.id).matchName_ne]
      exact hin.file
    · by_cases hmatch : matchName snapPfx snapSfx n = none
      · exact Or.inl hmatch
      · exact hin.newest n (hmem n hn hmatch)

/-- Removing another file. -/
theorem Snap.In.remove {snap : Snap} (h : snap.In files) {n : Name}
    (hn : n ≠ snapName snap.id.hex) : snap.In (applyOp files (.remove n)) where
  file := (AList.lookup_erase_ne hn.symm).trans h.file
  newest m hm := h.newest m (AList.mem_erase.mp hm).2
  fits := h.fits
  ts_lt := h.ts_lt

end NewestSnap

/-! ## Segments -/

section Segments

variable {files files' : Files}

/-- Files that are not segments do not matter. -/
theorem SegmentDir.of_segments {ids : List Uuid} (h : SegmentDir files ids)
    (heq : ∀ n, matchName walPfx walSfx n ≠ none → files'.lookup n = files.lookup n) :
    SegmentDir files' ids where
  sorted := h.sorted
  present id hid := by
    rw [← AList.lookup_isSome, heq _ (by simp [matchName_segName])]
    exact AList.lookup_isSome.mpr (h.present id hid)
  only n hn := by
    by_cases hmatch : matchName walPfx walSfx n = none
    · exact Or.inl hmatch
    · rw [← AList.lookup_isSome, heq n hmatch] at hn
      exact h.only n (AList.lookup_isSome.mp hn)

/-- An empty directory has no segments. -/
theorem SegmentLog.empty : SegmentLog ∅ [] := ⟨.empty, by simp⟩

/-- Files that are not segments do not matter. -/
theorem SegmentLog.of_segments {segs : List (Uuid × List Record)} (h : SegmentLog files segs)
    (heq : ∀ n, matchName walPfx walSfx n ≠ none → files'.lookup n = files.lookup n) :
    SegmentLog files' segs :=
  ⟨h.dir.of_segments heq, fun seg hseg =>
    (h.holds seg hseg).of_lookup (heq _ (by simp [matchName_segName]))⟩

/-- Files that are not segments do not matter. -/
theorem Log.Holds.of_segments {s : Log} {older : List (Uuid × List Record)} {id : Uuid}
    {cur : List Record} (h : s.Holds older id cur) {d : Disk}
    (heq : ∀ n, matchName walPfx walSfx n ≠ none → d.files.lookup n = s.disk.files.lookup n) :
    Log.Holds ⟨s.wal, d⟩ older id cur where
  dir := h.dir.of_segments heq
  older_holds seg hseg := (h.older_holds seg hseg).of_lookup (heq _ (by simp [matchName_segName]))
  segment := h.segment
  attached := by
    obtain ⟨stored, n, hfile, hlen⟩ := h.attached.file
    refine ⟨h.attached.io, ⟨stored, n, ?_, hlen⟩, fun _ _ => rfl, rfl, rfl⟩
    rw [heq _ (by simp [matchName_segName])]
    exact hfile
  le_cap := h.le_cap
  stream := by
    rw [← h.stream, Log.stream, Log.stream, heq _ (by simp [matchName_segName])]
  valid := h.valid

/-- Removing a segment. -/
theorem SegmentLog.remove {segs : List (Uuid × List Record)} (h : SegmentLog files segs)
    (id : Uuid) : SegmentLog (applyOp files (.remove (segName id.hex)))
      (segs.filter fun seg => decide (seg.1 ≠ id)) := by
  have hids : (segs.filter fun seg => decide (seg.1 ≠ id)).map Prod.fst =
      (segs.map Prod.fst).filter fun i => decide (i ≠ id) := by
    rw [List.filter_map]
    rfl
  refine ⟨⟨?_, fun i hi => ?_, fun n hn => ?_⟩, fun seg hseg => ?_⟩
  · rw [hids]
    exact h.dir.sorted.sublist List.filter_sublist
  · rw [hids, List.mem_filter, decide_eq_true_eq] at hi
    exact AList.mem_erase.mpr ⟨fun heq => hi.2 (segName_inj heq), h.dir.present i hi.1⟩
  · obtain ⟨hne, hmem⟩ := AList.mem_erase.mp hn
    refine (h.dir.only n hmem).imp_right fun ⟨i, hi, heq⟩ => ⟨i, ?_, heq⟩
    rw [hids, List.mem_filter, decide_eq_true_eq]
    exact ⟨hi, fun hid => hne (by rw [heq, hid])⟩
  · rw [List.mem_filter, decide_eq_true_eq] at hseg
    exact (h.holds seg hseg.1).of_lookup
      (AList.lookup_erase_ne fun heq => hseg.2 (segName_inj heq))

/-- Creating a new segment. -/
theorem SegmentLog.create {segs : List (Uuid × List Record)} (h : SegmentLog files segs)
    {fresh : Uuid} (hfresh : ∀ seg ∈ segs, seg.1 < fresh) :
    SegmentLog (applyOp files (.create (segName fresh.hex))) (segs ++ [(fresh, [])]) := by
  have hall : ∀ i ∈ segs.map Prod.fst, i < fresh := by
    intro i hi
    obtain ⟨seg, hseg, rfl⟩ := List.mem_map.mp hi
    exact hfresh seg hseg
  obtain ⟨hdir, hlookup⟩ := h.dir.create hall
  refine ⟨by simpa using hdir, fun seg hseg => ?_⟩
  rcases List.mem_append.mp hseg with hold | hnew
  · exact (h.holds seg hold).of_lookup
      (lookup_create_ne _ fun heq => absurd (segName_inj heq) (ne_of_lt (hfresh seg hold)))
  · rw [List.mem_singleton.mp hnew]
    exact ⟨by simp, [], hlookup, rfl⟩

/-- The largest timestamp in a readable log. -/
theorem SegmentLog.maxTs_lt {segs : List (Uuid × List Record)} (h : SegmentLog files segs)
    {bound : ℕ} (hts : ∀ r ∈ segs.flatMap Prod.snd, r.ts < bound) {sinceTs : ℕ}
    (hsince : sinceTs < bound) (s : Stores) :
    (walReplay sinceTs walReplayCb files s 0).2.2 < bound := by
  have hmax : ∀ fs : List Frame, (∀ f ∈ fs, f.ts < bound) → ∀ m < bound,
      fs.foldl (fun m f => max m f.ts) m < bound := by
    intro fs
    induction fs with
    | nil => exact fun _ m hm => hm
    | cons f fs ih =>
      intro hfs m hm
      have hf := hfs f (by simp)
      exact ih (fun g hg => hfs g (by simp [hg])) (max m f.ts) (by omega)
  have hsegs : ∀ segs : List (Uuid × List Record), (∀ seg ∈ segs, SegmentHolds files seg) →
      (∀ r ∈ segs.flatMap Prod.snd, r.ts < bound) → ∀ m < bound,
        (segs.map fun seg => seg.1.hex).foldl (segmentMaxTs files) m < bound := by
    intro segs
    induction segs with
    | nil => exact fun _ _ m hm => hm
    | cons seg segs ih =>
      intro hholds hts m hm
      rw [List.flatMap_cons] at hts
      refine ih (fun seg' hseg' => hholds seg' (by simp [hseg']))
        (fun r hr => hts r (List.mem_append_right _ hr)) _ ?_
      obtain ⟨bytes, hfile, hscan⟩ := (hholds seg (by simp)).file
      simp only [segmentMaxTs, hfile, hscan]
      refine hmax _ (fun f hf => ?_) m hm
      obtain ⟨r, hr, rfl⟩ := List.mem_map.mp hf
      exact hts r (List.mem_append_left _ hr)
  have hids : collectSegments files = segs.map fun seg => seg.1.hex := by
    rw [h.dir.collectSegments_eq, List.map_map]
    rfl
  have hall := hsegs segs h.holds hts sinceTs hsince
  rw [← hids] at hall
  unfold walReplay
  cases hc : collectSegments files with
  | nil => exact Nat.zero_lt_of_lt hsince
  | cons id ids =>
    have heq := replaySegments_eq sinceTs replayRecord files (id :: ids) s sinceTs
    rw [hc] at hall
    have hcb : replaySegments sinceTs walReplayCb files (id :: ids) s sinceTs = _ := heq
    simp only [hcb]
    exact hall

end Segments

/-! ## Opening a directory -/

section Open

variable {files : Files} {snap : Option Snap} {segs : List (Uuid × List Record)}

/-- A directory with a complete newest snapshot and readable segments is intact. -/
theorem SegmentLog.intact (hlog : SegmentLog files segs) (hsnap : NewestSnap files snap)
    (hts : ∀ r ∈ segs.flatMap Prod.snd, r.ts < tsMax) (opts : Opts) : Intact opts files := by
  have hload := hsnap.load opts.stores
  refine ⟨by rw [hload], ?_, ?_⟩
  · rw [hload]
    exact hsnap.ts_lt
  · rw [hload]
    exact hlog.maxTs_lt hts hsnap.ts_lt _

/-- It can be opened. -/
theorem NewestSnap.open_ok (hsnap : NewestSnap files snap) (opts : Opts) (fresh : Uuid) :
    ∃ w, fastkvOpen opts fresh ⟨files, [], []⟩ = .ok w := by
  obtain ⟨log, hopen, -⟩ := walOpen_quiet (d := ⟨files, [], []⟩) (fun o ho => by cases ho)
    opts.syncWrites fresh
  obtain ⟨maxTs, hreplay, -⟩ := walReplay_eq (snapTs snap) replayRecord files
    (loaded opts.stores snap) 0
  have hcb : walReplay (snapTs snap) walReplayCb files (loaded opts.stores snap) 0 = _ := hreplay
  unfold fastkvOpen
  simp only [hsnap.load opts.stores, hcb, ne_eq, not_true_eq_false, false_and, if_false, hopen]
  split
  · exact ⟨_, rfl⟩
  · exact ⟨_, rfl⟩

/-- The structures of an opened database: the snapshot is loaded, and then the newer records
are applied. -/
theorem SegmentLog.opened_eq (hlog : SegmentLog files segs) (hsnap : NewestSnap files snap)
    {opts : Opts} {fresh : Uuid} {disk : Disk} {w : World} (hfiles : disk.files = files)
    (h : fastkvOpen opts fresh disk = .ok w) :
    (⟨w.db.ht, w.db.btree⟩ : Stores) =
      ((segs.flatMap Prod.snd).filter (Record.wanted (snapTs snap))).foldl
        (fun s r => replayRecord r s) (loaded opts.stores snap) := by
  obtain ⟨s, ts, walMaxTs, wal, rc, hload, hdb, -, -⟩ := fastkvOpen_cases h
  rw [hfiles] at hload hdb
  rw [hsnap.load] at hload
  simp only [Prod.mk.injEq] at hload
  obtain ⟨-, rfl, rfl⟩ := hload
  have hcontent := hlog.delivered_content (snapTs snap)
  rw [delivered_eq] at hcontent
  rw [hdb, ← foldl_replayRecord_congr hcontent]
  rfl

/-- The map of the opened database. -/
theorem SegmentLog.live_open (hlog : SegmentLog files segs) (hsnap : NewestSnap files snap)
    {opts : Opts} {fresh : Uuid} {disk : Disk} {w : World} (hfiles : disk.files = files)
    (h : fastkvOpen opts fresh disk = .ok w) :
    w.db.ht.live = updates (loaded opts.stores snap).ht.live
      ((segs.flatMap Prod.snd).filter (Record.wanted (snapTs snap))) := by
  rw [← live_foldl_replayRecord, ← hlog.opened_eq hsnap hfiles h]

/-- The clock of the opened database is later than the snapshot and the newer records, and no
later than it must be. -/
theorem SegmentLog.clock_open (hlog : SegmentLog files segs) (hsnap : NewestSnap files snap)
    {bound : ℕ} (hbound : bound ≤ tsMax) (hsnapTs : snapTs snap < bound)
    (hts : ∀ r ∈ segs.flatMap Prod.snd, r.ts < bound) {opts : Opts} {fresh : Uuid} {w : World}
    (h : fastkvOpen opts fresh ⟨files, [], []⟩ = .ok w) :
    snapTs snap < w.db.clock ∧ w.db.clock ≤ bound ∧
      ∀ r ∈ (segs.flatMap Prod.snd).filter (Record.wanted (snapTs snap)), r.ts < w.db.clock := by
  obtain ⟨s, ts, walMaxTs, wal, rc, hload, hdb, hmax, hwal⟩ := fastkvOpen_cases h
  rw [hsnap.load] at hload
  simp only [Prod.mk.injEq] at hload
  obtain ⟨-, rfl, rfl⟩ := hload
  have hmaxTs : walMaxTs < bound := by
    rw [hwal]
    exact hlog.maxTs_lt hts hsnapTs _
  have hclock : w.db.clock = max (max 1 (snapTs snap + 1)) (walMaxTs + 1) := by
    unfold tsMax at hbound
    rw [hdb, ← add64_eq (show snapTs snap + 1 < 2 ^ 64 by omega),
      ← add64_eq (show walMaxTs + 1 < 2 ^ 64 by omega)]
    simp only [Opts.assemble, Db.clock, clock_oracleAdvance]
    rfl
  refine ⟨by omega, by omega, fun r hr => ?_⟩
  have hcontent := hlog.delivered_content (snapTs snap)
  rw [delivered_eq] at hcontent
  have hmem := List.mem_map_of_mem (f := Record.content) hr
  rw [← hcontent] at hmem
  obtain ⟨r', hr', heq⟩ := List.mem_map.mp hmem
  have hsame : r'.ts = r.ts := congrArg (fun c => c.2.1) heq
  have hle : r'.ts ≤ walMaxTs := hmax r' hr'
  omega

end Open

end FastKV
