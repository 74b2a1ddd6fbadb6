import FastKV.CheckpointNames
import FastKV.Uuid7

/-!
# Checkpoints and the wall clock

A checkpoint takes the names of its snapshot and of its new segment from the generator of
identifiers, and everything later goes by the order of the names: which snapshot is loaded,
which segments and snapshots are removed, in which order segments are replayed and which of them
is continued. So a checkpoint keeps what it has created exactly if the generator, given the
readings of the clock, is not behind the names that matter.
-/

namespace FastKV

/-- The segments and snapshots in a directory have names from the generator. -/
structure LeftByRuns (files : Files) : Prop where
  /-- Segments. -/
  segments : ∀ n ∈ files, matchName walPfx walSfx n = none ∨
    ∃ ctx : Uuid7Ctx, n = segName ctx.uuid.hex
  /-- Snapshots, and temporary files of snapshots. -/
  snapshots : ∀ n ∈ files, matchName snapPfx snapSfx n = none ∨
    ∃ ctx : Uuid7Ctx, n = snapName ctx.uuid.hex ∨ n = snapTmpName ctx.uuid.hex

/-- `fastkv_checkpoint` with the names that the generator gives it, `none` if it waits for the
clock for ever. -/
def fastkvCheckpointAt (w : World) (ctx : Uuid7Ctx) (snap seg : Uuid7Draw) (now : ℕ) :
    Option (Err × World) := do
  let snapCtx ← uuid7GenerateEx ctx snap
  let segCtx ← uuid7GenerateEx snapCtx seg
  pure (fastkvCheckpoint w snapCtx.uuid segCtx.uuid now)

/-- What a checkpoint has created is there: its snapshot is the one that is found, the current
segment exists and is the last one in the order of the names, and the next open continues it. -/
structure World.KeepsNew (snapId : Uuid) (w : World) : Prop where
  /-- The snapshot. -/
  latest : findLatestSnapshot w.disk.files = some (snapName snapId.hex)
  /-- The current segment. -/
  active : ∃ wal, w.db.wal = some wal ∧ segName wal.segmentId ∈ w.disk.files ∧
    (∀ id ∈ segmentIds w.disk.files, id ≠ wal.segmentId → id < wal.segmentId) ∧
    (collectSegments w.disk.files).getLast? = some wal.segmentId ∧
    ∀ fresh, openSegment w.disk.files fresh = wal.segmentId

/-- The generator is not behind the names that matter to a checkpoint: when it names the
snapshot, it is not behind the snapshots in the directory, and when it names the segment, it is
not behind the current segment `cur` and those that are not removed with the ones before it. -/
structure World.ClockHolds (w : World) (cur ctx : Uuid7Ctx) (snap seg : Uuid7Draw) : Prop where
  /-- Snapshots, and temporary files of snapshots. -/
  snapshots : ∀ c : Uuid7Ctx, snapName c.uuid.hex ∈ w.disk.files ∨
    snapTmpName c.uuid.hex ∈ w.disk.files → ctx.NotBehind snap c.position
  /-- The current segment. -/
  active : ∀ snapCtx ∈ uuid7GenerateEx ctx snap, snapCtx.NotBehind seg cur.position
  /-- Segments that are not before it. -/
  segments : ∀ snapCtx ∈ uuid7GenerateEx ctx snap, ∀ c : Uuid7Ctx,
    segName c.uuid.hex ∈ w.disk.files → cur.position ≤ c.position →
      snapCtx.NotBehind seg c.position

/-! ## The scans -/

/-- The scan for the latest snapshot ends at an identifier that no other one exceeds. -/
theorem latestSnapshot_max (names : List Name) :
    (∀ n ∈ names, matchName snapPfx snapSfx n = none ∨ ∃ id, IsSnap id n) →
    ∀ best : Option (Name × Name), (∀ b ∈ best, ∃ id, IsSnap id b.2 ∧ b.1 = id.hex) →
      ∀ b, latestSnapshot names best = some b → (∃ id, IsSnap id b.2 ∧ b.1 = id.hex) ∧
        (∀ b' ∈ best, b'.1 ≤ b.1) ∧ ∀ n ∈ names, ∀ id, IsSnap id n → id.hex ≤ b.1 := by
  induction names with
  | nil =>
    intro _ best hbest b hb
    have heq : best = some b := hb
    refine ⟨hbest b heq, fun b' hb' => ?_, fun n hn => by cases hn⟩
    rw [heq, Option.mem_some_iff] at hb'
    rw [hb']
  | cons n names ih =>
    intro hnames best hbest b hb
    have hrest := ih fun m hm => hnames m (List.mem_cons_of_mem _ hm)
    unfold latestSnapshot at hb
    rcases hnames n List.mem_cons_self with hnone | ⟨id, rest, hne, hmatch⟩
    · simp only [hnone] at hb
      obtain ⟨hid, hle, hall⟩ := hrest best hbest b hb
      refine ⟨hid, hle, fun m hm i hi => ?_⟩
      rcases List.mem_cons.mp hm with rfl | hm
      · obtain ⟨rest, -, hmatch⟩ := hi
        rw [hnone] at hmatch
        cases hmatch
      · exact hall m hm i hi
    · have hsnap : IsSnap id n := ⟨rest, hne, hmatch⟩
      have hnew : ∀ b ∈ some (id.hex, n), ∃ id, IsSnap id b.2 ∧ b.1 = id.hex := by
        intro b hb
        cases hb
        exact ⟨id, hsnap, rfl⟩
      have hcons : id.hex ≤ b.1 → (∀ m ∈ names, ∀ i, IsSnap i m → i.hex ≤ b.1) →
          ∀ m ∈ n :: names, ∀ i, IsSnap i m → i.hex ≤ b.1 := by
        intro hhead hall m hm i hi
        rcases List.mem_cons.mp hm with rfl | hm
        · rw [hi.unique hsnap]
          exact hhead
        · exact hall m hm i hi
      simp only [hmatch, id.take_append] at hb
      cases best with
      | none =>
        obtain ⟨hid, hle, hall⟩ := hrest _ hnew b hb
        exact ⟨hid, fun b' hb' => (by cases hb'), hcons (hle _ rfl) hall⟩
      | some best =>
        obtain ⟨bestId, bestName⟩ := best
        obtain ⟨i, hi, hhex⟩ := hbest _ rfl
        have hiff : bestId < id.hex ++ rest ↔ bestId ≤ id.hex := by
          rw [show bestId = i.hex from hhex]
          exact lt_append_iff (i.length_hex.trans id.length_hex.symm) hne
        simp only at hb
        by_cases hle : bestId ≤ id.hex
        · rw [if_pos (hiff.mpr hle)] at hb
          obtain ⟨hid, hge, hall⟩ := hrest _ hnew b hb
          have hnow : id.hex ≤ b.1 := hge _ rfl
          refine ⟨hid, fun b' hb' => ?_, hcons hnow hall⟩
          cases hb'
          exact hle.trans hnow
        · rw [if_neg (mt hiff.mp hle)] at hb
          obtain ⟨hid, hge, hall⟩ := hrest _ hbest b hb
          exact ⟨hid, hge, hcons ((le_of_not_ge hle).trans (hge _ rfl)) hall⟩

/-- No snapshot has a larger identifier than the one that is found. -/
theorem le_of_findLatestSnapshot {files : Files}
    (hnames : ∀ n ∈ files, matchName snapPfx snapSfx n = none ∨ ∃ id, IsSnap id n) {id₀ : Uuid}
    (hfound : findLatestSnapshot files = some (snapName id₀.hex)) {n : Name} (hn : n ∈ files)
    {id : Uuid} (hid : IsSnap id n) : id ≤ id₀ := by
  obtain ⟨b, hb, hname⟩ := Option.map_eq_some_iff.mp hfound
  obtain ⟨⟨i, hi, hhex⟩, -, hall⟩ := latestSnapshot_max files.keys
    (fun n hn => hnames n (AList.mem_keys.mpr hn)) none (fun b hb => by cases hb) b hb
  rw [show b.2 = snapName id₀.hex from hname] at hi
  have hle := hall n (AList.mem_keys.mp hn) id hid
  rw [hhex, hi.unique (isSnap_snapName id₀)] at hle
  exact hle

/-- The last segment in the order of the names. -/
theorem segments_last {files : Files}
    (hnames : ∀ n ∈ files, matchName walPfx walSfx n = none ∨ ∃ id : Uuid, n = segName id.hex)
    {id₀ : Uuid} (hmem : segName id₀.hex ∈ files)
    (hle : ∀ id : Uuid, segName id.hex ∈ files → id ≤ id₀) :
    (∀ hex ∈ segmentIds files, hex ≤ id₀.hex) ∧
      (collectSegments files).getLast? = some id₀.hex ∧
      ∀ fresh, openSegment files fresh = id₀.hex := by
  have hmem' : id₀.hex ∈ collectSegments files := by
    refine (List.mem_insertionSort _).mpr (List.mem_filterMap.mpr ?_)
    exact ⟨segName id₀.hex, AList.mem_keys.mp hmem, matchName_take id₀⟩
  have hle' : ∀ hex ∈ segmentIds files, hex ≤ id₀.hex := by
    intro hex hhex
    obtain ⟨n, hn, hmatch⟩ := List.mem_filterMap.mp hhex
    rcases hnames n (AList.mem_keys.mpr hn) with hnone | ⟨id, rfl⟩
    · rw [hnone] at hmatch
      cases hmatch
    · rw [matchName_take] at hmatch
      rw [← Option.some.inj hmatch]
      exact hle id (AList.mem_keys.mpr hn)
  refine ⟨hle', ?_, openSegment_of_largest hnames hmem hle⟩
  have hsorted : (collectSegments files).Pairwise (· ≤ ·) := List.pairwise_insertionSort _ _
  have hle'' : ∀ hex ∈ collectSegments files, hex ≤ id₀.hex :=
    fun hex hhex => hle' hex ((List.mem_insertionSort _).mp hhex)
  generalize collectSegments files = ids at hmem' hle'' hsorted
  rcases List.eq_nil_or_concat' ids with rfl | ⟨front, last, rfl⟩
  · cases hmem'
  · rw [List.getLast?_concat]
    have hlast := hle'' last (by simp)
    rcases List.mem_append.mp hmem' with hfront | hlast'
    · have hge := (List.pairwise_append.mp hsorted).2.2 _ hfront last (by simp)
      rw [le_antisymm hlast hge]
    · rw [List.mem_singleton.mp hlast']

/-! ## One checkpoint -/

/-- A segment in such a directory has a name from the generator. -/
theorem LeftByRuns.of_segName {files : Files} (h : LeftByRuns files) {id : Uuid}
    (hid : segName id.hex ∈ files) : ∃ ctx : Uuid7Ctx, id = ctx.uuid := by
  rcases h.segments _ hid with hnone | ⟨ctx, heq⟩
  · rw [matchName_segName] at hnone
    cases hnone
  · exact ⟨ctx, segName_inj heq⟩

/-- Names of segments pass the test for them, and nothing else does. -/
theorem LeftByRuns.isSeg {files : Files} (h : LeftByRuns files) {n : Name} (hn : n ∈ files) :
    matchName walPfx walSfx n = none ∨ ∃ id : Uuid, n = segName id.hex :=
  (h.segments n hn).imp_right fun ⟨ctx, heq⟩ => ⟨ctx.uuid, heq⟩

/-- A snapshot in such a directory, and which name it has. -/
theorem LeftByRuns.isSnap {files : Files} (h : LeftByRuns files) {n : Name} (hn : n ∈ files) :
    matchName snapPfx snapSfx n = none ∨ ∃ ctx : Uuid7Ctx, IsSnap ctx.uuid n ∧
      (n = snapName ctx.uuid.hex ∨ n = snapTmpName ctx.uuid.hex) := by
  rcases h.snapshots n hn with hnone | ⟨ctx, rfl | rfl⟩
  · exact Or.inl hnone
  · exact Or.inr ⟨ctx, isSnap_snapName _, Or.inl rfl⟩
  · exact Or.inr ⟨ctx, isSnap_snapTmpName _, Or.inr rfl⟩

section Step

variable {w w' : World} {cur snapCtx segCtx : Uuid7Ctx}

/-- The new snapshot is found if no snapshot was beyond it. -/
theorem Checkpointed.latest (hdone : Checkpointed cur.uuid.hex snapCtx.uuid segCtx.uuid w w')
    (hleft : LeftByRuns w.disk.files)
    (hsnaps : ∀ c : Uuid7Ctx, snapName c.uuid.hex ∈ w.disk.files ∨
      snapTmpName c.uuid.hex ∈ w.disk.files → c.uuid ≤ snapCtx.uuid) :
    findLatestSnapshot w'.disk.files = some (snapName snapCtx.uuid.hex) := by
  have hisSnap := isSnap_snapName snapCtx.uuid
  refine findLatestSnapshot_eq hisSnap (hdone.kept _ (Or.inl rfl) (fun id _ heq => ?_)
    fun hex hhex => ?_) fun n hn => ?_
  · have hhead := congrArg List.head? heq
    cases hhead
  · obtain ⟨rest, -, hmatch⟩ := hisSnap
    rw [hmatch] at hhex
    rw [← Option.some.inj hhex, Uuid.take_append]
    exact lt_irrefl _
  · rcases hdone.only n hn with rfl | rfl | ⟨htmp, hold⟩
    · exact Or.inr (Or.inl rfl)
    · exact Or.inl (matchName_snap_segName _)
    · rcases hleft.isSnap hold with hnone | ⟨c, hc, hname⟩
      · exact Or.inl hnone
      · right
        have hle : c.uuid ≤ snapCtx.uuid := hsnaps c (by
          rcases hname with rfl | rfl
          · exact Or.inl hold
          · exact Or.inr hold)
        rcases hle.lt_or_eq with hlt | heq
        · exact Or.inr ⟨c.uuid, hlt, hc⟩
        · rw [heq] at hname
          exact Or.inl (hname.resolve_right htmp)

/-- The new segment is there and the last one if no segment that stays was beyond it. -/
theorem Checkpointed.active (hdone : Checkpointed cur.uuid.hex snapCtx.uuid segCtx.uuid w w')
    (hleft : LeftByRuns w.disk.files) (hcur : cur.uuid ≤ segCtx.uuid)
    (hsegs : ∀ c : Uuid7Ctx, segName c.uuid.hex ∈ w.disk.files → cur.uuid ≤ c.uuid →
      c.uuid ≤ segCtx.uuid) :
    segName segCtx.uuid.hex ∈ w'.disk.files ∧
      (∀ hex ∈ segmentIds w'.disk.files, hex ≤ segCtx.uuid.hex) ∧
      (collectSegments w'.disk.files).getLast? = some segCtx.uuid.hex ∧
      ∀ fresh, openSegment w'.disk.files fresh = segCtx.uuid.hex := by
  have hmem : segName segCtx.uuid.hex ∈ w'.disk.files := by
    refine hdone.kept _ (Or.inr (Or.inl rfl)) (fun id hlt heq => ?_) fun hex hhex => ?_
    · have hid : segCtx.uuid.hex = id := by simpa [segName] using heq
      rw [← hid] at hlt
      exact absurd hcur (not_le_of_gt hlt)
    · rw [matchName_snap_segName] at hhex
      cases hhex
  refine ⟨hmem, segments_last (fun n hn => ?_) hmem fun id hid => ?_⟩
  · rcases hdone.only n hn with rfl | rfl | ⟨-, hold⟩
    · exact Or.inl (isSnap_snapName _).matchName_wal
    · exact Or.inr ⟨_, rfl⟩
    · exact hleft.isSeg hold
  · rcases hdone.only _ hid with heq | heq | ⟨-, hold⟩
    · have hhead := congrArg List.head? heq
      cases hhead
    · rw [segName_inj heq]
    · obtain ⟨c, rfl⟩ := hleft.of_segName hold
      rcases le_total cur.uuid c.uuid with hge | hle
      · exact hsegs c hold hge
      · exact hle.trans hcur

/-- No snapshot was beyond the new one if that is found. -/
theorem Checkpointed.snapshots_le
    (hdone : Checkpointed cur.uuid.hex snapCtx.uuid segCtx.uuid w w')
    (hleft : LeftByRuns w.disk.files)
    (hfound : findLatestSnapshot w'.disk.files = some (snapName snapCtx.uuid.hex))
    {c : Uuid7Ctx} (hc : snapName c.uuid.hex ∈ w.disk.files ∨
      snapTmpName c.uuid.hex ∈ w.disk.files) : c.uuid ≤ snapCtx.uuid := by
  by_contra hlt
  have hgt : snapCtx.uuid < c.uuid := lt_of_not_ge hlt
  have hnames : ∀ n ∈ w'.disk.files, matchName snapPfx snapSfx n = none ∨ ∃ id, IsSnap id n := by
    intro n hn
    rcases hdone.only n hn with rfl | rfl | ⟨-, hold⟩
    · exact Or.inr ⟨_, isSnap_snapName _⟩
    · exact Or.inl (matchName_snap_segName _)
    · exact (hleft.isSnap hold).imp_right fun ⟨c, hc, _⟩ => ⟨c.uuid, hc⟩
  -- A name beyond the new one is not removed, and it is not the temporary one either.
  have hstays : ∀ n ∈ w.disk.files, IsSnap c.uuid n → c.uuid ≤ snapCtx.uuid := by
    intro n hn hisSnap
    refine le_of_findLatestSnapshot hnames hfound (hdone.kept n (Or.inr (Or.inr ⟨?_, hn⟩))
      (fun id _ heq => ?_) fun hex hhex => ?_) hisSnap
    · rintro rfl
      exact ne_of_gt hgt (hisSnap.unique (isSnap_snapTmpName _))
    · rw [heq] at hisSnap
      exact hisSnap.matchName_ne rfl
    · obtain ⟨rest, -, hmatch⟩ := hisSnap
      rw [hmatch] at hhex
      rw [← Option.some.inj hhex, Uuid.take_append]
      exact not_lt_of_gt hgt
  rcases hc with hc | hc
  · exact hlt (hstays _ hc (isSnap_snapName _))
  · exact hlt (hstays _ hc (isSnap_snapTmpName _))

/-- A segment that stays was not beyond the new one if that is the last. -/
theorem Checkpointed.segments_le
    (hdone : Checkpointed cur.uuid.hex snapCtx.uuid segCtx.uuid w w')
    (hlast : ∀ id ∈ segmentIds w'.disk.files, id ≠ segCtx.uuid.hex → id < segCtx.uuid.hex)
    {c : Uuid7Ctx} (hc : segName c.uuid.hex ∈ w.disk.files) (hcur : cur.uuid ≤ c.uuid) :
    c.uuid ≤ segCtx.uuid := by
  have hstays : segName c.uuid.hex ∈ w'.disk.files := by
    refine hdone.kept _ (Or.inr (Or.inr ⟨fun heq => ?_, hc⟩)) (fun id hlt heq => ?_)
      fun hex hhex => ?_
    · have hhead := congrArg List.head? heq
      cases hhead
    · have hid : c.uuid.hex = id := by simpa [segName] using heq
      rw [← hid] at hlt
      exact absurd hcur (not_le_of_gt hlt)
    · rw [matchName_snap_segName] at hhex
      cases hhex
  have hmem : c.uuid.hex ∈ segmentIds w'.disk.files :=
    List.mem_filterMap.mpr ⟨_, AList.mem_keys.mp hstays, matchName_take _⟩
  by_cases heq : c.uuid.hex = segCtx.uuid.hex
  · show c.uuid.hex ≤ segCtx.uuid.hex
    exact le_of_eq heq
  · exact le_of_lt (hlast _ hmem heq)

end Step

/-- A checkpoint that succeeds keeps what it has created if the generator is not behind, and, if
the file of the segment it leaves is there, only then. -/
theorem fastkvCheckpointAt_keeps {w w' : World} {wal : Wal} {cur ctx snapCtx : Uuid7Ctx}
    {snap seg : Uuid7Draw} {now : ℕ} (hleft : LeftByRuns w.disk.files)
    (hwal : w.db.wal = some wal) (hcur : wal.segmentId = cur.uuid.hex)
    (hsnap : uuid7GenerateEx ctx snap = some snapCtx)
    (h : fastkvCheckpointAt w ctx snap seg now = some (.ok, w')) :
    (w.ClockHolds cur ctx snap seg → w'.KeepsNew snapCtx.uuid) ∧
      (segName cur.uuid.hex ∈ w.disk.files → w'.KeepsNew snapCtx.uuid →
        w.ClockHolds cur ctx snap seg) := by
  simp only [fastkvCheckpointAt, hsnap, Option.bind_eq_bind, Option.bind_some] at h
  obtain ⟨segCtx, hseg, heq⟩ := Option.bind_eq_some_iff.mp h
  have hresult := Option.some.inj heq
  have hdone := fastkvCheckpoint_names hwal (congrArg Prod.fst hresult)
  rw [show (fastkvCheckpoint w snapCtx.uuid segCtx.uuid now).2 = w' from congrArg Prod.snd hresult,
    hcur] at hdone
  -- Both names compare with others as the generator does with their positions.
  have hsnapLe (c : Uuid7Ctx) : c.uuid ≤ snapCtx.uuid ↔ ctx.NotBehind snap c.position := by
    rw [Uuid7Ctx.uuid_le_iff, uuid7GenerateEx_position hsnap]
  have hsegLe (c : Uuid7Ctx) : c.uuid ≤ segCtx.uuid ↔ snapCtx.NotBehind seg c.position := by
    rw [Uuid7Ctx.uuid_le_iff, uuid7GenerateEx_position hseg]
  obtain ⟨wal', hwal', hid⟩ := hdone.segment
  constructor
  · rintro ⟨hsnaps, hactive, hsegs⟩
    refine ⟨hdone.latest hleft fun c hc => (hsnapLe c).mpr (hsnaps c hc), wal', hwal', ?_⟩
    obtain ⟨hmem, hle, hlast, hopen⟩ := hdone.active hleft ((hsegLe cur).mpr (hactive _ hsnap))
      fun c hc hge => (hsegLe c).mpr (hsegs _ hsnap c hc (Uuid7Ctx.uuid_le_iff _ _ |>.mp hge))
    rw [hid]
    exact ⟨hmem, fun id hid hne => lt_of_le_of_ne (hle id hid) hne, hlast, hopen⟩
  · rintro hpresent ⟨hlatest, wal'', hwal'', -, hlast, -⟩
    obtain rfl : wal'' = wal' := Option.some.inj (hwal''.symm.trans hwal')
    rw [hid] at hlast
    have hsegs (c : Uuid7Ctx) (hc : segName c.uuid.hex ∈ w.disk.files)
        (hge : cur.position ≤ c.position) : snapCtx.NotBehind seg c.position :=
      (hsegLe c).mp (hdone.segments_le hlast hc ((Uuid7Ctx.uuid_le_iff _ _).mpr hge))
    have honly {s : Uuid7Ctx} (hs : s ∈ uuid7GenerateEx ctx snap) : s = snapCtx :=
      Option.some.inj (Eq.trans hs.symm hsnap)
    refine ⟨fun c hc => (hsnapLe c).mp (hdone.snapshots_le hleft hlatest hc), ?_, ?_⟩
    · intro s hs
      rw [honly hs]
      exact hsegs cur hpresent le_rfl
    · intro s hs
      rw [honly hs]
      exact hsegs

/-! ## Runs -/

/-- The databases of a process that has opened a directory left by earlier ones, between two
calls. The generator is new at every open, so what it starts from is arbitrary, and so are its
readings of the clock. -/
inductive World.Served : World → Prop
  /-- `fastkv_open`; the first segment of an empty log is named by the generator too. -/
  | opened {opts : Opts} (ctx : Uuid7Ctx) {disk : Disk} {w : World} : LeftByRuns disk.files →
      fastkvOpen opts ctx.uuid disk = .ok w → Served w
  /-- Operations in memory, beginning and giving up a transaction among them. -/
  | memory {w : World} (db : Db) : Served w → db.wal = w.db.wal → Served { w with db }
  /-- `fastkv_txn_commit`. -/
  | commit {w : World} (txn : Txn) : Served w → Served (txnCommit w txn).2.1
  /-- `fastkv_wal_sync`. -/
  | sync {w : World} {wal : Wal} : Served w → w.db.wal = some wal →
      Served ⟨{ w.db with wal := some (walSync ⟨wal, w.disk⟩).2.wal },
        (walSync ⟨wal, w.disk⟩).2.disk⟩
  /-- `fastkv_checkpoint`, whatever it returns. -/
  | checkpoint {w : World} {ctx : Uuid7Ctx} {snap seg : Uuid7Draw} {now : ℕ} {r : Err × World} :
      Served w → fastkvCheckpointAt w ctx snap seg now = some r → Served r.2

/-- All names are from the generator. -/
structure World.Named (w : World) : Prop where
  /-- In the directory. -/
  files : LeftByRuns w.disk.files
  /-- The current segment. -/
  current : ∀ wal ∈ w.db.wal, ∃ cur : Uuid7Ctx, wal.segmentId = cur.uuid.hex

/-- Files under names from the generator may be added. -/
theorem LeftByRuns.add {names : List Name} {d d' : Disk} (h : LeftByRuns d.files)
    (hadds : d.AddsOnly names d')
    (hnames : ∀ n ∈ names, ∃ ctx : Uuid7Ctx, n = segName ctx.uuid.hex ∨
      n = snapName ctx.uuid.hex ∨ n = snapTmpName ctx.uuid.hex) : LeftByRuns d'.files := by
  refine ⟨fun n hn => ?_, fun n hn => ?_⟩
  · rcases hadds n hn with hnew | hold
    · obtain ⟨ctx, rfl | rfl | rfl⟩ := hnames n hnew
      · exact Or.inr ⟨ctx, rfl⟩
      · exact Or.inl (isSnap_snapName _).matchName_wal
      · exact Or.inl (isSnap_snapTmpName _).matchName_wal
    · exact h.segments n hold
  · rcases hadds n hn with hnew | hold
    · obtain ⟨ctx, rfl | hsnap⟩ := hnames n hnew
      · exact Or.inl (matchName_snap_segName _)
      · exact Or.inr ⟨ctx, hsnap⟩
    · exact h.snapshots n hold

/-- Opening a directory keeps the names as they are, and continues a segment with such a name. -/
theorem fastkvOpen_named {opts : Opts} {ctx : Uuid7Ctx} {disk : Disk} {w : World}
    (hleft : LeftByRuns disk.files) (h : fastkvOpen opts ctx.uuid disk = .ok w) : w.Named := by
  have hsegment : ∃ cur : Uuid7Ctx, openSegment disk.files ctx.uuid = cur.uuid.hex := by
    obtain ⟨hfrom, -, -⟩ := newestSegment_spec disk.files.keys [] (Or.inl rfl)
      fun n hn => hleft.isSeg (AList.mem_keys.mpr hn)
    unfold openSegment
    split
    · exact ⟨ctx, rfl⟩
    · rename_i hne
      obtain ⟨id, hid, heq⟩ := hfrom.resolve_left hne
      obtain ⟨cur, rfl⟩ := hleft.of_segName (AList.mem_keys.mpr hid)
      exact ⟨cur, heq⟩
  unfold fastkvOpen at h
  simp only at h
  split at h
  · cases h
  · split at h
    · cases h
    · split at h
      · cases h
        exact ⟨hleft, fun wal hwal => by cases hwal⟩
      · split at h
        · rename_i log hopen
          cases h
          obtain ⟨cur, hcur⟩ := hsegment
          have hadds := ioOpen_addsOnly disk (segName (openSegment disk.files ctx.uuid))
          unfold walOpen at hopen
          simp only at hopen
          split at hopen
          · cases hopen
            refine ⟨hleft.add hadds ?_, fun wal hwal => ?_⟩
            · intro n hn
              rw [List.mem_singleton] at hn
              exact ⟨cur, Or.inl (by rw [hn, hcur])⟩
            · cases hwal
              exact ⟨cur, hcur⟩
          · cases hopen
        · cases h

/-- Operations that only write to files keep the names as they are. -/
theorem World.Named.of_sameFiles {w w' : World} (h : w.Named) (hsame : w.SameFiles w') :
    w'.Named := by
  refine ⟨h.files.add (hsame.names.addsOnly []) (fun n hn => by cases hn), fun wal' hwal' => ?_⟩
  have hid := hsame.segment
  rw [show w'.db.wal = some wal' from hwal'] at hid
  obtain ⟨wal, hwal, heq⟩ := Option.map_eq_some_iff.mp hid.symm
  obtain ⟨cur, hcur⟩ := h.current wal hwal
  exact ⟨cur, heq.symm.trans hcur⟩

/-- So do checkpoints. -/
theorem World.Named.checkpoint {w : World} (h : w.Named) (snapCtx segCtx : Uuid7Ctx) (now : ℕ) :
    (fastkvCheckpoint w snapCtx.uuid segCtx.uuid now).2.Named := by
  obtain ⟨hadds, hcurrent⟩ := fastkvCheckpoint_addsOnly w snapCtx.uuid segCtx.uuid now
  refine ⟨h.files.add hadds fun n hn => ?_, fun wal' hwal' => ?_⟩
  · simp only [checkpointNames, List.mem_cons, List.not_mem_nil, or_false] at hn
    rcases hn with rfl | rfl | rfl
    · exact ⟨snapCtx, Or.inr (Or.inr rfl)⟩
    · exact ⟨snapCtx, Or.inr (Or.inl rfl)⟩
    · exact ⟨segCtx, Or.inl rfl⟩
  · rcases hcurrent wal' hwal' with heq | ⟨wal, hwal, heq⟩
    · exact ⟨segCtx, heq⟩
    · obtain ⟨cur, hcur⟩ := h.current wal hwal
      exact ⟨cur, heq.trans hcur⟩

/-- In every run all names are from the generator. -/
theorem World.Served.named {w : World} (h : w.Served) : w.Named := by
  induction h with
  | opened ctx hleft hopen => exact fastkvOpen_named hleft hopen
  | memory db _ hwal ih => exact ih.of_sameFiles ⟨by rw [hwal], .refl _⟩
  | commit txn _ ih => exact ih.of_sameFiles (txnCommit_sameFiles _ txn)
  | @sync w wal _ hwal ih =>
    have hsync : Log.SameFiles ⟨wal, w.disk⟩ (walSync ⟨wal, w.disk⟩).2 := flushBuf_sameFiles true _
    refine ih.of_sameFiles ⟨?_, hsync.names⟩
    rw [hwal]
    exact congrArg some hsync.segment
  | @checkpoint w ctx snap seg now r _ hcheckpoint ih =>
    obtain ⟨snapCtx, -, hrest⟩ := Option.bind_eq_some_iff.mp hcheckpoint
    obtain ⟨segCtx, -, hresult⟩ := Option.bind_eq_some_iff.mp hrest
    cases hresult
    exact ih.checkpoint snapCtx segCtx now

/-- What a process leaves when it closes the database can be opened by the next one. -/
theorem World.Served.close {w : World} (h : w.Served) (snapCtx segCtx : Uuid7Ctx) (now : ℕ) :
    LeftByRuns (fastkvClose w snapCtx.uuid segCtx.uuid now).files := by
  have hnamed := h.named.checkpoint snapCtx segCtx now
  unfold fastkvClose
  simp only
  split
  · exact hnamed.files
  · rename_i wal _
    have hflush := flushBuf_sameFiles true
      ⟨wal, (fastkvCheckpoint w snapCtx.uuid segCtx.uuid now).2.disk⟩
    exact hnamed.files.add (hflush.names.addsOnly []) fun n hn => by cases hn

/-! ## Checkpoints in runs -/

/-- Whatever the clock does, a checkpoint that succeeds keeps what it has created if the generator
is not behind the names that matter, and, if the file of the segment it leaves is there, only
then. -/
theorem checkpoint_keeps_new {w w' : World} {wal : Wal} {ctx snapCtx : Uuid7Ctx}
    {snap seg : Uuid7Draw} {now : ℕ} (hw : w.Served) (hwal : w.db.wal = some wal)
    (hsnap : uuid7GenerateEx ctx snap = some snapCtx)
    (h : fastkvCheckpointAt w ctx snap seg now = some (.ok, w')) :
    ∃ cur : Uuid7Ctx, wal.segmentId = cur.uuid.hex ∧
      (w.ClockHolds cur ctx snap seg → w'.KeepsNew snapCtx.uuid) ∧
      (segName wal.segmentId ∈ w.disk.files → w'.KeepsNew snapCtx.uuid →
        w.ClockHolds cur ctx snap seg) := by
  obtain ⟨hleft, hcurrent⟩ := hw.named
  obtain ⟨cur, hcur⟩ := hcurrent wal hwal
  rw [hcur]
  exact ⟨cur, rfl, fastkvCheckpointAt_keeps hleft hwal hcur hsnap h⟩

/-- A generator whose random bits are those of a number. -/
def ctxAt (now counter : ℕ) : Uuid7Ctx := .restart now (0, counter)

/-- A reading of the clock. -/
def readAt (now : ℕ) : Uuid7Draw := ⟨now, [], (0, 0)⟩

/-- A new database whose first segment is named at time 20000. -/
def startWorld : World where
  db := oneBucket.assemble oneBucket.stores 0 0
    (some ⟨some (segName (ctxAt 20000 0).uuid.hex), false, 0, 0, (ctxAt 20000 0).uuid.hex, [],
      false, []⟩)
  disk := ⟨(∅ : Files).insert (segName (ctxAt 20000 0).uuid.hex) [], [],
    [.create (segName (ctxAt 20000 0).uuid.hex)]⟩

/-- It is what opening an empty directory returns. -/
theorem startWorld_served : startWorld.Served := by
  have hempty : LeftByRuns (⟨∅, [], []⟩ : Disk).files :=
    ⟨fun n hn => absurd hn (AList.notMem_empty n), fun n hn => absurd hn (AList.notMem_empty n)⟩
  have hopen : fastkvOpen oneBucket (ctxAt 20000 0).uuid ⟨∅, [], []⟩ = .ok startWorld := rfl
  exact .opened (ctxAt 20000 0) hempty hopen

/-- One millisecond later the generator is not behind. -/
theorem startWorld_clockHolds {cur : Uuid7Ctx} (hcur : (ctxAt 20000 0).uuid.hex = cur.uuid.hex) :
    startWorld.ClockHolds cur (ctxAt 20000 0) (readAt 20001) (readAt 20001) := by
  have hfiles {n : Name} (hn : n ∈ startWorld.disk.files) :
      n = segName (ctxAt 20000 0).uuid.hex := by
    rcases (AList.mem_insert _).mp hn with hn | hn
    · exact hn
    · exact absurd hn (AList.notMem_empty n)
  have hposition : cur.position ≤ (ctxAt 20001 0).position + 1 := by
    rw [← Uuid7Ctx.position_eq hcur]
    decide
  have hahead : (ctxAt 20001 0).NotBehind (readAt 20001) cur.position :=
    Or.inr (Or.inl ⟨by decide, by decide, hposition⟩)
  refine ⟨fun c hc => ?_, fun s hs => ?_, fun s hs c hc _ => ?_⟩
  · rcases hc with hc | hc
    · have hhead := congrArg List.head? (hfiles hc)
      cases hhead
    · have hhead := congrArg List.head? (hfiles hc)
      cases hhead
  · cases hs
    exact hahead
  · cases hs
    rw [Uuid7Ctx.position_eq (congrArg Uuid.hex (segName_inj (hfiles hc))),
      Uuid7Ctx.position_eq hcur]
    exact hahead

/-- A checkpoint one millisecond after the open. -/
theorem startWorld_keeps_new : ∃ w', fastkvCheckpointAt startWorld (ctxAt 20000 0) (readAt 20001)
    (readAt 20001) 0 = some (.ok, w') ∧ w'.KeepsNew (ctxAt 20001 0).uuid := by
  have hok : (fastkvCheckpoint startWorld (ctxAt 20001 0).uuid (ctxAt 20001 1).uuid 0).1 = .ok := by
    decide +kernel
  have hat : fastkvCheckpointAt startWorld (ctxAt 20000 0) (readAt 20001) (readAt 20001) 0 =
      some (.ok, (fastkvCheckpoint startWorld (ctxAt 20001 0).uuid (ctxAt 20001 1).uuid 0).2) := by
    rw [← hok]
    rfl
  obtain ⟨cur, hcur, hkeeps, -⟩ := checkpoint_keeps_new startWorld_served rfl rfl hat
  exact ⟨_, hat, hkeeps (startWorld_clockHolds hcur)⟩

/-- If the clock has been set back by more than the threshold, the new segment is named before the
one it replaces, and the trim removes it. -/
theorem clock_set_back_loses_segment : ¬ ∀ (w w' : World) (ctx snapCtx : Uuid7Ctx)
    (snap seg : Uuid7Draw) (now : ℕ), w.Served → w.db.wal.isSome →
    uuid7GenerateEx ctx snap = some snapCtx →
    fastkvCheckpointAt w ctx snap seg now = some (.ok, w') → w'.KeepsNew snapCtx.uuid := by
  intro hclaim
  have hrun : fastkvCheckpointAt startWorld (ctxAt 20000 0) (readAt 1) (readAt 1) 0 =
      some (fastkvCheckpoint startWorld (ctxAt 1 0).uuid (ctxAt 1 1).uuid 0) := rfl
  have hlost : (fastkvCheckpoint startWorld (ctxAt 1 0).uuid (ctxAt 1 1).uuid 0).1 = .ok ∧
      ∀ wal ∈ (fastkvCheckpoint startWorld (ctxAt 1 0).uuid (ctxAt 1 1).uuid 0).2.db.wal,
        segName wal.segmentId ∉
          (fastkvCheckpoint startWorld (ctxAt 1 0).uuid (ctxAt 1 1).uuid 0).2.disk.files.keys := by
    decide +kernel
  generalize fastkvCheckpoint startWorld (ctxAt 1 0).uuid (ctxAt 1 1).uuid 0 = r at hrun hlost
  obtain ⟨rc, w'⟩ := r
  obtain ⟨rfl, hgone⟩ := hlost
  obtain ⟨-, wal, hwal, hmem, -⟩ :=
    hclaim startWorld w' (ctxAt 20000 0) _ _ _ 0 startWorld_served rfl rfl hrun
  exact hgone wal hwal (AList.mem_keys.mp hmem)

end FastKV
