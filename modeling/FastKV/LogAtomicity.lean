import FastKV.Replay

/-!
# Transactions in a log that was cut

A commit logs one record for each write and nothing else: the record types for the beginning
and the end of a transaction exist in the format, but the writer does not use them and the
reader ignores them. After a crash the last segment is cut somewhere, and recovery applies
the records that lie completely before the cut. The recovered structures are those of a
sequence of whole transactions exactly if the cut leaves no transaction with some of its
records. The recovered map is that of whole transactions in a few more cases, namely when the
writes between the cut and the end of some transaction have no effect.
-/

namespace FastKV

open Lib

/-- A committed transaction as it is logged. -/
structure LoggedTxn where
  /-- The commit timestamp. -/
  ts : ℕ
  /-- The writes in the order in which they are logged. -/
  writes : List WriteEntry

/-- The records of a transaction. -/
def LoggedTxn.records (t : LoggedTxn) : List Record := t.writes.map fun e => e.record t.ts

/-- The records of a sequence of transactions. -/
def txnRecords (txns : List LoggedTxn) : List Record := txns.flatMap LoggedTxn.records

@[simp] theorem txnRecords_append (txns txns' : List LoggedTxn) :
    txnRecords (txns ++ txns') = txnRecords txns ++ txnRecords txns' := List.flatMap_append

/-- The log is written to by commits and by checkpoints, which start a new segment. -/
inductive TxnStep
  /-- The appends of a commit. -/
  | commit (t : LoggedTxn)
  /-- `fastkv_wal_rotate`. -/
  | rotate (fresh : Uuid)

/-- Execute a step. -/
def TxnStep.run (s : Log) : TxnStep → Log
  | .commit t => (appendAll t.records s).2
  | .rotate fresh => (walRotate fresh s).2

/-- Commits have records of permitted size, and new segments have later names. -/
def TxnStep.Permitted (s : Log) : TxnStep → Prop
  | .commit t => ∀ r ∈ t.records, r.Valid
  | .rotate fresh => s.wal.segmentId < fresh.hex

/-- Execute a sequence of steps. -/
def runTxns (s : Log) (steps : List TxnStep) : Log := steps.foldl TxnStep.run s

/-- All steps of a sequence are permitted. -/
def AllPermitted : Log → List TxnStep → Prop
  | _, [] => True
  | s, step :: steps => step.Permitted s ∧ AllPermitted (step.run s) steps

/-- The transaction that a step commits. -/
def TxnStep.txn : TxnStep → Option LoggedTxn
  | .commit t => some t
  | .rotate _ => none

/-- The transactions of a sequence of steps, in order. -/
def committed (steps : List TxnStep) : List LoggedTxn := steps.filterMap TxnStep.txn

/-- The transactions in the last segment, after those given before. -/
def inLastSegment : List LoggedTxn → List TxnStep → List LoggedTxn
  | txns, [] => txns
  | txns, .commit t :: steps => inLastSegment (txns ++ [t]) steps
  | _, .rotate _ :: steps => inLastSegment [] steps

/-- The transactions in the older segments. -/
def inOlderSegments (steps : List TxnStep) : List LoggedTxn :=
  (committed steps).take ((committed steps).length - (inLastSegment [] steps).length)

/-- The transactions in the last segment are the last ones. -/
theorem inLastSegment_suffix (steps : List TxnStep) : ∀ txns,
    inLastSegment txns steps <:+ txns ++ committed steps := by
  induction steps with
  | nil => exact fun txns => by simp [inLastSegment, committed]
  | cons step steps ih =>
    intro txns
    cases step with
    | commit t =>
      have hcons : txns ++ committed (.commit t :: steps) = txns ++ [t] ++ committed steps := by
        rw [List.append_assoc]
        rfl
      rw [hcons]
      exact ih (txns ++ [t])
    | rotate fresh => exact (ih []).trans (List.suffix_append _ _)

/-- All transactions are in the older segments or in the last one. -/
theorem inOlderSegments_append (steps : List TxnStep) :
    inOlderSegments steps ++ inLastSegment [] steps = committed steps := by
  obtain ⟨older, holder⟩ := inLastSegment_suffix steps []
  rw [List.nil_append] at holder
  rw [inOlderSegments, ← holder, List.length_append, Nat.add_sub_cancel, List.take_left]

/-! ## Writing the log -/

/-- The segments of a log of transactions. -/
def segmentRecords (older : List (Uuid × List LoggedTxn)) : List (Uuid × List Record) :=
  older.map fun seg => (seg.1, txnRecords seg.2)

/-- The log holds whole transactions, and nothing will fail. -/
structure TxnHolds (s : Log) (older : List (Uuid × List LoggedTxn)) (id : Uuid)
    (last : List LoggedTxn) : Prop where
  /-- The records are those of the transactions. -/
  holds : s.Holds (segmentRecords older) id (txnRecords last)
  /-- No call will fail. -/
  quiet : s.disk.Quiet

/-- What a sequence of steps writes. -/
theorem TxnHolds.run (steps : List TxnStep) : ∀ {s : Log} {older : List (Uuid × List LoggedTxn)}
    {id : Uuid} {last : List LoggedTxn}, TxnHolds s older id last → AllPermitted s steps →
      ∃ older' id', TxnHolds (runTxns s steps) older' id' (inLastSegment last steps) ∧
        older'.flatMap Prod.snd ++ inLastSegment last steps =
          older.flatMap Prod.snd ++ last ++ committed steps := by
  induction steps with
  | nil => exact fun {s older id last} h _ => ⟨older, id, h, by simp [committed, inLastSegment]⟩
  | cons step steps ih =>
    intro s older id last h hpermitted
    obtain ⟨hstep, hrest⟩ := hpermitted
    cases step with
    | commit t =>
      obtain ⟨hholds, hquiet⟩ := Log.Holds.appendAll t.records h.holds h.quiet hstep
      have hnext : TxnHolds (TxnStep.run s (.commit t)) older id (last ++ [t]) :=
        ⟨by simpa [txnRecords, TxnStep.run] using hholds, hquiet⟩
      obtain ⟨older', id', hholds', heq⟩ := ih hnext hrest
      have hcons : committed (.commit t :: steps) = t :: committed steps := rfl
      exact ⟨older', id', hholds', by rw [inLastSegment, heq, hcons]; simp⟩
    | rotate fresh =>
      have hlt : id < fresh := by
        have hstep' : s.wal.segmentId < fresh.hex := hstep
        rw [h.holds.segment] at hstep'
        exact Uuid.lt_iff.mpr hstep'
      obtain ⟨-, hholds, hquiet⟩ := h.holds.rotate_quiet h.quiet hlt
      have hnext : TxnHolds (TxnStep.run s (.rotate fresh)) (older ++ [(id, last)]) fresh [] :=
        ⟨by simpa [segmentRecords, txnRecords, TxnStep.run] using hholds, hquiet⟩
      obtain ⟨older', id', hholds', heq⟩ := ih hnext hrest
      have hcons : committed (.rotate fresh :: steps) = committed steps := rfl
      exact ⟨older', id', hholds', by rw [inLastSegment, heq, hcons]; simp⟩

/-! ## Cutting and recovering it -/

/-- The directory after a crash that leaves the first bytes of a file. -/
def cutFile (files : Files) (name : Name) (pos : ℕ) : Files :=
  files.insert name (((files.lookup name).getD []).take pos)

/-- Recovery with `wal_replay_cb` from a directory that is meant to hold some transactions
gives what applying the first `n` of them would give, for some `n`, and was handed exactly
their records. -/
def RecoversWhole (sinceTs : ℕ) (files : Files) (txns : List LoggedTxn) : Prop :=
  ∃ n, (delivered sinceTs files).map Record.content =
      (txnRecords (txns.take n)).map Record.content ∧
    ∀ s, (walReplay sinceTs walReplayCb files s 0).2.1 =
      (txnRecords (txns.take n)).foldl (fun s r => replayRecord r s) s

/-- The position lies behind one of the transactions and before the end of the first record
of the next. -/
def BetweenTxns (txns : List LoggedTxn) (pos : ℕ) : Prop :=
  ∃ k, (encodeRecords (txnRecords (txns.take k))).length ≤ pos ∧
    ∀ r ∈ (txnRecords (txns.drop k)).head?,
      pos < (encodeRecords (txnRecords (txns.take k))).length + r.frame.encode.length

/-- The map that is recovered with `wal_replay_cb`, beginning with the given structures, is the
one after the first `n` transactions, for some `n`. -/
def RecoversMap (sinceTs : ℕ) (files : Files) (txns : List LoggedTxn) (s : Stores) : Prop :=
  ∃ n, (walReplay sinceTs walReplayCb files s 0).2.1.ht.live =
    ((txnRecords (txns.take n)).foldl (fun s r => replayRecord r s) s).ht.live

/-- The records that can be read from a cut segment. -/
def wholeRecords (rs : List Record) (pos : ℕ) : ℕ :=
  frameFormat.wholeFrames (rs.map Record.frame) pos

/-- The records that lie before a cut in the last segment: all in the older segments, and the
beginning of those in the last. -/
def recordsBefore (steps : List TxnStep) (pos : ℕ) : List Record :=
  txnRecords (inOlderSegments steps) ++
    (txnRecords (inLastSegment [] steps)).take
      (wholeRecords (txnRecords (inLastSegment [] steps)) pos)

/-- The value of a key after some writes. -/
def valueAfter (m : Bytes → Slice) (rs : List Record) (key : Bytes) : Slice :=
  ((lastOn key rs).map Record.result).getD (m key)

/-- Further writes have no effect: the last one to each key gives the value that the key had
before them. -/
def NoEffect (m : Bytes → Slice) (rs more : List Record) : Prop :=
  ∀ r ∈ more, valueAfter m (rs ++ more) r.key = valueAfter m rs r.key

/-- The writes between the cut and the end of some transaction, which lies before it or behind
it, have no effect. -/
def HarmlessCut (m : Bytes → Slice) (steps : List TxnStep) (pos : ℕ) : Prop :=
  ∃ n more,
    (recordsBefore steps pos = txnRecords ((committed steps).take n) ++ more ∧
      NoEffect m (txnRecords ((committed steps).take n)) more) ∨
    (txnRecords ((committed steps).take n) = recordsBefore steps pos ++ more ∧
      NoEffect m (recordsBefore steps pos) more)

/-- A cut directory holds the records that lie before the cut. -/
theorem Log.Holds.cut {s : Log} {older : List (Uuid × List Record)} {id : Uuid}
    {cur : List Record} (h : s.Holds older id cur) (hbuf : s.wal.buf = []) (pos : ℕ) :
    SegmentLog (cutFile s.disk.files (segName s.wal.segmentId) pos)
      (older ++ [(id, cur.take (wholeRecords cur pos))]) := by
  have hfile := h.attached.lookup_of_empty hbuf
  rw [h.stream] at hfile
  rw [h.segment, cutFile, hfile, Option.getD_some]
  refine ⟨?_, fun seg hseg => ?_⟩
  · rw [List.map_append]
    refine h.dir.of_lookup fun n => ?_
    by_cases hn : n = segName id.hex
    · rw [hn, AList.lookup_insert, hfile]
      rfl
    · rw [AList.lookup_insert_ne hn]
  · rcases List.mem_append.mp hseg with hold | hlast
    · exact (h.older_holds seg hold).of_lookup (AList.lookup_insert_ne (h.older_ne hold))
    · rw [List.mem_singleton.mp hlast]
      refine ⟨fun r hr => h.valid r (List.mem_of_mem_take hr), _, AList.lookup_insert _, ?_⟩
      rw [encodeRecords, Format.scan_take_encodeAll (frames_valid h.valid), List.map_take]
      rfl

/-- All records of new enough transactions are wanted. -/
theorem wanted_of_mem_txnRecords {sinceTs : ℕ} {txns : List LoggedTxn}
    (h : ∀ t ∈ txns, sinceTs < t.ts) :
    ∀ r ∈ txnRecords txns, r.wanted sinceTs = true := by
  intro r hr
  obtain ⟨t, ht, hr⟩ := List.mem_flatMap.mp hr
  obtain ⟨e, -, rfl⟩ := List.mem_map.mp hr
  have hts := h t ht
  cases hv : e.value <;> simp [Record.wanted, WriteEntry.record, hv, hts]

/-- The records before a cut are those of whole transactions exactly if the cut lies between
transactions. -/
theorem wholeRecords_eq_iff (txns : List LoggedTxn) (pos : ℕ) :
    (∃ k, wholeRecords (txnRecords txns) pos = (txnRecords (txns.take k)).length) ↔
      BetweenTxns txns pos := by
  refine exists_congr fun k => ?_
  have hsplit : txnRecords txns = txnRecords (txns.take k) ++ txnRecords (txns.drop k) := by
    rw [← txnRecords_append, List.take_append_drop]
  have hiff := frameFormat.wholeFrames_append_eq_iff ((txnRecords (txns.take k)).map Record.frame)
    ((txnRecords (txns.drop k)).map Record.frame) pos
  rw [← List.map_append, ← hsplit, List.length_map] at hiff
  refine hiff.trans (and_congr Iff.rfl ?_)
  simp only [List.head?_map, Option.mem_def, Option.map_eq_some_iff, forall_exists_index, and_imp,
    forall_apply_eq_imp_iff₂]
  rfl

/-- A beginning of the records is that of whole transactions if it has as many records. -/
theorem take_txnRecords (txns : List LoggedTxn) (k : ℕ) :
    (txnRecords txns).take (txnRecords (txns.take k)).length = txnRecords (txns.take k) := by
  conv_lhs => rw [← List.take_append_drop k txns, txnRecords_append, List.take_append_drop]
  rw [List.take_left]

/-- The records of the older segments are those of their transactions. -/
theorem flatMap_segmentRecords (older : List (Uuid × List LoggedTxn)) :
    (segmentRecords older).flatMap Prod.snd = txnRecords (older.flatMap Prod.snd) := by
  simp [segmentRecords, txnRecords, List.flatMap_map, List.flatMap_assoc]

/-- Some transactions and then the first `m` records of others are whole transactions exactly
if `m` is the number of records of some of the others. -/
theorem recoversWhole_of_content {sinceTs : ℕ} {files : Files} {before last : List LoggedTxn}
    {m : ℕ} (hm : m ≤ (txnRecords last).length)
    (h : (delivered sinceTs files).map Record.content =
      (txnRecords before ++ (txnRecords last).take m).map Record.content) :
    RecoversWhole sinceTs files (before ++ last) ↔
      ∃ k, m = (txnRecords (last.take k)).length := by
  constructor
  · rintro ⟨n, hcontent, -⟩
    have hlen := congrArg List.length (h.symm.trans hcontent)
    simp only [List.length_map, List.length_append, List.length_take, List.take_append,
      txnRecords_append, Nat.min_eq_left hm] at hlen
    refine ⟨n - before.length, ?_⟩
    have hle : (txnRecords (before.take n)).length ≤ (txnRecords before).length := by
      conv_rhs => rw [← List.take_append_drop n before, txnRecords_append, List.length_append]
      exact Nat.le_add_right _ _
    rcases Nat.le_total n before.length with hn | hn
    · have hnil : last.take (n - before.length) = [] := by
        rw [Nat.sub_eq_zero_of_le hn, List.take_zero]
      rw [hnil] at hlen ⊢
      simp only [txnRecords, List.flatMap_nil, List.length_nil] at hlen hle ⊢
      omega
    · rw [List.take_of_length_le hn] at hlen
      omega
  · rintro ⟨k, rfl⟩
    refine ⟨before.length + k, ?_⟩
    have htake : (before ++ last).take (before.length + k) = before ++ last.take k := by
      rw [List.take_append, List.take_of_length_le (by omega), Nat.add_sub_cancel_left]
    rw [take_txnRecords, ← txnRecords_append] at h
    rw [htake]
    exact ⟨h, walReplay_of_content h⟩

/-- What is delivered from a cut log: everything in the older segments and what lies before the
cut. -/
theorem TxnHolds.delivered_cut {s₀ s : Log} {first : Uuid} (h : TxnHolds s₀ [] first [])
    {steps : List TxnStep} (hsteps : AllPermitted s₀ steps)
    (hsync : walSync (runTxns s₀ steps) = (.ok, s)) {sinceTs : ℕ}
    (hnew : ∀ t ∈ committed steps, sinceTs < t.ts) (pos : ℕ) :
    (delivered sinceTs (cutFile s.disk.files (segName s.wal.segmentId) pos)).map Record.content =
      (recordsBefore steps pos).map Record.content := by
  obtain ⟨older, id, hholds, heq⟩ := h.run steps hsteps
  rw [List.flatMap_nil, List.nil_append, List.nil_append] at heq
  have holder : inOlderSegments steps = older.flatMap Prod.snd :=
    List.append_cancel_right ((inOlderSegments_append steps).trans heq.symm)
  obtain ⟨hflush, hempty⟩ := hholds.holds.flush true
  have hsync' : flushBuf true (runTxns s₀ steps) = (.ok, s) := hsync
  rw [hsync'] at hflush hempty
  have hcontent := (hflush.cut (hempty rfl) pos).delivered_content sinceTs
  rw [List.filter_eq_self.mpr, List.flatMap_append, flatMap_segmentRecords] at hcontent
  · rw [recordsBefore, holder]
    simpa using hcontent
  · intro r hr
    rw [← heq] at hnew
    refine wanted_of_mem_txnRecords hnew r ?_
    rw [List.flatMap_append, flatMap_segmentRecords] at hr
    rw [txnRecords_append]
    rcases List.mem_append.mp hr with hold | hlast
    · exact List.mem_append_left _ hold
    · exact List.mem_append_right _ (List.mem_of_mem_take (by simpa using hlast))

/-- A new log holds no transactions. -/
theorem txnHolds_open {syncWrites : Bool} {first : Uuid} {s₀ : Log}
    (hopen : walOpen syncWrites first ⟨∅, [], []⟩ = (.ok, some s₀)) : TxnHolds s₀ [] first [] := by
  obtain ⟨s', hopen', hquiet⟩ := walOpen_quiet (d := ⟨∅, [], []⟩)
    (fun o ho => absurd ho List.not_mem_nil) syncWrites first
  rw [hopen] at hopen'
  cases hopen'
  exact ⟨walOpen_holds hopen, hquiet⟩

/-- Transactions are committed to a new log, with any number of rotations, the log is synced
and its last segment is then cut at any position. Recovery gives the structures after a number
of whole transactions exactly if the cut lies between two transactions. -/
theorem recoversWhole_iff {syncWrites : Bool} {first : Uuid} {s₀ s : Log}
    (hopen : walOpen syncWrites first ⟨∅, [], []⟩ = (.ok, some s₀)) {steps : List TxnStep}
    (hsteps : AllPermitted s₀ steps) (hsync : walSync (runTxns s₀ steps) = (.ok, s))
    {sinceTs : ℕ} (hnew : ∀ t ∈ committed steps, sinceTs < t.ts) (pos : ℕ) :
    RecoversWhole sinceTs (cutFile s.disk.files (segName s.wal.segmentId) pos) (committed steps) ↔
      BetweenTxns (inLastSegment [] steps) pos := by
  have hcontent := (txnHolds_open hopen).delivered_cut hsteps hsync hnew pos
  have hwhole := recoversWhole_of_content (m := wholeRecords (txnRecords (inLastSegment [] steps))
    pos) ((frameFormat.wholeFrames_le _ _).trans (by rw [List.length_map])) hcontent
  rw [inOlderSegments_append] at hwhole
  exact hwhole.trans (wholeRecords_eq_iff _ pos)

/-! ## The recovered map -/

/-- The records of transactions are writes. -/
theorem write_of_mem_txnRecords {txns : List LoggedTxn} {r : Record} (h : r ∈ txnRecords txns) :
    r.type = .put ∨ r.type = .delete := by
  obtain ⟨t, -, hr⟩ := List.mem_flatMap.mp h
  obtain ⟨e, -, rfl⟩ := List.mem_map.mp hr
  cases hv : e.value <;> simp [WriteEntry.record, hv]

/-- Writes have no effect exactly if the map is the same after them. -/
theorem noEffect_iff {m : Bytes → Slice} {rs more : List Record}
    (hwrite : ∀ r ∈ rs ++ more, r.type = .put ∨ r.type = .delete) :
    NoEffect m rs more ↔ updates m (rs ++ more) = updates m rs := by
  have hall : ∀ key, updates m (rs ++ more) key = valueAfter m (rs ++ more) key := fun key =>
    updates_eq_lastOn m key hwrite
  have hbefore : ∀ key, updates m rs key = valueAfter m rs key := fun key =>
    updates_eq_lastOn m key fun r hr => hwrite r (List.mem_append_left _ hr)
  constructor
  · intro h
    funext key
    rw [hall, hbefore]
    by_cases hkey : ∃ r ∈ more, r.key = key
    · obtain ⟨r, hr, rfl⟩ := hkey
      exact h r hr
    · -- a key that is not written
      have hnone : lastOn key more = none := by
        rw [lastOn, List.getLast?_eq_none_iff, List.filter_eq_nil_iff]
        exact fun r hr heq => hkey ⟨r, hr, of_decide_eq_true heq⟩
      rw [valueAfter, lastOn_append, hnone]
      rfl
  · intro h r _
    rw [← hall, ← hbefore, h]

/-- The records before a cut are a beginning of all records. -/
theorem recordsBefore_prefix (steps : List TxnStep) (pos : ℕ) :
    recordsBefore steps pos <+: txnRecords (committed steps) := by
  rw [← inOlderSegments_append, txnRecords_append]
  exact (List.prefix_append_right_inj _).mpr (List.take_prefix _ _)

/-- Transactions are committed to a new log, with any number of rotations, the log is synced
and its last segment is then cut at any position. The recovered map is that of a number of
whole transactions exactly if the writes between the cut and the end of some transaction have
no effect. -/
theorem recoversMap_iff {syncWrites : Bool} {first : Uuid} {s₀ s : Log}
    (hopen : walOpen syncWrites first ⟨∅, [], []⟩ = (.ok, some s₀)) {steps : List TxnStep}
    (hsteps : AllPermitted s₀ steps) (hsync : walSync (runTxns s₀ steps) = (.ok, s))
    {sinceTs : ℕ} (hnew : ∀ t ∈ committed steps, sinceTs < t.ts) (pos : ℕ) (s₁ : Stores) :
    RecoversMap sinceTs (cutFile s.disk.files (segName s.wal.segmentId) pos) (committed steps)
        s₁ ↔ HarmlessCut s₁.ht.live steps pos := by
  have hcontent := (txnHolds_open hopen).delivered_cut hsteps hsync hnew pos
  have hbefore := recordsBefore_prefix steps pos
  unfold RecoversMap HarmlessCut
  rw [walReplay_of_content hcontent]
  simp only [live_foldl_replayRecord]
  refine exists_congr fun n => ?_
  have htake : txnRecords ((committed steps).take n) <+: txnRecords (committed steps) := by
    conv_rhs => rw [← List.take_append_drop n (committed steps), txnRecords_append]
    exact List.prefix_append _ _
  have hwrite : ∀ {rs : List Record}, rs <+: txnRecords (committed steps) →
      ∀ r ∈ rs, r.type = .put ∨ r.type = .delete := fun hrs r hr =>
    write_of_mem_txnRecords (hrs.subset hr)
  constructor
  · intro h
    rcases List.prefix_or_prefix_of_prefix htake hbefore with ⟨more, heq⟩ | ⟨more, heq⟩
    · refine ⟨more, Or.inl ⟨heq.symm, (noEffect_iff ?_).mpr (by rw [heq, h])⟩⟩
      rw [heq]
      exact hwrite hbefore
    · refine ⟨more, Or.inr ⟨heq.symm, (noEffect_iff ?_).mpr (by rw [heq, h])⟩⟩
      rw [heq]
      exact hwrite htake
  · rintro ⟨more, ⟨heq, h⟩ | ⟨heq, h⟩⟩
    · rw [heq]
      exact (noEffect_iff (heq ▸ hwrite hbefore)).mp h
    · rw [heq]
      exact ((noEffect_iff (heq ▸ hwrite htake)).mp h).symm

/-- A cut between two transactions is harmless. -/
theorem harmlessCut_of_between (m : Bytes → Slice) {steps : List TxnStep} {pos : ℕ}
    (h : BetweenTxns (inLastSegment [] steps) pos) : HarmlessCut m steps pos := by
  obtain ⟨k, hk⟩ := (wholeRecords_eq_iff _ pos).mpr h
  refine ⟨(inOlderSegments steps).length + k, [],
    Or.inl ⟨?_, fun r hr => absurd hr List.not_mem_nil⟩⟩
  rw [recordsBefore, hk, take_txnRecords, List.append_nil, ← txnRecords_append,
    ← inOlderSegments_append, List.take_append, List.take_of_length_le (Nat.le_add_right _ _),
    Nat.add_sub_cancel_left]

/-- A log that was opened in an empty directory. -/
def openedLog : Log where
  wal := ⟨some (segName firstId.hex), false, 0, 0, firstId.hex, [], false, []⟩
  disk := ⟨(∅ : Files).insert (segName firstId.hex) [], [], [.create (segName firstId.hex)]⟩

/-- A transaction that deletes a key and puts another, logged in 22 and 23 bytes. -/
def deleteAndPut : LoggedTxn := ⟨1, [⟨[2], none⟩, ⟨[1], some [10]⟩]⟩

/-- The log of this transaction. -/
def deleteAndPutLog : Log := (walSync (runTxns openedLog [.commit deleteAndPut])).2

/-- Cut behind the first record, the transaction is half there, but the deletion of a key that
is absent does not show in the map. -/
theorem recoversMap_of_idle_delete :
    ¬ BetweenTxns [deleteAndPut] 22 ∧
      RecoversMap 0 (cutFile deleteAndPutLog.disk.files (segName firstId.hex) 22) [deleteAndPut]
        oneBucket.stores := by
  have hsync : walSync (runTxns openedLog [.commit deleteAndPut]) = (.ok, deleteAndPutLog) :=
    Prod.ext (by decide +kernel) rfl
  have hvalid : ∀ r ∈ deleteAndPut.records, r.Valid := by
    intro r hr
    simp only [LoggedTxn.records, deleteAndPut, List.map_cons, List.map_nil, List.mem_cons,
      List.not_mem_nil, or_false] at hr
    rcases hr with rfl | rfl <;>
      exact ⟨by decide, by decide, by simp [WriteEntry.record, maxValLen]⟩
  have hopen : walOpen false firstId ⟨∅, [], []⟩ = (.ok, some openedLog) := rfl
  have hpermitted : AllPermitted openedLog [.commit deleteAndPut] := ⟨hvalid, trivial⟩
  have hnew : ∀ t ∈ committed [.commit deleteAndPut], 0 < t.ts := by
    simp [committed, TxnStep.txn, deleteAndPut]
  have hbefore : recordsBefore [.commit deleteAndPut] 22 = [⟨.delete, 1, [2], none⟩] := by
    decide +kernel
  have hharmless : HarmlessCut oneBucket.stores.ht.live [.commit deleteAndPut] 22 := by
    refine ⟨0, [⟨.delete, 1, [2], none⟩], Or.inl ⟨hbefore, fun r hr => ?_⟩⟩
    rw [List.mem_singleton.mp hr]
    decide +kernel
  refine ⟨?_, (recoversMap_iff hopen hpermitted hsync hnew 22 oneBucket.stores).mpr hharmless⟩
  rw [← wholeRecords_eq_iff]
  rintro ⟨k, hk⟩
  have hone : wholeRecords (txnRecords [deleteAndPut]) 22 = 1 := by decide +kernel
  rw [hone] at hk
  cases k with
  | zero => cases hk
  | succ k =>
    rw [List.take_succ_cons, List.take_nil] at hk
    exact absurd hk (by decide +kernel)

/-- A transaction with two writes, logged in 23 bytes each. -/
def twoWrites : LoggedTxn := ⟨1, [⟨[2], some [20]⟩, ⟨[1], some [10]⟩]⟩

/-- The log of this transaction. -/
def twoWritesLog : Log := (walSync (runTxns openedLog [.commit twoWrites])).2

/-- Cut behind the first record, one of the two writes is recovered: no number of whole
transactions makes this map. -/
theorem half_transaction_is_recovered :
    ¬ RecoversMap 0 (cutFile twoWritesLog.disk.files (segName firstId.hex) 23) [twoWrites]
      oneBucket.stores := by
  rintro ⟨n, h⟩
  cases n with
  | zero => exact absurd (congrFun h [2]) (by decide +kernel)
  | succ n =>
    rw [List.take_succ_cons, List.take_nil] at h
    exact absurd (congrFun h [1]) (by decide +kernel)

end FastKV
