import Mathlib.Data.List.Induction
import Mathlib.Data.Set.Lattice
import Mathlib.Order.CompletePartialOrder
import Mathlib.Order.Interval.Set.Basic
import FastKV.Visible

/-!
# The table as a map with timestamps

A read at time `t` returns the one version whose interval contains `t`. A write at a later
time does not touch it, a write at an earlier time becomes what the reader sees, and a
collection keeps it when the collector's bound is not above `t`. From any calls with
timestamps in order it follows that the table answers as the history of its writes, read up
to `t`, does; how the chains are ordered and which keys share them has no influence.
-/

namespace FastKV

/-! ## The version a reader sees -/

/-- The interval of the version contains the timestamp. -/
def Version.contains (t : ℕ) (v : Version) : Bool := decide (v.beginTs ≤ t) && decide (t < v.endTs)

/-- The value of the version which a reader at `t` sees; the null slice for a tombstone or no
version. -/
def Ht.visible (ht : Ht) (t : ℕ) (key : Bytes) : Slice :=
  ((ht.versions key).find? (Version.contains t)).bind Version.value

/-- The intervals of two versions do not overlap. -/
def Version.Apart (v w : Version) : Prop := v.endTs ≤ w.beginTs ∨ w.endTs ≤ v.beginTs

/-- The intervals of the versions of each key do not overlap. -/
def Ht.Apart (ht : Ht) : Prop := ∀ key, (ht.versions key).Pairwise Version.Apart

/-- `fastkv_ht_get` returns what is visible. -/
theorem htGet_eq_visible (ht : Ht) (t : ℕ) (key : Bytes) :
    htGet ht t key = readResult (ht.visible t key) := by
  have hkey : ∀ v ∈ ht.versions key, v.key = key := fun v hv => Ht.key_of_mem_versions hv
  rw [htGet_eq, Ht.visible]
  generalize ht.versions key = vs at hkey
  induction vs with
  | nil => rfl
  | cons v vs ih =>
    have hv := hkey v List.mem_cons_self
    rw [chainGet]
    by_cases hsees : v.beginTs ≤ t ∧ t < v.endTs
    · rw [if_pos ⟨hv, hsees⟩, List.find?_cons_of_pos (by simpa [Version.contains] using hsees),
        Option.bind_some]
      cases v.value <;> rfl
    · rw [if_neg fun hc => hsees hc.2,
        List.find?_cons_of_neg (by simpa [Version.contains] using hsees)]
      exact ih fun w hw => hkey w (List.mem_cons_of_mem _ hw)

/-- Apart does not depend on the order of the two versions. -/
theorem Version.Apart.symm {v w : Version} (h : v.Apart w) : w.Apart v := Or.symm h

/-- Versions that are apart are not visible to the same reader. -/
theorem Version.Apart.not_contains {v w : Version} (h : v.Apart w) {t : ℕ}
    (hv : v.contains t = true) : w.contains t = false := by
  simp only [Version.contains, Bool.and_eq_true, decide_eq_true_eq] at hv
  rw [← Bool.not_eq_true]
  simp only [Version.contains, Bool.and_eq_true, decide_eq_true_eq]
  rcases h with h | h
  · omega
  · omega

/-- The intervals of versions that are apart are disjoint sets of timestamps. -/
theorem Version.Apart.disjoint {v w : Version} (h : v.Apart w) :
    Disjoint (Set.Ico v.beginTs v.endTs) (Set.Ico w.beginTs w.endTs) := by
  rw [Set.disjoint_left]
  intro t hv hw
  have hcontains := h.not_contains (t := t) (by simpa [Version.contains] using hv)
  simp [Version.contains, hw.1, hw.2] at hcontains

/-- A reader sees at most one version of a key. -/
theorem length_filter_contains {vs : List Version} (h : vs.Pairwise Version.Apart) (t : ℕ) :
    (vs.filter (Version.contains t)).length ≤ 1 := by
  have hfilter := h.filter (Version.contains t)
  have hall : ∀ v ∈ vs.filter (Version.contains t), v.contains t = true :=
    fun v hv => (List.mem_filter.mp hv).2
  match hvs : vs.filter (Version.contains t) with
  | [] => exact Nat.zero_le _
  | [v] => exact Nat.le_refl _
  | v :: w :: rest =>
    rw [hvs] at hfilter hall
    have hapart := (List.pairwise_cons.mp hfilter).1 w List.mem_cons_self
    have hw := hapart.not_contains (hall v List.mem_cons_self)
    rw [hall w (by simp)] at hw
    cases hw

/-! ## What the operations do to it -/

/-- Sealing at a later time does not change what a reader sees. -/
theorem find?_sealLive {t commitTs : ℕ} (hlt : t < commitTs) (hts : t < tsMax) (key : Bytes)
    (vs : List Version) :
    ((sealLive commitTs key vs).find? (Version.contains t)).bind Version.value =
      (vs.find? (Version.contains t)).bind Version.value := by
  induction vs with
  | nil => rfl
  | cons v vs ih =>
    rw [sealLive]
    split
    · rename_i hlive
      have hsame : Version.contains t { v with endTs := commitTs } = v.contains t := by
        simp [Version.contains, hlive.2, hlt, hts]
      cases hv : v.contains t with
      | true => rw [List.find?_cons_of_pos (hsame.trans hv), List.find?_cons_of_pos hv]; rfl
      | false =>
        rw [List.find?_cons_of_neg (by rw [hsame, hv]; simp),
          List.find?_cons_of_neg (by rw [hv]; simp)]
    · cases hv : v.contains t with
      | true => rw [List.find?_cons_of_pos hv, List.find?_cons_of_pos hv]
      | false =>
        rw [List.find?_cons_of_neg (by rw [hv]; simp), List.find?_cons_of_neg (by rw [hv]; simp)]
        exact ih

/-- A write at a later time is not seen. -/
theorem visible_insert_later (ht : Ht) {t commitTs : ℕ} (hlt : t < commitTs) (hts : t < tsMax)
    (key key' : Bytes) (value : Slice) :
    (htInsertVersion ht commitTs key value).visible t key' = ht.visible t key' := by
  unfold Ht.visible
  by_cases hkey : key' = key
  · subst hkey
    have hnew : ¬ (newVersion commitTs key' value).contains t = true := by
      simp [Version.contains, newVersion, Nat.not_le.mpr hlt]
    rw [versions_htInsertVersion_self, List.find?_cons_of_neg hnew, find?_sealLive hlt hts]
  · rw [versions_htInsertVersion_other hkey]

/-- A write that is not later than the reader is what the reader sees. -/
theorem visible_insert (ht : Ht) {t commitTs : ℕ} (hle : commitTs ≤ t) (hts : t < tsMax)
    (key key' : Bytes) (value : Slice) :
    (htInsertVersion ht commitTs key value).visible t key' =
      if key' = key then sliceDup value else ht.visible t key' := by
  unfold Ht.visible
  split
  · rename_i hkey
    subst hkey
    have hnew : (newVersion commitTs key' value).contains t = true := by
      simp [Version.contains, newVersion, hle, hts]
    rw [versions_htInsertVersion_self, List.find?_cons_of_pos hnew]
    rfl
  · rename_i hkey
    rw [versions_htInsertVersion_other hkey]

/-- A collection up to a time that is not after the reader does not change what it sees. -/
theorem visible_htGc {ht : Ht} (h : ht.Apart) {t minActiveTs : ℕ} (hle : minActiveTs ≤ t)
    (key : Bytes) : (htGc ht minActiveTs).2.visible t key = ht.visible t key := by
  unfold Ht.visible
  rw [find?_htGc (length_filter_contains (h key) t)]
  intro v _ hv
  simp only [Version.contains, Bool.and_eq_true, decide_eq_true_eq] at hv
  simp only [Version.survives, decide_eq_true_eq]
  omega

/-- Sealing at a time before the end of all times keeps versions apart. -/
theorem pairwise_apart_sealLive {commitTs : ℕ} (hts : commitTs ≤ tsMax) (key : Bytes)
    {vs : List Version} (h : vs.Pairwise Version.Apart) :
    (sealLive commitTs key vs).Pairwise Version.Apart := by
  -- ending earlier keeps a version apart from every other one
  have hshrink : ∀ {v w : Version}, v.endTs = tsMax → v.Apart w →
      Version.Apart { v with endTs := commitTs } w := by
    intro v w hv hapart
    rcases hapart with hle | hle
    · exact Or.inl (by simp only; omega)
    · exact Or.inr hle
  induction vs with
  | nil => exact List.Pairwise.nil
  | cons v vs ih =>
    obtain ⟨hv, hvs⟩ := List.pairwise_cons.mp h
    rw [sealLive]
    split
    · rename_i hlive
      exact List.pairwise_cons.mpr ⟨fun w hw => hshrink hlive.2 (hv w hw), hvs⟩
    · refine List.pairwise_cons.mpr ⟨fun w hw => ?_, ih hvs⟩
      rcases mem_sealLive hw with hw | ⟨u, hu, hlive, rfl⟩
      · exact hv w hw
      · exact (hshrink hlive (hv u hu).symm).symm

/-- All timestamps of the table are at most `ts`, apart from the end of live versions. -/
def Ht.UpTo (ht : Ht) (ts : ℕ) : Prop :=
  ∀ key, ∀ v ∈ ht.versions key, v.beginTs ≤ ts ∧ (v.endTs = tsMax ∨ v.endTs ≤ ts)

/-- A write at the end of the history keeps the versions of every key apart. -/
theorem Ht.Apart.insert {ht : Ht} (h : ht.Apart) (hone : ht.OneLive) {commitTs : ℕ}
    (hupTo : ht.UpTo commitTs) (hts : commitTs < tsMax) (key : Bytes) (value : Slice) :
    (htInsertVersion ht commitTs key value).Apart := by
  intro key'
  by_cases hkey : key' = key
  · subst hkey
    rw [versions_htInsertVersion_self]
    refine List.pairwise_cons.mpr ⟨fun v hv => ?_, pairwise_apart_sealLive hts.le key' (h key')⟩
    have hnil := filter_sealLive hts.ne (fun v hv => Ht.key_of_mem_versions hv) (hone key')
    have hdead : ¬ v.isLive = true := List.filter_eq_nil_iff.mp hnil v hv
    refine Or.inr (show v.endTs ≤ commitTs from ?_)
    rcases mem_sealLive hv with hold | ⟨w, _, _, rfl⟩
    · rcases (hupTo key' v hold).2 with hend | hend
      · exact absurd (by simpa [Version.isLive] using hend) hdead
      · exact hend
    · exact Nat.le_refl _
  · rw [versions_htInsertVersion_other hkey]
    exact h key'

/-- A collection keeps the versions of every key apart. -/
theorem Ht.Apart.gc {ht : Ht} (h : ht.Apart) (minActiveTs : ℕ) : (htGc ht minActiveTs).2.Apart := by
  intro key
  rw [versions_htGc, List.pairwise_reverse]
  exact ((h key).filter _).imp Version.Apart.symm

/-- Later bounds are weaker. -/
theorem Ht.UpTo.mono {ht : Ht} {ts ts' : ℕ} (h : ht.UpTo ts) (hle : ts ≤ ts') : ht.UpTo ts' := by
  intro key v hv
  obtain ⟨hbegin, hend⟩ := h key v hv
  exact ⟨hbegin.trans hle, hend.imp_right fun hend => hend.trans hle⟩

/-- A write brings in its own timestamp only. -/
theorem Ht.UpTo.insert {ht : Ht} {commitTs : ℕ} (h : ht.UpTo commitTs) (key : Bytes)
    (value : Slice) : (htInsertVersion ht commitTs key value).UpTo commitTs := by
  intro key' v hv
  by_cases hkey : key' = key
  · subst hkey
    rw [versions_htInsertVersion_self] at hv
    rcases List.mem_cons.mp hv with rfl | hv
    · exact ⟨Nat.le_refl _, Or.inl rfl⟩
    · rcases mem_sealLive hv with hold | ⟨w, hw, -, rfl⟩
      · exact h key' v hold
      · exact ⟨(h key' w hw).1, Or.inr (Nat.le_refl _)⟩
  · rw [versions_htInsertVersion_other hkey] at hv
    exact h key' v hv

/-- A collection brings in no timestamps. -/
theorem Ht.UpTo.gc {ht : Ht} {ts : ℕ} (h : ht.UpTo ts) (minActiveTs : ℕ) :
    (htGc ht minActiveTs).2.UpTo ts := by
  intro key v hv
  rw [versions_htGc, List.mem_reverse] at hv
  exact h key v (List.mem_of_mem_filter hv)

/-! ## Counting versions -/

/-- The number of nodes in all chains. -/
def Ht.numNodes (ht : Ht) : ℕ := (ht.buckets.map List.length).sum

/-- Sealing keeps the length of a chain. -/
theorem length_sealLive (commitTs : ℕ) (key : Bytes) (chain : List Version) :
    (sealLive commitTs key chain).length = chain.length := by
  have hkeys := congrArg List.length (sealLive_keys commitTs key chain)
  simpa using hkeys

/-- A write adds one node. -/
theorem numNodes_htInsertVersion (ht : Ht) (commitTs : ℕ) (key : Bytes) (value : Slice) :
    (htInsertVersion ht commitTs key value).numNodes = ht.numNodes + 1 := by
  have hlen := bucketIdx_lt ht key
  unfold Ht.numNodes htInsertVersion
  simp only
  generalize bucketIdx ht key = i at hlen
  generalize ht.buckets = buckets at hlen
  induction buckets generalizing i with
  | nil => simp at hlen
  | cons chain buckets ih =>
    cases i with
    | zero =>
      simp only [List.modify_zero_cons, List.map_cons, List.sum_cons, List.length_cons,
        length_sealLive]
      omega
    | succ i =>
      simp only [List.modify_succ_cons, List.map_cons, List.sum_cons]
      rw [ih i (by simpa using hlen)]
      omega

/-- The collector counts the nodes it frees. -/
theorem gcChain_length (minActiveTs : ℕ) (chain keep : List Version) (freed : ℕ) :
    (gcChain minActiveTs chain keep freed).1.length + (gcChain minActiveTs chain keep freed).2 =
      chain.length + keep.length + freed := by
  induction chain generalizing keep freed with
  | nil => simp [gcChain]
  | cons v next ih =>
    rw [gcChain]
    split
    · rw [ih, List.length_cons]
      omega
    · rw [ih, List.length_cons, List.length_cons]
      omega

/-- A collection removes as many nodes as it reports. -/
theorem numNodes_htGc (ht : Ht) (minActiveTs : ℕ) :
    (htGc ht minActiveTs).2.numNodes + (htGc ht minActiveTs).1 = ht.numNodes := by
  unfold Ht.numNodes htGc
  simp only
  generalize ht.buckets = buckets
  induction buckets with
  | nil => rfl
  | cons chain buckets ih =>
    have hchain := gcChain_length minActiveTs chain [] 0
    simp only [List.map_cons, List.sum_cons, List.length_nil] at ih hchain ⊢
    omega

/-- The counter of a table that fits into memory. -/
def Ht.Counted (ht : Ht) : Prop := ht.numVersions = ht.numNodes

/-- A write keeps the counter right. -/
theorem Ht.Counted.insert {ht : Ht} (h : ht.Counted) (commitTs : ℕ) (key : Bytes) (value : Slice)
    (hfits : (htInsertVersion ht commitTs key value).numNodes < 2 ^ 64) :
    (htInsertVersion ht commitTs key value).Counted := by
  rw [numNodes_htInsertVersion] at hfits
  rw [Ht.Counted, numNodes_htInsertVersion, ← show ht.numVersions = ht.numNodes from h]
  exact add64_eq (by rw [show ht.numVersions = ht.numNodes from h]; exact hfits)

/-- A collection keeps the counter right. -/
theorem Ht.Counted.gc {ht : Ht} (h : ht.Counted) (minActiveTs : ℕ)
    (hfits : ht.numNodes < 2 ^ 64) : (htGc ht minActiveTs).2.Counted := by
  have hnodes := numNodes_htGc ht minActiveTs
  have hcount : ht.numVersions = ht.numNodes := h
  have hsub : (htGc ht minActiveTs).2.numVersions = ht.numVersions - (htGc ht minActiveTs).1 :=
    sub64_eq (show (htGc ht minActiveTs).1 ≤ ht.numVersions by omega) (by omega)
  rw [Ht.Counted, hsub]
  omega

/-! ## Sequences of calls -/

/-- Operations on a table. -/
inductive HtOp
  /-- `fastkv_ht_put`. -/
  | put (commitTs : ℕ) (key : Bytes) (value : Slice)
  /-- `fastkv_ht_delete`. -/
  | delete (commitTs : ℕ) (key : Bytes)
  /-- `fastkv_ht_gc`. -/
  | gc (minActiveTs : ℕ)

/-- Execute an operation. -/
def HtOp.run (ht : Ht) : HtOp → Ht
  | .put commitTs key value => htPut ht commitTs key value
  | .delete commitTs key => htDelete ht commitTs key
  | .gc minActiveTs => (htGc ht minActiveTs).2

/-- The timestamp of an operation. -/
def HtOp.ts : HtOp → ℕ
  | .put commitTs _ _ => commitTs
  | .delete commitTs _ => commitTs
  | .gc minActiveTs => minActiveTs

/-- The table after a sequence of operations on a new one. -/
def runHt (capacity : ℕ) (hcap : ∃ n < 64, capacity = 2 ^ n) (ops : List HtOp) : Ht :=
  ops.foldl HtOp.run (htCreate capacity hcap)

/-- In every table that operations lead to, no key has two live versions and no value is
empty. -/
theorem runHt_invariant {capacity : ℕ} (hcap : ∃ n < 64, capacity = 2 ^ n) {ops : List HtOp}
    (hops : ∀ op ∈ ops, op.ts < tsMax) :
    (runHt capacity hcap ops).OneLive ∧ (runHt capacity hcap ops).NoEmpty := by
  have hstart : (htCreate capacity hcap).OneLive ∧ (htCreate capacity hcap).NoEmpty := by
    refine ⟨fun key => ?_, fun key v hv => ?_⟩
    · rw [versions_htCreate]
      exact Nat.zero_le _
    · rw [versions_htCreate] at hv
      cases hv
  unfold runHt
  generalize htCreate capacity hcap = ht at hstart
  induction ops generalizing ht with
  | nil => exact hstart
  | cons op ops ih =>
    have hts := hops op (by simp)
    refine ih (fun op' hop' => hops op' (by simp [hop'])) (op.run ht) ?_
    cases op with
    | put commitTs key value =>
      exact ⟨hstart.1.insert (ne_of_lt hts) key value, hstart.2.insert commitTs key value⟩
    | delete commitTs key =>
      exact ⟨hstart.1.insert (ne_of_lt hts) key none, hstart.2.insert commitTs key none⟩
    | gc minActiveTs => exact ⟨hstart.1.gc minActiveTs, hstart.2.gc minActiveTs⟩

/-- The timestamp of a write. -/
def HtOp.commitTs : HtOp → Option ℕ
  | .put commitTs _ _ => some commitTs
  | .delete commitTs _ => some commitTs
  | .gc _ => none

/-- The call writes the key at a time that is not after `t`. -/
def HtOp.writes (t : ℕ) (key : Bytes) : HtOp → Bool
  | .put commitTs key' _ => decide (key' = key) && decide (commitTs ≤ t)
  | .delete commitTs key' => decide (key' = key) && decide (commitTs ≤ t)
  | .gc _ => false

/-- What a call writes; a deletion writes the null slice. -/
def HtOp.value : HtOp → Slice
  | .put _ _ value => value
  | .delete _ _ => none
  | .gc _ => none

/-- The value which the last write of a key up to time `t` gave it. -/
def asOf (ops : List HtOp) (t : ℕ) (key : Bytes) : Slice :=
  (ops.filter (HtOp.writes t key)).getLast?.bind HtOp.value

/-- Only the last call can change the value. -/
theorem asOf_append (ops : List HtOp) (op : HtOp) (t : ℕ) (key : Bytes) :
    asOf (ops ++ [op]) t key = if op.writes t key then op.value else asOf ops t key := by
  unfold asOf
  rw [List.filter_append]
  split
  · rename_i hwrites
    rw [List.filter_cons_of_pos hwrites, List.filter_nil, List.getLast?_concat]
    rfl
  · rename_i hwrites
    rw [List.filter_cons_of_neg hwrites, List.filter_nil, List.append_nil]

/-- Calls with timestamps in order, below the end of all times, and non-empty values. -/
structure HtOp.InOrder (ops : List HtOp) : Prop where
  /-- Commit timestamps do not decrease. -/
  ordered : (ops.filterMap HtOp.commitTs).Pairwise (· ≤ ·)
  /-- Commit timestamps are less than `FASTKV_TS_MAX`. -/
  lt_tsMax : ∀ ts ∈ ops.filterMap HtOp.commitTs, ts < tsMax
  /-- Values have at least one byte. -/
  nonempty : ∀ ts key value, HtOp.put ts key value ∈ ops → ∃ v ≠ [], value = some v

/-- The table of a history: what a reader at any time not before a collection sees is what the
history says, and the versions of one key follow each other. -/
structure Ht.Reads (ht : Ht) (ops : List HtOp) : Prop where
  /-- Intervals do not overlap. -/
  apart : ht.Apart
  /-- There is one live version at most. -/
  oneLive : ht.OneLive
  /-- Timestamps are those of the calls. -/
  upTo : ∀ ts, (∀ ts' ∈ ops.filterMap HtOp.commitTs, ts' ≤ ts) → ht.UpTo ts
  /-- Readers see the history. -/
  visible : ∀ t key, t < tsMax → (∀ m, HtOp.gc m ∈ ops → m ≤ t) → ht.visible t key = asOf ops t key

/-- A write that comes last in the history. -/
theorem Ht.Reads.write {ht : Ht} {ops : List HtOp} (h : ht.Reads ops) {op : HtOp} {commitTs : ℕ}
    {key : Bytes} {value : Slice} (hop : op.commitTs = some commitTs)
    (hvalue : sliceDup value = op.value)
    (hwrites : ∀ t key', op.writes t key' = (decide (key = key') && decide (commitTs ≤ t)))
    (hlast : ∀ ts ∈ ops.filterMap HtOp.commitTs, ts ≤ commitTs) (hts : commitTs < tsMax) :
    (htInsertVersion ht commitTs key value).Reads (ops ++ [op]) := by
  have hupTo := h.upTo commitTs hlast
  refine ⟨h.apart.insert h.oneLive hupTo hts key value, h.oneLive.insert hts.ne key value,
    fun ts hts' => ?_, fun t key' ht' hgc => ?_⟩
  · exact (hupTo.insert key value).mono (hts' commitTs (by simp [hop]))
  · have hold := h.visible t key' ht' fun m hm => hgc m (List.mem_append_left _ hm)
    rw [asOf_append, hwrites, ← hvalue, ← hold]
    by_cases hle : commitTs ≤ t
    · rw [visible_insert ht hle ht']
      by_cases hkey : key' = key
      · rw [if_pos hkey, if_pos (by simp [hkey, hle])]
      · rw [if_neg hkey, if_neg (by simp [Ne.symm hkey])]
    · rw [visible_insert_later ht (by omega) ht', if_neg (by simp [hle])]

/-- A collection at the end of the history. -/
theorem Ht.Reads.gc {ht : Ht} {ops : List HtOp} (h : ht.Reads ops) (m : ℕ) :
    (htGc ht m).2.Reads (ops ++ [.gc m]) := by
  refine ⟨h.apart.gc m, h.oneLive.gc m, fun ts hts => ?_, fun t key ht' hgc => ?_⟩
  · refine (h.upTo ts fun ts' hts' => hts ts' ?_).gc m
    rw [List.filterMap_append]
    exact List.mem_append_left _ hts'
  · rw [visible_htGc h.apart (hgc m (by simp)), asOf_append, if_neg (by simp [HtOp.writes])]
    exact h.visible t key ht' fun m hm => hgc m (List.mem_append_left _ hm)

/-- A new table has an empty history. -/
theorem htCreate_reads (capacity : ℕ) (hcap : ∃ n < 64, capacity = 2 ^ n) :
    (htCreate capacity hcap).Reads [] := by
  refine ⟨fun key => ?_, fun key => ?_, fun ts _ key v hv => ?_, fun t key _ _ => ?_⟩
  · rw [versions_htCreate]
    exact List.Pairwise.nil
  · rw [versions_htCreate]
    exact Nat.zero_le _
  · rw [versions_htCreate] at hv
    cases hv
  · rw [Ht.visible, versions_htCreate]
    rfl

/-- The table after one more call. -/
theorem runHt_append (capacity : ℕ) (hcap : ∃ n < 64, capacity = 2 ^ n) (ops : List HtOp)
    (op : HtOp) : runHt capacity hcap (ops ++ [op]) = op.run (runHt capacity hcap ops) := by
  rw [runHt, List.foldl_append]
  rfl

/-- The beginning of calls in order is in order. -/
theorem HtOp.InOrder.init {ops : List HtOp} {op : HtOp} (h : InOrder (ops ++ [op])) :
    InOrder ops ∧ ∀ commitTs, op.commitTs = some commitTs →
      commitTs < tsMax ∧ ∀ ts ∈ ops.filterMap HtOp.commitTs, ts ≤ commitTs := by
  have hordered := h.ordered
  rw [List.filterMap_append, List.pairwise_append] at hordered
  refine ⟨⟨hordered.1, fun ts hts => h.lt_tsMax ts ?_, fun ts key value hput =>
    h.nonempty ts key value (List.mem_append_left _ hput)⟩, fun commitTs hop =>
    ⟨h.lt_tsMax _ ?_, ?_⟩⟩
  · rw [List.filterMap_append]
    exact List.mem_append_left _ hts
  · simp [List.filterMap_append, hop]
  · intro ts hts
    exact hordered.2.2 ts hts commitTs (by simp [hop])

/-- Calls in order give the table of their history. -/
theorem runHt_reads (capacity : ℕ) (hcap : ∃ n < 64, capacity = 2 ^ n) (ops : List HtOp)
    (h : HtOp.InOrder ops) : (runHt capacity hcap ops).Reads ops := by
  induction ops using List.reverseRecOn with
  | nil => exact htCreate_reads capacity hcap
  | append_singleton ops op ih =>
    obtain ⟨hinit, hlast⟩ := h.init
    rw [runHt_append]
    cases op with
    | put commitTs key value =>
      obtain ⟨hts, hle⟩ := hlast commitTs rfl
      obtain ⟨v, hv, rfl⟩ := h.nonempty commitTs key value (by simp)
      exact (ih hinit).write rfl (sliceDup_of_ne hv) (fun t key' => rfl) hle hts
    | delete commitTs key =>
      obtain ⟨hts, hle⟩ := hlast commitTs rfl
      exact (ih hinit).write rfl rfl (fun t key' => rfl) hle hts
    | gc m => exact (ih hinit).gc m

/-- A table that never outgrows the address space counts its nodes correctly. -/
theorem runHt_counted (capacity : ℕ) (hcap : ∃ n < 64, capacity = 2 ^ n) (ops : List HtOp)
    (hfits : ∀ ops', ops' <+: ops → (runHt capacity hcap ops').numNodes < 2 ^ 64) :
    (runHt capacity hcap ops).Counted := by
  induction ops using List.reverseRecOn with
  | nil => simp [Ht.Counted, Ht.numNodes, runHt, htCreate]
  | append_singleton ops op ih =>
    have hold := ih fun ops' hops' => hfits ops' (hops'.trans (List.prefix_append _ _))
    have hbefore := hfits ops (List.prefix_append _ _)
    have hafter := hfits (ops ++ [op]) (List.prefix_refl _)
    rw [runHt_append] at hafter ⊢
    cases op with
    | put commitTs key value => exact hold.insert commitTs key value hafter
    | delete commitTs key => exact hold.insert commitTs key none hafter
    | gc m => exact hold.gc m hbefore

/-- A table refines the map with timestamps. After calls in order, a reader at a time that is
not before any collection gets what the last write of its key up to that time gave it. The
intervals of the versions of one key are disjoint and one of them at most is live, a further
collection changes no such read, and the counter is the number of nodes. -/
theorem runHt_refines_asOf (capacity : ℕ) (hcap : ∃ n < 64, capacity = 2 ^ n) (ops : List HtOp)
    (hops : HtOp.InOrder ops) :
    (∀ t key, t < tsMax → (∀ m, HtOp.gc m ∈ ops → m ≤ t) →
        htGet (runHt capacity hcap ops) t key = readResult (asOf ops t key)) ∧
      (∀ key, ((runHt capacity hcap ops).versions key).Pairwise fun v w =>
        Disjoint (Set.Ico v.beginTs v.endTs) (Set.Ico w.beginTs w.endTs)) ∧
      (∀ key, (((runHt capacity hcap ops).versions key).filter Version.isLive).length ≤ 1) ∧
      (∀ t key m', t < tsMax → (∀ m, HtOp.gc m ∈ ops → m ≤ t) → m' ≤ t →
        htGet (htGc (runHt capacity hcap ops) m').2 t key = htGet (runHt capacity hcap ops) t key) ∧
      ((∀ ops', ops' <+: ops → (runHt capacity hcap ops').numNodes < 2 ^ 64) →
        (runHt capacity hcap ops).numVersions = (runHt capacity hcap ops).numNodes) := by
  have h := runHt_reads capacity hcap ops hops
  refine ⟨fun t key ht hgc => ?_, fun key => (h.apart key).imp Version.Apart.disjoint, h.oneLive,
    fun t key m' ht hgc hm' => ?_, runHt_counted capacity hcap ops⟩
  · rw [htGet_eq_visible, h.visible t key ht hgc]
  · rw [htGet_eq_visible, htGet_eq_visible, visible_htGc h.apart hm']

/-- Two writes at one time, a collection and a deletion, read before the deletion. -/
theorem runHt_refines_asOf_collected :
    HtOp.InOrder [.put 3 [1] (some [10]), .put 3 [1] (some [11]), .gc 4, .delete 5 [1]] ∧
      htGet (runHt 1 ⟨0, by decide⟩
        [.put 3 [1] (some [10]), .put 3 [1] (some [11]), .gc 4, .delete 5 [1]]) 4 [1] =
          .ok [11] := by
  have hops : HtOp.InOrder
      [.put 3 [1] (some [10]), .put 3 [1] (some [11]), .gc 4, .delete 5 [1]] := by
    refine ⟨by decide, by decide, fun ts key value hput => ?_⟩
    simp only [List.mem_cons, HtOp.put.injEq, List.not_mem_nil, or_false, reduceCtorEq] at hput
    rcases hput with ⟨-, -, rfl⟩ | ⟨-, -, rfl⟩
    · exact ⟨[10], by decide, rfl⟩
    · exact ⟨[11], by decide, rfl⟩
  refine ⟨hops, ?_⟩
  rw [(runHt_refines_asOf 1 ⟨0, by decide⟩ _ hops).1 4 [1] (by decide) (by simp)]
  rfl

end FastKV
