import FastKV.Durable

/-!
# Snapshots of a changing table

A checkpoint visits one bucket after the other while versions are installed, so its snapshot
is not the table at any one time. Replaying the records that are newer than its timestamp
makes up for that: a record that was applied before its bucket was visited is applied a
second time, which changes nothing, and a record that was applied later is applied now. This
works as long as no older record is applied to a bucket after the visit.
-/

namespace FastKV

/-! ## Applying records twice -/

/-- A record leaves the value of a key alone or determines it. -/
theorem Record.update_const_or (r : Record) (key : Bytes) :
    (∀ m, r.update m key = m key) ∨ ∃ value, ∀ m, r.update m key = value := by
  have hkey : ∀ value, (∀ m : Bytes → Slice, Function.update m r.key value key = m key) ∨
      ∃ value', ∀ m : Bytes → Slice, Function.update m r.key value key = value' := by
    intro value
    by_cases hkey : key = r.key
    · rw [hkey]
      exact Or.inr ⟨value, fun m => Function.update_self ..⟩
    · exact Or.inl fun m => Function.update_of_ne hkey ..
  unfold Record.update
  cases r.type with
  | put => exact hkey _
  | delete => exact hkey _
  | commit => exact Or.inl fun m => rfl
  | begin => exact Or.inl fun m => rfl

/-- So do records. -/
theorem updates_const_or (rs : List Record) (key : Bytes) :
    (∀ m, updates m rs key = m key) ∨ ∃ value, ∀ m, updates m rs key = value := by
  induction rs using List.reverseRecOn with
  | nil => exact Or.inl fun _ => rfl
  | append_singleton rs r ih =>
    simp only [updates_append]
    rcases r.update_const_or key with hkeep | ⟨value, hvalue⟩
    · rcases ih with hkeep' | ⟨value, hvalue⟩
      · exact Or.inl fun m => (hkeep _).trans (hkeep' m)
      · exact Or.inr ⟨value, fun m => (hkeep _).trans (hvalue m)⟩
    · exact Or.inr ⟨value, fun m => hvalue _⟩

/-- The value of a key after records depends on its value before. -/
theorem updates_congr {m m' : Bytes → Slice} (rs : List Record) {key : Bytes} (h : m key = m' key) :
    updates m rs key = updates m' rs key := by
  rcases updates_const_or rs key with hkeep | ⟨value, hvalue⟩
  · rw [hkeep, hkeep, h]
  · rw [hvalue, hvalue]

/-- Applying records a second time changes nothing. -/
theorem updates_twice (m : Bytes → Slice) (rs : List Record) :
    updates (updates m rs) rs = updates m rs := by
  funext key
  rcases updates_const_or rs key with hkeep | ⟨value, hvalue⟩
  · rw [hkeep]
  · rw [hvalue, hvalue]

/-- A logged entry is a write, whatever its timestamp. -/
theorem WriteEntry.wanted_record (e : WriteEntry) (sinceTs commitTs : ℕ) :
    Record.wanted sinceTs (e.record commitTs) = decide (sinceTs < commitTs) := by
  cases hv : e.value <;> simp [Record.wanted, WriteEntry.record, hv]

/-- Installing an entry updates the map by its record. -/
theorem live_htInsertVersion_record (ht : Ht) (e : WriteEntry) (commitTs : ℕ) :
    (htInsertVersion ht commitTs e.key e.value).live = (e.record commitTs).update ht.live := by
  rw [live_htInsertVersion_eq]
  obtain ⟨key, value⟩ := e
  cases value <;> rfl

/-! ## Tables with one key in a bucket -/

/-- All versions in a bucket are versions of one key. -/
def Ht.OneKey (ht : Ht) : Prop := ∀ chain ∈ ht.buckets, ∀ v ∈ chain, ∀ v' ∈ chain, v.key = v'.key

section OneKey

variable {ht : Ht}

/-- The versions of one bucket, found through one of their keys. -/
theorem Ht.chain_of_mem {i : ℕ} {chain : List Version} {v : Version}
    (hchain : ht.buckets[i]? = some chain) (hv : v ∈ chain) : ht.chain v.key = chain := by
  have hbucket := ht.getElem?_chain v.key
  rw [show bucketIdx ht v.key = i from ht.placed i chain hchain v hv, hchain] at hbucket
  exact (Option.some.inj hbucket).symm

/-- Then a snapshot exports every pair. -/
theorem Ht.OneKey.exportable (h : ht.OneKey) (hone : ht.OneLive) : ht.Exportable := by
  intro chain hchain
  obtain ⟨i, hi⟩ := List.mem_iff_getElem?.mp hchain
  cases hc : chain with
  | nil => exact Nat.zero_le 1
  | cons v next =>
    rw [← hc]
    have hv : v ∈ chain := by simp [hc]
    have hall : (chain.filterMap Version.livePair).filter (fun e => decide (e.1 = v.key)) =
        chain.filterMap Version.livePair := by
      refine List.filter_eq_self.mpr fun e he => ?_
      obtain ⟨v', hv', hpair⟩ := List.mem_filterMap.mp he
      rw [decide_eq_true_eq, ← (Version.livePair_eq_some hpair).2.1]
      exact h chain hchain v' hv' v hv
    have hle := hone v.key
    rw [Ht.versions, Ht.chain_of_mem hi hv] at hle
    rw [← hall]
    exact (length_livePairs_le v.key chain).trans hle

/-- What a snapshot exports of the bucket of a key that is alone in it. -/
theorem Ht.OneLive.bucketEntry_chain (hone : ht.OneLive) {key : Bytes}
    (halone : ∀ v ∈ ht.chain key, v.key = key) :
    bucketEntry (ht.chain key) = (ht.live key).map fun value => (key, value) := by
  have hpairs : ∀ e ∈ (ht.chain key).filterMap Version.livePair, ht.live key = some e.2 ∧ e.1 =
      key := by
    intro e he
    obtain ⟨v, hv, hpair⟩ := List.mem_filterMap.mp he
    have hkey : e.1 = key := (Version.livePair_eq_some hpair).2.1.symm.trans (halone v hv)
    refine ⟨(hone.mem_livePairs_iff key e.2).mp ?_, hkey⟩
    rw [← hkey]
    rwa [← hkey] at he
  rw [bucketEntry_eq]
  cases hhead : ((ht.chain key).filterMap Version.livePair).head? with
  | none =>
    cases hlive : ht.live key with
    | none => rfl
    | some value =>
      have hmem := (hone.mem_livePairs_iff key value).mpr hlive
      rw [List.head?_eq_none_iff.mp hhead] at hmem
      cases hmem
  | some e =>
    obtain ⟨hlive, hkey⟩ := hpairs e (List.mem_of_mem_head? hhead)
    rw [hlive, Option.map_some, ← hkey]

/-- The bucket of a key that is alone in it, after a version was installed. -/
theorem alone_htInsertVersion {key : Bytes} (halone : ∀ v ∈ ht.chain key, v.key = key)
    (commitTs : ℕ)
    (value : Slice) : ∀ v ∈ (htInsertVersion ht commitTs key value).chain key, v.key = key := by
  rw [chain_htInsertVersion, if_pos rfl]
  intro v hv
  rcases List.mem_cons.mp hv with rfl | hv
  · rfl
  · have hkey : v.key ∈ (ht.chain key).map Version.key := by
      rw [← sealLive_keys commitTs key (ht.chain key)]
      exact List.mem_map_of_mem hv
    obtain ⟨v₀, hv₀, hkey₀⟩ := List.mem_map.mp hkey
    rw [← hkey₀]
    exact halone v₀ hv₀

/-- The other buckets after a version was installed. -/
theorem getElem?_htInsertVersion_ne {i : ℕ} {key : Bytes} (h : i ≠ bucketIdx ht key) (commitTs : ℕ)
    (value : Slice) : (htInsertVersion ht commitTs key value).buckets[i]? = ht.buckets[i]? := by
  simp only [htInsertVersion, List.getElem?_modify, if_neg h.symm]
  exact Option.map_id'

/-- Installing a version of a key that is alone in its bucket. -/
theorem Ht.OneKey.insert (h : ht.OneKey) {key : Bytes} (halone : ∀ v ∈ ht.chain key, v.key = key)
    (commitTs : ℕ) (value : Slice) : (htInsertVersion ht commitTs key value).OneKey := by
  intro chain hchain
  obtain ⟨i, hi⟩ := List.mem_iff_getElem?.mp hchain
  by_cases hidx : i = bucketIdx ht key
  · have hself := (htInsertVersion ht commitTs key value).getElem?_chain key
    rw [bucketIdx_htInsertVersion, ← hidx, hi, Option.some.injEq] at hself
    have hall := alone_htInsertVersion halone commitTs value
    rw [← hself] at hall
    exact fun v hv v' hv' => (hall v hv).trans (hall v' hv').symm
  · rw [getElem?_htInsertVersion_ne hidx] at hi
    exact h chain (List.mem_of_getElem? hi)

/-- Collection. -/
theorem Ht.OneKey.gc (h : ht.OneKey) (minActiveTs : ℕ) : (htGc ht minActiveTs).2.OneKey := by
  intro chain hchain
  obtain ⟨old, hold, rfl⟩ := List.mem_map.mp hchain
  rw [gcChain_fst, List.append_nil]
  intro v hv v' hv'
  exact h old hold v (List.mem_of_mem_filter (List.mem_reverse.mp hv)) v'
    (List.mem_of_mem_filter (List.mem_reverse.mp hv'))

/-- Collection does not change what a snapshot exports. -/
theorem Ht.Exportable.bucketEntry_gc (h : ht.Exportable) {minActiveTs : ℕ}
    (hmin : minActiveTs ≤ tsMax)
    (i : ℕ) : ((htGc ht minActiveTs).2.buckets[i]?).map bucketEntry =
      (ht.buckets[i]?).map bucketEntry := by
  simp only [htGc, List.getElem?_map, Option.map_map]
  cases hi : ht.buckets[i]? with
  | none => rfl
  | some chain =>
    have hle := h chain (List.mem_of_getElem? hi)
    have hsurvive : (chain.filter (Version.survives minActiveTs)).filterMap Version.livePair =
        chain.filterMap Version.livePair := by
      rw [List.filterMap_filter]
      refine List.filterMap_congr fun v _ => ?_
      cases hpair : v.livePair with
      | none => simp
      | some e =>
        have hend := (Version.livePair_eq_some hpair).1
        rw [if_pos (by simpa [Version.survives, hend] using hmin)]
    simp only [Option.map_some, Function.comp_apply, gcChain_fst, List.append_nil, bucketEntry_eq,
      List.filterMap_reverse, hsurvive]
    obtain hnil | ⟨e, hsingle⟩ := Nat.le_one_iff_eq_zero_or_eq_one.mp hle |>.imp
      List.length_eq_zero_iff.mp List.length_eq_one_iff.mp
    · rw [hnil]
      rfl
    · rw [hsingle]
      rfl

end OneKey

/-! ## Copies of buckets -/

/-- A bucket of one table in place of that of another table of the same capacity. -/
structure Ht.Copied (seen ht : Ht) (i : ℕ) (seen' : Ht) : Prop where
  /-- The capacity. -/
  capacity : seen'.capacity = ht.capacity
  /-- The copied bucket. -/
  copied : seen'.buckets[i]? = ht.buckets[i]?
  /-- The other buckets. -/
  others : ∀ b, b ≠ i → seen'.buckets[b]? = seen.buckets[b]?

/-- Any bucket can be copied. -/
theorem Ht.exists_copied {seen ht : Ht} (hcap : seen.capacity = ht.capacity) {i : ℕ}
    (hi : i < ht.capacity) : ∃ seen', seen.Copied ht i seen' := by
  have hlen : seen.buckets.length = ht.buckets.length := hcap
  have hbucket : ∀ b, (seen.buckets.set i (ht.buckets.getD i []))[b]? =
      if b = i then ht.buckets[b]? else seen.buckets[b]? := by
    intro b
    rw [List.getElem?_set]
    by_cases hb : i = b
    · subst hb
      have hlt : i < ht.buckets.length := hi
      rw [if_pos rfl, if_pos (by omega), if_pos rfl, List.getD_eq_getElem?_getD,
        List.getElem?_eq_getElem hlt, Option.getD_some]
    · rw [if_neg hb, if_neg fun heq => hb heq.symm]
  refine ⟨⟨seen.buckets.set i (ht.buckets.getD i []), 0, by simpa using seen.powerOfTwo, ?_⟩,
    ?_, ?_, ?_⟩
  · intro b chain hchain v hv
    rw [hbucket] at hchain
    rw [List.length_set]
    split at hchain
    · rw [hlen]
      exact ht.placed b chain hchain v hv
    · exact seen.placed b chain hchain v hv
  · simpa [Ht.capacity] using hlen
  · exact (hbucket i).trans (if_pos rfl)
  · exact fun b hb => (hbucket b).trans (if_neg hb)

section Copied

variable {seen ht seen' : Ht} {i : ℕ}

/-- The versions of a key come from one of the tables. -/
theorem Ht.Copied.versions (h : seen.Copied ht i seen') (hcap : seen.capacity = ht.capacity)
    (key : Bytes) : seen'.versions key =
      if bucketIdx ht key = i then ht.versions key else seen.versions key := by
  have hidx : bucketIdx seen' key = bucketIdx ht key := by rw [bucketIdx, h.capacity, bucketIdx]
  have hidx₀ : bucketIdx seen key = bucketIdx ht key := by rw [bucketIdx, hcap, bucketIdx]
  simp only [Ht.versions, Ht.chain, hidx, hidx₀, List.getD_eq_getElem?_getD]
  split
  · rename_i heq
    rw [heq, h.copied]
  · rename_i hne
    rw [h.others _ hne]

/-- The value of a key comes from one of the tables. -/
theorem Ht.Copied.live (h : seen.Copied ht i seen') (hcap : seen.capacity = ht.capacity)
    (key : Bytes) :
    seen'.live key = if bucketIdx ht key = i then ht.live key else seen.live key := by
  rw [Ht.live, h.versions hcap]
  split <;> rfl

/-- What holds of the versions of every key in both tables holds in the copy. -/
theorem Ht.Copied.forall_versions (h : seen.Copied ht i seen') (hcap : seen.capacity = ht.capacity)
    {P : List Version → Prop} (hseen : ∀ key, P (seen.versions key))
    (hht : ∀ key, P (ht.versions key)) (key : Bytes) : P (seen'.versions key) := by
  rw [h.versions hcap]
  split
  · exact hht key
  · exact hseen key

/-- One key in a bucket. -/
theorem Ht.Copied.oneKey (h : seen.Copied ht i seen') (hseen : seen.OneKey) (hht : ht.OneKey) :
    seen'.OneKey := by
  intro chain hchain
  obtain ⟨b, hb⟩ := List.mem_iff_getElem?.mp hchain
  by_cases hbi : b = i
  · rw [hbi, h.copied] at hb
    exact hht chain (List.mem_of_getElem? hb)
  · rw [h.others b hbi] at hb
    exact hseen chain (List.mem_of_getElem? hb)

end Copied

/-! ## A snapshot in the making -/

/-- A table that a snapshot can export completely. -/
structure Ht.Exports (ht : Ht) : Prop where
  /-- Every key has one live version. -/
  oneLive : ht.OneLive
  /-- Values are not empty. -/
  noEmpty : ht.NoEmpty
  /-- Buckets have one key. -/
  oneKey : ht.OneKey
  /-- Lengths fit their fields. -/
  fits : FitsMap ht.live

/-- Installing a version of a key that is alone in its bucket. -/
theorem Ht.Exports.insert {ht : Ht} (h : ht.Exports) {e : WriteEntry} {commitTs : ℕ}
    (hvalid : (e.record commitTs).Valid) (hts : commitTs ≠ tsMax)
    (halone : ∀ v ∈ ht.chain e.key, v.key = e.key) :
    (htInsertVersion ht commitTs e.key e.value).Exports where
  oneLive := h.oneLive.insert hts e.key e.value
  noEmpty := h.noEmpty.insert commitTs e.key e.value
  oneKey := h.oneKey.insert halone commitTs e.value
  fits := by
    have hfits : FitsMap (updates ht.live [e.record commitTs]) :=
      h.fits.updates fun r hr => by rwa [List.mem_singleton.mp hr]
    rwa [live_htInsertVersion_record]

/-- Collection. -/
theorem Ht.Exports.gc {ht : Ht} (h : ht.Exports) {minActiveTs : ℕ} (hmin : minActiveTs ≤ tsMax) :
    (htGc ht minActiveTs).2.Exports where
  oneLive := h.oneLive.gc minActiveTs
  noEmpty := h.noEmpty.gc minActiveTs
  oneKey := h.oneKey.gc minActiveTs
  fits := by
    rw [show (htGc ht minActiveTs).2.live = ht.live from funext fun key =>
      live_htGc h.oneLive hmin key]
    exact h.fits

/-- The table and the log while a checkpoint with the timestamp `ts` has counted the first
`counted` buckets and written the first `written` of them. `seen` has the buckets as they were
counted, `records` are in the log and of these `pending` is not applied yet. -/
structure Cut (ht : Ht) (pending records : List Record) (ts counted written : ℕ) (seen : Ht) :
    Prop where
  /-- The number of buckets. -/
  capacity : seen.capacity = ht.capacity
  /-- What was seen can be exported. -/
  exports : seen.Exports
  /-- Newer records that are applied can be applied again. -/
  applied : updates ht.live (records.filter (Record.wanted ts)) =
    updates ht.live (pending.filter (Record.wanted ts))
  /-- Between the two passes a bucket exports the same. -/
  same : ∀ b, written ≤ b → b < counted →
    (ht.buckets[b]?).map bucketEntry = (seen.buckets[b]?).map bucketEntry
  /-- Newer records lead from what was seen to the table. -/
  replays : ∀ key, bucketIdx ht key < counted →
    updates seen.live (records.filter (Record.wanted ts)) key =
      updates ht.live (pending.filter (Record.wanted ts)) key

section Cut

variable {ht : Ht} {pending records : List Record} {ts counted written : ℕ} {seen : Ht}

/-- A table without versions. -/
theorem exists_empty (ht : Ht) : ∃ seen : Ht, seen.capacity = ht.capacity ∧ seen.Exports := by
  refine ⟨htCreate ht.buckets.length ht.powerOfTwo, by simp [Ht.capacity, htCreate], ?_, ?_, ?_, ?_⟩
  · intro key
    rw [versions_htCreate]
    exact Nat.zero_le 1
  · intro key v hv
    rw [versions_htCreate] at hv
    cases hv
  · intro chain hchain v hv
    rw [List.eq_of_mem_replicate hchain] at hv
    cases hv
  · intro key value hvalue
    rw [Ht.live, versions_htCreate] at hvalue
    cases hvalue

/-- At first nothing is counted and nothing is newer than the timestamp. -/
theorem Cut.start (ht : Ht) (hrecords : ∀ r ∈ records, r.ts ≤ ts)
    (hpending : ∀ r ∈ pending, r.ts ≤ ts) :
    ∃ seen, Cut ht pending records ts 0 0 seen := by
  have hnone : ∀ rs : List Record, (∀ r ∈ rs, r.ts ≤ ts) → rs.filter (Record.wanted ts) = [] := by
    intro rs hrs
    refine List.filter_eq_nil_iff.mpr fun r hr => ?_
    simp [Record.wanted, not_lt.mpr (hrs r hr)]
  obtain ⟨seen, hcap, hexports⟩ := exists_empty ht
  refine ⟨seen, hcap, hexports, ?_, fun b _ hb => absurd hb (Nat.not_lt_zero b),
    fun key hkey => absurd hkey (Nat.not_lt_zero _)⟩
  rw [hnone records hrecords, hnone pending hpending]

/-- The first pass counts a bucket. -/
theorem Cut.count (h : Cut ht pending records ts counted 0 seen) (hexports : ht.Exports)
    (hlt : counted < ht.capacity) :
    ∃ seen', seen.Copied ht counted seen' ∧ Cut ht pending records ts (counted + 1) 0 seen' := by
  obtain ⟨seen', hcopied⟩ := Ht.exists_copied h.capacity hlt
  refine ⟨seen', hcopied, hcopied.capacity, ⟨?_, ?_, ?_, ?_⟩, h.applied, fun b _ hb => ?_,
    fun key hkey => ?_⟩
  · exact hcopied.forall_versions h.capacity (P := fun vs => (vs.filter Version.isLive).length ≤ 1)
      h.exports.oneLive hexports.oneLive
  · exact hcopied.forall_versions h.capacity (P := fun vs => ∀ v ∈ vs, v.value ≠ some [])
      h.exports.noEmpty hexports.noEmpty
  · exact hcopied.oneKey h.exports.oneKey hexports.oneKey
  · intro key value hvalue
    rw [hcopied.live h.capacity] at hvalue
    split at hvalue
    · exact hexports.fits key value hvalue
    · exact h.exports.fits key value hvalue
  · by_cases hbi : b = counted
    · rw [hbi, hcopied.copied]
    · rw [hcopied.others b hbi]
      exact h.same b (Nat.zero_le b) (by omega)
  · have hlive := hcopied.live h.capacity key
    by_cases hidx : bucketIdx ht key = counted
    · -- the bucket is as it is now, and what is newer in it is applied again
      rw [if_pos hidx] at hlive
      rw [updates_congr _ hlive, h.applied]
    · rw [if_neg hidx] at hlive
      rw [updates_congr _ hlive]
      exact h.replays key (by omega)

/-- The second pass writes a bucket. -/
theorem Cut.write (h : Cut ht pending records ts counted written seen) :
    Cut ht pending records ts counted (written + 1) seen :=
  ⟨h.capacity, h.exports, h.applied, fun b hb => h.same b (by omega), h.replays⟩

/-- A step that changes neither the map nor what a snapshot exports. -/
theorem Cut.frame (h : Cut ht pending records ts counted written seen) {ht' : Ht}
    (hcap : ht'.capacity = ht.capacity) (hlive : ht'.live = ht.live)
    (hentry : ∀ b : ℕ, (ht'.buckets[b]?).map bucketEntry = (ht.buckets[b]?).map bucketEntry) :
    Cut ht' pending records ts counted written seen := by
  refine ⟨h.capacity.trans hcap.symm, h.exports, ?_, fun b hb hlt => ?_, fun key hkey => ?_⟩
  · rw [hlive]
    exact h.applied
  · rw [hentry]
    exact h.same b hb hlt
  · rw [hlive]
    rw [bucketIdx, hcap] at hkey
    exact h.replays key hkey

/-- Segments with older records are removed. -/
theorem Cut.trim (h : Cut ht pending records ts counted written seen) {records' : List Record}
    (hsame : records'.filter (Record.wanted ts) = records.filter (Record.wanted ts)) :
    Cut ht pending records' ts counted written seen := by
  refine ⟨h.capacity, h.exports, ?_, h.same, ?_⟩
  · rw [hsame]
    exact h.applied
  · rw [hsame]
    exact h.replays

/-- A record is logged. -/
theorem Cut.append (h : Cut ht [] records ts counted written seen) (e : WriteEntry) (commitTs : ℕ) :
    Cut ht [e.record commitTs] (records ++ [e.record commitTs]) ts counted written seen := by
  refine ⟨h.capacity, h.exports, ?_, h.same, fun key hkey => ?_⟩
  · rw [List.filter_append, updates_append, h.applied]
    rfl
  · rw [List.filter_append, updates_append]
    exact updates_congr _ (h.replays key hkey)

/-- A logged entry is applied. If it is not newer than the snapshot and its bucket was counted,
or if its bucket is between the two passes, it leaves the value as it is. -/
theorem Cut.install {e : WriteEntry} {commitTs : ℕ}
    (h : Cut ht [e.record commitTs] records ts counted written seen) (hone : ht.OneLive)
    (hts : commitTs ≠ tsMax) (halone : ∀ v ∈ ht.chain e.key, v.key = e.key)
    (hlast : ∀ r ∈ records, r.ts ≤ commitTs)
    (hkept : bucketIdx ht e.key < counted → commitTs ≤ ts ∨ written ≤ bucketIdx ht e.key →
      ht.live e.key = sliceDup e.value) :
    Cut (htInsertVersion ht commitTs e.key e.value) [] records ts counted written seen := by
  have hlive := live_htInsertVersion_record ht e commitTs
  have hkey : ht.live e.key = sliceDup e.value →
      (htInsertVersion ht commitTs e.key e.value).live = ht.live := by
    intro heq
    rw [live_htInsertVersion_eq, ← heq]
    exact Function.update_eq_self _ _
  have hsame : ∀ b, written ≤ b → b < counted →
      ((htInsertVersion ht commitTs e.key e.value).buckets[b]?).map bucketEntry =
        (seen.buckets[b]?).map bucketEntry := by
    intro b hb hlt
    rw [← h.same b hb hlt]
    by_cases hidx : b = bucketIdx ht e.key
    · have hunchanged := hkey (hkept (by omega) (Or.inr (by omega)))
      have hnew := (htInsertVersion ht commitTs e.key e.value).getElem?_chain e.key
      rw [bucketIdx_htInsertVersion] at hnew
      rw [hidx, hnew, ht.getElem?_chain, Option.map_some, Option.map_some,
        (hone.insert hts e.key e.value).bucketEntry_chain
        (alone_htInsertVersion halone commitTs e.value), hone.bucketEntry_chain halone, hunchanged]
    · rw [getElem?_htInsertVersion_ne hidx]
  by_cases hnew : ts < commitTs
  · -- the record is replayed, whether its bucket was counted or not
    have hpending : [e.record commitTs].filter (Record.wanted ts) = [e.record commitTs] :=
      List.filter_eq_self.mpr fun r hr => by
        rw [List.mem_singleton.mp hr, e.wanted_record, decide_eq_true hnew]
    have happlied := h.applied
    rw [hpending] at happlied
    refine ⟨h.capacity.trans (capacity_htInsertVersion ..).symm, h.exports, ?_, hsame,
      fun key hidx => ?_⟩
    · rw [hlive]
      show updates (updates ht.live [e.record commitTs]) _ = updates ht.live [e.record commitTs]
      rw [← happlied, updates_twice]
    · rw [bucketIdx_htInsertVersion] at hidx
      rw [h.replays key hidx, hpending, hlive]
      rfl
  · -- nothing is newer than the snapshot yet
    have hnone : records.filter (Record.wanted ts) = [] := by
      refine List.filter_eq_nil_iff.mpr fun r hr => ?_
      have hle := hlast r hr
      simp [Record.wanted, show ¬ ts < r.ts by omega]
    have hpending : [e.record commitTs].filter (Record.wanted ts) = [] := by
      rw [List.filter_eq_nil_iff]
      intro r hr
      rw [List.mem_singleton.mp hr, e.wanted_record, decide_eq_true_eq]
      exact hnew
    have hreplays := h.replays
    rw [hnone, hpending] at hreplays
    refine ⟨h.capacity.trans (capacity_htInsertVersion ..).symm, h.exports,
      by rw [hnone]; rfl, hsame, fun key hidx => ?_⟩
    rw [bucketIdx_htInsertVersion] at hidx
    rw [hnone]
    refine (hreplays key hidx).trans ?_
    show ht.live key = (htInsertVersion ht commitTs e.key e.value).live key
    by_cases hself : key = e.key
    · rw [hself] at hidx
      rw [hkey (hkept hidx (Or.inl (by omega)))]
    · rw [live_htInsertVersion, if_neg hself]

end Cut

end FastKV
