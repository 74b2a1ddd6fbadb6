import FastKV.HashTable

/-!
# The map behind the version store

A table stands for a map from keys to values: the value of the live version of each key. The
map says what a reader sees that begins after all writes, provided that the timestamps in
the table are older than the reader; that no key has two live versions keeps garbage
collection from changing it.
-/

namespace FastKV

/-- The version has not been replaced. -/
def Version.isLive (v : Version) : Bool := decide (v.endTs = tsMax)

/-- The value of the live version of a key; the null slice for a tombstone or no version. -/
def Ht.live (ht : Ht) (key : Bytes) : Slice :=
  ((ht.versions key).find? Version.isLive).bind Version.value

/-- All timestamps in the table are older than the clock. -/
def Ht.Bounded (ht : Ht) (clock : ℕ) : Prop :=
  ∀ key, ∀ v ∈ ht.versions key, v.beginTs < clock ∧ (v.endTs = tsMax ∨ v.endTs < clock)

/-- No key has two live versions. -/
def Ht.OneLive (ht : Ht) : Prop :=
  ∀ key, ((ht.versions key).filter Version.isLive).length ≤ 1

/-- The result of a read that finds the given value. -/
def readResult : Slice → Except Err Bytes
  | some value => .ok value
  | none => .error .notfound

/-- Different values are read differently. -/
theorem readResult_inj {a b : Slice} (h : readResult a = readResult b) : a = b := by
  cases a <;> cases b <;> simp_all [readResult]

/-- A reader that begins after all writes sees the live version. -/
theorem chainGet_of_bounded {clock ts : ℕ} (hclock : clock ≤ ts + 1) (hts : ts < tsMax)
    (key : Bytes) (vs : List Version) (hkey : ∀ v ∈ vs, v.key = key)
    (hb : ∀ v ∈ vs, v.beginTs < clock ∧ (v.endTs = tsMax ∨ v.endTs < clock)) :
    chainGet ts key vs = readResult ((vs.find? Version.isLive).bind Version.value) := by
  induction vs with
  | nil => rfl
  | cons v vs ih =>
    have hrest := ih (fun w hw => hkey w (by simp [hw])) fun w hw => hb w (by simp [hw])
    obtain ⟨hbegin, hend⟩ := hb v (by simp)
    by_cases hlive : v.endTs = tsMax
    · have hsees : v.key = key ∧ v.beginTs ≤ ts ∧ ts < v.endTs :=
        ⟨hkey v (by simp), by omega, by omega⟩
      rw [chainGet, if_pos hsees, List.find?_cons_of_pos (by simp [Version.isLive, hlive])]
      cases hv : v.value <;> simp [readResult, hv]
    · have hnot : ¬ (v.key = key ∧ v.beginTs ≤ ts ∧ ts < v.endTs) := by
        rintro ⟨-, -, hlt⟩
        rcases hend with heq | hlt'
        · exact hlive heq
        · omega
      rw [chainGet, if_neg hnot, List.find?_cons_of_neg (by simp [Version.isLive, hlive]), hrest]

/-- A read at the time of the last write, or later, returns the value in the map. -/
theorem Ht.Bounded.htGet_eq_of_le_succ {ht : Ht} {clock ts : ℕ} (h : ht.Bounded clock)
    (hclock : clock ≤ ts + 1) (hts : ts < tsMax) (key : Bytes) :
    htGet ht ts key = readResult (ht.live key) := by
  rw [FastKV.htGet_eq]
  exact chainGet_of_bounded hclock hts key _ (fun _ hv => Ht.key_of_mem_versions hv) (h key)

/-- A read after all writes returns the value in the map. -/
theorem Ht.Bounded.htGet_eq {ht : Ht} {clock ts : ℕ} (h : ht.Bounded clock) (hclock : clock ≤ ts)
    (hts : ts < tsMax) (key : Bytes) : htGet ht ts key = readResult (ht.live key) :=
  h.htGet_eq_of_le_succ (Nat.le_succ_of_le hclock) hts key

/-- A table stays bounded as time passes. -/
theorem Ht.Bounded.mono {ht : Ht} {clock clock' : ℕ} (h : ht.Bounded clock)
    (hle : clock ≤ clock') : ht.Bounded clock' := by
  intro key v hv
  obtain ⟨hbegin, hend⟩ := h key v hv
  exact ⟨by omega, hend.imp_right fun hlt => by omega⟩

/-- A sealed version of a chain is an old one or an old one that ends now. -/
theorem mem_sealLive {commitTs : ℕ} {key : Bytes} {chain : List Version} {v : Version}
    (h : v ∈ sealLive commitTs key chain) :
    v ∈ chain ∨ ∃ w ∈ chain, w.endTs = tsMax ∧ v = { w with endTs := commitTs } := by
  induction chain with
  | nil => cases h
  | cons w next ih =>
    unfold sealLive at h
    split at h
    · rename_i hlive
      rcases List.mem_cons.mp h with rfl | h
      · exact Or.inr ⟨w, by simp, hlive.2, rfl⟩
      · exact Or.inl (by simp [h])
    · rcases List.mem_cons.mp h with rfl | h
      · exact Or.inl (by simp)
      · rcases ih h with h | ⟨u, hu, hlive, rfl⟩
        · exact Or.inl (by simp [h])
        · exact Or.inr ⟨u, by simp [hu], hlive, rfl⟩

/-- Inserting a version keeps the table bounded. -/
theorem Ht.Bounded.insert {ht : Ht} {clock commitTs : ℕ} (h : ht.Bounded clock)
    (hts : commitTs < clock) (key : Bytes) (value : Slice) :
    (htInsertVersion ht commitTs key value).Bounded clock := by
  intro key' v hv
  by_cases hkey : key' = key
  · subst hkey
    rw [versions_htInsertVersion_self] at hv
    rcases List.mem_cons.mp hv with rfl | hv
    · exact ⟨hts, Or.inl rfl⟩
    · rcases mem_sealLive hv with hold | ⟨w, hw, -, rfl⟩
      · exact h key' v hold
      · exact ⟨(h key' w hw).1, Or.inr hts⟩
  · rw [versions_htInsertVersion_other hkey] at hv
    exact h key' v hv

/-- Collection keeps the table bounded. -/
theorem Ht.Bounded.gc {ht : Ht} {clock : ℕ} (h : ht.Bounded clock) (minActiveTs : ℕ) :
    (htGc ht minActiveTs).2.Bounded clock := by
  intro key v hv
  rw [versions_htGc, List.mem_reverse] at hv
  exact h key v (List.mem_of_mem_filter hv)

/-- Sealing removes the only live version of a key. -/
theorem filter_sealLive {commitTs : ℕ} (hts : commitTs ≠ tsMax) {key : Bytes}
    {vs : List Version} (hkey : ∀ v ∈ vs, v.key = key)
    (hone : (vs.filter Version.isLive).length ≤ 1) :
    (sealLive commitTs key vs).filter Version.isLive = [] := by
  induction vs with
  | nil => rfl
  | cons v vs ih =>
    have hv : v.key = key := hkey v (by simp)
    unfold sealLive
    by_cases hlive : v.endTs = tsMax
    · rw [if_pos ⟨hv, hlive⟩]
      have hpos : v.isLive = true := by simp [Version.isLive, hlive]
      rw [List.filter_cons_of_pos hpos, List.length_cons] at hone
      rw [List.filter_cons_of_neg (by simp [Version.isLive, hts])]
      exact List.eq_nil_of_length_eq_zero (by omega)
    · rw [if_neg fun hc => hlive hc.2]
      have hneg : ¬ v.isLive = true := by simp [Version.isLive, hlive]
      rw [List.filter_cons_of_neg hneg] at hone ⊢
      exact ih (fun w hw => hkey w (by simp [hw])) hone

/-- Inserting a version keeps one live version for each key. -/
theorem Ht.OneLive.insert {ht : Ht} (h : ht.OneLive) {commitTs : ℕ} (hts : commitTs ≠ tsMax)
    (key : Bytes) (value : Slice) : (htInsertVersion ht commitTs key value).OneLive := by
  intro key'
  by_cases hkey : key' = key
  · subst hkey
    rw [versions_htInsertVersion_self, List.filter_cons]
    have hnil := filter_sealLive hts (fun v hv => Ht.key_of_mem_versions hv) (h key')
    split <;> simp [hnil]
  · rw [versions_htInsertVersion_other hkey]
    exact h key'

/-- Collection keeps one live version for each key. -/
theorem Ht.OneLive.gc {ht : Ht} (h : ht.OneLive) (minActiveTs : ℕ) :
    (htGc ht minActiveTs).2.OneLive := by
  intro key
  rw [versions_htGc, List.filter_reverse, List.length_reverse, List.filter_filter]
  have hsub : ((ht.versions key).filter fun v =>
      v.isLive && v.survives minActiveTs).Sublist ((ht.versions key).filter Version.isLive) := by
    rw [← List.filter_filter]
    have hcomm : ((ht.versions key).filter (Version.survives minActiveTs)).filter Version.isLive =
        ((ht.versions key).filter Version.isLive).filter (Version.survives minActiveTs) := by
      rw [List.filter_filter, List.filter_filter]
      simp only [Bool.and_comm]
    rw [hcomm]
    exact List.filter_sublist
  exact Nat.le_trans hsub.length_le (h key)

/-- The map after an insertion. -/
theorem live_htInsertVersion (ht : Ht) (commitTs : ℕ) (key key' : Bytes) (value : Slice) :
    (htInsertVersion ht commitTs key value).live key' =
      if key' = key then sliceDup value else ht.live key' := by
  unfold Ht.live
  split
  · rename_i hkey
    subst hkey
    rw [versions_htInsertVersion_self,
      List.find?_cons_of_pos (by simp [Version.isLive, newVersion])]
    rfl
  · rename_i hkey
    rw [versions_htInsertVersion_other hkey]

/-- The first match is the whole list of matches when there is at most one. -/
theorem find?_eq_of_filter {vs : List Version} {p : Version → Bool}
    (hone : (vs.filter p).length ≤ 1) : vs.filter p = (vs.find? p).toList := by
  rw [← List.head?_filter]
  cases hf : vs.filter p with
  | nil => rfl
  | cons v rest =>
    rw [hf, List.length_cons] at hone
    have hrest : rest = [] := List.eq_nil_of_length_eq_zero (by omega)
    rw [hrest]
    rfl

/-- Collection keeps the only version with a property that all versions with it survive. -/
theorem find?_htGc {ht : Ht} {minActiveTs : ℕ} {key : Bytes} {p : Version → Bool}
    (hone : ((ht.versions key).filter p).length ≤ 1)
    (hsurvives : ∀ v ∈ ht.versions key, p v = true → v.survives minActiveTs = true) :
    ((htGc ht minActiveTs).2.versions key).find? p = (ht.versions key).find? p := by
  have hsame : (ht.versions key).filter (fun v => p v && v.survives minActiveTs) =
      (ht.versions key).filter p := by
    refine List.filter_congr fun v hv => ?_
    cases hp : p v with
    | true => rw [hsurvives v hv hp, Bool.and_self]
    | false => rw [Bool.false_and]
  have hmatch : ((htGc ht minActiveTs).2.versions key).filter p = (ht.versions key).filter p := by
    rw [versions_htGc, List.filter_reverse, List.filter_filter, hsame, find?_eq_of_filter hone]
    cases (ht.versions key).find? p <;> rfl
  rw [← List.head?_filter, ← List.head?_filter, hmatch]

/-- Collection keeps the live version of each key. -/
theorem find?_isLive_htGc {ht : Ht} (h : ht.OneLive) {minActiveTs : ℕ} (hmin : minActiveTs ≤ tsMax)
    (key : Bytes) : ((htGc ht minActiveTs).2.versions key).find? Version.isLive =
      (ht.versions key).find? Version.isLive := by
  refine find?_htGc (h key) fun v _ hlive => ?_
  have hend : v.endTs = tsMax := by simpa [Version.isLive] using hlive
  simp [Version.survives, hend, hmin]

/-- Collection does not change the map. -/
theorem live_htGc {ht : Ht} (h : ht.OneLive) {minActiveTs : ℕ} (hmin : minActiveTs ≤ tsMax)
    (key : Bytes) : (htGc ht minActiveTs).2.live key = ht.live key := by
  unfold Ht.live
  rw [find?_isLive_htGc h hmin]

/-- A live version carries what the map has. -/
theorem Ht.OneLive.live_eq {ht : Ht} (h : ht.OneLive) {key : Bytes} {v : Version}
    (hv : v ∈ ht.versions key) (hend : v.endTs = tsMax) : ht.live key = v.value := by
  have hmem : v ∈ (ht.versions key).filter Version.isLive :=
    List.mem_filter.mpr ⟨hv, by simpa [Version.isLive] using hend⟩
  rw [find?_eq_of_filter (h key), Option.mem_toList] at hmem
  rw [Ht.live, hmem]
  rfl

/-- A new table is an empty map. -/
theorem versions_htCreate (capacity : ℕ) (hcap : ∃ n < 64, capacity = 2 ^ n) (key : Bytes) :
    (htCreate capacity hcap).versions key = [] := by
  have hchain := (htCreate capacity hcap).getElem?_chain key
  rw [Ht.versions, emptyBuckets_placed hchain]
  rfl

/-- No version has an empty value: `slice_dup` turns it into a tombstone. -/
def Ht.NoEmpty (ht : Ht) : Prop := ∀ key, ∀ v ∈ ht.versions key, v.value ≠ some []

/-- A copied slice is not empty. -/
theorem sliceDup_ne (value : Slice) : sliceDup value ≠ some [] := by
  rcases value with - | (- | ⟨b, bs⟩) <;> simp [sliceDup]

/-- Inserting a version keeps the values non-empty. -/
theorem Ht.NoEmpty.insert {ht : Ht} (h : ht.NoEmpty) (commitTs : ℕ) (key : Bytes) (value : Slice) :
    (htInsertVersion ht commitTs key value).NoEmpty := by
  intro key' v hv
  by_cases hkey : key' = key
  · subst hkey
    rw [versions_htInsertVersion_self] at hv
    rcases List.mem_cons.mp hv with rfl | hv
    · exact sliceDup_ne value
    · rcases mem_sealLive hv with hold | ⟨w, hw, -, rfl⟩
      · exact h key' v hold
      · exact h key' w hw
  · rw [versions_htInsertVersion_other hkey] at hv
    exact h key' v hv

/-- Collection keeps the values non-empty. -/
theorem Ht.NoEmpty.gc {ht : Ht} (h : ht.NoEmpty) (minActiveTs : ℕ) :
    (htGc ht minActiveTs).2.NoEmpty := by
  intro key v hv
  rw [versions_htGc, List.mem_reverse] at hv
  exact h key v (List.mem_of_mem_filter hv)

/-- Values in the map are not empty. -/
theorem Ht.NoEmpty.live_ne {ht : Ht} (h : ht.NoEmpty) {key value : Bytes}
    (hlive : ht.live key = some value) : value ≠ [] := by
  obtain ⟨v, hv, hvalue⟩ := Option.bind_eq_some_iff.mp hlive
  rintro rfl
  exact h key v (List.mem_of_find?_eq_some hv) hvalue

end FastKV
