import Mathlib.Data.List.Induction
import FastKV.LogHolds
import FastKV.Recovery
import FastKV.Visible

/-!
# Applying what was logged

Recovery applies the delivered records one after the other. Its result depends on their
contents only, and in terms of the map that the table stands for every record is an update
at its key, so that the last record of a key decides.
-/

namespace FastKV

/-- What a record does to the recovered structures depends on its content only. -/
theorem replayRecord_congr {r r' : Record} (h : r.content = r'.content) (s : Stores) :
    replayRecord r s = replayRecord r' s := by
  obtain ⟨type, ts, key, value⟩ := r
  obtain ⟨type', ts', key', value'⟩ := r'
  simp only [Record.content, Prod.mk.injEq] at h
  obtain ⟨rfl, rfl, rfl, hvalue⟩ := h
  have hdup : sliceDup value = sliceDup value' := by
    rcases value with - | (- | ⟨b, bs⟩) <;> rcases value' with - | (- | ⟨b', bs'⟩) <;>
      simp_all [sliceDup]
  cases type with
  | put => simp only [replayRecord, htPut, htInsertVersion, newVersion, hdup, hvalue]
  | delete => rfl
  | commit => rfl
  | begin => rfl

/-- Records with the same contents have the same effect. -/
theorem foldl_replayRecord_congr : ∀ {rs rs' : List Record},
    rs.map Record.content = rs'.map Record.content → ∀ s,
      rs.foldl (fun s r => replayRecord r s) s = rs'.foldl (fun s r => replayRecord r s) s
  | [], [], _, _ => rfl
  | r :: rs, r' :: rs', h, s => by
    rw [List.map_cons, List.map_cons, List.cons.injEq] at h
    rw [List.foldl_cons, List.foldl_cons, replayRecord_congr h.1]
    exact foldl_replayRecord_congr h.2 _

/-- Recovery is determined by the contents of the delivered records. -/
theorem walReplay_of_content {sinceTs : ℕ} {files : Files} {rs : List Record}
    (h : (delivered sinceTs files).map Record.content = rs.map Record.content) (s : Stores) :
    (walReplay sinceTs walReplayCb files s 0).2.1 = rs.foldl (fun s r => replayRecord r s) s := by
  obtain ⟨maxTs, hreplay, -⟩ := walReplay_eq sinceTs replayRecord files s 0
  have hcb : walReplay sinceTs walReplayCb files s 0 = (.ok,
      (replayed sinceTs files).foldl (fun s r => replayRecord r s) s, maxTs) := hreplay
  rw [hcb]
  exact foldl_replayRecord_congr (by rwa [← delivered_eq]) s

/-- The map after a record. -/
def Record.update (m : Bytes → Slice) (r : Record) : Bytes → Slice :=
  match r.type with
  | .put => Function.update m r.key (sliceDup r.value)
  | .delete => Function.update m r.key none
  | _ => m

/-- The map after a sequence of records. -/
def updates (m : Bytes → Slice) (rs : List Record) : Bytes → Slice := rs.foldl Record.update m

@[simp] theorem updates_append (m : Bytes → Slice) (rs rs' : List Record) :
    updates m (rs ++ rs') = updates (updates m rs) rs' := List.foldl_append

/-- An insertion updates the map at its key. -/
theorem live_htInsertVersion_eq (ht : Ht) (commitTs : ℕ) (key : Bytes) (value : Slice) :
    (htInsertVersion ht commitTs key value).live = Function.update ht.live key
    (sliceDup value) := by
  funext key'
  rw [live_htInsertVersion, Function.update_apply]

/-- Applying a record updates the map. -/
theorem live_replayRecord (r : Record) (s : Stores) :
    (replayRecord r s).ht.live = r.update s.ht.live := by
  unfold replayRecord Record.update
  cases r.type with
  | put => exact live_htInsertVersion_eq _ _ _ _
  | delete => exact live_htInsertVersion_eq _ _ _ _
  | commit => rfl
  | begin => rfl

/-- Applying records updates the map one by one. -/
theorem live_foldl_replayRecord (rs : List Record) : ∀ s : Stores,
    (rs.foldl (fun s r => replayRecord r s) s).ht.live = updates s.ht.live rs := by
  induction rs with
  | nil => exact fun _ => rfl
  | cons r rs ih =>
    intro s
    rw [List.foldl_cons, ih, live_replayRecord]
    rfl

/-! ## The last record of a key -/

/-- The last record of a key. -/
def lastOn (key : Bytes) (rs : List Record) : Option Record :=
  (rs.filter fun r => decide (r.key = key)).getLast?

/-- The value that a record gives its key. -/
def Record.result (r : Record) : Slice := if r.type = .put then sliceDup r.value else none

/-- The last record of a key in two lists. -/
theorem lastOn_append (key : Bytes) (rs rs' : List Record) :
    lastOn key (rs ++ rs') = (lastOn key rs').or (lastOn key rs) := by
  unfold lastOn
  rw [List.filter_append, List.getLast?_append]

/-- The last record of a key determines its value. -/
theorem updates_eq_lastOn (m : Bytes → Slice) (key : Bytes) {rs : List Record}
    (hwrite : ∀ r ∈ rs, r.type = .put ∨ r.type = .delete) :
    updates m rs key = ((lastOn key rs).map Record.result).getD (m key) := by
  induction rs using List.reverseRecOn with
  | nil => rfl
  | append_singleton rs r ih =>
    have hrest := ih fun r' hr' => hwrite r' (List.mem_append_left _ hr')
    have hvalue : r.update (updates m rs) = Function.update (updates m rs) r.key r.result := by
      unfold Record.update Record.result
      rcases hwrite r (List.mem_append_right _ List.mem_cons_self) with htype | htype
      · simp only [htype, if_true]
      · simp [htype]
    rw [updates_append, lastOn_append]
    show r.update (updates m rs) key = _
    rw [hvalue]
    by_cases hkey : r.key = key
    · have hlast : lastOn key [r] = some r := by simp [lastOn, hkey]
      rw [hlast, ← hkey, Function.update_self]
      rfl
    · have hlast : lastOn key [r] = none := by simp [lastOn, hkey]
      rw [hlast, Function.update_of_ne (Ne.symm hkey), hrest]
      rfl

end FastKV
