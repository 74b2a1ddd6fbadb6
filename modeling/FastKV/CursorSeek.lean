import FastKV.CursorView

/-!
# Seeking with a cursor

A seek moves the cursor to the first key at or above the given one, whatever the direction of the
cursor. What is read from there on is the part of the tree that a scan with a bound delivers:
forward the bound is the key itself, backward it is the key on which the seek has landed.
-/

namespace FastKV

open Lib BTree

/-- The cursor holds what a scan of the whole tree delivers. -/
def Cursor.Copies (c : Cursor) (t : BTree) : Prop :=
  btreeScan t none none .forward snapCollect [] = (.ok, c.entries)

/-- Seek a key and read the cursor to its end. A seek that fails is not followed by reads. -/
def seekAll (c : Cursor) (key : Bytes) : List (Bytes × Bytes) :=
  match cursorSeek c key with
  | (.ok, c) => drain (c.entries.length + 1) c
  | _ => []

/-- The first key of the cursor at or above the given one. -/
structure Cursor.FirstFrom (c : Cursor) (key first : Bytes) : Prop where
  /-- It is a key of the cursor. -/
  mem : ∃ val, (first, val) ∈ c.entries
  /-- It is not below the given key. -/
  le : key ≤ first
  /-- No other such key is smaller. -/
  least : ∀ e ∈ c.entries, key ≤ e.1 → first ≤ e.1

/-- The copy of an ordered tree. -/
theorem Cursor.Copies.entries_eq {c : Cursor} {t : BTree} {m : Bytes → Option Bytes}
    (h : c.Copies t) (ht : t.Holds m) : c.entries = t.toMap := by
  have hall : t.range none none = t.toMap := by
    simp only [BTree.range, Option.all_none, Bool.and_self, List.filter_true]
  have hscan : btreeScan t none none .forward snapCollect [] = (.ok, t.toMap) := by
    rw [btreeScan_forward ht.wellFormed ht.linked, hall]
    exact congrArg scanResult (feed_collectAll t.toMap [])
  exact congrArg Prod.snd (h.symm.trans hscan)

/-- What is read after a seek. -/
theorem seekAll_eq {c : Cursor} (h : SortedKeys c.entries) (key : Bytes) :
    seekAll c key = if c.entries.length ≤ below c.entries key then []
      else match c.dir with
        | .forward => c.entries.drop (below c.entries key)
        | .backward => (c.entries.take (below c.entries key + 1)).reverse := by
  unfold seekAll
  rw [cursorSeek_eq h]
  by_cases hend : c.entries.length ≤ below c.entries key
  · rw [if_pos hend, if_pos hend]
  · rw [if_neg hend, if_neg hend]
    obtain ⟨entries, pos, dir⟩ := c
    cases dir with
    | forward => exact drain_forward entries _ _ (by simp only; omega)
    | backward =>
      have hpos : ((below entries key + 1 : ℕ) : ℤ) - 1 = (below entries key : ℕ) := by omega
      have hback := drain_backward entries (entries.length + 1) (below entries key + 1)
        (by simp only at hend; omega) (by simp only at hend; omega)
      rw [hpos] at hback
      exact hback

/-- The first key at or above the given one stands where the seek lands. -/
theorem Cursor.FirstFrom.lands {c : Cursor} {key first : Bytes} (hfirst : c.FirstFrom key first)
    (h : SortedKeys c.entries) :
    ∃ hlt : below c.entries key < c.entries.length, c.entries[below c.entries key].1 = first := by
  obtain ⟨val, hmem⟩ := hfirst.mem
  obtain ⟨i, hi, hentry⟩ := List.getElem_of_mem hmem
  have hkey : c.entries[i].1 = first := congrArg Prod.fst hentry
  have hbelow : below c.entries key ≤ i := by
    have hnot : ¬ c.entries[i].1 < key := by
      rw [hkey]
      exact not_lt.mpr hfirst.le
    rw [h.lt_iff_below key hi] at hnot
    omega
  have hlt : below c.entries key < c.entries.length := by omega
  refine ⟨hlt, le_antisymm ?_ ?_⟩
  · rcases Nat.lt_or_eq_of_le hbelow with hlt' | heq
    · rw [← hkey]
      exact le_of_lt (List.pairwise_iff_getElem.mp h _ i hlt hi hlt')
    · simp only [heq, hkey, le_refl]
  · apply hfirst.least _ (List.getElem_mem hlt)
    apply not_lt.mp
    rw [h.lt_iff_below key hlt]
    omega

/-- A seek to it lands there, too. -/
theorem Cursor.FirstFrom.below_eq {c : Cursor} {key first : Bytes} (hfirst : c.FirstFrom key first)
    (h : SortedKeys c.entries) : below c.entries first = below c.entries key := by
  have hself : c.FirstFrom first first := ⟨hfirst.mem, le_refl first, fun _ _ hle => hle⟩
  obtain ⟨hlt, hkey⟩ := hfirst.lands h
  obtain ⟨hlt', hkey'⟩ := hself.lands h
  rcases Nat.lt_trichotomy (below c.entries first) (below c.entries key) with hless | heq | hless
  · have hstrict := List.pairwise_iff_getElem.mp h _ _ hlt' hlt hless
    rw [hkey, hkey'] at hstrict
    exact absurd hstrict (lt_irrefl first)
  · exact heq
  · have hstrict := List.pairwise_iff_getElem.mp h _ _ hlt hlt' hless
    rw [hkey, hkey'] at hstrict
    exact absurd hstrict (lt_irrefl first)

/-- A seek fails if all keys are smaller. -/
theorem cursorSeek_eof_iff {c : Cursor} (h : SortedKeys c.entries) (key : Bytes) :
    (cursorSeek c key).1 = .cursorEof ↔ c.entries.length ≤ below c.entries key := by
  rw [cursorSeek_eq h]
  by_cases hend : c.entries.length ≤ below c.entries key
  · rw [if_pos hend]
    exact iff_of_true rfl hend
  · rw [if_neg hend]
    exact iff_of_false nofun hend

/-- That is when all keys are smaller. -/
theorem length_le_below_iff {entries : List (Bytes × Bytes)} (h : SortedKeys entries)
    (key : Bytes) : entries.length ≤ below entries key ↔ ∀ e ∈ entries, e.1 < key := by
  constructor
  · intro hend e he
    rw [← List.take_of_length_le hend] at he
    exact h.lt_of_mem_take he
  · intro hless
    by_contra hend
    have hlt : below entries key < entries.length := by omega
    have hkey := hless _ (List.getElem_mem hlt)
    rw [h.lt_iff_below key hlt] at hkey
    exact absurd hkey (lt_irrefl _)

/-- Nothing is read exactly after a seek that fails. -/
theorem seekAll_eq_nil_iff {c : Cursor} (h : SortedKeys c.entries) (key : Bytes) :
    seekAll c key = [] ↔ c.entries.length ≤ below c.entries key := by
  rw [seekAll_eq h]
  by_cases hend : c.entries.length ≤ below c.entries key
  · rw [if_pos hend]
    exact iff_of_true rfl hend
  · refine iff_of_false (fun hnil => ?_) hend
    rw [if_neg hend] at hnil
    have hlt : below c.entries key < c.entries.length := by omega
    cases hdir : c.dir with
    | forward =>
      simp only [hdir, List.drop_eq_nil_iff] at hnil
      exact hend hnil
    | backward =>
      simp only [hdir, List.reverse_eq_nil_iff, List.take_eq_nil_iff] at hnil
      rcases hnil with hnil | hnil
      · omega
      · rw [hnil] at hlt
        exact absurd hlt (Nat.not_lt_zero _)

section Range

variable {c : Cursor} {t : BTree} (h : SortedKeys c.entries) (hentries : c.entries = t.toMap)

include h hentries

/-- A forward cursor is read as far as the tree goes from the key on. -/
theorem seekAll_forward (hdir : c.dir = .forward) (key : Bytes) :
    seekAll c key = t.range (some key) none := by
  unfold BTree.range
  simp only [Option.all_some, Option.all_none, Bool.and_true]
  rw [← hentries, ← h.drop_below key, seekAll_eq h]
  by_cases hend : c.entries.length ≤ below c.entries key
  · rw [if_pos hend, List.drop_eq_nil_of_le hend]
  · simp only [if_neg hend, hdir]

/-- A backward cursor is read from the key on which the seek lands down to the first one. -/
theorem seekAll_backward (hdir : c.dir = .backward) {key first : Bytes}
    (hfirst : c.FirstFrom key first) :
    seekAll c key = (t.range none (some first)).reverse := by
  obtain ⟨hlt, hkey⟩ := hfirst.lands h
  unfold BTree.range
  simp only [Option.all_some, Option.all_none, Bool.true_and]
  have htake := h.take_below (k := first) (p := True)
    (iff_of_true trivial (by
      rw [hfirst.below_eq h]
      exact ⟨hlt, hkey⟩))
  rw [if_pos trivial, hfirst.below_eq h] at htake
  rw [← hentries, ← htake, seekAll_eq h, if_neg (not_le.mpr hlt)]
  simp only [hdir]

end Range

/-- After any calls on a tree, a seek on a copy of it fails if and only if nothing is read after
it. A forward cursor is then read as a scan from the key delivers the tree, and a backward cursor
as a backward scan from the first key at or above it; where there is no such key the seek fails. -/
theorem cursor_seek_drains (ops : List BTreeOp) {c : Cursor} (h : c.Copies (runBTree ops))
    (key : Bytes) :
    ((cursorSeek c key).1 = .cursorEof ↔ seekAll c key = []) ∧
      (c.dir = .forward →
        btreeScan (runBTree ops) (some key) none .forward collectAll [] =
          (.ok, seekAll c key)) ∧
      (c.dir = .backward →
        ((cursorSeek c key).1 = .cursorEof ↔ ∀ e ∈ c.entries, e.1 < key) ∧
        ∀ first, c.FirstFrom key first →
          btreeScan (runBTree ops) none (some first) .backward collectAll [] =
            (.ok, seekAll c key)) := by
  have ht := runBTree_holds ops
  have hentries := h.entries_eq ht
  have hsorted : SortedKeys c.entries := by
    rw [hentries]
    exact ht.wellFormed.sorted
  have hscanned : ∀ es : List (Bytes × Bytes), scanResult (feed collectAll es []) = (.ok, es) := by
    intro es
    rw [feed_collectAll]
    rfl
  rw [cursorSeek_eof_iff hsorted]
  refine ⟨(seekAll_eq_nil_iff hsorted key).symm, fun hdir => ?_, fun hdir => ⟨?_, ?_⟩⟩
  · rw [btreeScan_forward ht.wellFormed ht.linked, hscanned, seekAll_forward hsorted hentries hdir]
  · exact length_le_below_iff hsorted key
  · intro first hfirst
    rw [btreeScan_backward ht.wellFormed ht.linked, hscanned,
      seekAll_backward hsorted hentries hdir hfirst]

/-- A backward cursor between two keys. -/
theorem cursor_seek_drains_between :
    ((cursorSeek ⟨[([1], [7]), ([3], [9])], 1, .backward⟩ [2]).1 = .cursorEof ↔
        seekAll ⟨[([1], [7]), ([3], [9])], 1, .backward⟩ [2] = []) ∧
      btreeScan (runBTree [.insert [1] [7], .insert [3] [9]]) none (some [3]) .backward collectAll
        [] = (.ok, seekAll ⟨[([1], [7]), ([3], [9])], 1, .backward⟩ [2]) := by
  have hcopies : (⟨[([1], [7]), ([3], [9])], 1, .backward⟩ : Cursor).Copies
      (runBTree [.insert [1] [7], .insert [3] [9]]) := by
    unfold Cursor.Copies
    decide +kernel
  obtain ⟨hempty, -, hback⟩ :=
    cursor_seek_drains [.insert [1] [7], .insert [3] [9]] hcopies [2]
  refine ⟨hempty, (hback rfl).2 [3] ⟨⟨[9], by simp⟩, by decide, ?_⟩⟩
  intro e he hle
  rcases List.mem_cons.mp he with rfl | he
  · exact absurd hle (by decide)
  · rw [List.mem_singleton.mp he]

/-- A backward cursor lands above a key that is not stored, where the backward scan from that key
begins below it, and it fails behind all keys, where the scan delivers them all. -/
theorem backward_seek_differs :
    (⟨[([1], [7]), ([3], [9])], 1, .backward⟩ : Cursor).Copies
        (runBTree [.insert [1] [7], .insert [3] [9]]) ∧
      btreeScan (runBTree [.insert [1] [7], .insert [3] [9]]) none (some [2]) .backward collectAll
        [] = (.ok, [([1], [7])]) ∧
      seekAll ⟨[([1], [7]), ([3], [9])], 1, .backward⟩ [2] = [([3], [9]), ([1], [7])] ∧
      btreeScan (runBTree [.insert [1] [7], .insert [3] [9]]) none (some [4]) .backward collectAll
        [] = (.ok, [([3], [9]), ([1], [7])]) ∧
      (cursorSeek ⟨[([1], [7]), ([3], [9])], 1, .backward⟩ [4]).1 = .cursorEof := by
  unfold Cursor.Copies
  decide +kernel

end FastKV
