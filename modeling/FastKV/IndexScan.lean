import FastKV.OrderedIndex
import FastKV.SecondaryIndex

/-!
# Lookups in a secondary index

`index/secondary.c`: a lookup scans the composite keys between the index key with a zero byte
and the index key with a one byte behind it, a range query those between two such bounds. As
long as index keys hold no zero byte, composite keys are ordered as pairs and the bounds cut
exactly at index keys. With zero bytes the separator can be anywhere in a composite key.
-/

namespace FastKV

open Lib BTree

variable {σ : Type}

/-! ## The queries -/

/-- `fwd_cb`: hand out the primary key. -/
def fwdCb (cb : σ → Bytes → Err × σ) (s : σ) (_key val : Bytes) : Err × σ := cb s val

/-- `fastkv_index_lookup`. -/
def fastkvIndexLookup (idx : Index) (ik : Bytes) (cb : σ → Bytes → Err × σ) (s : σ) : Err × σ :=
  btreeScan idx.btree (some (ik ++ [0])) (some (ik ++ [1])) .forward (fwdCb cb) s

/-- `fastkv_index_range`. -/
def fastkvIndexRange (idx : Index) (minIk maxIk : Bytes) (cb : σ → Bytes → Err × σ) (s : σ) :
    Err × σ :=
  btreeScan idx.btree (some (minIk ++ [0])) (some (maxIk ++ [1])) .forward (fwdCb cb) s

/-- A callback that writes down the primary keys it is given. -/
def collectPks (seen : List Bytes) (pk : Bytes) : Err × List Bytes := (.ok, seen ++ [pk])

/-- The callback sees all of them. -/
theorem feed_collectPks (es : List (Bytes × Bytes)) :
    ∀ seen, feed (fwdCb collectPks) es seen = (.ok, seen ++ es.map Prod.snd) := by
  induction es with
  | nil =>
    intro seen
    rw [feed, List.map_nil, List.append_nil]
  | cons e es ih =>
    intro seen
    have hrest := ih (seen ++ [e.2])
    rwa [List.append_assoc] at hrest

/-- The callback does not see the composite keys. -/
theorem feed_fwdCb (cb : σ → Bytes → Err × σ) {es es' : List (Bytes × Bytes)}
    (h : es.map Prod.snd = es'.map Prod.snd) (s : σ) :
    feed (fwdCb cb) es s = feed (fwdCb cb) es' s := by
  induction es generalizing es' s with
  | nil =>
    rw [List.map_eq_nil_iff.mp h.symm]
  | cons e es ih =>
    cases es' with
    | nil => cases h
    | cons e' es' =>
      obtain ⟨hhead, htail⟩ := List.cons.inj h
      have hcb : fwdCb cb s e'.1 e'.2 = fwdCb cb s e.1 e.2 := congrArg (cb s) hhead.symm
      unfold feed
      rw [hcb]
      split
      · exact ih htail _
      · rfl

/-! ## What an index holds -/

/-- An index holds exactly these pairs of index key and primary key: each of them has an entry
under its composite key, and every entry is that of one of them. -/
structure Index.Stores (idx : Index) (S : Bytes → Bytes → Prop) : Prop where
  /-- The tree is in order. -/
  inOrder : idx.InOrder
  /-- Every pair has an entry. -/
  present : ∀ ik pk, S ik pk → idx.find (makeComposite ik pk) ≠ none
  /-- There are no others. -/
  only : ∀ c pk, idx.find c = some pk → ∃ ik, S ik pk ∧ c = makeComposite ik pk

/-- No two pairs have the same composite key. -/
def Separate (S : Bytes → Bytes → Prop) : Prop :=
  ∀ ik pk ik' pk', S ik pk → S ik' pk' → makeComposite ik pk = makeComposite ik' pk' →
    ik = ik' ∧ pk = pk'

/-- A new index holds nothing. -/
theorem Index.stores_new (name : List Char) (fn : Bytes → Bytes → Option Bytes) :
    (⟨name, fn, btreeCreate⟩ : Index).Stores fun _ _ => False := by
  refine ⟨⟨btreeCreate_wellFormed.1, btreeCreate_linked⟩, fun _ _ h => h.elim, fun c pk h => ?_⟩
  rw [Index.find, btreeCreate_wellFormed.2] at h
  cases h

/-- `add_index_entry` stores its pair. -/
theorem Index.Stores.add {idx : Index} {S : Bytes → Bytes → Prop} (h : idx.Stores S)
    {pk val ik : Bytes} (hfn : idx.fn pk val = some ik) :
    (addIndexEntry idx pk val).Stores fun a p => S a p ∨ a = ik ∧ p = pk := by
  obtain ⟨horder, -, hfind⟩ := addIndexEntry_spec h.inOrder pk val
  have hnew : compositeOf idx.fn pk (some val) = some (makeComposite ik pk) := by
    rw [compositeOf, Option.bind_some, hfn, Option.map_some]
  simp only [hnew, Option.some.injEq] at hfind
  refine ⟨horder, fun a p hap => ?_, fun c p hc => ?_⟩
  · rw [hfind]
    split
    · exact Option.some_ne_none _
    · rename_i hne
      rcases hap with hap | ⟨rfl, rfl⟩
      · exact h.present a p hap
      · exact absurd rfl hne
  · rw [hfind] at hc
    split at hc
    · rename_i heq
      cases hc
      exact ⟨ik, Or.inr ⟨rfl, rfl⟩, heq.symm⟩
    · obtain ⟨a, ha, hca⟩ := h.only c p hc
      exact ⟨a, Or.inl ha, hca⟩

/-- `remove_index_entry` takes its pair away, if no other one has the same composite key. -/
theorem Index.Stores.remove {idx : Index} {S : Bytes → Bytes → Prop} (h : idx.Stores S)
    {pk val ik : Bytes} (hfn : idx.fn pk val = some ik)
    (hsep : ∀ a p, S a p → makeComposite a p = makeComposite ik pk → a = ik ∧ p = pk) :
    (removeIndexEntry idx pk val).Stores fun a p => S a p ∧ ¬ (a = ik ∧ p = pk) := by
  obtain ⟨horder, -, hfind⟩ := removeIndexEntry_spec h.inOrder pk val
  have hold : compositeOf idx.fn pk (some val) = some (makeComposite ik pk) := by
    rw [compositeOf, Option.bind_some, hfn, Option.map_some]
  simp only [hold, Option.some.injEq] at hfind
  refine ⟨horder, fun a p hap => ?_, fun c p hc => ?_⟩
  · rw [hfind, if_neg fun heq => hap.2 (hsep a p hap.1 heq.symm)]
    exact h.present a p hap.1
  · rw [hfind] at hc
    split at hc
    · cases hc
    · rename_i hne
      obtain ⟨a, ha, hca⟩ := h.only c p hc
      refine ⟨a, ⟨ha, ?_⟩, hca⟩
      rintro ⟨rfl, rfl⟩
      exact hne hca.symm

/-- If composite keys differ, an entry is that of its own pair. -/
theorem Index.Stores.find_iff {idx : Index} {S : Bytes → Bytes → Prop} (h : idx.Stores S)
    (hsep : Separate S) (c pk : Bytes) :
    idx.find c = some pk ↔ ∃ ik, S ik pk ∧ c = makeComposite ik pk := by
  refine ⟨h.only c pk, ?_⟩
  rintro ⟨ik, hS, rfl⟩
  obtain ⟨pk', hpk'⟩ := Option.ne_none_iff_exists'.mp (h.present ik pk hS)
  obtain ⟨ik', hS', heq⟩ := h.only _ _ hpk'
  obtain ⟨-, rfl⟩ := hsep ik pk ik' pk' hS hS' heq
  exact hpk'

/-- The entries between two bounds, in order of their composite keys. -/
def Index.between (idx : Index) (lo hi : Bytes) : List (Bytes × Bytes) :=
  idx.btree.range (some lo) (some hi)

/-- They are the entries found between the bounds. -/
theorem Index.InOrder.mem_between {idx : Index} (h : idx.InOrder) (lo hi c pk : Bytes) :
    (c, pk) ∈ idx.between lo hi ↔ idx.find c = some pk ∧ lo ≤ c ∧ c ≤ hi := by
  rw [Index.between, BTree.range, List.mem_filter, h.wellFormed.sorted.mem_iff_find]
  simp [Index.find]

/-- A lookup hands out what lies between its bounds. -/
theorem Index.InOrder.lookup_eq {idx : Index} (h : idx.InOrder) (ik : Bytes)
    (cb : σ → Bytes → Err × σ) (s : σ) : fastkvIndexLookup idx ik cb s =
      scanResult (feed (fwdCb cb) (idx.between (ik ++ [0]) (ik ++ [1])) s) :=
  btreeScan_forward h.wellFormed h.linked _ _ _ s

/-- So does a range query. -/
theorem Index.InOrder.range_eq {idx : Index} (h : idx.InOrder) (minIk maxIk : Bytes)
    (cb : σ → Bytes → Err × σ) (s : σ) : fastkvIndexRange idx minIk maxIk cb s =
      scanResult (feed (fwdCb cb) (idx.between (minIk ++ [0]) (maxIk ++ [1])) s) :=
  btreeScan_forward h.wellFormed h.linked _ _ _ s

/-! ## Bytes and bounds -/

/-- Every byte but zero is above it. -/
theorem byte_pos {b : UInt8} (h : b ≠ 0) : 0 < b := by
  rw [UInt8.lt_iff_toNat_lt]
  have hne : b.toNat ≠ 0 := fun heq => h (UInt8.toNat_inj.mp heq)
  exact Nat.pos_of_ne_zero hne

/-- Only zero is below one. -/
theorem byte_eq_of_le_one {b : UInt8} (h : ¬ 1 < b) : b = 0 ∨ b = 1 := by
  rw [UInt8.lt_iff_toNat_lt] at h
  have hone : (1 : UInt8).toNat = 1 := rfl
  have hcases : b.toNat = 0 ∨ b.toNat = 1 := by omega
  rcases hcases with heq | heq
  · exact Or.inl (UInt8.toNat_inj.mp heq)
  · exact Or.inr (UInt8.toNat_inj.mp heq)

/-- A key is between the bounds of a lookup if it goes on with a zero byte, or is the upper one. -/
theorem between_iff (ik : Bytes) : ∀ c : Bytes,
    ik ++ [0] ≤ c ∧ c ≤ ik ++ [1] ↔ (∃ rest, c = ik ++ 0 :: rest) ∨ c = ik ++ [1] := by
  induction ik with
  | nil =>
    intro c
    cases c with
    | nil => simp
    | cons b c =>
      rw [← not_lt, ← not_lt, List.nil_append, List.nil_append, List.cons_lt_cons_iff,
        List.cons_lt_cons_iff]
      constructor
      · rintro ⟨-, hle⟩
        rcases byte_eq_of_le_one fun hlt => hle (Or.inl hlt) with rfl | rfl
        · exact Or.inl ⟨c, rfl⟩
        · right
          cases c with
          | nil => rfl
          | cons d c => exact absurd (Or.inr ⟨rfl, List.nil_lt_cons d c⟩) hle
      · rintro (⟨rest, heq⟩ | heq)
        · obtain ⟨rfl, rfl⟩ := List.cons.inj heq
          simp
        · obtain ⟨rfl, rfl⟩ := List.cons.inj heq
          simp
  | cons a ik ih =>
    intro c
    cases c with
    | nil => simp
    | cons b c =>
      have hrest := ih c
      rw [← not_lt, ← not_lt] at hrest ⊢
      simp only [List.cons_append, List.cons_lt_cons_iff, List.cons.injEq]
      constructor
      · rintro ⟨hlo, hhi⟩
        have heq : b = a := le_antisymm (not_lt.mp fun hlt => hhi (Or.inl hlt))
          (not_lt.mp fun hlt => hlo (Or.inl hlt))
        have hbounds := hrest.mp ⟨fun hlt => hlo (Or.inr ⟨heq, hlt⟩),
          fun hlt => hhi (Or.inr ⟨heq.symm, hlt⟩)⟩
        rcases hbounds with ⟨rest, hc⟩ | hc
        · exact Or.inl ⟨rest, heq, hc⟩
        · exact Or.inr ⟨heq, hc⟩
      · intro h
        have heq : b = a := by
          rcases h with ⟨-, heq, -⟩ | ⟨heq, -⟩
          · exact heq
          · exact heq
        have hbounds := hrest.mpr (by
          rcases h with ⟨rest, -, hc⟩ | ⟨-, hc⟩
          · exact Or.inl ⟨rest, hc⟩
          · exact Or.inr hc)
        simp [heq, hbounds.1, hbounds.2]

/-! ## Index keys without zero bytes -/

/-- Composite keys are ordered as pairs. -/
theorem makeComposite_lt_iff {a b : Bytes} (ha : (0 : UInt8) ∉ a) (hb : (0 : UInt8) ∉ b)
    (p q : Bytes) : makeComposite a p < makeComposite b q ↔ a < b ∨ a = b ∧ p < q := by
  unfold makeComposite
  induction a generalizing b with
  | nil =>
    cases b with
    | nil => simp
    | cons y b =>
      have hy : 0 < y := byte_pos fun heq => hb (by rw [heq]; exact List.mem_cons_self)
      simp [List.cons_lt_cons_iff, hy]
  | cons x a ih =>
    have hx : x ≠ 0 := fun heq => ha (by rw [heq]; exact List.mem_cons_self)
    cases b with
    | nil => simp [List.cons_lt_cons_iff, hx]
    | cons y b =>
      have hrest := ih (fun hmem => ha (List.mem_cons_of_mem _ hmem))
        fun hmem => hb (List.mem_cons_of_mem _ hmem)
      rw [List.cons_append, List.cons_append, List.cons_lt_cons_iff, List.cons_lt_cons_iff, hrest,
        List.cons.injEq]
      constructor
      · rintro (hlt | ⟨heq, hlt | ⟨heq', hlt⟩⟩)
        · exact Or.inl (Or.inl hlt)
        · exact Or.inl (Or.inr ⟨heq, hlt⟩)
        · exact Or.inr ⟨⟨heq, heq'⟩, hlt⟩
      · rintro ((hlt | ⟨heq, hlt⟩) | ⟨⟨heq, heq'⟩, hlt⟩)
        · exact Or.inl hlt
        · exact Or.inr ⟨heq, Or.inl hlt⟩
        · exact Or.inr ⟨heq, Or.inr ⟨heq', hlt⟩⟩

/-- The lower bound cuts at its index key. -/
theorem lower_le_iff {a m : Bytes} (ha : (0 : UInt8) ∉ a) (hm : (0 : UInt8) ∉ m) (p : Bytes) :
    m ++ [0] ≤ makeComposite a p ↔ m ≤ a := by
  have hlt := makeComposite_lt_iff ha hm p []
  rw [← not_lt, ← not_lt]
  apply not_congr
  rw [show m ++ [0] = makeComposite m [] from rfl, hlt]
  simp

/-- The upper bound cuts behind its index key. -/
theorem le_upper_iff {a m : Bytes} (ha : (0 : UInt8) ∉ a) (hm : (0 : UInt8) ∉ m) (p : Bytes) :
    makeComposite a p ≤ m ++ [1] ↔ a ≤ m := by
  rw [← not_lt, ← not_lt]
  apply not_congr
  unfold makeComposite
  induction m generalizing a with
  | nil =>
    cases a with
    | nil => simp [List.cons_lt_cons_iff]
    | cons x a =>
      have hx : x ≠ 0 := fun heq => ha (by rw [heq]; exact List.mem_cons_self)
      have hone : 1 < x ∨ 1 = x := by
        by_contra hnot
        rcases byte_eq_of_le_one fun hlt => hnot (Or.inl hlt) with heq | heq
        · exact hx heq
        · exact hnot (Or.inr heq.symm)
      have hnil : [] < a ++ 0 :: p := by
        cases a with
        | nil => exact List.nil_lt_cons _ _
        | cons y a => exact List.nil_lt_cons _ _
      simp [List.cons_lt_cons_iff, hnil, hone]
  | cons y m ih =>
    have hy : y ≠ 0 := fun heq => hm (by rw [heq]; exact List.mem_cons_self)
    cases a with
    | nil => simp [List.cons_lt_cons_iff, hy]
    | cons x a =>
      have hrest := ih (fun hmem => ha (List.mem_cons_of_mem _ hmem))
        fun hmem => hm (List.mem_cons_of_mem _ hmem)
      rw [List.cons_append, List.cons_append, List.cons_lt_cons_iff, List.cons_lt_cons_iff, hrest]

/-- The index key of a composite key, if there is no zero byte in it. -/
def indexKeyOf (c : Bytes) : Bytes := c.takeWhile fun b => decide (b ≠ 0)

/-- It is what the composite key was made of. -/
theorem indexKeyOf_makeComposite {ik : Bytes} (h : (0 : UInt8) ∉ ik) (pk : Bytes) :
    indexKeyOf (makeComposite ik pk) = ik := by
  unfold indexKeyOf makeComposite
  have hall : ∀ b ∈ ik, decide (b ≠ 0) = true := by
    intro b hb
    rw [decide_eq_true_eq]
    rintro rfl
    exact h hb
  rw [List.takeWhile_append_of_pos hall, List.takeWhile_cons_of_neg (by simp), List.append_nil]

/-- Without zero bytes in index keys composite keys differ. -/
theorem separate_of_zeroFree {S : Bytes → Bytes → Prop} (hS : ∀ ik pk, S ik pk → (0 : UInt8) ∉ ik) :
    Separate S :=
  fun ik pk ik' pk' h h' heq => makeComposite_inj (hS ik pk h) (hS ik' pk' h') heq

/-- A range query over index keys without zero bytes hands out the primary keys of exactly the
pairs whose index key is between the bounds, each pair once, in the order of the pairs. -/
theorem index_range_exact {idx : Index} {S : Bytes → Bytes → Prop} (hstores : idx.Stores S)
    (hS : ∀ ik pk, S ik pk → (0 : UInt8) ∉ ik) {minIk maxIk : Bytes} (hmin : (0 : UInt8) ∉ minIk)
    (hmax : (0 : UInt8) ∉ maxIk) : ∃ ps : List (Bytes × Bytes),
      ps.Pairwise (fun a b => a.1 < b.1 ∨ a.1 = b.1 ∧ a.2 < b.2) ∧
      (∀ ik pk, (ik, pk) ∈ ps ↔ S ik pk ∧ minIk ≤ ik ∧ ik ≤ maxIk) ∧
      ∀ (σ : Type) (cb : σ → Bytes → Err × σ) (s : σ),
        fastkvIndexRange idx minIk maxIk cb s = scanResult (feed (fwdCb cb) ps s) := by
  have horder := hstores.inOrder
  have hfind := hstores.find_iff (separate_of_zeroFree hS)
  have hsorted : SortedKeys (idx.between (minIk ++ [0]) (maxIk ++ [1])) :=
    horder.wellFormed.sorted.filter _
  have hmem : ∀ c pk, (c, pk) ∈ idx.between (minIk ++ [0]) (maxIk ++ [1]) ↔
      ∃ ik, S ik pk ∧ c = makeComposite ik pk ∧ minIk ≤ ik ∧ ik ≤ maxIk := by
    intro c pk
    rw [horder.mem_between, hfind]
    constructor
    · rintro ⟨⟨ik, hik, rfl⟩, hlo, hhi⟩
      exact ⟨ik, hik, rfl, (lower_le_iff (hS ik pk hik) hmin pk).mp hlo,
        (le_upper_iff (hS ik pk hik) hmax pk).mp hhi⟩
    · rintro ⟨ik, hik, rfl, hlo, hhi⟩
      exact ⟨⟨ik, hik, rfl⟩, (lower_le_iff (hS ik pk hik) hmin pk).mpr hlo,
        (le_upper_iff (hS ik pk hik) hmax pk).mpr hhi⟩
  refine ⟨(idx.between (minIk ++ [0]) (maxIk ++ [1])).map fun e => (indexKeyOf e.1, e.2),
    ?_, fun ik pk => ?_, fun σ cb s => ?_⟩
  · rw [List.pairwise_map]
    refine List.Pairwise.imp_of_mem (fun {a b} ha hb hlt => ?_) hsorted
    obtain ⟨ik, hik, hcomp, -⟩ := (hmem a.1 a.2).mp ha
    obtain ⟨ik', hik', hcomp', -⟩ := (hmem b.1 b.2).mp hb
    rw [hcomp, hcomp', makeComposite_lt_iff (hS _ _ hik) (hS _ _ hik')] at hlt
    simp only [hcomp, hcomp', indexKeyOf_makeComposite (hS _ _ hik),
      indexKeyOf_makeComposite (hS _ _ hik')]
    exact hlt
  · rw [List.mem_map]
    constructor
    · rintro ⟨e, he, heq⟩
      obtain ⟨hik, hpk⟩ := Prod.mk.inj heq
      obtain ⟨ik', hS', hcomp, hbounds⟩ := (hmem e.1 e.2).mp he
      rw [hcomp, indexKeyOf_makeComposite (hS _ _ hS')] at hik
      rw [← hik, ← hpk]
      exact ⟨hS', hbounds⟩
    · rintro ⟨hik, hbounds⟩
      refine ⟨(makeComposite ik pk, pk), (hmem _ _).mpr ⟨ik, hik, rfl, hbounds⟩, ?_⟩
      rw [indexKeyOf_makeComposite (hS _ _ hik)]
  · rw [horder.range_eq]
    apply congrArg scanResult
    apply feed_fwdCb
    rw [List.map_map]
    rfl

/-- An index over the values themselves. -/
def valueIndex : Index := ⟨['v'], fun _ value => some value, btreeCreate⟩

/-- A range query over an index with one pair. -/
theorem index_range_exact_one : ∃ ps : List (Bytes × Bytes),
    ([1, 2], [7, 0]) ∈ ps ∧ ∀ (σ : Type) (cb : σ → Bytes → Err × σ) (s : σ),
      fastkvIndexRange (addIndexEntry valueIndex [7, 0] [1, 2]) [1] [1, 2] cb s =
        scanResult (feed (fwdCb cb) ps s) := by
  have hstores : (addIndexEntry valueIndex [7, 0] [1, 2]).Stores _ :=
    (Index.stores_new _ _).add rfl
  have hzero : ∀ ik pk : Bytes, False ∨ ik = [1, 2] ∧ pk = [7, 0] → (0 : UInt8) ∉ ik := by
    rintro ik pk (h | ⟨rfl, -⟩)
    · exact h.elim
    · decide
  obtain ⟨ps, -, hmem, hrun⟩ :=
    index_range_exact hstores hzero (show (0 : UInt8) ∉ [1] by decide)
      (show (0 : UInt8) ∉ [1, 2] by decide)
  refine ⟨ps, (hmem _ _).mpr ⟨Or.inr ⟨rfl, rfl⟩, ?_, ?_⟩, hrun⟩
  · decide
  · decide

/-! ## Lookups -/

/-- The composite keys of two pairs are the same although their index keys are not: the first
index key ends at a zero byte in the second one. -/
def Overlap (ik pk ik' pk' : Bytes) : Prop := ∃ m, ik' = ik ++ 0 :: m ∧ pk = m ++ 0 :: pk'

/-- A pair under another index key whose composite key is between the bounds of a lookup. -/
def Intrudes (ik ik' pk' : Bytes) : Prop :=
  (∃ m, ik' = ik ++ 0 :: m) ∨
    ∃ m, ik = ik' ++ 0 :: m ∧ ((∃ rest, pk' = m ++ 0 :: rest) ∨ pk' = m ++ [1])

/-- What stands behind a prefix that ends at a zero byte is longer than it. -/
theorem ne_append_zero (ik m : Bytes) : ik ≠ ik ++ 0 :: m := by
  intro heq
  have hlen := congrArg List.length heq
  rw [List.length_append, List.length_cons] at hlen
  omega

/-- Composite keys are the same if the pairs are, or overlap. -/
theorem makeComposite_eq_iff (ik pk ik' pk' : Bytes) :
    makeComposite ik pk = makeComposite ik' pk' ↔
      (ik = ik' ∧ pk = pk') ∨ Overlap ik pk ik' pk' ∨ Overlap ik' pk' ik pk := by
  unfold makeComposite
  rw [List.append_eq_append_iff]
  constructor
  · rintro (⟨m, hik, hpk⟩ | ⟨m, hik, hpk⟩)
    · cases m with
      | nil =>
        left
        exact ⟨by rw [hik, List.append_nil], (List.cons.inj hpk).2⟩
      | cons b m =>
        obtain ⟨rfl, htail⟩ := List.cons.inj hpk
        exact Or.inr (Or.inl ⟨m, hik, htail⟩)
    · cases m with
      | nil =>
        left
        exact ⟨by rw [hik, List.append_nil], (List.cons.inj hpk).2.symm⟩
      | cons b m =>
        obtain ⟨rfl, htail⟩ := List.cons.inj hpk
        exact Or.inr (Or.inr ⟨m, hik, htail⟩)
  · rintro (⟨rfl, rfl⟩ | ⟨m, hik, hpk⟩ | ⟨m, hik, hpk⟩)
    · exact Or.inl ⟨[], by rw [List.append_nil], rfl⟩
    · exact Or.inl ⟨0 :: m, hik, by rw [hpk]; rfl⟩
    · exact Or.inr ⟨0 :: m, hik, by rw [hpk]; rfl⟩

/-- Which composite keys a lookup finds: those of its index key, and those of intruders. -/
theorem composite_between_iff (ik ik' pk' : Bytes) :
    ik ++ [0] ≤ makeComposite ik' pk' ∧ makeComposite ik' pk' ≤ ik ++ [1] ↔
      ik' = ik ∨ Intrudes ik ik' pk' := by
  have hzero (rest : Bytes) : makeComposite ik' pk' = ik ++ 0 :: rest ↔
      (ik' = ik ∧ pk' = rest) ∨ Overlap ik' pk' ik rest ∨ Overlap ik rest ik' pk' :=
    makeComposite_eq_iff ik' pk' ik rest
  rw [between_iff]
  constructor
  · rintro (⟨rest, heq⟩ | heq)
    · rcases (hzero rest).mp heq with ⟨rfl, -⟩ | ⟨m, hik, hpk⟩ | ⟨m, hik, -⟩
      · exact Or.inl rfl
      · exact Or.inr (Or.inr ⟨m, hik, Or.inl ⟨rest, hpk⟩⟩)
      · exact Or.inr (Or.inl ⟨m, hik⟩)
    · unfold makeComposite at heq
      rcases List.append_eq_append_iff.mp heq with ⟨m, hik, hpk⟩ | ⟨m, hik, hpk⟩
      · cases m with
        | nil => exact absurd (List.cons.inj hpk).1 (by decide)
        | cons b m =>
          obtain ⟨rfl, htail⟩ := List.cons.inj hpk
          exact Or.inr (Or.inr ⟨m, hik, Or.inr htail⟩)
      · cases m with
        | nil => exact absurd (List.cons.inj hpk).1 (by decide)
        | cons b m =>
          have htail := (List.cons.inj hpk).2
          cases m with
          | nil => cases htail
          | cons d m => cases htail
  · rintro (rfl | ⟨m, hik⟩ | ⟨m, hik, ⟨rest, hpk⟩ | hpk⟩)
    · exact Or.inl ⟨pk', rfl⟩
    · exact Or.inl ⟨m ++ 0 :: pk', by rw [makeComposite, hik, List.append_assoc]; rfl⟩
    · exact Or.inl ⟨rest, (hzero rest).mpr (Or.inr (Or.inl ⟨m, hik, hpk⟩))⟩
    · right
      rw [makeComposite, hik, hpk, List.append_assoc]
      rfl

/-- Composite keys differ, and a lookup hands out exactly the primary keys that are stored under
its index key, each once. -/
structure Index.LooksUp (idx : Index) (S : Bytes → Bytes → Prop) (ik : Bytes) : Prop where
  /-- Different pairs have different composite keys. -/
  separate : Separate S
  /-- What the callback is given. -/
  found : ∃ es : List (Bytes × Bytes), (∀ (σ : Type) (cb : σ → Bytes → Err × σ) (s : σ),
      fastkvIndexLookup idx ik cb s = scanResult (feed (fwdCb cb) es s)) ∧
    (es.map Prod.snd).Nodup ∧ ∀ pk, pk ∈ es.map Prod.snd ↔ S ik pk

/-- Zero bytes in index keys do no harm: no two stored pairs overlap, and none intrudes on the
lookup. -/
structure Unambiguous (S : Bytes → Bytes → Prop) (ik : Bytes) : Prop where
  /-- No two overlap. -/
  apart : ∀ a p b q, S a p → S b q → ¬ Overlap a p b q
  /-- None intrudes. -/
  outside : ∀ a p, S a p → ¬ Intrudes ik a p

/-- Composite keys differ if no two pairs overlap. -/
theorem separate_iff {S : Bytes → Bytes → Prop} :
    Separate S ↔ ∀ a p b q, S a p → S b q → ¬ Overlap a p b q := by
  constructor
  · intro hsep a p b q hp hq hover
    have heq := (makeComposite_eq_iff a p b q).mpr (Or.inr (Or.inl hover))
    obtain ⟨m, hb, -⟩ := hover
    rw [(hsep a p b q hp hq heq).1] at hb
    exact ne_append_zero b m hb
  · intro hapart a p b q hp hq heq
    rcases (makeComposite_eq_iff a p b q).mp heq with hsame | hover | hover
    · exact hsame
    · exact absurd hover (hapart a p b q hp hq)
    · exact absurd hover (hapart b q a p hq hp)

/-- An intruder is stored under another index key. -/
theorem Intrudes.ne {ik ik' pk' : Bytes} (h : Intrudes ik ik' pk') : ik' ≠ ik := by
  rintro rfl
  rcases h with ⟨m, heq⟩ | ⟨m, heq, -⟩
  · exact ne_append_zero _ m heq
  · exact ne_append_zero _ m heq

/-- A lookup is exact if and only if zero bytes do no harm. -/
theorem index_lookup_exact_iff {idx : Index} {S : Bytes → Bytes → Prop} (hstores : idx.Stores S)
    (ik : Bytes) : idx.LooksUp S ik ↔ Unambiguous S ik := by
  have horder := hstores.inOrder
  have hsorted : SortedKeys (idx.between (ik ++ [0]) (ik ++ [1])) :=
    horder.wellFormed.sorted.filter _
  have hmem (hsep : Separate S) (c pk : Bytes) :
      (c, pk) ∈ idx.between (ik ++ [0]) (ik ++ [1]) ↔
        ∃ a, S a pk ∧ c = makeComposite a pk ∧ (a = ik ∨ Intrudes ik a pk) := by
    rw [horder.mem_between, hstores.find_iff hsep]
    constructor
    · rintro ⟨⟨a, ha, rfl⟩, hbounds⟩
      exact ⟨a, ha, rfl, (composite_between_iff ik a pk).mp hbounds⟩
    · rintro ⟨a, ha, rfl, hcases⟩
      exact ⟨⟨a, ha, rfl⟩, (composite_between_iff ik a pk).mpr hcases⟩
  constructor
  · rintro ⟨hsep, es, hes, hnodup, hpks⟩
    refine ⟨separate_iff.mp hsep, fun a p ha hintrudes => ?_⟩
    -- The callback that writes everything down sees what is between the bounds.
    have hseen : es.map Prod.snd = (idx.between (ik ++ [0]) (ik ++ [1])).map Prod.snd := by
      have hrun := hes (List Bytes) collectPks []
      rw [horder.lookup_eq, feed_collectPks, feed_collectPks] at hrun
      exact (Prod.mk.inj hrun).2.symm
    rw [hseen] at hnodup hpks
    have hin : (makeComposite a p, p) ∈ idx.between (ik ++ [0]) (ik ++ [1]) :=
      (hmem hsep _ _).mpr ⟨a, ha, rfl, Or.inr hintrudes⟩
    have hown : S ik p := (hpks p).mp (List.mem_map.mpr ⟨_, hin, rfl⟩)
    have hin' : (makeComposite ik p, p) ∈ idx.between (ik ++ [0]) (ik ++ [1]) :=
      (hmem hsep _ _).mpr ⟨ik, hown, rfl, Or.inl rfl⟩
    have heq := List.inj_on_of_nodup_map hnodup hin hin' rfl
    exact hintrudes.ne (hsep a p ik p ha hown (Prod.mk.inj heq).1).1
  · rintro ⟨hapart, houtside⟩
    have hsep := separate_iff.mpr hapart
    have hmem' (c pk : Bytes) : (c, pk) ∈ idx.between (ik ++ [0]) (ik ++ [1]) ↔
        S ik pk ∧ c = makeComposite ik pk := by
      rw [hmem hsep]
      constructor
      · rintro ⟨a, ha, hc, rfl | hintrudes⟩
        · exact ⟨ha, hc⟩
        · exact absurd hintrudes (houtside a pk ha)
      · rintro ⟨ha, hc⟩
        exact ⟨ik, ha, hc, Or.inl rfl⟩
    refine ⟨hsep, _, fun σ cb s => horder.lookup_eq ik cb s, ?_, fun pk => ?_⟩
    · apply List.Nodup.map_on
      · intro x hx y hy heq
        have hcx := ((hmem' x.1 x.2).mp hx).2
        have hcy := ((hmem' y.1 y.2).mp hy).2
        exact Prod.ext (by rw [hcx, hcy, heq]) heq
      · exact hsorted.imp fun hlt heq => (ne_of_lt hlt) (congrArg Prod.fst heq)
    · rw [List.mem_map]
      constructor
      · rintro ⟨e, he, rfl⟩
        exact ((hmem' e.1 e.2).mp he).1
      · intro hS
        exact ⟨(makeComposite ik pk, pk), (hmem' _ _).mpr ⟨hS, rfl⟩, rfl⟩

/-- A lookup in an index with one pair. -/
theorem index_lookup_exact_one :
    (addIndexEntry valueIndex [7] [1, 2]).LooksUp (fun ik pk => False ∨ ik = [1, 2] ∧ pk = [7])
      [1, 2] := by
  have hstores : (addIndexEntry valueIndex [7] [1, 2]).Stores _ := (Index.stores_new _ _).add rfl
  refine (index_lookup_exact_iff hstores [1, 2]).mpr ⟨?_, ?_⟩
  · rintro a p b q (hp | ⟨rfl, -⟩) (hq | ⟨rfl, -⟩) ⟨m, hm, -⟩
    · exact hp
    · exact hp
    · exact hq
    · exact ne_append_zero _ m hm
  · rintro a p (hp | ⟨rfl, -⟩) hintrudes
    · exact hp
    · exact hintrudes.ne rfl

/-- A pair whose index key goes on with a zero byte is handed out by the lookup of the part before
that byte. -/
theorem index_lookup_finds_longer : ¬ ∀ (idx : Index) (S : Bytes → Bytes → Prop) (ik : Bytes),
    idx.Stores S → idx.LooksUp S ik := by
  intro hclaim
  have hstores : (addIndexEntry valueIndex [7] [1, 0, 2]).Stores _ :=
    (Index.stores_new _ _).add rfl
  obtain ⟨-, es, hes, -, hpks⟩ := hclaim _ _ [1] hstores
  have hseen := hes (List Bytes) collectPks []
  rw [feed_collectPks] at hseen
  have hgiven : fastkvIndexLookup (addIndexEntry valueIndex [7] [1, 0, 2]) [1] collectPks [] =
      (.ok, [[7]]) := by decide +kernel
  have hes' : es.map Prod.snd = [[7]] := (Prod.mk.inj (hseen.symm.trans hgiven)).2
  have hstored := (hpks [7]).mp (by rw [hes']; exact List.mem_cons_self)
  rcases hstored with h | ⟨h, -⟩
  · exact h
  · cases h

end FastKV
