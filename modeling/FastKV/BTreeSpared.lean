import FastKV.BTreeFaults
import FastKV.Lib.Steps

/-!
# What running out of memory may do to the B+tree

An insertion does its work in spite of failures only if it does not need what has failed: all
copies and a new leaf have to succeed, and where an internal node or a new root is missing, the
right half that is dropped has to be empty. That can be so, since deletions leave empty leaves
behind. In every other case a later lookup or scan shows the damage.
-/

namespace FastKV

open Lib

namespace BTree

/-! ## The condition -/

/-- How the allocations of an insertion have gone when it comes back to a node. -/
structure Passage where
  /-- The separator at which the node has been cut, if it was full. -/
  sep : Option Bytes
  /-- Nothing stands behind the separator. -/
  light : Bool
  /-- The outcomes that are left. -/
  mem : List Bool
  /-- Nothing that is needed has failed. -/
  spared : Bool

/-- Neither the new key nor an old one stands at the separator or behind it. -/
def lightAt (key sep : Bytes) (entries : List (Bytes × Bytes)) : Bool :=
  decide (key < sep) && entries.all fun e => decide (e.1 < sep)

/-- In a leaf the copies are needed, and in a full one the new leaf is. -/
def leafPassage (entries : List (Bytes × Bytes)) (key val : Bytes) (mem : List Bool) : Passage :=
  if leafHit entries (leafLower entries key) key then
    ⟨none, true, (sdup val mem).2, decide ((sdup val mem).1 = val)⟩
  else
    let (k, mem) := sdup key mem
    let (v, mem) := sdup val mem
    let copied := decide (k = key) && decide (v = val)
    if entries.length < leafMax then ⟨none, true, mem, copied⟩
    else
      match fkvMalloc mem with
      | (false, mem) => ⟨none, true, mem, false⟩
      | (true, mem) =>
        let t := Lib.insert entries key val
        let sep := (t.getD (t.length / 2) ([], [])).1
        ⟨some sep, lightAt key sep entries, (sdup sep mem).2,
          copied && decide ((sdup sep mem).1 = sep)⟩

/-- A full internal node needs a new one, unless the right half of its child is empty. -/
def intrPassage (keys : List Bytes) (ci : ℕ) (key : Bytes) (entries : List (Bytes × Bytes))
    (below : Passage) : Passage :=
  match below.sep with
  | none => below
  | some sep =>
    if keys.length < intrMax then { below with sep := none }
    else
      match fkvMalloc below.mem with
      | (false, mem) => ⟨none, true, mem, below.spared && below.light⟩
      | (true, mem) =>
        let median := (keys.take ci ++ sep :: keys.drop ci).getD (keys.length / 2) []
        ⟨some median, lightAt key median entries, mem, below.spared⟩

mutual

/-- The passage through a node. -/
def passage (key val : Bytes) (mem : List Bool) : Node → Passage
  | .leaf _ entries => leafPassage entries key val mem
  | .intr keys children =>
    intrPassage keys (intrChildIdx keys key) key (contentsList children)
      (passageAt key val mem children (intrChildIdx keys key))

/-- The passage through the child with the given index. -/
def passageAt (key val : Bytes) (mem : List Bool) : List Node → ℕ → Passage
  | [], _ => ⟨none, true, mem, true⟩
  | c :: _, 0 => passage key val mem c
  | _ :: cs, i + 1 => passageAt key val mem cs i

end

end BTree

open BTree

/-- No failure in the insertion matters. A new root is needed like an internal node. -/
def btreeSpared (t : LeakyTree) (key val : Bytes) (mem : List Bool) : Bool :=
  let p := passage key val mem t.root
  match p.sep with
  | none => p.spared
  | some _ => p.spared && ((fkvMalloc p.mem).1 || p.light)

/-- No failure in a call matters. -/
def MemOp.Spared (t : LeakyTree) : MemOp → Prop
  | .insert key val mem => btreeSpared t key val mem = true
  | .delete _ => True

/-- The call without its failures. -/
def MemOp.toOp : MemOp → BTreeOp
  | .insert key val _ => .insert key val
  | .delete key => .delete key

/-! ## Spared insertions -/

namespace BTree

/-- The passage through a child by its index. -/
theorem passageAt_append (key val : Bytes) (mem : List Bool) (left right : List Node) (c : Node) :
    passageAt key val mem (left ++ c :: right) left.length = passage key val mem c := by
  induction left with
  | nil => rfl
  | cons b left ih => exact ih

/-- A chain whose last child may go further goes further. -/
theorem Chain.widen {P : Option Bytes → Option Bytes → Node → Prop} {s : Bytes}
    {hi : Option Bytes} (hs : ∀ h ∈ hi, s < h)
    (hP : ∀ lo n, P lo (some s) n → P lo hi n) {lo : Option Bytes} {ks : List Bytes}
    {cs : List Node} (h : Chain P lo (some s) ks cs) : Chain P lo hi ks cs := by
  induction ks generalizing lo cs with
  | nil =>
    match cs, h with
    | [c], h => exact hP lo c h
  | cons k ks ih =>
    match cs, h with
    | c :: cs, ⟨hc, hk, hrest⟩ =>
      exact ⟨hc, ⟨hk.1, fun h hh => (hk.2 s rfl).trans (hs h hh)⟩, ih hrest⟩

/-- A node that is ordered up to a separator is ordered up to any later bound. -/
theorem Ordered.widen {s : Bytes} {hi : Option Bytes} (hs : ∀ h ∈ hi, s < h) (d : ℕ) :
    ∀ lo n, Ordered d lo (some s) n → Ordered d lo hi n := by
  induction d with
  | zero =>
    intro lo n h
    cases n with
    | intr keys children => cases h
    | leaf addr entries =>
      obtain ⟨hsorted, hrange, hlen⟩ := h
      exact ⟨hsorted, fun e he => ⟨(hrange e he).1,
        fun h hh => ((hrange e he).2 s rfl).trans (hs h hh)⟩, hlen⟩
  | succ d ih =>
    intro lo n h
    cases n with
    | leaf addr entries => cases h
    | intr keys children =>
      obtain ⟨hlen, hchain⟩ := h
      exact ⟨hlen, hchain.widen hs ih⟩

/-- The right part of a cut node is empty if nothing stands behind the separator. -/
theorem lightAt_iff {d : ℕ} {lo hi : Option Bytes} {m : List (Bytes × Bytes)} {key val s : Bytes}
    {n r : Node} (h : InsertSpec (Ordered d) lo hi (Lib.insert m key val) (n, some (s, r))) :
    lightAt key s m = true ↔ contents r = [] := by
  obtain ⟨hn, hr, -, hmap⟩ := h
  unfold lightAt
  rw [Bool.and_eq_true, decide_eq_true_iff, List.all_eq_true]
  constructor
  · rintro ⟨hkey, hold⟩
    apply List.eq_nil_iff_forall_not_mem.mpr
    intro e he
    have hge : s ≤ e.1 := (Ordered.inRange d _ _ r hr e he).1 s rfl
    have hmem : e ∈ Lib.insert m key val := by
      rw [← hmap]
      exact List.mem_append_right _ he
    rcases mem_insert hmem with rfl | hin
    · exact absurd hkey (not_lt.mpr hge)
    · exact absurd (by simpa using hold e hin) (not_lt.mpr hge)
  · intro hnil
    rw [hnil, List.append_nil] at hmap
    have hlt : ∀ k v, Lib.find (Lib.insert m key val) k = some v → k < s := by
      intro k v hfind
      obtain ⟨e, he, -⟩ := Option.map_eq_some_iff.mp hfind
      have hk : e.1 = k := by simpa using List.find?_some he
      have hmem := List.mem_of_find?_eq_some he
      rw [← hmap] at hmem
      rw [← hk]
      exact (Ordered.inRange d _ _ n hn e hmem).2 s rfl
    constructor
    · exact hlt key val (by rw [find_insert, if_pos rfl])
    · intro e he
      rw [decide_eq_true_iff]
      by_cases hk : e.1 = key
      · rw [hk]
        exact hlt key val (by rw [find_insert, if_pos rfl])
      · cases hfind : Lib.find m e.1 with
        | some v => exact hlt e.1 v (by rw [find_insert, if_neg hk, hfind])
        | none =>
          simp only [Lib.find, Option.map_eq_none_iff, List.find?_eq_none,
            decide_eq_true_eq] at hfind
          exact absurd rfl (hfind e he)

/-- A leaf that gets all it needs is changed as before. -/
theorem leafInsertMem_of_spared (links : List Link) (addr : ℕ) {entries : List (Bytes × Bytes)}
    {key val : Bytes} {mem : List Bool} (hsorted : SortedKeys entries)
    (h : (leafPassage entries key val mem).spared = true) :
    leafInsertMem links addr entries key val mem =
        ⟨(leafInsert links addr entries key val).1, (leafInsert links addr entries key val).2.1,
          (leafInsert links addr entries key val).2.2, [], (leafPassage entries key val mem).mem⟩ ∧
      (leafInsert links addr entries key val).2.1.map Prod.fst =
        (leafPassage entries key val mem).sep := by
  unfold leafPassage at h ⊢
  unfold leafInsertMem leafInsert
  by_cases hhit : leafHit entries (leafLower entries key) key
  · rw [if_pos hhit, decide_eq_true_iff] at h
    simp only [if_pos hhit, h]
    exact ⟨trivial, rfl⟩
  · have hne : ∀ hi' : below entries key < entries.length, entries[below entries key].1 ≠ key := by
      intro hi' heq
      rw [leafLower_eq hsorted] at hhit
      exact hhit (leafHit_iff.mpr ⟨hi', heq⟩)
    have hins := hsorted.insert_eq_of_ne val hne
    rw [← leafLower_eq hsorted] at hins
    simp only [if_neg hhit] at h ⊢
    generalize sdup key mem = copy at h ⊢
    obtain ⟨k, mem⟩ := copy
    simp only at h ⊢
    generalize sdup val mem = copy at h ⊢
    obtain ⟨v, mem⟩ := copy
    simp only at h ⊢
    by_cases hroom : entries.length < leafMax
    · simp only [if_pos hroom, Bool.and_eq_true, decide_eq_true_iff] at h ⊢
      rw [h.1, h.2]
      exact ⟨rfl, rfl⟩
    · simp only [if_neg hroom] at h ⊢
      generalize fkvMalloc mem = leaf at h ⊢
      obtain ⟨ok, mem⟩ := leaf
      cases ok with
      | false => cases h
      | true =>
        simp only [Bool.and_eq_true, decide_eq_true_iff] at h ⊢
        obtain ⟨⟨rfl, rfl⟩, hsep⟩ := h
        rw [hins] at hsep ⊢
        rw [hsep]
        exact ⟨rfl, rfl⟩

/-- The light flag of a passage is about the entries of the node. -/
theorem passage_light {key val s : Bytes} {mem : List Bool} : ∀ {n : Node},
    (passage key val mem n).sep = some s →
    (passage key val mem n).light = lightAt key s (contents n)
  | .leaf addr entries, h => by
    simp only [passage, leafPassage, contents] at h ⊢
    split at h
    · cases h
    · rename_i hhit
      rw [if_neg hhit]
      split at h
      · cases h
      · rename_i hroom
        simp only [if_neg hroom]
        split at h
        · cases h
        · rw [Option.some.injEq] at h
          rw [← h]
  | .intr keys children, h => by
    simp only [passage, intrPassage, contents] at h ⊢
    split at h
    · rename_i hnone
      rw [h] at hnone
      cases hnone
    · split at h
      · cases h
      · rename_i hroom
        simp only [if_neg hroom]
        split at h
        · cases h
        · rw [Option.some.injEq] at h
          rw [← h]

/-- What a spared insertion below a node returns. -/
structure Spared (d : ℕ) (lo hi : Option Bytes) (m : List (Bytes × Bytes)) (p : Passage)
    (r : Inserted Node) : Prop where
  /-- The entries with the new one, in order. -/
  spec : InsertSpec (Ordered d) lo hi m (r.node, r.split)
  /-- No entry is lost. -/
  lost : contentsList r.lost = []
  /-- The separator is the expected one. -/
  sep : r.split.map Prod.fst = p.sep
  /-- The expected outcomes are left. -/
  mem : r.mem = p.mem

/-- What is needed above is needed below. -/
theorem spared_of_intrPassage {keys : List Bytes} {ci : ℕ} {key : Bytes}
    {entries : List (Bytes × Bytes)} {below : Passage}
    (h : (intrPassage keys ci key entries below).spared = true) : below.spared = true := by
  unfold intrPassage at h
  split at h
  · exact h
  · split at h
    · exact h
    · split at h
      · rw [Bool.and_eq_true] at h
        exact h.1
      · exact h

/-- What a node does with the outcome below it. -/
theorem Spared.intr {d : ℕ} {lo hi : Option Bytes} {keys : List Bytes} {key val : Bytes}
    (f : Focus (Ordered d) lo hi keys key) (hlen : keys.length ≤ intrMax) {p : Passage}
    {r : Inserted Node} (h : Spared d f.clo f.chi (Lib.insert (contents f.child) key val) p r)
    (hlight : ∀ s, p.sep = some s → p.light = lightAt key s (contents f.child))
    {entries : List (Bytes × Bytes)}
    (hspared : (intrPassage keys f.left.length key entries p).spared = true) :
    Spared (d + 1) lo hi
      (Lib.insert (contents (.intr keys (f.left ++ f.child :: f.right))) key val)
      (intrPassage keys f.left.length key entries p)
      (intrInsertMem keys f.left.length (r.map fun c => f.left ++ c :: f.right)) := by
  rw [f.insert_contents]
  obtain ⟨node, split, links, lost, mem⟩ := r
  obtain ⟨hspec, hlost, hsep, rfl⟩ := h
  cases split with
  | none =>
    obtain ⟨hchild, hmap⟩ := hspec
    have hnone : p.sep = none := hsep.symm
    have hpassage : intrPassage keys f.left.length key entries p = p := by
      unfold intrPassage
      rw [hnone]
    rw [hpassage]
    constructor
    · constructor
      · exact ⟨hlen, f.replace _ hchild⟩
      · change contentsList (f.left ++ node :: f.right) = _
        rw [contentsList_append, contentsList, hmap]
    · exact hlost
    · exact hsep
    · rfl
  | some cut =>
    obtain ⟨s, new⟩ := cut
    have hsome : p.sep = some s := hsep.symm
    have hempty := (lightAt_iff hspec).mp
    obtain ⟨hl, hr, hs, hmap⟩ := hspec
    have hchain := f.replace_two _ s new hl hr hs
    rw [← f.index] at hchain
    have hidx : f.left.length ≤ keys.length := by
      rw [f.index]
      exact (List.takeWhile_prefix _).length_le
    have habsorb := intrAbsorb_spec hlen hidx hchain
    have hwhole : contentsList (f.left ++ node :: new :: f.right) = contentsList f.left ++
        (Lib.insert (contents f.child) key val ++ contentsList f.right) := by
      rw [contentsList_append, contentsList, contentsList, ← List.append_assoc (contents node),
        hmap]
    rw [hwhole] at habsorb
    unfold intrPassage at hspared ⊢
    simp only [intrInsertMem, Inserted.map, hsome] at hspared ⊢
    by_cases hroom : keys.length < intrMax
    · simp only [if_pos hroom]
      constructor
      · exact habsorb
      · exact hlost
      · simp only [intrAbsorb, if_pos hroom]
        rfl
      · rfl
    · simp only [if_neg hroom] at hspared ⊢
      generalize fkvMalloc p.mem = outcome at hspared ⊢
      obtain ⟨ok, mem⟩ := outcome
      cases ok with
      | true =>
        constructor
        · exact habsorb
        · exact hlost
        · simp only [intrAbsorb, if_neg hroom]
          rfl
        · rfl
      | false =>
        -- the right half is dropped, but there is nothing in it
        rw [Bool.and_eq_true, hlight s hsome] at hspared
        have hnew := hempty hspared.2
        rw [hnew, List.append_nil] at hmap
        constructor
        · constructor
          · exact ⟨hlen, f.replace _ (Ordered.widen hs.2 d _ _ hl)⟩
          · change contentsList (f.left ++ node :: f.right) = _
            rw [contentsList_append, contentsList, hmap]
        · change contents new ++ contentsList lost = []
          rw [hnew, hlost]
          rfl
        · rfl
        · rfl

/-- An insertion that nothing harms inserts into the entries of the node. -/
theorem nodeInsertMem_spared {key : Bytes} (val : Bytes) (mem : List Bool) (d : ℕ) :
    ∀ lo hi n links, Ordered d lo hi n → InRange lo hi key →
    (passage key val mem n).spared = true →
    Spared d lo hi (Lib.insert (contents n) key val) (passage key val mem n)
      (nodeInsertMem key val mem n links) := by
  induction d with
  | zero =>
    intro lo hi n links h hkey hspared
    cases n with
    | intr keys children => cases h
    | leaf addr entries =>
      obtain ⟨heq, hsep⟩ := leafInsertMem_of_spared links addr h.1 hspared
      have hspec := leafInsert_spec h hkey val links
      rw [nodeInsertMem, heq]
      constructor
      · exact hspec
      · rfl
      · exact hsep
      · rfl
  | succ d ih =>
    intro lo hi n links h hkey hspared
    cases n with
    | leaf addr entries => cases h
    | intr keys children =>
      obtain ⟨hlen, hchain⟩ := h
      obtain ⟨f, rfl, hci, -, -⟩ := hchain.search hkey
      rw [passage, hci, passageAt_append] at hspared ⊢
      have hbelow := ih _ _ _ links f.holds f.inRange (spared_of_intrPassage hspared)
      rw [nodeInsertMem, hci, childInsertMem_append]
      exact hbelow.intr f hlen (fun s => passage_light) hspared

end BTree

/-! ## Calls that nothing harms -/

/-- An insertion that nothing harms does to the tree what it does to the map, whatever it
reports. -/
theorem LeakyTree.Holds.insert {t : LeakyTree} {m : Bytes → Option Bytes} (h : t.Holds m)
    {key val : Bytes} {mem : List Bool} (hspared : btreeSpared t key val mem = true) :
    (btreeInsertMem t key val mem).2.Holds (Function.update m key (some val)) ∧
      (btreeInsertMem t key val mem).2.toMap = Lib.insert t.toMap key val := by
  obtain ⟨ls, hls⟩ := h.strung
  obtain ⟨front, back, -, hstrung⟩ := hls.insert h.wellFormed key val mem
  obtain ⟨d, hd⟩ := h.wellFormed
  have hbelow : (passage key val mem t.root).spared = true := by
    unfold btreeSpared at hspared
    simp only at hspared
    split at hspared
    · exact hspared
    · rw [Bool.and_eq_true] at hspared
      exact hspared.1
  have hroot := nodeInsertMem_spared val mem d none none t.root t.links hd (InRange.full key) hbelow
  have hwhole : (btreeInsertMem t key val mem).2.WellFormed ∧
      (btreeInsertMem t key val mem).2.toMap = Lib.insert t.toMap key val ∧
      contentsList (btreeInsertMem t key val mem).2.lost = [] := by
    unfold btreeInsertMem
    generalize nodeInsertMem key val mem t.root t.links = r at hroot
    obtain ⟨node, split, links, lost, mem'⟩ := r
    obtain ⟨hspec, hlost, hsep, rfl⟩ := hroot
    have hall : contentsList (lost ++ t.lost) = [] := by
      rw [contentsList_append, hlost, h.nothing_lost]
      rfl
    cases split with
    | none => exact ⟨⟨d, hspec.1⟩, hspec.2, hall⟩
    | some cut =>
      obtain ⟨s, new⟩ := cut
      have hsome : (passage key val mem t.root).sep = some s := hsep.symm
      have hempty := (lightAt_iff hspec).mp
      obtain ⟨hl, hr, hs, hmap⟩ := hspec
      unfold btreeSpared at hspared
      simp only [hsome, Bool.and_eq_true, Bool.or_eq_true, passage_light hsome] at hspared
      simp only
      generalize fkvMalloc (passage key val mem t.root).mem = outcome at hspared ⊢
      obtain ⟨ok, rest⟩ := outcome
      cases ok with
      | true =>
        refine ⟨⟨d + 1, by simp [intrMax, order], hl, hs, hr⟩, ?_, hall⟩
        rw [BTree.toMap, contents, contentsList, contentsList, contentsList, List.append_nil]
        exact hmap
      | false =>
        have hnew := hempty (hspared.2.resolve_left Bool.false_ne_true)
        rw [hnew, List.append_nil] at hmap
        refine ⟨⟨d, Ordered.widen hs.2 d _ _ hl⟩, hmap, ?_⟩
        change contents new ++ contentsList (lost ++ t.lost) = []
        rw [hnew, hall]
        rfl
  obtain ⟨hwf, hmap, hlost⟩ := hwhole
  refine ⟨⟨hwf, ⟨_, hstrung⟩, hlost, fun k => ?_⟩, hmap⟩
  rw [hmap, find_insert, h.find]
  by_cases hk : k = key
  · rw [if_pos hk, hk, Function.update_self]
  · rw [if_neg hk, Function.update_of_ne hk]

/-- A deletion does to the tree what it does to the map. -/
theorem LeakyTree.Holds.delete {t : LeakyTree} {m : Bytes → Option Bytes} (h : t.Holds m)
    (key : Bytes) : LeakyTree.Holds ⟨(btreeDelete t.toBTree key).2, t.lost⟩
      (Function.update m key none) := by
  obtain ⟨hwf, hmap⟩ := btreeDelete_spec h.wellFormed key
  obtain ⟨ls, hls⟩ := h.strung
  constructor
  · exact hwf
  · exact hls.delete h.wellFormed key
  · exact h.nothing_lost
  · intro k
    change Lib.find (btreeDelete t.toBTree key).2.toMap k = _
    rw [hmap, find_erase, h.find]
    by_cases hk : k = key
    · rw [if_pos hk, hk, Function.update_self]
    · rw [if_neg hk, Function.update_of_ne hk]

/-- After calls that nothing harms the tree is the map which the same calls build. -/
theorem runLeaky_holds {ops : List MemOp}
    (h : Permitted (fun t op => (op.run t).2) (fun t op => op.Spared t) ⟨btreeCreate, []⟩ ops) :
    (runLeaky ops).Holds (mapOf (ops.map MemOp.toOp)) := by
  have hrun : ∀ (ops : List MemOp) (t : LeakyTree) (m : Bytes → Option Bytes), t.Holds m →
      Permitted (fun t op => (op.run t).2) (fun t op => op.Spared t) t ops →
      (ops.foldl (fun t op => (op.run t).2) t).Holds
        ((ops.map MemOp.toOp).foldl BTreeOp.apply m) := by
    intro ops
    induction ops with
    | nil => exact fun t m h _ => h
    | cons op ops ih =>
      intro t m ht hops
      apply ih _ _ _ hops.2
      cases op with
      | insert key val mem => exact (ht.insert hops.1).1
      | delete key => exact ht.delete key
  apply hrun ops _ _ _ h
  constructor
  · exact btreeCreate_wellFormed.1
  · exact ⟨_, strung_btreeCreate⟩
  · rfl
  · intro key
    rw [btreeCreate_wellFormed.2]
    rfl

/-! ## What an insertion owes its callers -/

/-- Other keys are answered as before, by lookups and by scans, and the new key as before or with
the new value; with the new value if success is reported. -/
structure InsertServes (t : LeakyTree) (key val : Bytes) (r : Err × LeakyTree) : Prop where
  /-- Lookups of other keys. -/
  get_others : ∀ k, k ≠ key → btreeGet r.2.toBTree k = btreeGet t.toBTree k
  /-- Other keys in scans. -/
  scan_others : ∀ min max dir,
    erase (r.2.scanned min max dir) key = erase (t.scanned min max dir) key
  /-- A lookup of the key. -/
  get_key : btreeGet r.2.toBTree key = btreeGet t.toBTree key ∨ btreeGet r.2.toBTree key = .ok val
  /-- The key in scans. -/
  scan_key : ∀ min max dir,
    bindings (r.2.scanned min max dir) key = bindings (t.scanned min max dir) key ∨
      bindings (r.2.scanned min max dir) key = between min max [(key, val)]
  /-- A lookup after success. -/
  get_done : r.1 = .ok → btreeGet r.2.toBTree key = .ok val
  /-- A scan after success. -/
  scan_done : r.1 = .ok → ∀ min max dir,
    bindings (r.2.scanned min max dir) key = between min max [(key, val)]

/-- An insertion that nothing harms serves its callers, whatever it reports. -/
theorem LeakyTree.Holds.serves {t : LeakyTree} {m : Bytes → Option Bytes} (h : t.Holds m)
    {key val : Bytes} {mem : List Bool} (hspared : btreeSpared t key val mem = true) :
    InsertServes t key val (btreeInsertMem t key val mem) := by
  obtain ⟨hnew, hmap⟩ := h.insert hspared
  have hget : btreeGet (btreeInsertMem t key val mem).2.toBTree key = .ok val := by
    rw [hnew.get, Function.update_self]
    rfl
  have hscan : ∀ min max dir,
      bindings ((btreeInsertMem t key val mem).2.scanned min max dir) key =
        between min max [(key, val)] := by
    intro min max dir
    have hone : bindings (between min max (Lib.insert t.toMap key val)) key =
        between min max [(key, val)] := by
      rw [← h.wellFormed.sorted.bindings_insert key val]
      exact List.filter_comm ..
    rw [hnew.scan, hmap]
    cases dir with
    | forward => exact hone
    | backward =>
      change ((between min max (Lib.insert t.toMap key val)).reverse.filter _) = _
      rw [List.filter_reverse]
      change (bindings (between min max (Lib.insert t.toMap key val)) key).reverse = _
      rw [hone]
      exact (List.filter_reverse ..).symm
  have hothers : ∀ min max, erase (between min max (Lib.insert t.toMap key val)) key =
      erase (between min max t.toMap) key := by
    intro min max
    calc erase (between min max (Lib.insert t.toMap key val)) key
        = between min max (erase (Lib.insert t.toMap key val) key) := List.filter_comm ..
      _ = between min max (erase t.toMap key) := by rw [erase_insert]
      _ = erase (between min max t.toMap) key := List.filter_comm ..
  constructor
  · intro k hk
    rw [hnew.get, h.get, Function.update_of_ne hk]
  · intro min max dir
    rw [hnew.scan, h.scan, hmap]
    cases dir with
    | forward => exact hothers min max
    | backward =>
      unfold erase
      rw [List.filter_reverse, List.filter_reverse]
      exact congrArg List.reverse (hothers min max)
  · exact Or.inr hget
  · exact fun min max dir => Or.inr (hscan min max dir)
  · exact fun _ => hget
  · exact fun _ => hscan

end FastKV
