import FastKV.OrderedIndex

/-!
# The shape of the B+tree

What keeps a search short. All leaves are at one depth, no node is larger than its arrays,
and an internal node that was cut keeps at least half of its separators on both sides; only
the root may have fewer. A deletion touches a single leaf and never an internal node, so the
minimum fill survives it. The number of leaves is therefore exponential in the height.
-/

namespace FastKV.BTree

open Lib

/-- Separators that stay in the left part of a full internal node. -/
def intrMin : ℕ := intrMax / 2

/-- Every internal node below the top one has at least `intrMin` separators, the top one at
least `m`. -/
def Filled : ℕ → ℕ → Node → Prop
  | 0, _, .leaf _ _ => True
  | d + 1, m, .intr keys children => m ≤ keys.length ∧ ∀ c ∈ children, Filled d intrMin c
  | _, _, _ => False

/-! ## Insertion -/

/-- What an insertion returns is filled: a node that was not cut as before, both parts of a
cut one at least by half. -/
def FilledSplit (d m : ℕ) : Node × Split → Prop
  | (n, none) => Filled d m n
  | (n, some (_, r)) => Filled d intrMin n ∧ Filled d intrMin r

/-- Taking in the right half of a child keeps an internal node filled. -/
theorem intrAbsorb_filled {d m : ℕ} {keys : List Bytes} {sep : Bytes} {left right : List Node}
    {l r : Node} (hlen : keys.length ≤ intrMax) (hidx : left.length ≤ keys.length)
    (hm : m ≤ keys.length) (h : ∀ c ∈ left ++ l :: r :: right, Filled d intrMin c) :
    FilledSplit (d + 1) m (intrAbsorb keys (left ++ l :: right) left.length sep r) := by
  have htk := length_take_in keys sep hidx
  unfold intrAbsorb
  simp only [take_in]
  split
  · constructor
    · rw [htk]
      omega
    · exact h
  · rename_i hfull
    have heq : keys.length = intrMax := by omega
    -- the left part keeps the separators before the middle one, the right part those behind
    constructor
    · constructor
      · rw [List.length_take, htk, heq]
        decide
      · exact fun c hc => h c (List.mem_of_mem_take hc)
    · constructor
      · rw [List.length_take, List.length_drop, htk, heq]
        decide
      · exact fun c hc => h c (List.mem_of_mem_drop (List.mem_of_mem_take hc))

/-- `node_insert` keeps nodes filled. -/
theorem nodeInsert_filled {key : Bytes} (val : Bytes) (d : ℕ) : ∀ m lo hi n links,
    Ordered d lo hi n → InRange lo hi key → Filled d m n →
    FilledSplit d m ((nodeInsert key val n links).1, (nodeInsert key val n links).2.1) := by
  induction d with
  | zero =>
    intro m lo hi n links h _ _
    cases n with
    | intr keys children => cases h
    | leaf addr entries =>
      simp only [nodeInsert, leafInsert]
      split
      · trivial
      · split
        · trivial
        · exact ⟨trivial, trivial⟩
  | succ d ih =>
    intro m lo hi n links h hkey hfilled
    cases n with
    | leaf addr entries => cases h
    | intr keys children =>
      obtain ⟨hlen, hchain⟩ := h
      obtain ⟨hm, hchildren⟩ := hfilled
      obtain ⟨f, rfl, hci, -, hcs⟩ := hchain.search hkey
      have hchild : Filled d intrMin f.child := hchildren f.child (by simp)
      have hrec := ih intrMin _ _ _ links f.holds f.inRange hchild
      have hidx : f.left.length ≤ keys.length := by omega
      have hleft : ∀ c ∈ f.left, Filled d intrMin c := fun c hc => hchildren c (by simp [hc])
      have hright : ∀ c ∈ f.right, Filled d intrMin c := fun c hc => hchildren c (by simp [hc])
      simp only [nodeInsert, hci, childInsert_append]
      cases hsplit : (nodeInsert key val f.child links).2.1 with
      | none =>
        rw [hsplit] at hrec
        constructor
        · exact hm
        · intro c hc
          rcases List.mem_append.mp hc with hc | hc
          · exact hleft c hc
          · rcases List.mem_cons.mp hc with rfl | hc
            · exact hrec
            · exact hright c hc
      | some p =>
        obtain ⟨s, r⟩ := p
        rw [hsplit] at hrec
        apply intrAbsorb_filled hlen hidx hm
        intro c hc
        rcases List.mem_append.mp hc with hc | hc
        · exact hleft c hc
        · rcases List.mem_cons.mp hc with rfl | hc
          · exact hrec.1
          · rcases List.mem_cons.mp hc with rfl | hc
            · exact hrec.2
            · exact hright c hc

/-! ## Deletion -/

/-- Dropping an entry of a leaf does not touch an internal node. -/
theorem removeAt_filled (key : Bytes) (i d : ℕ) : ∀ m n, Filled d m n →
    Filled d m (removeAt key i n) := by
  induction d with
  | zero =>
    intro m n h
    cases n with
    | leaf addr entries => trivial
    | intr keys children => cases h
  | succ d ih =>
    intro m n h
    cases n with
    | leaf addr entries => cases h
    | intr keys children =>
      obtain ⟨hm, hchildren⟩ := h
      constructor
      · exact hm
      · generalize intrChildIdx keys key = j
        induction children generalizing j with
        | nil => simp [removeAtChild]
        | cons c cs ihcs =>
          have htail := ihcs fun c hc => hchildren c (List.mem_cons_of_mem _ hc)
          cases j with
          | zero =>
            intro b hb
            rcases List.mem_cons.mp hb with rfl | hb
            · exact ih _ _ (hchildren c List.mem_cons_self)
            · exact hchildren b (List.mem_cons_of_mem _ hb)
          | succ j =>
            intro b hb
            rcases List.mem_cons.mp hb with rfl | hb
            · exact hchildren _ List.mem_cons_self
            · exact htail j b hb

/-! ## Nodes below the root -/

/-- The second node is the given number of levels below the first. -/
inductive Below : ℕ → Node → Node → Prop
  | self (n : Node) : Below 0 n n
  | child {k : ℕ} {keys : List Bytes} {children : List Node} {c n : Node}
      (hc : c ∈ children) (h : Below k c n) : Below (k + 1) (.intr keys children) n

mutual

/-- All keys at or below a node: those of the entries and the separators. -/
def keysOf : Node → List Bytes
  | .leaf _ entries => entries.map Prod.fst
  | .intr keys children => keys ++ keysOfList children

/-- All keys below a list of nodes. -/
def keysOfList : List Node → List Bytes
  | [] => []
  | c :: cs => keysOf c ++ keysOfList cs

end

/-- The separator in front of the child with the given index. -/
def sepBefore (keys : List Bytes) : ℕ → Option Bytes
  | 0 => none
  | i + 1 => keys[i]?

/-- The child with a given index is responsible for the range between the separators around
it. -/
theorem Chain.child {P : Option Bytes → Option Bytes → Node → Prop} {lo hi : Option Bytes}
    {ks : List Bytes} {cs : List Node} {i : ℕ} {c : Node} (h : Chain P lo hi ks cs)
    (hc : cs[i]? = some c) :
    P ((sepBefore ks i).or (if i = 0 then lo else none)) (ks[i]?.or hi) c := by
  induction ks generalizing lo cs i with
  | nil =>
    match cs, h with
    | [b], h =>
      cases i with
      | zero =>
        obtain rfl : b = c := by simpa using hc
        exact h
      | succ i => simp at hc
  | cons s ks ih =>
    match cs, h with
    | b :: cs, ⟨hb, _, hrest⟩ =>
      cases i with
      | zero =>
        obtain rfl : b = c := by simpa using hc
        exact hb
      | succ i =>
        have hrec := ih hrest (by simpa using hc)
        cases i with
        | zero => exact hrec
        | succ i => simpa [sepBefore] using hrec

/-- A key between the separators around a child lies in the range of the whole node. -/
theorem Chain.key_inRange {P : Option Bytes → Option Bytes → Node → Prop} {lo hi : Option Bytes}
    {ks : List Bytes} {cs : List Node}
    (hP : ∀ lo hi n, P lo hi n → ∀ k ∈ keysOf n, InRange lo hi k)
    (h : Chain P lo hi ks cs) : ∀ k ∈ keysOfList cs, InRange lo hi k := by
  induction ks generalizing lo cs with
  | nil =>
    match cs, h with
    | [c], h => simpa [keysOfList] using hP lo hi c h
  | cons s ks ih =>
    match cs, h with
    | c :: cs, ⟨hc, hs, hrest⟩ =>
      intro k hk
      rcases List.mem_append.mp hk with hk | hk
      · obtain ⟨hlo, hhi⟩ := hP lo (some s) c hc k hk
        exact ⟨hlo, fun h hh => (hhi s rfl).trans (hs.2 h hh)⟩
      · obtain ⟨hlo, hhi⟩ := ih hrest k hk
        exact ⟨fun l hl => (hs.1 l hl).le.trans (hlo s rfl), hhi⟩

/-- All keys at or below an ordered node lie in its range. -/
theorem Ordered.key_inRange (d : ℕ) : ∀ lo hi n, Ordered d lo hi n →
    ∀ k ∈ keysOf n, InRange lo hi k := by
  induction d with
  | zero =>
    intro lo hi n h
    cases n with
    | intr keys children => cases h
    | leaf addr entries =>
      intro k hk
      obtain ⟨e, he, rfl⟩ := List.mem_map.mp hk
      exact h.2.1 e he
  | succ d ih =>
    intro lo hi n h
    cases n with
    | leaf addr entries => cases h
    | intr keys children =>
      intro k hk
      rcases List.mem_append.mp hk with hk | hk
      · have hsep := h.2.sepRange k hk
        exact ⟨fun l hl => (hsep.1 l hl).le, hsep.2⟩
      · exact Chain.key_inRange ih h.2 k hk

/-- Every node below an ordered and filled one is ordered and filled, at a height that
depends on its level only. -/
theorem Below.holds {k : ℕ} {top n : Node} (h : Below k top n) : ∀ {d m : ℕ}
    {lo hi : Option Bytes}, Ordered d lo hi top → Filled d m top →
    ∃ e lo' hi', d = k + e ∧ Ordered e lo' hi' n ∧ Filled e (if k = 0 then m else intrMin) n := by
  induction h with
  | self n =>
    intro d m lo hi hord hfill
    exact ⟨d, lo, hi, (Nat.zero_add d).symm, hord, hfill⟩
  | @child k keys children c n hc _ ih =>
    intro d m lo hi hord hfill
    cases d with
    | zero => cases hord
    | succ d =>
      obtain ⟨i, hi', hget⟩ := List.mem_iff_getElem.mp hc
      have hci : children[i]? = some c := by rw [List.getElem?_eq_getElem hi', hget]
      obtain ⟨e, lo', hi'', hd, hord', hfill'⟩ := ih (hord.2.child hci) (hfill.2 c hc)
      refine ⟨e, lo', hi'', by omega, hord', ?_⟩
      rw [if_neg (Nat.succ_ne_zero k)]
      rwa [ite_self] at hfill'

/-! ## Counting leaves -/

/-- A filled node has at least as many leaves as separators and minimum fill multiply to. -/
theorem Filled.leaves_le {d m : ℕ} {lo hi : Option Bytes} {n : Node} (hord : Ordered d lo hi n)
    (hfill : Filled d m n) (hd : 0 < d) :
    (m + 1) * (intrMin + 1) ^ (d - 1) ≤ (leaves n).length := by
  induction d generalizing m lo hi n with
  | zero => exact absurd hd (lt_irrefl 0)
  | succ d ih =>
    cases n with
    | leaf addr entries => cases hord
    | intr keys children =>
      obtain ⟨_, hchain⟩ := hord
      obtain ⟨hm, hchildren⟩ := hfill
      -- every child has at least the leaves of a node of its height with minimum fill
      have heach : ∀ c ∈ children, (intrMin + 1) ^ d ≤ (leaves c).length := by
        intro c hc
        obtain ⟨i, hi', hget⟩ := List.mem_iff_getElem.mp hc
        have hci : children[i]? = some c := by rw [List.getElem?_eq_getElem hi', hget]
        have hordc := hchain.child hci
        cases d with
        | zero =>
          cases c with
          | leaf addr entries => simp [leaves]
          | intr keys' children' => cases hordc
        | succ d =>
          have hrec := ih hordc (hchildren c hc) (Nat.succ_pos d)
          calc (intrMin + 1) ^ (d + 1) = (intrMin + 1) * (intrMin + 1) ^ d := by
                rw [pow_succ, mul_comm]
            _ ≤ (leaves c).length := hrec
      have hsum : ∀ cs : List Node, (∀ c ∈ cs, (intrMin + 1) ^ d ≤ (leaves c).length) →
          cs.length * (intrMin + 1) ^ d ≤ (leavesList cs).length := by
        intro cs
        induction cs with
        | nil => simp [leavesList]
        | cons c cs ihcs =>
          intro hcs
          have hhead := hcs c List.mem_cons_self
          have htail := ihcs fun b hb => hcs b (List.mem_cons_of_mem _ hb)
          rw [leavesList, List.length_append, List.length_cons, Nat.succ_mul]
          omega
      have hcount : m + 1 ≤ children.length := by
        rw [hchain.length_eq]
        omega
      calc (m + 1) * (intrMin + 1) ^ (d + 1 - 1) ≤ children.length * (intrMin + 1) ^ d :=
            Nat.mul_le_mul_right _ hcount
        _ ≤ (leaves (.intr keys children)).length := hsum children heach

end BTree

/-! ## The whole tree -/

open BTree

/-- The shape of a tree whose leaves are `d` levels below the root. -/
structure BTree.Shape (t : BTree) (d : ℕ) : Prop where
  /-- All leaves are at the same depth and fit their arrays. -/
  leaf : ∀ {k addr entries}, Below k t.root (.leaf addr entries) →
    k = d ∧ entries.length ≤ leafMax
  /-- An internal node has at most `intrMax` separators and one more child. -/
  intr : ∀ {k keys children}, Below k t.root (.intr keys children) →
    keys.length ≤ intrMax ∧ children.length = keys.length + 1
  /-- An internal node other than the root is filled at least by half. -/
  filled : ∀ {k keys children}, Below (k + 1) t.root (.intr keys children) →
    intrMin ≤ keys.length
  /-- The keys below a child lie between the separators around it. -/
  fenced : ∀ {k keys children i c}, Below k t.root (.intr keys children) →
    children[i]? = some c → ∀ key ∈ keysOf c, InRange (sepBefore keys i) keys[i]? key
  /-- The first leaf is known. -/
  leftmost : (addrs t.root).head? = some t.leftmost
  /-- Different leaves have different addresses. -/
  nodup : (addrs t.root).Nodup
  /-- Every leaf is linked to the leaves before and behind it. -/
  linked : Chained t.links (addrs t.root)
  /-- The number of leaves is exponential in the height. -/
  many : 0 < d → 2 * 16 ^ (d - 1) ≤ (leaves t.root).length

/-- The root is ordered, and filled with at least one separator in an internal root. -/
def BTree.Grown (t : BTree) (d : ℕ) : Prop := Ordered d none none t.root ∧ Filled d 1 t.root

/-- One call keeps the tree ordered and filled. -/
theorem BTree.Grown.run {t : BTree} {d : ℕ} (h : t.Grown d) (op : BTreeOp) :
    ∃ d, BTree.Grown (op.run t).2 d := by
  obtain ⟨hord, hfill⟩ := h
  cases op with
  | insert key val =>
    have hspec := nodeInsert_spec val d none none t.root t.links hord (InRange.full key)
    have hsplit := nodeInsert_filled val d 1 none none t.root t.links hord (InRange.full key) hfill
    simp only [BTreeOp.run, btreeInsert]
    generalize nodeInsert key val t.root t.links = res at hspec hsplit
    obtain ⟨root, split, links⟩ := res
    cases split with
    | none => exact ⟨d, hspec.1, hsplit⟩
    | some p =>
      -- the tree grows by one level, and the new root has one separator
      obtain ⟨hl, hr, hs, _⟩ := hspec
      refine ⟨d + 1, ⟨by simp [intrMax, order], hl, hs, hr⟩, by simp, ?_⟩
      intro c hc
      rcases List.mem_cons.mp hc with rfl | hc
      · exact hsplit.1
      · obtain rfl := List.mem_singleton.mp hc
        exact hsplit.2
  | delete key =>
    simp only [BTreeOp.run, btreeDelete]
    split
    · rename_i hhit
      have hspec := removeAt_spec d none none t.root hord (InRange.full key) hhit
      exact ⟨d, hspec.1, removeAt_filled _ _ _ _ _ hfill⟩
    · exact ⟨d, hord, hfill⟩

/-- Every sequence of calls keeps the tree ordered and filled. -/
theorem runBTree_grown (ops : List BTreeOp) : ∃ d, (runBTree ops).Grown d := by
  have hrun : ∀ (ops : List BTreeOp) (t : BTree), (∃ d, t.Grown d) →
      ∃ d, BTree.Grown (ops.foldl (fun t op => (op.run t).2) t) d := by
    intro ops
    induction ops with
    | nil => exact fun t h => h
    | cons op ops ih =>
      rintro t ⟨d, hd⟩
      exact ih _ (hd.run op)
  apply hrun
  exact ⟨0, ⟨List.Pairwise.nil, by simp, by simp⟩, trivial⟩

/-- Every tree that insertions and deletions build has the shape of a B+tree. -/
theorem btree_shape (ops : List BTreeOp) : ∃ d, (runBTree ops).Shape d := by
  obtain ⟨d, hord, hfill⟩ := runBTree_grown ops
  have hlinked := (runBTree_holds ops).linked
  refine ⟨d, ⟨?_, ?_, ?_, ?_, hlinked.leftmost, hlinked.nodup, hlinked.chained, ?_⟩⟩
  · intro k addr entries hbelow
    obtain ⟨e, lo, hi, hd, hleaf, _⟩ := hbelow.holds hord hfill
    cases e with
    | zero => exact ⟨by omega, hleaf.2.2⟩
    | succ e => cases hleaf
  · intro k keys children hbelow
    obtain ⟨e, lo, hi, _, hintr, _⟩ := hbelow.holds hord hfill
    cases e with
    | zero => cases hintr
    | succ e => exact ⟨hintr.1, hintr.2.length_eq⟩
  · intro k keys children hbelow
    obtain ⟨e, lo, hi, _, hintr, hfilled⟩ := hbelow.holds hord hfill
    cases e with
    | zero => cases hintr
    | succ e =>
      rw [if_neg (Nat.succ_ne_zero k)] at hfilled
      exact hfilled.1
  · intro k keys children i c hbelow hc key hkey
    obtain ⟨e, lo, hi, _, hintr, _⟩ := hbelow.holds hord hfill
    cases e with
    | zero => cases hintr
    | succ e =>
      obtain ⟨hlo, hhi⟩ := Ordered.key_inRange e _ _ _ (hintr.2.child hc) key hkey
      constructor
      · intro l hl
        apply hlo
        rw [Option.mem_def] at hl
        rw [hl]
        rfl
      · intro h hh
        apply hhi
        rw [Option.mem_def] at hh
        rw [hh]
        rfl
  · intro hd
    have hcount := hfill.leaves_le hord hd
    simpa [intrMin, intrMax, order] using hcount

end FastKV
