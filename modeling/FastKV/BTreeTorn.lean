import Mathlib.Data.List.Pairwise
import FastKV.BTreeSpared

/-!
# The damage of a failed insertion

A leaf is hidden when no lookup comes to it. A right half that is dropped is hidden, and so is
everything in front of a separator whose copy has failed: the null slice is below every key, so
a search always goes behind it. Further up a hidden leaf stays hidden. It still hangs in the list
of leaves, where keys are unique, so that a lookup of one of its keys fails.
-/

namespace FastKV

open Lib

namespace BTree

/-! ## Hidden leaves -/

/-- No lookup comes to the leaf. -/
def Hidden (y : ℕ × List (Bytes × Bytes)) (n : Node) : Prop := ∀ key, findLeaf key n ≠ y

/-- A descent goes on in the chosen child. -/
theorem descendAt_eq (choose : List Bytes → ℕ) (cs : List Node) (i : ℕ) :
    descendAt choose cs i = ((cs[i]?).map (descend choose)).getD (0, []) := by
  induction cs generalizing i with
  | nil => rfl
  | cons c cs ih =>
    cases i with
    | zero => rfl
    | succ i => exact ih i

mutual

/-- A descent ends in a leaf. -/
theorem descend_mem (choose : List Bytes → ℕ) : ∀ n : Node,
    (descend choose n).2 ≠ [] → descend choose n ∈ leaves n
  | .leaf _ _, _ => List.mem_singleton.mpr rfl
  | .intr keys children, h => descendAt_mem choose children (choose keys) h

/-- So does one that goes on in a child. -/
theorem descendAt_mem (choose : List Bytes → ℕ) : ∀ (cs : List Node) (i : ℕ),
    (descendAt choose cs i).2 ≠ [] → descendAt choose cs i ∈ leavesList cs
  | [], _, h => absurd rfl h
  | c :: _, 0, h => List.mem_append_left _ (descend_mem choose c h)
  | _ :: cs, i + 1, h => List.mem_append_right _ (descendAt_mem choose cs i h)

end

variable {y : ℕ × List (Bytes × Bytes)}

/-- A leaf that is not below a node is hidden there. -/
theorem hidden_of_not_mem (hy : y.2 ≠ []) {n : Node} (h : y ∉ leaves n) : Hidden y n := by
  intro key heq
  apply h
  rw [← heq] at hy ⊢
  exact descend_mem _ n hy

/-- It is enough that the children are safe that a search can choose. -/
theorem hidden_intr (hy : y.2 ≠ []) {keys : List Bytes} {children : List Node}
    (h : ∀ key c, children[intrChildIdx keys key]? = some c → Hidden y c) :
    Hidden y (.intr keys children) := by
  intro key heq
  have hfind : findLeaf key (.intr keys children) =
      ((children[intrChildIdx keys key]?).map (findLeaf key)).getD (0, []) :=
    descendAt_eq _ children _
  rw [hfind] at heq
  cases hc : children[intrChildIdx keys key]? with
  | none =>
    rw [hc] at heq
    exact hy (heq ▸ rfl)
  | some c =>
    rw [hc] at heq
    exact h key c hc key heq

/-- A leaf that is hidden below all children is hidden. -/
theorem hidden_of_children (hy : y.2 ≠ []) {keys : List Bytes} {children : List Node}
    (h : ∀ c ∈ children, Hidden y c) : Hidden y (.intr keys children) :=
  hidden_intr hy fun _ c hc => h c (List.mem_of_getElem? hc)

/-- A binary search does not stop in front of an element that it has to pass. -/
theorem lowerBound_ne {before : ℕ → Bool} {ci : ℕ} (hci : before ci = true) (fuel : ℕ) :
    ∀ lo hi, lo ≤ hi → hi ≠ ci → hi - lo ≤ fuel → lowerBound before fuel lo hi ≠ ci := by
  induction fuel with
  | zero =>
    intro lo hi hle hne hfuel
    rw [lowerBound]
    omega
  | succ fuel ih =>
    intro lo hi hle hne hfuel
    rw [lowerBound]
    split
    · simp only
      split
      · apply ih
        · omega
        · exact hne
        · omega
      · rename_i hbefore
        apply ih
        · omega
        · intro heq
          rw [heq] at hbefore
          exact hbefore hci
        · omega
    · omega

/-- Every search passes a separator that is the null slice. -/
theorem intrChildIdx_ne {keys : List Bytes} {ci : ℕ} (h : keys[ci]? = some []) (key : Bytes) :
    intrChildIdx keys key ≠ ci := by
  obtain ⟨hlt, -⟩ := List.getElem?_eq_some_iff.mp h
  apply lowerBound_ne
  · rw [decide_eq_true_iff, List.getD_eq_getElem?_getD, h, Option.getD_some, cmp_ne_gt]
    exact not_lt.mp (List.not_lt_nil key)
  · omega
  · omega
  · omega

/-- A leaf that is hidden below the other children is hidden, since no search comes to the child
in front of such a separator. -/
theorem hidden_unsep (hy : y.2 ≠ []) {keys : List Bytes} {children : List Node} (ci : ℕ)
    (hci : keys[ci]? = some [])
    (h : ∀ i c, i ≠ ci → children[i]? = some c → Hidden y c) : Hidden y (.intr keys children) :=
  hidden_intr hy fun key c hc => h _ c (intrChildIdx_ne hci key) hc

/-! ## How damage goes up -/

/-- All leaves that an insertion leaves behind. -/
def Inserted.all (r : Inserted Node) : List (ℕ × List (Bytes × Bytes)) :=
  r.kept ++ leavesList r.lost

/-- After a failure there is a leaf with entries that is hidden, or will be when the caller takes
in the split: either the left half will, behind which the search goes on, or, if the right half
finds no place, that one. -/
inductive Damaged (r : Inserted Node) : Prop
  | hidden (y : ℕ × List (Bytes × Bytes)) (hy : y ∈ r.all) (hentries : y.2 ≠ [])
      (hnode : Hidden y r.node) (hright : ∀ p ∈ r.split, Hidden y p.2)
  | unsep (right : Node) (y z : ℕ × List (Bytes × Bytes)) (hsplit : r.split = some ([], right))
      (hy : y ∈ leaves r.node) (hentries : y.2 ≠ []) (hout : y ∉ leaves right)
      (hz : z ∈ leaves right) (hentries' : z.2 ≠ []) (hout' : z ∉ leaves r.node)

/-- Nothing is forgotten on the way. -/
theorem mem_all_intr {r : Inserted Node} {keys : List Bytes} {left right : List Node}
    (hlen : keys.length ≤ intrMax) (hcs : left.length + right.length = keys.length)
    (hy : y ∈ r.all) :
    y ∈ (intrInsertMem keys left.length (r.map fun c => left ++ c :: right)).all := by
  have hkeeps : r.Keeps r.links r.all :=
    ⟨rfl, List.sublist_append_left _ _, List.Perm.refl _⟩
  have hcount : (left ++ r.node :: right).length = keys.length + 1 := by
    rw [List.length_append, List.length_cons]
    omega
  have hperm := (hkeeps.intr hlen hcount).perm
  apply hperm.mem_iff.mpr
  apply List.mem_append_right
  apply List.mem_append_left
  exact hy

/-- A list without the element at one position. -/
theorem mem_of_getElem?_ne {α : Type*} {left right : List α} {x c : α} {i : ℕ}
    (hi : i ≠ left.length) (h : (left ++ x :: right)[i]? = some c) : c ∈ left ++ right := by
  rcases Nat.lt_or_gt_of_ne hi with hlt | hgt
  · rw [List.getElem?_append_left hlt] at h
    exact List.mem_append_left _ (List.mem_of_getElem? h)
  · rw [List.getElem?_append_right hgt.le] at h
    obtain ⟨j, hj⟩ : ∃ j, i - left.length = j + 1 := ⟨i - left.length - 1, by omega⟩
    rw [hj, List.getElem?_cons_succ] at h
    exact List.mem_append_right _ (List.mem_of_getElem? h)

/-- What is hidden below all children is hidden in the node, or in both parts of it. -/
theorem hidden_absorb (hy : y.2 ≠ []) (keys : List Bytes) {left right : List Node} (sep : Bytes)
    {l r : Node} (h : ∀ c ∈ left ++ l :: r :: right, Hidden y c) :
    Hidden y (intrAbsorb keys (left ++ l :: right) left.length sep r).1 ∧
      ∀ p ∈ (intrAbsorb keys (left ++ l :: right) left.length sep r).2, Hidden y p.2 := by
  unfold intrAbsorb
  simp only [take_in]
  split
  · constructor
    · exact hidden_of_children hy h
    · intro p hp
      cases hp
  · constructor
    · exact hidden_of_children hy fun c hc => h c (List.mem_of_mem_take hc)
    · intro p hp
      obtain rfl := Option.some.inj hp
      exact hidden_of_children hy fun c hc =>
        h c (List.mem_of_mem_drop (List.mem_of_mem_take hc))

/-- The leaves below a list of nodes are those of its members. -/
theorem mem_leavesList {cs : List Node} : y ∈ leavesList cs ↔ ∃ c ∈ cs, y ∈ leaves c := by
  induction cs with
  | nil => simp [leavesList]
  | cons c cs ih => simp [leavesList, ih]

/-- The place of a separator that has been taken in. -/
theorem getElem?_take_in {keys : List Bytes} {ci : ℕ} {s : Bytes} (hci : ci ≤ keys.length) :
    (keys.take ci ++ s :: keys.drop ci)[ci]? = some s := by
  have htake : (keys.take ci).length = ci := List.length_take_of_le hci
  rw [List.getElem?_append_right htake.le, htake, Nat.sub_self]
  rfl

/-- Taking in a right half behind the null slice hides the left half, or passes the null slice
on between the two parts of the node. -/
theorem unsep_absorb {keys : List Bytes} {left right : List Node} {l r : Node}
    {y z : ℕ × List (Bytes × Bytes)} (hlen : keys.length ≤ intrMax)
    (hcs : left.length + right.length = keys.length) (hy : y ∈ leaves l) (hentries : y.2 ≠ [])
    (hout : ∀ b ∈ left ++ r :: right, y ∉ leaves b) (hz : z ∈ leaves r)
    (hout' : ∀ b ∈ left ++ [l], z ∉ leaves b) :
    (Hidden y (intrAbsorb keys (left ++ l :: right) left.length [] r).1 ∧
        ∀ p ∈ (intrAbsorb keys (left ++ l :: right) left.length [] r).2, Hidden y p.2) ∨
      ∃ right', (intrAbsorb keys (left ++ l :: right) left.length [] r).2 = some ([], right') ∧
        y ∈ leaves (intrAbsorb keys (left ++ l :: right) left.length [] r).1 ∧
        y ∉ leaves right' ∧ z ∈ leaves right' ∧
        z ∉ leaves (intrAbsorb keys (left ++ l :: right) left.length [] r).1 := by
  have hsep := getElem?_take_in (s := []) (show left.length ≤ keys.length by omega)
  -- the left half is only below its own child
  have hother : ∀ i c, i ≠ left.length → (left ++ l :: r :: right)[i]? = some c →
      Hidden y c := fun i c hi hc =>
    hidden_of_not_mem hentries (hout c (mem_of_getElem?_ne hi hc))
  unfold intrAbsorb
  simp only [take_in]
  split
  · refine Or.inl ⟨hidden_unsep hentries _ hsep hother, ?_⟩
    intro p hp
    cases hp
  · rename_i hfull
    have hdrop : ((left ++ l :: r :: right).drop (keys.length / 2 + 1)).take
        (intrMax - keys.length / 2 + 1) =
        (left ++ l :: r :: right).drop (keys.length / 2 + 1) := by
      apply List.take_of_length_le
      simp only [List.length_drop, List.length_append, List.length_cons]
      omega
    simp only [hdrop]
    rcases Nat.lt_trichotomy left.length (keys.length / 2) with hlt | heq | hgt
    · refine Or.inl ⟨?_, ?_⟩
      · apply hidden_unsep hentries left.length
        · rw [List.getElem?_take_of_lt hlt]
          exact hsep
        · intro i c hi hc
          have hbound : i < keys.length / 2 + 1 := by
            have hlt := (List.getElem?_eq_some_iff.mp hc).1
            rw [List.length_take] at hlt
            omega
          rw [List.getElem?_take_of_lt hbound] at hc
          exact hother i c hi hc
      · intro p hp
        obtain rfl := Option.some.inj hp
        apply hidden_of_children hentries
        intro c hc
        obtain ⟨i, hc⟩ := List.mem_iff_getElem?.mp hc
        rw [List.getElem?_drop] at hc
        exact hother _ c (by omega) hc
    · -- the null slice is the middle separator and goes up
      have htake : (left ++ l :: r :: right).take (left.length + 1) = left ++ [l] := by
        rw [List.append_cons, List.take_left' (by simp)]
      have hrest : (left ++ l :: r :: right).drop (left.length + 1) = r :: right := by
        rw [List.append_cons, List.drop_left' (by simp)]
      have hmedian : (keys.take left.length ++ [] :: keys.drop left.length).getD
          (keys.length / 2) [] = ([] : Bytes) := by
        rw [← heq, List.getD_eq_getElem?_getD, hsep, Option.getD_some]
      rw [hmedian]
      refine Or.inr ⟨_, rfl, ?_, ?_, ?_, ?_⟩
      · rw [leaves, ← heq, htake, mem_leavesList]
        exact ⟨l, by simp, hy⟩
      · rw [leaves, ← heq, hrest, mem_leavesList]
        rintro ⟨c, hc, hin⟩
        exact hout c (List.mem_append_right _ hc) hin
      · rw [leaves, ← heq, hrest, mem_leavesList]
        exact ⟨r, List.mem_cons_self, hz⟩
      · rw [leaves, ← heq, htake, mem_leavesList]
        rintro ⟨c, hc, hin⟩
        exact hout' c hc hin
    · refine Or.inl ⟨?_, ?_⟩
      · apply hidden_of_children hentries
        intro c hc
        obtain ⟨i, hc⟩ := List.mem_iff_getElem?.mp hc
        have hbound : i < keys.length / 2 + 1 := by
          have hlt := (List.getElem?_eq_some_iff.mp hc).1
          rw [List.length_take] at hlt
          omega
        rw [List.getElem?_take_of_lt hbound] at hc
        exact hother i c (by omega) hc
      · intro p hp
        obtain rfl := Option.some.inj hp
        apply hidden_unsep hentries (left.length - (keys.length / 2 + 1))
        · rw [List.getElem?_take_of_lt (by omega), List.getElem?_drop]
          have hsum : keys.length / 2 + 1 + (left.length - (keys.length / 2 + 1)) =
              left.length := by omega
          rw [hsum]
          exact hsep
        · intro i c hi hc
          rw [List.getElem?_drop] at hc
          exact hother _ c (by omega) hc

/-- A node takes in the right half of its child or drops it. -/
theorem intrInsertMem_some (keys : List Bytes) (ci : ℕ) (below : Inserted (List Node)) {sep : Bytes}
    {right : Node} (h : below.split = some (sep, right)) :
    ((intrInsertMem keys ci below).node = (intrAbsorb keys below.node ci sep right).1 ∧
        (intrInsertMem keys ci below).split = (intrAbsorb keys below.node ci sep right).2) ∨
      ((intrInsertMem keys ci below).node = .intr keys below.node ∧
        (intrInsertMem keys ci below).split = none) := by
  unfold intrInsertMem
  simp only [h]
  split
  · exact Or.inl ⟨rfl, rfl⟩
  · split
    · exact Or.inr ⟨rfl, rfl⟩
    · exact Or.inl ⟨rfl, rfl⟩

/-- A leaf that is hidden in the children and in the right half of one of them is hidden in the
node and in its right half. -/
theorem hidden_above {r : Inserted Node} {y : ℕ × List (Bytes × Bytes)} (hentries : y.2 ≠ [])
    (keys : List Bytes) {left right : List Node}
    (hall : ∀ b ∈ left ++ r.node :: right, Hidden y b) (hsplit : ∀ p ∈ r.split, Hidden y p.2) :
    Hidden y (intrInsertMem keys left.length (r.map fun c => left ++ c :: right)).node ∧
      ∀ p ∈ (intrInsertMem keys left.length (r.map fun c => left ++ c :: right)).split,
        Hidden y p.2 := by
  cases hcut : r.split with
  | none =>
    have hsame : intrInsertMem keys left.length (r.map fun c => left ++ c :: right) =
        r.map fun c => .intr keys (left ++ c :: right) := by
      unfold intrInsertMem
      rw [show (r.map fun c => left ++ c :: right).split = none from hcut]
      rfl
    rw [hsame]
    refine ⟨hidden_of_children hentries hall, fun p hp => ?_⟩
    rw [show (r.map fun c => Node.intr keys (left ++ c :: right)).split = none from hcut] at hp
    cases hp
  | some cut =>
    obtain ⟨sep, new⟩ := cut
    rcases intrInsertMem_some keys left.length
      (r.map fun c => left ++ c :: right) hcut with ⟨hnode', hsplit'⟩ | hdropped
    · have hwhole : ∀ b ∈ left ++ r.node :: new :: right, Hidden y b := by
        intro b hb
        rw [List.append_cons] at hb
        rcases List.mem_append.mp hb with hb | hb
        · exact hall b (List.append_cons left r.node right ▸ List.mem_append_left _ hb)
        · rcases List.mem_cons.mp hb with rfl | hb
          · exact hsplit _ hcut
          · exact hall b (List.append_cons left r.node right ▸ List.mem_append_right _ hb)
      rw [hnode', hsplit']
      exact hidden_absorb hentries keys sep hwhole
    · rw [hdropped.1, hdropped.2]
      refine ⟨hidden_of_children hentries hall, fun p hp => ?_⟩
      cases hp

/-- Damage below a child is damage below the node. -/
theorem Damaged.intr {r : Inserted Node} (h : Damaged r) {keys : List Bytes}
    {left right : List Node} (hlen : keys.length ≤ intrMax)
    (hcs : left.length + right.length = keys.length)
    (hout : ∀ y ∈ r.all, ∀ b ∈ left ++ right, y ∉ leaves b) :
    Damaged (intrInsertMem keys left.length (r.map fun c => left ++ c :: right)) := by
  -- a leaf that is hidden in what is returned is enough
  have hfound : ∀ y ∈ r.all, y.2 ≠ [] →
      Hidden y (intrInsertMem keys left.length (r.map fun c => left ++ c :: right)).node →
      (∀ p ∈ (intrInsertMem keys left.length (r.map fun c => left ++ c :: right)).split,
        Hidden y p.2) →
      Damaged (intrInsertMem keys left.length (r.map fun c => left ++ c :: right)) :=
    fun y hy => Damaged.hidden y (mem_all_intr hlen hcs hy)
  -- one that is hidden below the child is hidden below all children
  have hchildren : ∀ y ∈ r.all, y.2 ≠ [] → Hidden y r.node →
      ∀ b ∈ left ++ r.node :: right, Hidden y b := by
    intro y hy hentries hnode b hb
    rcases List.mem_append.mp hb with hb | hb
    · exact hidden_of_not_mem hentries (hout y hy b (List.mem_append_left _ hb))
    · rcases List.mem_cons.mp hb with rfl | hb
      · exact hnode
      · exact hidden_of_not_mem hentries (hout y hy b (List.mem_append_right _ hb))
  cases h with
  | hidden y hy hentries hnode hright =>
    obtain ⟨hup, hsplit⟩ := hidden_above hentries keys (hchildren y hy hentries hnode) hright
    exact hfound y hy hentries hup hsplit
  | unsep new y z hsplit hy hentries hnew hz hentries' hnode =>
    have hkept : r.kept = leaves r.node ++ leaves new := by
      unfold Inserted.kept
      rw [hsplit]
      rfl
    have hyall : y ∈ r.all := by
      rw [Inserted.all, hkept]
      simp [hy]
    have hzall : z ∈ r.all := by
      rw [Inserted.all, hkept]
      simp [hz]
    rcases intrInsertMem_some keys left.length
      (r.map fun c => left ++ c :: right) hsplit with ⟨hnode', hsplit'⟩ | hdropped
    · have hbehind : ∀ b ∈ left ++ new :: right, y ∉ leaves b := by
        intro b hb
        rcases List.mem_append.mp hb with hb | hb
        · exact hout y hyall b (List.mem_append_left _ hb)
        · rcases List.mem_cons.mp hb with rfl | hb
          · exact hnew
          · exact hout y hyall b (List.mem_append_right _ hb)
      have hfront : ∀ b ∈ left ++ [r.node], z ∉ leaves b := by
        intro b hb
        rcases List.mem_append.mp hb with hb | hb
        · exact hout z hzall b (List.mem_append_left _ hb)
        · obtain rfl := List.mem_singleton.mp hb
          exact hnode
      rcases unsep_absorb hlen hcs hy hentries hbehind hz hfront with
        hidden | ⟨right', hup, hy', hyout, hz', hzout⟩
      · apply hfound y hyall hentries
        · rw [hnode']
          exact hidden.1
        · rw [hsplit']
          exact hidden.2
      · apply Damaged.unsep right' y z (hsplit'.trans hup)
        · rw [hnode']
          exact hy'
        · exact hentries
        · exact hyout
        · exact hz'
        · exact hentries'
        · rw [hnode']
          exact hzout
    · apply hfound z hzall hentries'
      · rw [hdropped.1]
        exact hidden_of_children hentries'
          (hchildren z hzall hentries' (hidden_of_not_mem hentries' hnode))
      · rw [hdropped.2]
        intro p hp
        cases hp

/-- A node with entries has a leaf with entries. -/
theorem exists_leaf {n : Node} (h : contents n ≠ []) : ∃ y ∈ leaves n, y.2 ≠ [] := by
  rw [contents_eq_leaves, ne_eq, List.flatMap_eq_nil_iff] at h
  by_contra hnone
  exact h fun y hy => by_contra fun hne => hnone ⟨y, hy, hne⟩

/-- A right half with entries that finds no place. -/
theorem Damaged.of_dropped {r : Inserted Node} {sep : Bytes} {new : Node}
    (hsplit : r.split = some (sep, new)) (hnew : contents new ≠ []) (hnodup : r.all.Nodup)
    {keys : List Bytes} {left right : List Node} (hlen : keys.length ≤ intrMax)
    (hcs : left.length + right.length = keys.length)
    (hout : ∀ y ∈ r.all, ∀ b ∈ left ++ right, y ∉ leaves b)
    (hdropped : (intrInsertMem keys left.length (r.map fun c => left ++ c :: right)).node =
        .intr keys (left ++ r.node :: right) ∧
      (intrInsertMem keys left.length (r.map fun c => left ++ c :: right)).split = none) :
    Damaged (intrInsertMem keys left.length (r.map fun c => left ++ c :: right)) := by
  obtain ⟨y, hy, hentries⟩ := exists_leaf hnew
  have hall : r.all = leaves r.node ++ leaves new ++ leavesList r.lost := by
    unfold Inserted.all Inserted.kept
    rw [hsplit]
    rfl
  have hyall : y ∈ r.all := by
    rw [hall]
    simp [hy]
  have hnode : y ∉ leaves r.node := by
    rw [hall, List.append_assoc, List.nodup_append] at hnodup
    exact fun hin => hnodup.2.2 y hin y (List.mem_append_left _ hy) rfl
  refine Damaged.hidden y (mem_all_intr hlen hcs hyall) hentries ?_ ?_
  · rw [hdropped.1]
    apply hidden_of_not_mem hentries
    rw [leaves, mem_leavesList]
    rintro ⟨b, hb, hin⟩
    rcases List.mem_append.mp hb with hb | hb
    · exact hout y hyall b (List.mem_append_left _ hb) hin
    · rcases List.mem_cons.mp hb with rfl | hb
      · exact hnode hin
      · exact hout y hyall b (List.mem_append_right _ hb) hin
  · rw [hdropped.2]
    intro p hp
    cases hp

/-! ## Addresses -/

/-- The leaves below a node have different addresses, which the next one exceeds. -/
structure Fresh (links : List Link) (n : Node) : Prop where
  /-- They are different. -/
  nodup : (addrs n).Nodup
  /-- They are in use. -/
  lt_length : ∀ a ∈ addrs n, a < links.length

/-- So have the leaves below a child. -/
theorem Fresh.child {links : List Link} {keys : List Bytes} {left right : List Node} {c : Node}
    (h : Fresh links (.intr keys (left ++ c :: right))) : Fresh links c := by
  have haddrs : addrs (.intr keys (left ++ c :: right)) =
      addrsList left ++ (addrs c ++ addrsList right) := by simp
  obtain ⟨hnodup, hlt⟩ := h
  rw [haddrs] at hnodup hlt
  constructor
  · exact ((List.nodup_append.mp hnodup).2.1 |> List.nodup_append.mp).1
  · intro a ha
    apply hlt
    simp [ha]

/-- The other children do not have the leaves of a child or a new one. -/
theorem Fresh.others {links : List Link} {keys : List Bytes} {left right : List Node} {c : Node}
    (h : Fresh links (.intr keys (left ++ c :: right))) (hy : y.1 ∈ addrs c ∨ y.1 = links.length) :
    ∀ b ∈ left ++ right, y ∉ leaves b := by
  have haddrs : addrs (.intr keys (left ++ c :: right)) =
      addrsList left ++ (addrs c ++ addrsList right) := by simp
  obtain ⟨hnodup, hlt⟩ := h
  rw [haddrs] at hnodup hlt
  intro b hb hin
  have hmem : y.1 ∈ addrsList left ∨ y.1 ∈ addrsList right := by
    rcases List.mem_append.mp hb with hb | hb
    · exact Or.inl (List.mem_map_of_mem (mem_leavesList.mpr ⟨b, hb, hin⟩))
    · exact Or.inr (List.mem_map_of_mem (mem_leavesList.mpr ⟨b, hb, hin⟩))
  rcases hy with hy | hy
  · rw [List.nodup_append, List.nodup_append] at hnodup
    rcases hmem with hl | hr
    · exact hnodup.2.2 _ hl _ (List.mem_append_left _ hy) rfl
    · exact hnodup.2.1.2.2 _ hy _ hr rfl
  · have hused : y.1 < links.length := by
      apply hlt
      rcases hmem with hl | hr
      · exact List.mem_append_left _ hl
      · exact List.mem_append_right _ (List.mem_append_right _ hr)
    omega

/-- What an insertion leaves behind has the old addresses and perhaps a new one. -/
theorem nodeInsertMem_addrs {key : Bytes} (val : Bytes) (mem : List Bool) {d : ℕ}
    {lo hi : Option Bytes} {n : Node} {links : List Link} (h : Ordered d lo hi n)
    (hkey : InRange lo hi key) (hfresh : Fresh links n) :
    (nodeInsertMem key val mem n links).all.Nodup ∧
      ∀ y ∈ (nodeInsertMem key val mem n links).all, y.1 ∈ addrs n ∨ y.1 = links.length := by
  obtain ⟨left, right, hleaves, hkeeps⟩ := nodeInsertMem_keeps val mem d lo hi n links h hkey
  have hperm : (nodeInsertMem key val mem n links).all.Perm
      (left ++ ((leafOutcome key val mem n links).kept ++ right)) := hkeeps.perm
  obtain ⟨hnodup, hlt⟩ := hfresh
  have haddrs : addrs n = left.map Prod.fst ++ (findLeaf key n).1 :: right.map Prod.fst := by
    rw [addrs, hleaves, List.map_append, List.map_cons]
  rw [haddrs] at hnodup hlt ⊢
  have hshape : ((left ++ ((leafOutcome key val mem n links).kept ++ right)).map Prod.fst).Nodup ∧
      ∀ a ∈ (left ++ ((leafOutcome key val mem n links).kept ++ right)).map Prod.fst,
        a ∈ left.map Prod.fst ++ (findLeaf key n).1 :: right.map Prod.fst ∨
          a = links.length := by
    rcases leafOutcome_cases key val mem n links with ⟨-, es, hg⟩ | ⟨-, es, es', hg⟩
    · rw [hg, List.map_append, List.map_append, List.map_singleton, List.singleton_append]
      exact ⟨hnodup, fun a ha => Or.inl ha⟩
    · have hnew : (left ++ ((leafOutcome key val mem n links).kept ++ right)).map Prod.fst =
          (left.map Prod.fst ++ [(findLeaf key n).1]) ++ links.length :: right.map Prod.fst := by
        rw [hg]
        simp
      have hperm' : ((left.map Prod.fst ++ [(findLeaf key n).1]) ++
          links.length :: right.map Prod.fst).Perm
          (links.length :: (left.map Prod.fst ++ (findLeaf key n).1 :: right.map Prod.fst)) := by
        rw [List.append_cons _ (findLeaf key n).1 (right.map Prod.fst)]
        exact List.perm_middle
      rw [hnew]
      constructor
      · refine hperm'.nodup_iff.mpr (List.nodup_cons.mpr ⟨fun hmem => ?_, hnodup⟩)
        exact absurd (hlt _ hmem) (lt_irrefl _)
      · intro a ha
        rcases List.mem_cons.mp (hperm'.mem_iff.mp ha) with rfl | ha
        · exact Or.inr rfl
        · exact Or.inl ha
  constructor
  · exact hperm.nodup_iff.mpr (List.Nodup.of_map Prod.fst hshape.1)
  · exact fun y hy => hshape.2 y.1 (List.mem_map_of_mem (hperm.mem_iff.mp hy))

/-- A failure above the leaf that is needed does damage. -/
theorem nodeInsertMem_damaged {key : Bytes} (val : Bytes) (mem : List Bool) (d : ℕ) :
    ∀ lo hi n links, Ordered d lo hi n → InRange lo hi key → Fresh links n →
    ((leafPassage (findLeaf key n).2 key val mem).spared = true ∨
      Damaged (leafOutcome key val mem n links)) →
    (passage key val mem n).spared = false → Damaged (nodeInsertMem key val mem n links) := by
  induction d with
  | zero =>
    intro lo hi n links h _ _ hleaf hfail
    cases n with
    | intr keys children => cases h
    | leaf addr entries =>
      rcases hleaf with hleaf | hleaf
      · exact absurd (hleaf.symm.trans hfail) Bool.true_eq_false_eq_False
      · exact hleaf
  | succ d ih =>
    intro lo hi n links h hkey hfresh hleaf hfail
    cases n with
    | leaf addr entries => cases h
    | intr keys children =>
      obtain ⟨hlen, hchain⟩ := h
      obtain ⟨f, rfl, hci, hfind, hcs⟩ := hchain.search hkey
      obtain ⟨hnodup, haddrs⟩ := nodeInsertMem_addrs val mem f.holds f.inRange hfresh.child
      have hout : ∀ y ∈ (nodeInsertMem key val mem f.child links).all, ∀ b ∈ f.left ++ f.right,
          y ∉ leaves b := fun y hy => hfresh.others (haddrs y hy)
      rw [passage, hci, passageAt_append] at hfail
      rw [nodeInsertMem, hci, childInsertMem_append]
      cases hbelow : (passage key val mem f.child).spared with
      | false =>
        unfold leafOutcome at hleaf
        rw [hfind] at hleaf
        exact (ih _ _ _ links f.holds f.inRange hfresh.child hleaf hbelow).intr hlen hcs hout
      | true =>
        -- everything was right below, so that a right half with entries has been dropped
        obtain ⟨hspec, -, hsep, hmem⟩ :=
          nodeInsertMem_spared val mem d _ _ _ links f.holds f.inRange hbelow
        unfold intrPassage at hfail
        cases hsplit : (nodeInsertMem key val mem f.child links).split with
        | none =>
          rw [hsplit] at hsep
          rw [← hsep] at hfail
          exact absurd (hbelow.symm.trans hfail) Bool.true_eq_false_eq_False
        | some cut =>
          obtain ⟨s, new⟩ := cut
          rw [hsplit] at hsep hspec
          have hsome : (passage key val mem f.child).sep = some s := hsep.symm
          simp only [hsome] at hfail
          split at hfail
          · exact absurd (hbelow.symm.trans hfail) Bool.true_eq_false_eq_False
          · rename_i hroom
            split at hfail
            · rename_i rest hmalloc
              rw [hbelow, Bool.true_and, passage_light hsome] at hfail
              have hnew : contents new ≠ [] := by
                intro hnil
                rw [(lightAt_iff hspec).mpr hnil] at hfail
                cases hfail
              apply Damaged.of_dropped hsplit hnew hnodup hlen hcs hout
              have hmalloc' : fkvMalloc (nodeInsertMem key val mem f.child links).mem =
                  (false, rest) := by
                rw [hmem]
                exact hmalloc
              unfold intrInsertMem
              simp only [Inserted.map, hsplit, if_neg hroom, hmalloc']
              exact ⟨trivial, trivial⟩
            · exact absurd (hbelow.symm.trans hfail) Bool.true_eq_false_eq_False

/-! ## The leaf -/

/-- The entries that a leaf hands on are what the callers of an insertion may see. -/
structure LeafServes (entries : List (Bytes × Bytes)) (key val : Bytes) (g : Inserted Node) :
    Prop where
  /-- Other keys are as before. -/
  others : erase (g.kept.flatMap Prod.snd) key = erase entries key
  /-- The key is as before or has the new value. -/
  inserted : bindings (g.kept.flatMap Prod.snd) key = bindings entries key ∨
    bindings (g.kept.flatMap Prod.snd) key = [(key, val)]
  /-- Where nothing goes up, success will be reported. -/
  done : g.split = none → bindings (g.kept.flatMap Prod.snd) key = [(key, val)]

/-- The leaf has done its work, but for the copy of the separator. -/
structure LeafDone (entries : List (Bytes × Bytes)) (key val : Bytes) (mem : List Bool)
    (g : Inserted Node) : Prop where
  /-- The entry is there. -/
  entries_eq : g.kept.flatMap Prod.snd = Lib.insert entries key val
  /-- Nothing is needed from above. -/
  whole : g.split = none → (leafPassage entries key val mem).sep = none ∧
    (leafPassage entries key val mem).spared = true
  /-- Both halves have entries, and the separator is right or the leaf is damaged. -/
  cut : g.split ≠ none → (∀ y ∈ g.kept, 2 ≤ y.2.length) ∧
    ((leafPassage entries key val mem).spared = true ∨ Damaged g)

/-- A copy is right or the null slice. -/
theorem sdup_cases (s : Bytes) (mem : List Bool) : (sdup s mem).1 = s ∨ (sdup s mem).1 = [] := by
  unfold sdup fkvMalloc
  split
  · exact Or.inr rfl
  · simp only
    split
    · exact Or.inl rfl
    · exact Or.inr rfl

/-- An entry that callers may see is the new one. -/
theorem copy_of_serves {left right : List (Bytes × Bytes)} {key : Bytes} (k v val : Bytes)
    (hmiss : ∀ e ∈ left ++ right, e.1 ≠ key)
    (hothers : erase (left ++ (k, v) :: right) key = erase (left ++ right) key)
    (hkey : bindings (left ++ (k, v) :: right) key = bindings (left ++ right) key ∨
      bindings (left ++ (k, v) :: right) key = [(key, val)]) : k = key ∧ v = val := by
  have hk : k = key := by
    by_contra hne
    have hlen := congrArg List.length hothers
    rw [erase_append, erase_append, erase, erase, List.filter_cons_of_pos (by simp [hne]),
      List.length_append, List.length_append, List.length_cons] at hlen
    unfold erase at hlen
    omega
  have hin : (key, v) ∈ bindings (left ++ (k, v) :: right) key := by
    rw [bindings, List.mem_filter, hk]
    simp
  rcases hkey with hold | hnew
  · rw [hold, bindings_eq_nil hmiss] at hin
    cases hin
  · rw [hnew, List.mem_singleton, Prod.mk.injEq] at hin
    exact ⟨hk, hin.2⟩

/-- A leaf that is cut without a copy of the separator is damaged. -/
theorem damaged_cut {addr new : ℕ} (hne : addr ≠ new) {left right : List (Bytes × Bytes)}
    (hleft : left ≠ []) (hright : right ≠ []) (links : List Link) (lost : List Node)
    (mem : List Bool) :
    Damaged ⟨.leaf addr left, some ([], .leaf new right), links, lost, mem⟩ := by
  apply Damaged.unsep (.leaf new right) (addr, left) (new, right) rfl
  · exact List.mem_singleton.mpr rfl
  · exact hleft
  · rw [leaves, List.mem_singleton, Prod.mk.injEq]
    exact fun h => hne h.1
  · exact List.mem_singleton.mpr rfl
  · exact hright
  · rw [leaves, List.mem_singleton, Prod.mk.injEq]
    exact fun h => hne h.1.symm

/-- A leaf that has the key and whose callers see nothing wrong has done its work. -/
theorem leafInsertMem_done_of_hit {links : List Link} {addr : ℕ}
    {entries : List (Bytes × Bytes)} {key val : Bytes} {mem : List Bool}
    (hsorted : SortedKeys entries) (hhit : leafHit entries (leafLower entries key) key)
    (h : LeafServes entries key val (leafInsertMem links addr entries key val mem)) :
    LeafDone entries key val mem (leafInsertMem links addr entries key val mem) := by
  have hins : entries.modify (leafLower entries key) (fun e => (e.1, val)) =
      Lib.insert entries key val := by
    obtain ⟨hi, heq⟩ := leafHit_iff.mp hhit
    rw [modify_value_eq hi heq]
    simp only [leafLower_eq hsorted] at hi heq ⊢
    exact (hsorted.insert_eq_of_eq val hi heq).symm
  have hdone := h.done
  unfold leafInsertMem at hdone ⊢
  simp only [if_pos hhit] at hdone ⊢
  generalize hcopy : sdup val mem = copy at hdone ⊢
  obtain ⟨v, rest⟩ := copy
  have hbound : bindings (entries.modify (leafLower entries key) fun e => (e.1, v)) key =
      [(key, val)] := by simpa [Inserted.kept, splitLeaves, leaves] using hdone trivial
  have hv : v = val := by
    obtain ⟨hi, heq⟩ := leafHit_iff.mp hhit
    rw [modify_value_eq hi heq] at hbound
    have hin : (key, v) ∈ bindings (entries.take (leafLower entries key) ++
        (key, v) :: entries.drop (leafLower entries key + 1)) key := by
      rw [bindings, List.mem_filter]
      simp
    rw [hbound, List.mem_singleton, Prod.mk.injEq] at hin
    exact hin.2
  constructor
  · rw [← hins, ← hv]
    simp [Inserted.kept, splitLeaves, leaves]
  · intro _
    unfold leafPassage
    rw [if_pos hhit, hcopy, hv]
    exact ⟨rfl, decide_eq_true rfl⟩
  · intro hne
    exact absurd rfl hne

/-- So has a leaf without the key. -/
theorem leafInsertMem_done_of_miss {links : List Link} {addr : ℕ}
    {entries : List (Bytes × Bytes)} {key val : Bytes} {mem : List Bool}
    (hsorted : SortedKeys entries) (hlen : entries.length ≤ leafMax) (haddr : addr < links.length)
    (hhit : ¬ leafHit entries (leafLower entries key) key)
    (h : LeafServes entries key val (leafInsertMem links addr entries key val mem)) :
    LeafDone entries key val mem (leafInsertMem links addr entries key val mem) := by
  have hmiss : ∀ e ∈ entries, e.1 ≠ key := by
    have hnone : Lib.find entries key = none := by rw [find_eq_leafHit hsorted, if_neg hhit]
    simpa [Lib.find] using hnone
  have hins := fun v => hsorted.insert_eq_of_ne v fun hi' heq => by
    rw [leafLower_eq hsorted] at hhit
    exact hhit (leafHit_iff.mpr ⟨hi', heq⟩)
  rw [← leafLower_eq hsorted] at hins
  have hparts : entries.take (leafLower entries key) ++ entries.drop (leafLower entries key) =
      entries := List.take_append_drop _ _
  have hmiss' := hmiss
  rw [← hparts] at hmiss'
  obtain ⟨hothers, hinserted, hdone⟩ := h
  unfold leafInsertMem at hothers hinserted hdone ⊢
  simp only [if_neg hhit] at hothers hinserted hdone ⊢
  generalize hk : sdup key mem = copy at hothers hinserted hdone ⊢
  obtain ⟨k, mem1⟩ := copy
  simp only at hothers hinserted hdone ⊢
  generalize hv : sdup val mem1 = copy at hothers hinserted hdone ⊢
  obtain ⟨v, mem2⟩ := copy
  simp only at hothers hinserted hdone ⊢
  have hcopies := copy_of_serves k v val hmiss'
  rw [hparts] at hcopies
  by_cases hroom : entries.length < leafMax
  · simp only [if_pos hroom, Inserted.kept, splitLeaves, leaves, List.flatMap_cons,
      List.flatMap_nil, List.append_nil] at hothers hinserted hdone ⊢
    obtain ⟨rfl, rfl⟩ := hcopies hothers hinserted
    constructor
    · rw [hins]
      simp [Inserted.kept, splitLeaves, leaves]
    · intro _
      unfold leafPassage
      simp [if_neg hhit, hk, hv, hroom]
    · intro hne
      exact absurd rfl hne
  · simp only [if_neg hroom] at hothers hinserted hdone ⊢
    generalize hm : fkvMalloc mem2 = leaf at hothers hinserted hdone ⊢
    obtain ⟨ok, mem3⟩ := leaf
    cases ok with
    | false =>
      have hnone := hdone rfl
      simp only [Inserted.kept, splitLeaves, leaves, List.flatMap_cons, List.flatMap_nil,
        List.append_nil, bindings_eq_nil hmiss] at hnone
      cases hnone
    | true =>
      have hhalves : ∀ t : List (Bytes × Bytes), ∀ a b : ℕ,
          [(a, t.take (t.length / 2)), (b, t.drop (t.length / 2))].flatMap Prod.snd = t := by
        intro t a b
        simp
      simp only [Inserted.kept, splitLeaves, leaves, List.singleton_append,
        hhalves] at hothers hinserted
      obtain ⟨rfl, rfl⟩ := hcopies hothers hinserted
      have htotal : (Lib.insert entries k v).length = leafMax + 1 := by
        rw [hins, List.length_append, List.length_cons, List.length_take, List.length_drop]
        omega
      rw [← hins]
      constructor
      · exact hhalves _ _ _
      · intro hnone
        cases hnone
      · intro _
        constructor
        · intro y hy
          simp only [Inserted.kept, splitLeaves, leaves, List.singleton_append, List.mem_cons,
            List.not_mem_nil, or_false] at hy
          rcases hy with rfl | rfl
          · rw [List.length_take, htotal]
            decide
          · rw [List.length_drop, htotal]
            decide
        · rcases sdup_cases ((Lib.insert entries k v).getD ((Lib.insert entries k v).length / 2)
            ([], [])).1 mem3 with hsep | hsep
          · left
            unfold leafPassage
            simp only [if_neg hhit, hk, hv, if_neg hroom, hm, hsep, decide_true, Bool.and_self]
          · right
            simp only [hsep]
            apply damaged_cut (ne_of_lt haddr)
            · rw [← List.length_pos_iff, List.length_take, htotal]
              decide
            · rw [← List.length_pos_iff, List.length_drop, htotal]
              decide

/-- A leaf whose callers see nothing wrong has done its work. -/
theorem leafInsertMem_done {links : List Link} {addr : ℕ} {entries : List (Bytes × Bytes)}
    {key val : Bytes} {mem : List Bool} (hsorted : SortedKeys entries)
    (hlen : entries.length ≤ leafMax) (haddr : addr < links.length)
    (h : LeafServes entries key val (leafInsertMem links addr entries key val mem)) :
    LeafDone entries key val mem (leafInsertMem links addr entries key val mem) := by
  by_cases hhit : leafHit entries (leafLower entries key) key
  · exact leafInsertMem_done_of_hit hsorted hhit h
  · exact leafInsertMem_done_of_miss hsorted hlen haddr hhit h

/-- Where the leaf is not cut, nothing more happens above it. -/
theorem nodeInsertMem_whole {key : Bytes} (val : Bytes) (mem : List Bool) (d : ℕ) :
    ∀ lo hi n links, Ordered d lo hi n → InRange lo hi key →
    ((leafOutcome key val mem n links).split = none →
        (nodeInsertMem key val mem n links).split = none) ∧
      ((leafPassage (findLeaf key n).2 key val mem).sep = none →
        passage key val mem n = leafPassage (findLeaf key n).2 key val mem) := by
  induction d with
  | zero =>
    intro lo hi n links h _
    cases n with
    | intr keys children => cases h
    | leaf addr entries => exact ⟨id, fun _ => rfl⟩
  | succ d ih =>
    intro lo hi n links h hkey
    cases n with
    | leaf addr entries => cases h
    | intr keys children =>
      obtain ⟨hlen, hchain⟩ := h
      obtain ⟨f, rfl, hci, hfind, -⟩ := hchain.search hkey
      obtain ⟨hsplit, hpassage⟩ := ih _ _ _ links f.holds f.inRange
      constructor
      · intro hleaf
        unfold leafOutcome at hleaf
        rw [hfind] at hleaf
        have hnone := hsplit hleaf
        rw [nodeInsertMem, hci, childInsertMem_append]
        unfold intrInsertMem
        simp only [Inserted.map, hnone]
      · intro hsep
        rw [hfind] at hsep ⊢
        rw [passage, hci, passageAt_append, hpassage hsep]
        unfold intrPassage
        simp only [hsep]

end BTree

/-! ## The whole tree -/

open BTree

/-- The leaves of a tree have different addresses. -/
theorem LeakyTree.Strung.fresh {t : LeakyTree} {ls : List (ℕ × List (Bytes × Bytes))}
    (h : t.Strung ls) : Fresh t.links t.root := by
  have hsub : (addrs t.root).Sublist (ls.map Prod.fst) := h.sub.map Prod.fst
  constructor
  · exact hsub.nodup h.nodup
  · intro a ha
    obtain ⟨left, right, hsplit⟩ := List.append_of_mem (hsub.subset ha)
    exact (List.getElem?_eq_some_iff.mp (h.chained left a right hsplit)).1

/-- The root or the lost nodes have all leaves. -/
theorem mem_of_mem_all {t : LeakyTree} {key val : Bytes} {mem : List Bool}
    {y : ℕ × List (Bytes × Bytes)} (hy : y ∈ (nodeInsertMem key val mem t.root t.links).all) :
    y ∈ leaves (btreeInsertMem t key val mem).2.root ++
      leavesList (btreeInsertMem t key val mem).2.lost := by
  unfold btreeInsertMem
  generalize nodeInsertMem key val mem t.root t.links = r at hy
  obtain ⟨node, split, links, lost, mem'⟩ := r
  cases split with
  | none =>
    simp only [Inserted.all, Inserted.kept, splitLeaves, List.mem_append, leavesList_append] at hy ⊢
    tauto
  | some cut =>
    obtain ⟨sep, right⟩ := cut
    simp only [Inserted.all, Inserted.kept, splitLeaves, List.mem_append] at hy ⊢
    split
    · simp only [leavesList, List.cons_append, List.mem_append, leavesList_append]
      tauto
    · simp only [leaves, leavesList, List.mem_append, leavesList_append, List.append_nil]
      tauto

/-- What is damaged when an insertion comes back to the root stays so. -/
theorem BTree.Damaged.root {t : LeakyTree} {key val : Bytes} {mem : List Bool}
    (h : Damaged (nodeInsertMem key val mem t.root t.links)) :
    ∃ y ∈ (nodeInsertMem key val mem t.root t.links).all,
      y.2 ≠ [] ∧ Hidden y (btreeInsertMem t key val mem).2.root := by
  unfold btreeInsertMem
  generalize nodeInsertMem key val mem t.root t.links = r at h
  obtain ⟨node, split, links, lost, mem'⟩ := r
  cases h with
  | hidden y hy hentries hnode hright =>
    refine ⟨y, hy, hentries, ?_⟩
    cases split with
    | none => exact hnode
    | some cut =>
      obtain ⟨sep, right⟩ := cut
      simp only
      split
      · exact hnode
      · apply hidden_of_children hentries
        intro c hc
        rcases List.mem_cons.mp hc with rfl | hc
        · exact hnode
        · obtain rfl := List.mem_singleton.mp hc
          exact hright _ rfl
  | unsep right y z hsplit hy hentries hout hz hentries' hout' =>
    obtain rfl : split = some ([], right) := hsplit
    simp only
    split
    · refine ⟨z, ?_, hentries', hidden_of_not_mem hentries' hout'⟩
      simp [Inserted.all, Inserted.kept, splitLeaves, hz]
    · refine ⟨y, ?_, hentries, ?_⟩
      · simp [Inserted.all, Inserted.kept, splitLeaves, hy]
      · apply hidden_unsep hentries 0 rfl
        intro i c hi hc
        obtain ⟨j, rfl⟩ := Nat.exists_eq_succ_of_ne_zero hi
        rw [List.getElem?_cons_succ] at hc
        obtain rfl := List.mem_singleton.mp (List.mem_of_getElem? hc)
        exact hidden_of_not_mem hentries hout

/-- After a failure that matters, and that the leaf does not show, a leaf with entries is
hidden. -/
theorem btreeInsertMem_hides {t : LeakyTree} {key val : Bytes} {mem : List Bool} {d : ℕ}
    (hd : Ordered d none none t.root) (hfresh : Fresh t.links t.root)
    (hleaf : (leafPassage (findLeaf key t.root).2 key val mem).spared = true ∨
      Damaged (leafOutcome key val mem t.root t.links))
    (hfail : btreeSpared t key val mem = false) :
    ∃ y ∈ (nodeInsertMem key val mem t.root t.links).all,
      y.2 ≠ [] ∧ Hidden y (btreeInsertMem t key val mem).2.root := by
  cases hbelow : (passage key val mem t.root).spared with
  | false =>
    exact (nodeInsertMem_damaged val mem d none none t.root t.links hd (InRange.full key) hfresh
      hleaf hbelow).root
  | true =>
    -- only the new root is missing
    obtain ⟨hspec, -, hsep, hmem⟩ :=
      nodeInsertMem_spared val mem d none none t.root t.links hd (InRange.full key) hbelow
    have hnodup := (nodeInsertMem_addrs val mem hd (InRange.full key) hfresh).1
    unfold btreeSpared at hfail
    unfold btreeInsertMem
    generalize nodeInsertMem key val mem t.root t.links = r at hspec hsep hmem hnodup
    obtain ⟨node, split, links, lost, mem'⟩ := r
    obtain rfl : mem' = _ := hmem
    cases split with
    | none =>
      have hnone : (passage key val mem t.root).sep = none := hsep.symm
      simp only [hnone] at hfail
      exact absurd (hbelow.symm.trans hfail) Bool.true_eq_false_eq_False
    | some cut =>
      obtain ⟨s, right⟩ := cut
      have hsome : (passage key val mem t.root).sep = some s := hsep.symm
      simp only [hsome, hbelow, Bool.true_and, Bool.or_eq_false_iff, passage_light hsome] at hfail
      obtain ⟨hmalloc, hlight⟩ := hfail
      have hright : contents right ≠ [] := by
        intro hnil
        rw [(lightAt_iff hspec).mpr hnil] at hlight
        cases hlight
      obtain ⟨y, hy, hentries⟩ := exists_leaf hright
      simp only
      generalize fkvMalloc (passage key val mem t.root).mem = outcome at hmalloc
      obtain ⟨ok, rest⟩ := outcome
      obtain rfl : ok = false := hmalloc
      refine ⟨y, ?_, hentries, ?_⟩
      · simp [Inserted.all, Inserted.kept, splitLeaves, hy]
      · apply hidden_of_not_mem hentries
        simp only [Inserted.all, Inserted.kept, splitLeaves, List.append_assoc] at hnodup
        rw [List.nodup_append] at hnodup
        exact fun hin => hnodup.2.2 y hin y (List.mem_append_left _ hy) rfl

/-- The leaf for a key is ordered. -/
theorem BTree.findLeaf_ordered {key : Bytes} (d : ℕ) : ∀ lo hi n, Ordered d lo hi n →
    InRange lo hi key → ∃ lo' hi',
    Ordered 0 lo' hi' (.leaf (findLeaf key n).1 (findLeaf key n).2) := by
  induction d with
  | zero =>
    intro lo hi n h _
    cases n with
    | intr keys children => cases h
    | leaf addr entries => exact ⟨lo, hi, h⟩
  | succ d ih =>
    intro lo hi n h hkey
    cases n with
    | leaf addr entries => cases h
    | intr keys children =>
      obtain ⟨_, hchain⟩ := h
      obtain ⟨f, rfl, -, hfind, -⟩ := hchain.search hkey
      rw [hfind]
      exact ih _ _ _ f.holds f.inRange

/-- Different leaves have different keys. -/
theorem BTree.key_ne_of_leaf_ne {ls : List (ℕ × List (Bytes × Bytes))}
    (h : SortedKeys (ls.flatMap Prod.snd)) {x y : ℕ × List (Bytes × Bytes)} (hx : x ∈ ls)
    (hy : y ∈ ls) (hne : x ≠ y) {e f : Bytes × Bytes} (he : e ∈ x.2) (hf : f ∈ y.2) :
    e.1 ≠ f.1 := by
  have hpair := (List.pairwise_flatMap.mp h).2
  have hkeys : ls.Pairwise fun x y => ∀ e ∈ x.2, ∀ f ∈ y.2, e.1 ≠ f.1 :=
    hpair.imp fun hlt e he f hf => ne_of_lt (hlt e he f hf)
  have hsymm : Std.Symm fun x y : ℕ × List (Bytes × Bytes) =>
      ∀ e ∈ x.2, ∀ f ∈ y.2, e.1 ≠ f.1 := ⟨fun x y h e he f hf heq => h f hf e he heq.symm⟩
  exact hkeys.forall hx hy hne e he f hf

/-- A lookup of a key of a hidden leaf fails. -/
theorem LeakyTree.Strung.get_hidden {t : LeakyTree} {ls : List (ℕ × List (Bytes × Bytes))}
    (h : t.Strung ls) (hsorted : SortedKeys (ls.flatMap Prod.snd))
    {y : ℕ × List (Bytes × Bytes)} (hy : y ∈ ls) (hhidden : Hidden y t.root) {e : Bytes × Bytes}
    (he : e ∈ y.2) : btreeGet t.toBTree e.1 = .error .notfound := by
  unfold btreeGet
  apply if_neg
  intro hhit
  obtain ⟨hi, heq⟩ := leafHit_iff.mp hhit
  have hin : findLeaf e.1 t.root ∈ leaves t.root := by
    apply descend_mem
    exact List.ne_nil_of_length_pos (Nat.zero_lt_of_lt hi)
  have hls : findLeaf e.1 t.root ∈ ls := h.sub.subset hin
  exact key_ne_of_leaf_ne hsorted hls hy (hhidden e.1) (List.getElem_mem hi) he heq

/-- What callers see of all leaves they see of the one leaf that is changed. -/
theorem LeakyTree.Strung.leafServes {t t' : LeakyTree}
    {front back : List (ℕ × List (Bytes × Bytes))} {leaf : ℕ × List (Bytes × Bytes)}
    (h : t.Strung (front ++ leaf :: back)) {rc : Err}
    {g : Inserted Node} (h' : t'.Strung (front ++ (g.kept ++ back))) {key val : Bytes}
    (hfront : ∀ e ∈ front.flatMap Prod.snd, e.1 ≠ key)
    (hback : ∀ e ∈ back.flatMap Prod.snd, e.1 ≠ key)
    (hrc : g.split = none → rc = .ok) (hserves : InsertServes t key val (rc, t')) :
    LeafServes leaf.2 key val g := by
  have hold : t.scanned none none .forward =
      front.flatMap Prod.snd ++ (leaf.2 ++ back.flatMap Prod.snd) := by
    rw [h.scanned, List.flatMap_append, List.flatMap_cons]
  have hnew : t'.scanned none none .forward =
      front.flatMap Prod.snd ++ (g.kept.flatMap Prod.snd ++ back.flatMap Prod.snd) := by
    rw [h'.scanned, List.flatMap_append, List.flatMap_append]
  have hbound : ∀ es : List (Bytes × Bytes),
      bindings (front.flatMap Prod.snd ++ (es ++ back.flatMap Prod.snd)) key =
        bindings es key := by
    intro es
    rw [bindings_append, bindings_append, bindings_eq_nil hfront, bindings_eq_nil hback,
      List.nil_append, List.append_nil]
  constructor
  · have hothers := hserves.scan_others none none .forward
    rw [hold, hnew, erase_append, erase_append, erase_append, erase_append] at hothers
    exact List.append_cancel_right (List.append_cancel_left hothers)
  · have hkey := hserves.scan_key none none .forward
    rw [hold, hnew, hbound, hbound] at hkey
    exact hkey
  · intro hsplit
    have hdone := hserves.scan_done (hrc hsplit) none none .forward
    rw [hnew, hbound] at hdone
    exact hdone

/-- A leaf with entries that is hidden is missed, unless it has only the inserted key. -/
theorem LeakyTree.Strung.not_serves {t t' : LeakyTree} {m : Bytes → Option Bytes}
    (h : t.Holds m) {ls : List (ℕ × List (Bytes × Bytes))} (h' : t'.Strung ls) {key val : Bytes}
    (hls : ls.flatMap Prod.snd = Lib.insert t.toMap key val)
    {y : ℕ × List (Bytes × Bytes)} (hy : y ∈ ls) (hhidden : Hidden y t'.root) {e : Bytes × Bytes}
    (he : e ∈ y.2) (hne : e.1 ≠ key) {rc : Err} : ¬ InsertServes t key val (rc, t') := by
  intro hserves
  have hsorted : SortedKeys (ls.flatMap Prod.snd) := by
    rw [hls]
    exact h.wellFormed.sorted.insert key val
  have hget := hserves.get_others e.1 hne
  rw [h'.get_hidden hsorted hy hhidden he, h.get, ← h.find] at hget
  have hin : (e.1, e.2) ∈ Lib.insert t.toMap key val := by
    rw [← hls]
    exact List.mem_flatMap_of_mem hy he
  rw [(h.wellFormed.sorted.insert key val).mem_iff_find, find_insert, if_neg hne] at hin
  rw [hin] at hget
  cases hget

/-- Of two entries one has another key. -/
theorem exists_key_ne {es : List (Bytes × Bytes)} (hsorted : SortedKeys es) (hlen : 2 ≤ es.length)
    (key : Bytes) : ∃ e ∈ es, e.1 ≠ key := by
  have hlt := List.pairwise_iff_getElem.mp hsorted 0 1 (by omega) (by omega) Nat.zero_lt_one
  by_cases hfirst : es[0].1 = key
  · exact ⟨es[1], List.getElem_mem _, fun heq => ne_of_lt hlt (hfirst.trans heq.symm)⟩
  · exact ⟨es[0], List.getElem_mem _, hfirst⟩

/-- An insertion that serves its callers has needed nothing that has failed. -/
theorem LeakyTree.Holds.spared_of_serves {t : LeakyTree} {m : Bytes → Option Bytes}
    (h : t.Holds m) {key val : Bytes} {mem : List Bool}
    (hserves : InsertServes t key val (btreeInsertMem t key val mem)) :
    btreeSpared t key val mem = true := by
  obtain ⟨ls, hls⟩ := h.strung
  obtain ⟨hlaid, hmap⟩ := h.laid hls
  obtain ⟨front, back, hsplit, hstrung⟩ := hls.insert h.wellFormed key val mem
  obtain ⟨d, hd⟩ := h.wellFormed
  have hnodup : ls.Nodup := List.Nodup.of_map Prod.fst hls.nodup
  -- all other leaves are on one side of the key
  obtain ⟨hfront, hback⟩ : (∀ e ∈ front.flatMap Prod.snd, e.1 < key) ∧
      ∀ e ∈ back.flatMap Prod.snd, key < e.1 := by
    obtain ⟨left, right, heq, hleft, hright⟩ := hlaid.found key
    change ls = left ++ findLeaf key (.intr [] (t.root :: t.lost)) :: right at heq
    have hsame : findLeaf key (.intr [] (t.root :: t.lost)) = findLeaf key t.root := rfl
    rw [hsame] at heq
    have hboth := heq
    rw [hsplit] at hboth hnodup
    obtain ⟨-, hnodup', hdisj⟩ := List.nodup_append.mp hnodup
    obtain ⟨rfl, -, rfl⟩ := (List.append_cons_inj_of_notMem
      (fun hin => hdisj _ hin _ List.mem_cons_self rfl)
      (List.nodup_cons.mp hnodup').1).mp hboth
    exact ⟨hleft, hright⟩
  obtain ⟨lo, hi, hsorted, -, hlen⟩ := findLeaf_ordered d none none t.root hd (InRange.full key)
  have hfresh := hls.fresh
  have hin : findLeaf key t.root ∈ ls := by
    rw [hsplit]
    simp
  have haddr : (findLeaf key t.root).1 < t.links.length := by
    obtain ⟨left, right, hl⟩ := List.append_of_mem (List.mem_map_of_mem (f := Prod.fst) hin)
    exact (List.getElem?_eq_some_iff.mp (hls.chained left _ right hl)).1
  obtain ⟨hwhole, hpassage⟩ :=
    nodeInsertMem_whole val mem d none none t.root t.links hd (InRange.full key)
  have hrc : (leafOutcome key val mem t.root t.links).split = none →
      (btreeInsertMem t key val mem).1 = .ok := by
    intro hnone
    unfold btreeInsertMem
    simp only [hwhole hnone]
  rw [hsplit] at hls hmap
  have hleaf := hls.leafServes hstrung (fun e he => ne_of_lt (hfront e he))
    (fun e he => ne_of_gt (hback e he)) hrc hserves
  have hdone : LeafDone (findLeaf key t.root).2 key val mem
      (leafOutcome key val mem t.root t.links) := leafInsertMem_done hsorted hlen haddr hleaf
  by_contra hne
  have hfail := Bool.eq_false_of_not_eq_true hne
  cases hcut : (leafOutcome key val mem t.root t.links).split with
  | none =>
    obtain ⟨hsep, hspared⟩ := hdone.whole hcut
    apply hne
    unfold btreeSpared
    simp only [hpassage hsep, hsep, hspared]
  | some cut =>
    obtain ⟨hmany, hor⟩ := hdone.cut fun hnone => by
      rw [hnone] at hcut
      cases hcut
    obtain ⟨y, hyall, hentries, hhidden⟩ := btreeInsertMem_hides hd hfresh hor hfail
    have hy := hstrung.perm.mem_iff.mp (mem_of_mem_all hyall)
    have hls' : (front ++ ((leafOutcome key val mem t.root t.links).kept ++ back)).flatMap
      Prod.snd =
        Lib.insert t.toMap key val := by
      rw [← hmap, List.flatMap_append, List.flatMap_append, List.flatMap_append,
        List.flatMap_cons, insert_between hfront hback]
      exact congrArg _ (congrArg (· ++ _) hdone.entries_eq)
    obtain ⟨e, he, hne'⟩ : ∃ e ∈ y.2, e.1 ≠ key := by
      obtain ⟨e, he⟩ := List.exists_mem_of_ne_nil _ hentries
      rcases List.mem_append.mp hy with hy | hy
      · exact ⟨e, he, ne_of_lt (hfront e (List.mem_flatMap_of_mem hy he))⟩
      · rcases List.mem_append.mp hy with hy | hy
        · have hsorted' : SortedKeys y.2 := by
            have hkept : SortedKeys ((leafOutcome key val mem t.root t.links).kept.flatMap
                Prod.snd) := by
              rw [hdone.entries_eq]
              exact hsorted.insert key val
            exact (List.pairwise_flatMap.mp hkept).1 y hy
          exact exists_key_ne hsorted' (hmany y hy) key
        · exact ⟨e, he, ne_of_gt (hback e (List.mem_flatMap_of_mem hy he))⟩
    exact LeakyTree.Strung.not_serves h hstrung hls' hy hhidden he hne' hserves

/-- After calls that nothing has harmed, a further insertion serves its callers if and only if no
failure in it matters: the copies that it makes and a new leaf succeed, and where an internal node
or a new root is missing, neither the new key nor an old one stands behind the cut. -/
theorem btree_insert_serves_iff {ops : List MemOp}
    (h : Permitted (fun t op => (op.run t).2) (fun t op => op.Spared t) ⟨btreeCreate, []⟩ ops)
    (key val : Bytes) (mem : List Bool) :
    InsertServes (runLeaky ops) key val (btreeInsertMem (runLeaky ops) key val mem) ↔
      btreeSpared (runLeaky ops) key val mem = true :=
  ⟨fun hserves => (runLeaky_holds h).spared_of_serves hserves,
    fun hspared => (runLeaky_holds h).serves hspared⟩

/-- An insertion whose third allocation fails has made its two copies already. -/
theorem btree_insert_serves_third :
    InsertServes (runLeaky [.insert [2] [3] []]) [1] [7]
        (btreeInsertMem (runLeaky [.insert [2] [3] []]) [1] [7] [true, true, false]) ↔
      btreeSpared (runLeaky [.insert [2] [3] []]) [1] [7] [true, true, false] = true := by
  apply btree_insert_serves_iff
  have hfirst : btreeSpared ⟨btreeCreate, []⟩ [2] [3] [] = true := by decide +kernel
  exact ⟨hfirst, trivial⟩

/-- In an empty tree, when the key cannot be copied, success is reported and the key is missed. -/
theorem failed_copy_not_served :
    ¬ InsertServes ⟨btreeCreate, []⟩ [1] [7]
    (btreeInsertMem ⟨btreeCreate, []⟩ [1] [7] [false]) := by
  intro h
  have hget := h.get_done (by decide)
  revert hget
  decide

end FastKV
