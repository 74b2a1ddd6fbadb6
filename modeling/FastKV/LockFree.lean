import FastKV.HtMemory

/-!
# Reads without a lock

What the threads at the hash table do by single loads and stores comes to the same as calls
that take place at once, one after the other, as long as no version is installed with a
timestamp that a reader in the middle of its walk is not earlier than. The memory between two
steps of a writer stands for the table before the call, except that the live version of its
key may have ended already; a reader that is earlier does not notice. A reader that does not
keep apart may find neither the version that has ended nor the one that is not there yet.
-/

namespace FastKV

open Lib

/-! ## Sealing and reading a chain -/

/-- `fastkv_ht_get` returns at the first version that it is after. -/
theorem chainGet_eq_findSome? (snapshotTs : ℕ) (key : Bytes) (chain : List Version) :
    chainGet snapshotTs key chain =
      (chain.findSome? (look snapshotTs key)).getD (.error .notfound) := by
  induction chain with
  | nil => rfl
  | cons v next ih =>
    rw [chainGet, List.findSome?_cons, look]
    split
    · cases v.value <;> rfl
    · exact ih

section Sealing

variable {c : Install} {snapshotTs : ℕ} {v : Version}

/-- An earlier reader does not notice that a version ends. -/
theorem look_ended (hlt : snapshotTs < c.commitTs) (hts : snapshotTs < tsMax) (hv : c.Ends v)
    (key : Bytes) :
    look snapshotTs key { v with endTs := c.commitTs } = look snapshotTs key v := by
  simp [look, hv.2, hlt, hts]

/-- An earlier reader reads the same in a chain whose live version has ended. -/
theorem chainGet_sealLive (hlt : snapshotTs < c.commitTs) (hts : snapshotTs < tsMax)
    (key : Bytes) (chain : List Version) :
    chainGet snapshotTs key (sealLive c.commitTs c.key chain) = chainGet snapshotTs key chain := by
  rw [chainGet_eq_findSome?, chainGet_eq_findSome?]
  congr 1
  induction chain with
  | nil => rfl
  | cons v next ih =>
    rw [sealLive]
    split
    · rename_i hv
      rw [List.findSome?_cons, List.findSome?_cons, look_ended hlt hts hv]
    · rw [List.findSome?_cons, List.findSome?_cons, ih]

/-- The walk of the writer ends the first version that it is to end. -/
theorem sealLive_append {front : List Version} (hfront : ∀ w ∈ front, ¬ c.Ends w)
    (back : List Version) :
    sealLive c.commitTs c.key (front ++ back) = front ++ sealLive c.commitTs c.key back := by
  induction front with
  | nil => rfl
  | cons w front ih =>
    have hw : ¬ (w.key = c.key ∧ w.endTs = tsMax) := hfront w List.mem_cons_self
    rw [List.cons_append, sealLive, if_neg hw,
      ih fun u hu => hfront u (List.mem_cons_of_mem _ hu), List.cons_append]

/-- Without a live version of the key, nothing ends. -/
theorem sealLive_of_none {chain : List Version} (h : ∀ w ∈ chain, ¬ c.Ends w) :
    sealLive c.commitTs c.key chain = chain := by
  have happend := sealLive_append h []
  rwa [List.append_nil, sealLive, List.append_nil] at happend

/-- After the live version of the key has ended, there is none. -/
theorem not_ends_of_mem_sealLive {ht : Ht} (hone : ht.OneLive) (hts : c.commitTs < tsMax)
    (hv : v ∈ sealLive c.commitTs c.key (ht.chain c.key)) : ¬ c.Ends v := by
  rintro ⟨hkey, hlive⟩
  have hmem : v ∈ sealLive c.commitTs c.key (ht.versions c.key) := by
    rw [Ht.versions, ← keyVersions_sealLive_self]
    exact List.mem_filter.mpr ⟨hv, by simpa using hkey⟩
  have hnil := filter_sealLive (Nat.ne_of_lt hts)
    (fun w hw => Ht.key_of_mem_versions hw) (hone c.key)
  have hin := List.mem_filter.mpr ⟨hmem, show v.isLive = true by simp [Version.isLive, hlive]⟩
  rw [hnil] at hin
  cases hin

end Sealing

/-! ## What the memory stands for -/

/-- The nodes that a pointer leads to; others cannot reach the version that is not in the table
yet. -/
structure TableThreads.Reaches (s : TableThreads) (p : Option ℕ) (items : List (ℕ × Version)) :
    Prop where
  /-- The nodes and what they hold. -/
  linked : Linked s.memory.nodes p items
  /-- The version that is being installed is not among them. -/
  unshared : ∀ c ∈ s.install.call, c.node ∉ items.map Prod.fst

/-- The chain of a bucket is that of the table, or the live version of the key that is being
written has ended already. -/
def TableThreads.Shows (s : TableThreads) (ht : Ht) (i : ℕ) (chain : List Version) : Prop :=
  chain = ht.buckets.getD i [] ∨ ∃ c ∈ s.install.call, bucketIdx ht c.key = i ∧
    chain = sealLive c.commitTs c.key (ht.chain c.key)

/-- What the writer knows: the head that it has loaded is still the head, and it has passed
no version that it is to end. -/
def TableThreads.Progress (s : TableThreads) (ht : Ht) : InstallPhase → Prop
  | .idle | .counting | .loading _ => True
  | .sealing c old prev =>
    s.memory.nodes c.node = some ⟨c.version, old⟩ ∧ s.memory.head c.key = old ∧
      ∃ front back, Linked s.memory.nodes old (front ++ back) ∧
        Linked s.memory.nodes prev back ∧ ∀ item ∈ front, ¬ c.Ends item.2
  | .closing c old prev =>
    s.memory.nodes c.node = some ⟨c.version, old⟩ ∧ s.memory.head c.key = old ∧
      ∃ front v back, Linked s.memory.nodes old (front ++ (prev, v) :: back) ∧
        c.Ends v ∧ ∀ item ∈ front, ¬ c.Ends item.2
  | .swinging c old =>
    s.memory.nodes c.node = some ⟨c.version, old⟩ ∧ s.memory.head c.key = old ∧
      ∃ items, Linked s.memory.nodes old items ∧
        items.map Prod.snd = sealLive c.commitTs c.key (ht.chain c.key)

/-- What a reader will find is what a read at once would return. -/
structure TableThreads.Finds (s : TableThreads) (ht : Ht) (snapshotTs : ℕ) (key : Bytes)
    (v : Option ℕ) : Prop where
  /-- The reader reads as of a timestamp. -/
  inTime : snapshotTs < tsMax
  /-- A version that is being installed is later. -/
  earlier : ∀ c ∈ s.install.call, snapshotTs < c.commitTs
  /-- The rest of the chain holds the answer. -/
  answer : ∃ items, s.Reaches v items ∧
    chainGet snapshotTs key (items.map Prod.snd) = htGet ht snapshotTs key

/-- The memory stands for a table. -/
structure TableThreads.Stands (s : TableThreads) (t : Table) : Prop where
  /-- The same reads have returned. -/
  lookups : s.lookups = t.lookups
  /-- No key has two live versions. -/
  oneLive : t.ht.OneLive
  /-- There are as many buckets. -/
  capacity : s.memory.buckets.length = t.ht.buckets.length
  /-- The counter is behind by the version that is in the table and not counted yet. -/
  counter : t.ht.numVersions =
    if s.install = .counting then add64 s.memory.numVersions 1 else s.memory.numVersions
  /-- Each bucket. -/
  chains : ∀ i p, s.memory.buckets[i]? = some p →
    ∃ items, s.Reaches p items ∧ s.Shows t.ht i (items.map Prod.snd)
  /-- The version that is being installed ends in time. -/
  inTime : ∀ c ∈ s.install.call, c.commitTs < tsMax
  /-- The writer. -/
  progress : s.Progress t.ht s.install
  /-- Each reader. -/
  readers : ∀ i snapshotTs key v, s.readers i = .walking snapshotTs key v →
    s.Finds t.ht snapshotTs key v

section Steps

variable {s : TableThreads} {t : Table} {c : Install} {snapshotTs : ℕ} {key : Bytes}

/-- The bucket that the writer and the readers use is that of the table. -/
theorem TableThreads.Stands.idx_eq (h : s.Stands t) (key : Bytes) :
    s.memory.idx key = bucketIdx t.ht key := by
  rw [TableMemory.idx, h.capacity]
  rfl

/-- The head of a bucket is one of the heads. -/
theorem TableThreads.Stands.getElem?_head (h : s.Stands t) (key : Bytes) :
    s.memory.buckets[bucketIdx t.ht key]? = some (s.memory.head key) := by
  have hlt : bucketIdx t.ht key < s.memory.buckets.length := by
    rw [h.capacity]
    exact bucketIdx_lt t.ht key
  rw [TableMemory.head, h.idx_eq, List.getD_eq_getElem?_getD, List.getElem?_eq_getElem hlt]
  rfl

/-- The chain behind the head of the bucket that is being written. -/
theorem TableThreads.Stands.written (h : s.Stands t) (hc : s.install.call = some c) :
    ∃ items, s.Reaches (s.memory.head c.key) items ∧
      (items.map Prod.snd = t.ht.chain c.key ∨
        items.map Prod.snd = sealLive c.commitTs c.key (t.ht.chain c.key)) := by
  obtain ⟨items, hreaches, hshows⟩ := h.chains _ _ (h.getElem?_head c.key)
  refine ⟨items, hreaches, hshows.imp_right ?_⟩
  rintro ⟨c', hc', -, hsealed⟩
  rw [hc] at hc'
  cases hc'
  exact hsealed

/-- A node that nobody else can reach is written. -/
theorem TableThreads.Reaches.store {s' : TableThreads} {p : Option ℕ}
    {items : List (ℕ × Version)} {a : ℕ} {v : Version} {next : Option ℕ}
    (h : s.Reaches p items) (ha : a ∉ items.map Prod.fst)
    (hmem : s'.memory = s.memory.store a v next) (hcall : ∀ c ∈ s'.install.call, c.node = a) :
    s'.Reaches p items := by
  refine ⟨?_, ?_⟩
  · rw [hmem]
    exact h.linked.update ha
  · intro c hc
    rw [hcall c hc]
    exact ha

/-- The same memory with the writer at another place of the same call. -/
theorem TableThreads.Reaches.congr {s' : TableThreads} {p : Option ℕ}
    {items : List (ℕ × Version)} (h : s.Reaches p items)
    (hnodes : s'.memory.nodes = s.memory.nodes)
    (hcall : ∀ c ∈ s'.install.call, c ∈ s.install.call) : s'.Reaches p items :=
  ⟨hnodes ▸ h.linked, fun c hc => h.unshared c (hcall c hc)⟩

/-- The writer goes on in the same call without a store. -/
theorem TableThreads.Stands.goOn (h : s.Stands t) {phase : InstallPhase}
    (hc : s.install.call = some c) (hphase : phase.call = some c)
    (hprogress : TableThreads.Progress { s with install := phase } t.ht phase) :
    TableThreads.Stands { s with install := phase } t := by
  have hcall : phase.call = s.install.call := hphase.trans hc.symm
  have hreaches : ∀ {p items}, s.Reaches p items →
      TableThreads.Reaches { s with install := phase } p items :=
    fun hr => hr.congr rfl fun c' hc' => by rwa [← hcall]
  refine ⟨h.lookups, h.oneLive, h.capacity, ?_, ?_, ?_, hprogress, ?_⟩
  · have hold : s.install ≠ .counting := by rintro heq; rw [heq] at hc; cases hc
    have hnew : phase ≠ .counting := by rintro rfl; cases hphase
    rw [if_neg hnew, h.counter, if_neg hold]
  · intro i p hp
    obtain ⟨items, hr, hshows⟩ := h.chains i p hp
    refine ⟨items, hreaches hr, hshows.imp_right ?_⟩
    rintro ⟨c', hc', hrest⟩
    exact ⟨c', by rwa [← hcall] at hc', hrest⟩
  · intro c' hc'
    exact h.inTime c' (by rwa [← hcall])
  · intro i snapshotTs key v hv
    have hfinds := h.readers i snapshotTs key v hv
    obtain ⟨items, hr, hanswer⟩ := hfinds.answer
    exact ⟨hfinds.inTime, fun c' hc' => hfinds.earlier c' (by rwa [← hcall]), items, hreaches hr,
      hanswer⟩

/-- A writer enters. -/
theorem TableThreads.Stands.enter (h : s.Stands t) (hidle : s.install = .idle)
    (hfree : s.memory.nodes c.node = none) (happart : KeepsApart s (.insert c)) :
    TableThreads.Stands
      { s with memory := s.memory.store c.node c.version none, install := .loading c } t := by
  have hnocall : s.install.call = none := by rw [hidle]; rfl
  have hreaches : ∀ {p items}, s.Reaches p items → TableThreads.Reaches
      { s with memory := s.memory.store c.node c.version none, install := .loading c } p items := by
    intro p items hr
    refine hr.store (fun hmem => ?_) rfl fun c' hc' => ?_
    · obtain ⟨node, hnode⟩ := hr.linked.mem_heap hmem
      rw [hfree] at hnode
      cases hnode
    · cases hc'
      rfl
  refine ⟨h.lookups, h.oneLive, h.capacity, ?_, ?_, ?_, trivial, ?_⟩
  · have hold : s.install ≠ .counting := by rw [hidle]; simp
    rw [if_neg (by simp), h.counter, if_neg hold]
    rfl
  · intro i p hp
    obtain ⟨items, hr, hshows⟩ := h.chains i p hp
    refine ⟨items, hreaches hr, hshows.imp_right ?_⟩
    rintro ⟨c', hc', -⟩
    rw [hnocall] at hc'
    cases hc'
  · intro c' hc'
    cases hc'
    exact happart.1
  · intro i snapshotTs key v hv
    have hfinds := h.readers i snapshotTs key v hv
    obtain ⟨items, hr, hanswer⟩ := hfinds.answer
    refine ⟨hfinds.inTime, fun c' hc' => ?_, items, hreaches hr, hanswer⟩
    cases hc'
    exact happart.2 i snapshotTs key v hv

/-- The writer loads the head and points its version to it. -/
theorem TableThreads.Stands.load (h : s.Stands t) (hphase : s.install = .loading c) :
    TableThreads.Stands
      { s with
        memory := s.memory.store c.node c.version (s.memory.head c.key)
        install := .sealing c (s.memory.head c.key) (s.memory.head c.key) } t := by
  have hcall : s.install.call = some c := by rw [hphase]; rfl
  have hreaches : ∀ {p items}, s.Reaches p items → TableThreads.Reaches
      { s with
        memory := s.memory.store c.node c.version (s.memory.head c.key)
        install := .sealing c (s.memory.head c.key) (s.memory.head c.key) } p items := by
    intro p items hr
    refine hr.store (hr.unshared c hcall) rfl fun c' hc' => ?_
    cases hc'
    rfl
  refine ⟨h.lookups, h.oneLive, h.capacity, ?_, ?_, ?_, ?_, ?_⟩
  · have hold : s.install ≠ .counting := by rw [hphase]; simp
    rw [if_neg (by simp), h.counter, if_neg hold]
    rfl
  · intro i p hp
    obtain ⟨items, hr, hshows⟩ := h.chains i p hp
    refine ⟨items, hreaches hr, hshows.imp_right ?_⟩
    rintro ⟨c', hc', hrest⟩
    rw [hcall] at hc'
    exact ⟨c', hc', hrest⟩
  · intro c' hc'
    exact h.inTime c' (hcall.trans hc')
  · obtain ⟨items, hr, -⟩ := h.written hcall
    have hlinked := (hreaches hr).linked
    exact ⟨Function.update_self .., rfl, [], items, hlinked, hlinked, by simp⟩
  · intro i snapshotTs key v hv
    have hfinds := h.readers i snapshotTs key v hv
    obtain ⟨items, hr, hanswer⟩ := hfinds.answer
    exact ⟨hfinds.inTime, fun c' hc' => hfinds.earlier c' (hcall.trans hc'), items, hreaches hr,
      hanswer⟩

/-- The writer has come to the end of the chain: the live version of its key has ended before,
or there is none. -/
theorem TableThreads.Stands.sealedAll (h : s.Stands t) {old : Option ℕ}
    (hphase : s.install = .sealing c old none) :
    TableThreads.Stands { s with install := .swinging c old } t := by
  have hcall : s.install.call = some c := by rw [hphase]; rfl
  refine h.goOn hcall rfl ?_
  have hprogress := h.progress
  rw [hphase] at hprogress
  obtain ⟨hnode, hhead, front, back, hlinked, hback, hfront⟩ := hprogress
  have hnil : back = [] := by
    cases back with
    | nil => rfl
    | cons item back => exact absurd hback.1 (by simp)
  subst hnil
  rw [List.append_nil] at hlinked
  obtain ⟨items, hr, hchain⟩ := h.written hcall
  rw [hhead] at hr
  rw [hlinked.unique hr.linked] at hfront
  refine ⟨hnode, hhead, items, hr.linked, ?_⟩
  rcases hchain with hchain | hchain
  · rw [← hchain]
    refine (sealLive_of_none fun w hw => ?_).symm
    obtain ⟨item, hitem, rfl⟩ := List.mem_map.mp hw
    exact hfront item hitem
  · exact hchain

/-- The version at which the writer stands. -/
theorem TableThreads.Stands.walk (h : s.Stands t) {old : Option ℕ} {prev : ℕ}
    {node : ListNode ℕ Version} (hphase : s.install = .sealing c old (some prev))
    (hprev : s.memory.nodes prev = some node) :
    ∃ front back, Linked s.memory.nodes old (front ++ (prev, node.value) :: back) ∧
      Linked s.memory.nodes node.next back ∧ ∀ item ∈ front, ¬ c.Ends item.2 := by
  have hprogress := h.progress
  rw [hphase] at hprogress
  obtain ⟨-, -, front, back, hlinked, hback, hfront⟩ := hprogress
  cases back with
  | nil => exact absurd (show some prev = none from hback) (by simp)
  | cons item back =>
    obtain ⟨hp, next, hnode, hrest⟩ := hback
    injection hp with hp
    subst hp
    rw [hprev] at hnode
    injection hnode with hnode
    subst hnode
    exact ⟨front, back, hlinked, hrest, hfront⟩

/-- The writer passes a version, or finds the one to end. -/
theorem TableThreads.Stands.look (h : s.Stands t) {old : Option ℕ} {prev : ℕ}
    {node : ListNode ℕ Version} (hphase : s.install = .sealing c old (some prev))
    (hprev : s.memory.nodes prev = some node) :
    TableThreads.Stands
      (if c.Ends node.value then { s with install := .closing c old prev }
        else { s with install := .sealing c old node.next }) t := by
  have hcall : s.install.call = some c := by rw [hphase]; rfl
  obtain ⟨front, back, hlinked, hback, hfront⟩ := h.walk hphase hprev
  have hprogress := h.progress
  rw [hphase] at hprogress
  obtain ⟨hnode, hhead, -⟩ := hprogress
  by_cases hends : c.Ends node.value
  · rw [if_pos hends]
    exact h.goOn hcall rfl ⟨hnode, hhead, front, node.value, back, hlinked, hends, hfront⟩
  · rw [if_neg hends]
    refine h.goOn hcall rfl
      ⟨hnode, hhead, front ++ [(prev, node.value)], back, ?_, hback, fun item hitem => ?_⟩
    · rwa [List.append_assoc, List.singleton_append]
    · rcases List.mem_append.mp hitem with hitem | hitem
      · exact hfront item hitem
      · rw [List.mem_singleton.mp hitem]
        exact hends

/-- The version that the writer ends is in the chain of its bucket only. -/
theorem TableThreads.Stands.notMem_other (h : s.Stands t) (hc : s.install.call = some c)
    {i prev : ℕ} {node : ListNode ℕ Version} (hprev : s.memory.nodes prev = some node)
    (hends : c.Ends node.value) (hi : i ≠ bucketIdx t.ht c.key) {p : Option ℕ}
    {items : List (ℕ × Version)} (hp : s.memory.buckets[i]? = some p) (hr : s.Reaches p items)
    (hshows : s.Shows t.ht i (items.map Prod.snd)) : prev ∉ items.map Prod.fst := by
  intro hmem
  obtain ⟨⟨a, v⟩, hitem, hsame⟩ := List.mem_map.mp hmem
  have hsame : a = prev := hsame
  subst hsame
  obtain ⟨next, hnode⟩ := hr.linked.node hitem
  rw [hprev] at hnode
  injection hnode with hnode
  subst hnode
  rcases hshows with hchain | ⟨c', hc', hidx, -⟩
  · have hlt : i < t.ht.buckets.length := by
      rw [← h.capacity]
      exact (List.getElem?_eq_some_iff.mp hp).1
    have hbucket : t.ht.buckets[i]? = some (t.ht.buckets.getD i []) := by
      rw [List.getD_eq_getElem?_getD, List.getElem?_eq_getElem hlt]
      rfl
    have hplaced := t.ht.placed i _ hbucket v (by rw [← hchain]; exact List.mem_map_of_mem hitem)
    rw [hends.1] at hplaced
    exact hi hplaced.symm
  · rw [hc] at hc'
    cases hc'
    exact hi hidx.symm

/-- The writer ends the version that it has found. -/
theorem TableThreads.Stands.close (h : s.Stands t) {old : Option ℕ} {prev : ℕ}
    {node : ListNode ℕ Version} (hphase : s.install = .closing c old prev)
    (hprev : s.memory.nodes prev = some node) :
    TableThreads.Stands
      { s with
        memory := s.memory.store prev { node.value with endTs := c.commitTs } node.next
        install := .swinging c old } t := by
  have hcall : s.install.call = some c := by rw [hphase]; rfl
  have hprogress := h.progress
  rw [hphase] at hprogress
  obtain ⟨hnode, hhead, front, v, back, hlinked, hends, hfront⟩ := hprogress
  have hv : v = node.value := by
    obtain ⟨next, hheld⟩ := hlinked.node (a := prev) (v := v) (by simp)
    rw [hprev] at hheld
    injection hheld with hheld
    rw [hheld]
  subst hv
  have hstored : ∀ {p items}, s.Reaches p items → TableThreads.Reaches
      { s with
        memory := s.memory.store prev { node.value with endTs := c.commitTs } node.next
        install := .swinging c old } p
      (replaceAt prev { node.value with endTs := c.commitTs } items) := by
    intro p items hr
    refine ⟨hr.linked.store hprev, fun c' hc' => ?_⟩
    cases hc'
    rw [map_fst_replaceAt]
    exact hr.unshared c hcall
  -- The chain that is being written, with its live version ended.
  obtain ⟨items, hr, hchain⟩ := h.written hcall
  rw [hhead] at hr
  have hitems := hr.linked.unique hlinked
  have hmemv : node.value ∈ items.map Prod.snd := by
    rw [hitems, List.map_append, List.map_cons]
    exact List.mem_append_right _ List.mem_cons_self
  have hopen : items.map Prod.snd = t.ht.chain c.key := by
    rcases hchain with hchain | hchain
    · exact hchain
    · rw [hchain] at hmemv
      exact absurd hends (not_ends_of_mem_sealLive h.oneLive (h.inTime c hcall) hmemv)
  have hsealed : (replaceAt prev { node.value with endTs := c.commitTs } items).map Prod.snd =
      sealLive c.commitTs c.key (t.ht.chain c.key) := by
    have hnodup := hlinked.nodup
    have hfront' : ∀ w ∈ front.map Prod.snd, ¬ c.Ends w := by
      intro w hw
      obtain ⟨item, hitem, rfl⟩ := List.mem_map.mp hw
      exact hfront item hitem
    have hlive : node.value.key = c.key ∧ node.value.endTs = tsMax := hends
    rw [← hopen, hitems, replaceAt_append hnodup, List.map_append, List.map_append,
      sealLive_append hfront', List.map_cons, List.map_cons, sealLive, if_pos hlive]
  have hother : c.node ≠ prev := by
    rintro rfl
    refine hr.unshared c hcall ?_
    rw [hitems, List.map_append, List.map_cons]
    exact List.mem_append_right _ List.mem_cons_self
  refine ⟨h.lookups, h.oneLive, h.capacity, ?_, ?_, ?_, ?_, ?_⟩
  · have hold : s.install ≠ .counting := by rw [hphase]; simp
    rw [if_neg (by simp), h.counter, if_neg hold]
    rfl
  · intro i p hp
    by_cases hi : i = bucketIdx t.ht c.key
    · subst hi
      have hp' : p = old := by
        have hget := h.getElem?_head c.key
        rw [hhead] at hget
        exact Option.some.inj (hp.symm.trans hget)
      subst hp'
      exact ⟨_, hstored hr, Or.inr ⟨c, rfl, rfl, hsealed⟩⟩
    · obtain ⟨items', hr', hshows⟩ := h.chains i p hp
      have hnot := h.notMem_other hcall hprev hends hi hp hr' hshows
      have hr'' := hstored hr'
      rw [replaceAt_of_notMem hnot] at hr''
      refine ⟨items', hr'', hshows.imp_right ?_⟩
      rintro ⟨c', hc', hrest⟩
      rw [hcall] at hc'
      exact ⟨c', hc', hrest⟩
  · intro c' hc'
    exact h.inTime c' (hcall.trans hc')
  · refine ⟨(Function.update_of_ne hother ..).trans hnode, hhead, _, (hstored hr).linked, hsealed⟩
  · intro i snapshotTs key p hv
    have hfinds := h.readers i snapshotTs key p hv
    obtain ⟨items', hr', hanswer⟩ := hfinds.answer
    refine ⟨hfinds.inTime, fun c' hc' => hfinds.earlier c' (hcall.trans hc'), _, hstored hr', ?_⟩
    have hlook := look_ended (hfinds.earlier c hcall) hfinds.inTime hends key
    rw [chainGet_eq_findSome?, findSome?_replaceAt hlook, ← chainGet_eq_findSome?, hanswer]
    intro u hu
    obtain ⟨next, hheld⟩ := hr'.linked.node hu
    rw [hprev] at hheld
    injection hheld with hheld
    rw [hheld]

/-- The compare-and-swap fails, and the writer starts over. -/
theorem TableThreads.Stands.retry (h : s.Stands t) {old : Option ℕ}
    (hphase : s.install = .swinging c old) :
    TableThreads.Stands { s with install := .loading c } t :=
  h.goOn (by rw [hphase]; rfl) rfl trivial

/-- The compare-and-swap succeeds, and the version is in the table. -/
theorem TableThreads.Stands.swing (h : s.Stands t) {old : Option ℕ}
    (hphase : s.install = .swinging c old) :
    TableThreads.Stands
      { s with
        memory := { s.memory with
          buckets := s.memory.buckets.set (s.memory.idx c.key) (some c.node) }
        install := .counting }
      (tableCall t (.insert c.commitTs c.key c.value)) := by
  have hcall : s.install.call = some c := by rw [hphase]; rfl
  have hprogress := h.progress
  rw [hphase] at hprogress
  obtain ⟨hnode, hhead, items, hlinked, hsealed⟩ := hprogress
  have hlt : bucketIdx t.ht c.key < s.memory.buckets.length := by
    rw [h.capacity]
    exact bucketIdx_lt t.ht c.key
  refine ⟨h.lookups, h.oneLive.insert (Nat.ne_of_lt (h.inTime c hcall)) c.key c.value, ?_, ?_, ?_,
    ?_, trivial, ?_⟩
  · rw [List.length_set, h.capacity]
    exact (capacity_htInsertVersion ..).symm
  · have hold : s.install ≠ .counting := by rw [hphase]; simp
    have hcounter := h.counter
    rw [if_neg hold] at hcounter
    rw [if_pos rfl]
    exact congrArg (add64 · 1) hcounter
  · intro i p hp
    rw [h.idx_eq, List.getElem?_set] at hp
    by_cases hi : bucketIdx t.ht c.key = i
    · subst hi
      rw [if_pos rfl, if_pos hlt] at hp
      cases hp
      refine ⟨(c.node, c.version) :: items, ⟨⟨rfl, old, hnode, hlinked⟩, ?_⟩, Or.inl ?_⟩
      · intro c' hc'
        cases hc'
      · have hchain := chain_htInsertVersion t.ht c.commitTs c.key c.key c.value
        rw [if_pos rfl, Ht.chain, bucketIdx_htInsertVersion] at hchain
        rw [List.map_cons, hsealed]
        exact hchain.symm
    · rw [if_neg hi] at hp
      obtain ⟨items', hr, hshows⟩ := h.chains i p hp
      refine ⟨items', ⟨hr.linked, fun c' hc' => (by cases hc')⟩, Or.inl ?_⟩
      rcases hshows with hchain | ⟨c', hc', hidx, -⟩
      · rw [hchain]
        simp [tableCall, htInsertVersion, List.getD_eq_getElem?_getD, hi]
      · rw [hcall] at hc'
        cases hc'
        exact absurd hidx hi
  · intro c' hc'
    cases hc'
  · intro i snapshotTs key v hv
    have hfinds := h.readers i snapshotTs key v hv
    obtain ⟨items', hr, hanswer⟩ := hfinds.answer
    refine ⟨hfinds.inTime, fun c' hc' => (by cases hc'), items',
      ⟨hr.linked, fun c' hc' => (by cases hc')⟩, hanswer.trans ?_⟩
    change htGet t.ht snapshotTs key =
      htGet (htInsertVersion t.ht c.commitTs c.key c.value) snapshotTs key
    rw [htGet_eq_visible, htGet_eq_visible,
      visible_insert_later t.ht (hfinds.earlier c hcall) hfinds.inTime]

/-- The version is counted. -/
theorem TableThreads.Stands.count (h : s.Stands t) (hphase : s.install = .counting) :
    TableThreads.Stands
      { s with
        memory := { s.memory with numVersions := add64 s.memory.numVersions 1 }
        install := .idle } t := by
  have hreaches : ∀ {p items}, s.Reaches p items → TableThreads.Reaches
      { s with
        memory := { s.memory with numVersions := add64 s.memory.numVersions 1 }
        install := .idle } p items :=
    fun hr => hr.congr rfl fun c' hc' => by cases hc'
  refine ⟨h.lookups, h.oneLive, h.capacity, ?_, ?_, ?_, trivial, ?_⟩
  · rw [if_neg (by simp), h.counter, if_pos hphase]
  · intro i p hp
    obtain ⟨items, hr, hshows⟩ := h.chains i p hp
    refine ⟨items, hreaches hr, hshows.imp_right ?_⟩
    rintro ⟨c', hc', -⟩
    rw [hphase] at hc'
    cases hc'
  · intro c' hc'
    cases hc'
  · intro i snapshotTs key v hv
    have hfinds := h.readers i snapshotTs key v hv
    obtain ⟨items, hr, hanswer⟩ := hfinds.answer
    exact ⟨hfinds.inTime, fun c' hc' => (by cases hc'), items, hreaches hr, hanswer⟩

/-- Readers move, and nothing else does. -/
theorem TableThreads.Stands.moved (h : s.Stands t) (readers : ℕ → ReadPhase)
    (lookups : List Lookup) (hreaders : ∀ i snapshotTs key v,
      readers i = .walking snapshotTs key v → s.Finds t.ht snapshotTs key v) :
    TableThreads.Stands { s with readers := readers, lookups := lookups }
      { t with lookups := lookups } := by
  have hreaches : ∀ {p items}, s.Reaches p items →
      TableThreads.Reaches { s with readers := readers, lookups := lookups } p items :=
    fun hr => hr.congr rfl fun _ hc => hc
  refine ⟨rfl, h.oneLive, h.capacity, h.counter, ?_, h.inTime, h.progress, ?_⟩
  · intro i p hp
    obtain ⟨items, hr, hshows⟩ := h.chains i p hp
    exact ⟨items, hreaches hr, hshows⟩
  · intro i snapshotTs key v hv
    have hfinds := hreaders i snapshotTs key v hv
    obtain ⟨items, hr, hanswer⟩ := hfinds.answer
    exact ⟨hfinds.inTime, hfinds.earlier, items, hreaches hr, hanswer⟩

/-- A reader that enters finds what a read at once would return. -/
theorem TableThreads.Stands.finds_head (h : s.Stands t) {i : ℕ}
    (happart : KeepsApart s (.get i snapshotTs key)) :
    s.Finds t.ht snapshotTs key (s.memory.head key) := by
  obtain ⟨items, hr, hshows⟩ := h.chains _ _ (h.getElem?_head key)
  refine ⟨happart.1, happart.2, items, hr, ?_⟩
  rcases hshows with hchain | ⟨c, hc, hidx, hchain⟩
  · rw [hchain]
    rfl
  · have hsame : t.ht.chain c.key = t.ht.chain key := by rw [Ht.chain, hidx, Ht.chain]
    rw [hchain, chainGet_sealLive (happart.2 c hc) happart.1, hsame]
    rfl

/-- A reader at a version returns what it is to find, or the rest of the chain holds it. -/
theorem TableThreads.Finds.next {ht : Ht} {v : Option ℕ} (h : s.Finds ht snapshotTs key v) :
    (∃ next, nextRead s.memory snapshotTs key v = .inr next ∧ s.Finds ht snapshotTs key next) ∨
      nextRead s.memory snapshotTs key v = .inl (htGet ht snapshotTs key) := by
  obtain ⟨items, hr, hanswer⟩ := h.answer
  rw [chainGet_eq_findSome?] at hanswer
  cases items with
  | nil =>
    have hv : v = none := hr.linked
    subst hv
    exact Or.inr (congrArg Sum.inl hanswer)
  | cons item items =>
    obtain ⟨hv, next, hnode, hrest⟩ := hr.linked
    subst hv
    rw [List.map_cons, List.findSome?_cons] at hanswer
    cases hlook : look snapshotTs key item.2 with
    | some result =>
      rw [hlook] at hanswer
      refine Or.inr ?_
      simp only [nextRead, hnode, hlook]
      exact congrArg Sum.inl hanswer
    | none =>
      rw [hlook] at hanswer
      refine Or.inl ⟨next, ?_, h.inTime, h.earlier, items, ⟨hrest, fun c hc hmem => ?_⟩, ?_⟩
      · simp only [nextRead, hnode, hlook]
      · exact hr.unshared c hc (List.mem_cons_of_mem _ hmem)
      · rwa [chainGet_eq_findSome?]

/-- The writer goes on. -/
theorem TableThreads.Stands.write (h : s.Stands t) (spurious : Bool) :
    (tableStep s (.write spurious)).Stands
      (exec tableCall t (takesEffect s (.write spurious)).toList) := by
  rcases hphase : s.install with _ | c | ⟨c, old, prev⟩ | ⟨c, old, prev⟩ | ⟨c, old⟩ | _
  · simpa only [tableStep, writeStep, takesEffect, hphase, Option.toList_none, exec_nil] using h
  · simpa only [tableStep, writeStep, takesEffect, hphase, Option.toList_none, exec_nil] using
      h.load hphase
  · cases prev with
    | none =>
      simpa only [tableStep, writeStep, takesEffect, hphase, Option.toList_none, exec_nil] using
        h.sealedAll hphase
    | some prev =>
      cases hprev : s.memory.nodes prev with
      | none =>
        simpa only [tableStep, writeStep, takesEffect, hphase, hprev, Option.toList_none,
          exec_nil] using h
      | some node =>
        simpa only [tableStep, writeStep, takesEffect, hphase, hprev, Option.toList_none,
          exec_nil] using h.look hphase hprev
  · cases hprev : s.memory.nodes prev with
    | none =>
      simpa only [tableStep, writeStep, takesEffect, hphase, hprev, Option.toList_none,
        exec_nil] using h
    | some node =>
      simpa only [tableStep, writeStep, takesEffect, hphase, hprev, Option.toList_none,
        exec_nil] using h.close hphase hprev
  · by_cases hswap : spurious = false ∧ s.memory.head c.key = old
    · simpa only [tableStep, writeStep, takesEffect, hphase, if_pos hswap, Option.toList_some,
        exec_cons, exec_nil] using h.swing hphase
    · simpa only [tableStep, writeStep, takesEffect, hphase, if_neg hswap, Option.toList_none,
        exec_nil] using
        h.retry hphase
  · simpa only [tableStep, writeStep, takesEffect, hphase, Option.toList_none, exec_nil] using
      h.count hphase

/-- A reader goes on. -/
theorem TableThreads.Stands.read (h : s.Stands t) (i : ℕ) :
    (tableStep s (.read i)).Stands (exec tableCall t (takesEffect s (.read i)).toList) := by
  cases hreader : s.readers i with
  | idle => simpa only [tableStep, takesEffect, hreader, Option.toList_none, exec_nil] using h
  | walking snapshotTs key v =>
    rcases (h.readers i snapshotTs key v hreader).next with ⟨next, hnext, hfinds⟩ | hreturns
    · have hmoved := h.moved
        (Function.update s.readers i (.walking snapshotTs key next)) s.lookups
        fun j snapshotTs' key' v' hv' => by
          by_cases hj : j = i
          · subst hj
            rw [Function.update_self] at hv'
            cases hv'
            exact hfinds
          · rw [Function.update_of_ne hj] at hv'
            exact h.readers j snapshotTs' key' v' hv'
      rw [h.lookups] at hmoved
      simpa only [tableStep, takesEffect, hreader, hnext, h.lookups, Option.toList_none,
        exec_nil] using
        hmoved
    · have hmoved := h.moved (Function.update s.readers i .idle)
        (s.lookups ++ [⟨i, snapshotTs, key, htGet t.ht snapshotTs key⟩])
        fun j snapshotTs' key' v' hv' => by
          by_cases hj : j = i
          · subst hj
            rw [Function.update_self] at hv'
            cases hv'
          · rw [Function.update_of_ne hj] at hv'
            exact h.readers j snapshotTs' key' v' hv'
      rw [h.lookups] at hmoved
      simpa only [tableStep, takesEffect, hreader, hreturns, h.lookups, Option.toList_some,
        exec_cons, exec_nil, tableCall] using hmoved

/-- A reader enters. -/
theorem TableThreads.Stands.get (h : s.Stands t) {i : ℕ}
    (happart : KeepsApart s (.get i snapshotTs key)) :
    (tableStep s (.get i snapshotTs key)).Stands t := by
  cases hreader : s.readers i with
  | walking snapshotTs' key' v => simpa only [tableStep, hreader] using h
  | idle =>
    have hmoved := h.moved
      (Function.update s.readers i (.walking snapshotTs key (s.memory.head key))) s.lookups
      fun j snapshotTs' key' v' hv' => by
        by_cases hj : j = i
        · subst hj
          rw [Function.update_self] at hv'
          cases hv'
          exact h.finds_head happart
        · rw [Function.update_of_ne hj] at hv'
          exact h.readers j snapshotTs' key' v' hv'
    rw [h.lookups] at hmoved
    simpa only [tableStep, hreader, h.lookups] using hmoved

/-- Every step is a step of its own, or a call at once. -/
theorem TableThreads.Stands.step (h : s.Stands t) {a : TableStep} (happart : KeepsApart s a) :
    (tableStep s a).Stands (exec tableCall t (takesEffect s a).toList) := by
  cases a with
  | insert c =>
    rcases hphase : s.install with _ | _ | _ | _ | _ | _
    · cases hfree : s.memory.nodes c.node with
      | none =>
        simpa only [tableStep, hphase, hfree, takesEffect, Option.toList_none, exec_nil] using
          h.enter hphase hfree happart
      | some node =>
        simpa only [tableStep, hphase, hfree, takesEffect, Option.toList_none, exec_nil] using h
    all_goals simpa only [tableStep, hphase, takesEffect, Option.toList_none, exec_nil] using h
  | write spurious => exact h.write spurious
  | get i snapshotTs key => exact h.get happart
  | read i => exact h.read i

end Steps

/-- A whole run. -/
theorem TableThreads.Stands.run (as : List TableStep) : ∀ {s : TableThreads} {t : Table},
    s.Stands t → Permitted tableStep KeepsApart s as →
    (exec tableStep s as).Stands (exec tableCall t (tableCalls s as)) := by
  induction as with
  | nil => exact fun h _ => h
  | cons a as ih =>
    intro s t h happart
    rw [exec_cons, tableCalls, exec_append]
    exact ih (h.step happart.1) happart.2

/-- A new table. -/
theorem TableThreads.stands_start {capacity : ℕ} (hcap : ∃ n < 64, capacity = 2 ^ n) :
    (TableThreads.start capacity).Stands ⟨htCreate capacity hcap, []⟩ := by
  have hempty : ∀ i, (htCreate capacity hcap).buckets.getD i [] = [] := by
    intro i
    simp only [htCreate, List.getD_eq_getElem?_getD, List.getElem?_replicate]
    split <;> rfl
  refine ⟨rfl, ?_, ?_, ?_, ?_, ?_, trivial, ?_⟩
  · intro key
    have hchain : (htCreate capacity hcap).chain key = [] := hempty _
    simp [Ht.versions, hchain, keyVersions]
  · simp [TableThreads.start, htCreate]
  · rfl
  · intro i p hp
    have hp' : p = none := List.eq_of_mem_replicate (List.mem_of_getElem? hp)
    subst hp'
    exact ⟨[], ⟨rfl, fun c hc => by cases hc⟩, Or.inl (hempty i).symm⟩
  · intro c hc
    cases hc
  · intro i snapshotTs key v hv
    cases hv

/-- The table of calls that a run stands for. -/
def tableAfter (capacity : ℕ) (hcap : ∃ n < 64, capacity = 2 ^ n) (as : List TableStep) : Table :=
  exec tableCall ⟨htCreate capacity hcap, []⟩ (tableCalls (TableThreads.start capacity) as)

/-- Loads and stores of any number of readers and of one writer at a time, in any order in which
readers and writers keep apart: no version is installed with a timestamp that a reader in the
middle of its walk has reached. The reads return what they return when the calls take place at
once, each at some moment between its first step and its last, and when no writer is at work the
chains in memory are those of the table of the calls. -/
theorem memory_refines_table (capacity : ℕ) (hcap : ∃ n < 64, capacity = 2 ^ n)
    (as : List TableStep)
    (happart : Permitted tableStep KeepsApart (TableThreads.start capacity) as) :
    (exec tableStep (TableThreads.start capacity) as).lookups =
        (tableAfter capacity hcap as).lookups ∧
      ((exec tableStep (TableThreads.start capacity) as).install = .idle →
        (exec tableStep (TableThreads.start capacity) as).memory.numVersions =
            (tableAfter capacity hcap as).ht.numVersions ∧
          ∀ key, ∃ items,
            Linked (exec tableStep (TableThreads.start capacity) as).memory.nodes
              ((exec tableStep (TableThreads.start capacity) as).memory.head key) items ∧
            items.map Prod.snd = (tableAfter capacity hcap as).ht.chain key) := by
  have h := (TableThreads.stands_start hcap).run as happart
  refine ⟨h.lookups, fun hidle => ⟨?_, fun key => ?_⟩⟩
  · have hcounter := h.counter
    rw [if_neg (by rw [hidle]; simp)] at hcounter
    exact hcounter.symm
  · obtain ⟨items, hr, hshows⟩ := h.chains _ _ (h.getElem?_head key)
    refine ⟨items, hr.linked, ?_⟩
    rcases hshows with hchain | ⟨c, hc, -⟩
    · exact hchain
    · rw [hidle] at hc
      cases hc

/-- A version of a key is installed, at the second attempt. -/
def installed : List TableStep :=
  [.insert ⟨0, 2, [1], some [7]⟩, .write false, .write false, .write true, .write false,
    .write false, .write false, .write false]

/-- A reader is at that version when it ends; the reader is earlier. -/
def overtakenReader : List TableStep :=
  [.insert ⟨1, 5, [1], none⟩, .write false, .write false, .write false, .read 0, .write false,
    .write false, .read 0]

/-- The reader keeps apart. -/
theorem keepsApart_overtakenReader : Permitted tableStep KeepsApart (TableThreads.start 1)
    (installed ++ .get 0 3 [1] :: overtakenReader) := by
  refine ⟨⟨by decide, fun i _ _ _ hv => by cases hv⟩, trivial, trivial, trivial, trivial, trivial,
    trivial, trivial, ⟨by decide, fun c hc => by cases hc⟩, ⟨by decide, ?_⟩, trivial, trivial,
    trivial, trivial, trivial, trivial, trivial, trivial⟩
  intro i snapshotTs key v hv
  by_cases hi : i = 0
  · subst hi
    cases hv
    decide
  · have hidle : Function.update (fun _ => ReadPhase.idle) 0 (.walking 3 [1] (some 0)) i =
        .walking snapshotTs key v := hv
    rw [Function.update_of_ne hi] at hidle
    cases hidle

/-- The reader returns the value that a delete ended while it was reading. -/
theorem memory_refines_table_overtaken :
    (exec tableStep (TableThreads.start 1) (installed ++ .get 0 3 [1] :: overtakenReader)).lookups =
        [⟨0, 3, [1], .ok [7]⟩] ∧
      (tableAfter 1 ⟨0, by decide, rfl⟩ (installed ++ .get 0 3 [1] :: overtakenReader)).lookups =
        [⟨0, 3, [1], .ok [7]⟩] :=
  ⟨rfl, (memory_refines_table 1 ⟨0, by decide, rfl⟩ _ keepsApart_overtakenReader).1.symm⟩

/-! ## How long a read takes -/

/-- A step of a reader. -/
def TableStep.isRead (i : ℕ) : TableStep → Bool
  | .read j => decide (j = i)
  | _ => false

/-- The version of the writer with the head that it has loaded. -/
def InstallPhase.loaded : InstallPhase → Option (Install × Option ℕ)
  | .sealing c old _ | .closing c old _ | .swinging c old => some (c, old)
  | .idle | .loading _ | .counting => none

/-- Behind every pointer in use there is a chain, whatever the timestamps are: behind the heads,
before the readers, and behind the head that the writer has pointed its version to. -/
structure TableThreads.Woven (s : TableThreads) : Prop where
  /-- Each bucket. -/
  chains : ∀ p ∈ s.memory.buckets, ∃ items, s.Reaches p items
  /-- The writer. -/
  writer : ∀ c old, s.install.loaded = some (c, old) →
    (∃ v, s.memory.nodes c.node = some ⟨v, old⟩) ∧ ∃ items, s.Reaches old items
  /-- Each reader. -/
  readers : ∀ i snapshotTs key v, s.readers i = .walking snapshotTs key v →
    ∃ items, s.Reaches v items

section Waiting

variable {s : TableThreads} {i : ℕ}

/-- A step that leaves the nodes and begins no call leaves the chains. -/
theorem TableThreads.Reaches.kept {s' : TableThreads} {p : Option ℕ} {items : List (ℕ × Version)}
    (hr : s.Reaches p items) (hnodes : s'.memory.nodes = s.memory.nodes)
    (hcall : ∀ c ∈ s'.install.call, c ∈ s.install.call) :
    ∃ items', s'.Reaches p items' ∧ items'.length = items.length :=
  ⟨items, hr.congr hnodes hcall, rfl⟩

/-- The chain behind a pointer keeps its length when the writer goes on. -/
theorem TableThreads.Reaches.write {p : Option ℕ} {items : List (ℕ × Version)}
    (hr : s.Reaches p items) (spurious : Bool) :
    ∃ items', (tableStep s (.write spurious)).Reaches p items' ∧
      items'.length = items.length := by
  rcases hphase : s.install with _ | c | ⟨c, old, prev⟩ | ⟨c, old, prev⟩ | ⟨c, old⟩ | _
  · simpa only [tableStep, writeStep, hphase] using hr.kept rfl fun _ hc => hc
  · -- the next pointer of the new node is written, which nothing points to yet
    refine ⟨items, ?_, rfl⟩
    simp only [tableStep, writeStep, hphase]
    refine hr.store (hr.unshared c (by rw [hphase]; rfl)) rfl fun c' hc' => ?_
    cases hc'
    rfl
  · have hcall : s.install.call = some c := by rw [hphase]; rfl
    cases prev with
    | none =>
      simp only [tableStep, writeStep, hphase]
      exact hr.kept rfl fun c' hc' => hcall.trans hc'
    | some prev =>
      simp only [tableStep, writeStep, hphase]
      split
      · exact hr.kept rfl fun c' hc' => hc'
      · split
        · exact hr.kept rfl fun c' hc' => hcall.trans hc'
        · exact hr.kept rfl fun c' hc' => hcall.trans hc'
  · -- a version ends where it is
    have hcall : s.install.call = some c := by rw [hphase]; rfl
    cases hprev : s.memory.nodes prev with
    | none => simpa only [tableStep, writeStep, hphase, hprev] using hr.kept rfl fun _ hc => hc
    | some node =>
      simp only [tableStep, writeStep, hphase, hprev]
      refine ⟨_, ⟨hr.linked.store hprev, fun c' hc' => ?_⟩, by simp [replaceAt]⟩
      rw [map_fst_replaceAt]
      exact hr.unshared c' (hcall.trans hc')
  · have hcall : s.install.call = some c := by rw [hphase]; rfl
    simp only [tableStep, writeStep, hphase]
    split
    · exact hr.kept rfl fun c' hc' => by cases hc'
    · exact hr.kept rfl fun c' hc' => hcall.trans hc'
  · simp only [tableStep, writeStep, hphase]
    exact hr.kept rfl fun c' hc' => by cases hc'

/-- It keeps it in every step. -/
theorem TableThreads.Reaches.step {p : Option ℕ} {items : List (ℕ × Version)}
    (hr : s.Reaches p items) (a : TableStep) :
    ∃ items', (tableStep s a).Reaches p items' ∧ items'.length = items.length := by
  cases a with
  | insert c =>
    rcases hphase : s.install with _ | _ | _ | _ | _ | _
    · cases hfree : s.memory.nodes c.node with
      | none =>
        refine ⟨items, ?_, rfl⟩
        simp only [tableStep, hphase, hfree]
        refine hr.store (fun hmem => ?_) rfl fun c' hc' => ?_
        · obtain ⟨node, hnode⟩ := hr.linked.mem_heap hmem
          rw [hfree] at hnode
          cases hnode
        · cases hc'
          rfl
      | some node => simpa only [tableStep, hphase, hfree] using hr.kept rfl fun _ hc => hc
    all_goals simpa only [tableStep, hphase] using hr.kept rfl fun _ hc => hc
  | write spurious => exact hr.write spurious
  | get j snapshotTs key =>
    simp only [tableStep]
    split
    · exact hr.kept rfl fun _ hc => hc
    · exact hr.kept rfl fun _ hc => hc
  | read j =>
    simp only [tableStep]
    split
    · exact hr.kept rfl fun _ hc => hc
    · split
      · exact hr.kept rfl fun _ hc => hc
      · exact hr.kept rfl fun _ hc => hc

/-- The steps of others leave a reader where it is. -/
theorem readers_tableStep {snapshotTs : ℕ} {key : Bytes} {v : Option ℕ}
    (hreader : s.readers i = .walking snapshotTs key v) {a : TableStep}
    (ha : a.isRead i = false) : (tableStep s a).readers i = .walking snapshotTs key v := by
  cases a with
  | insert c =>
    simp only [tableStep]
    split <;> exact hreader
  | write spurious =>
    simp only [tableStep, writeStep]
    split
    · exact hreader
    · exact hreader
    · exact hreader
    · split
      · exact hreader
      · split <;> exact hreader
    · split <;> exact hreader
    · split <;> exact hreader
    · exact hreader
  | get j snapshotTs' key' =>
    have hj : j = i → s.readers j ≠ .idle := by
      rintro rfl hidle
      rw [hreader] at hidle
      cases hidle
    simp only [tableStep]
    split
    · rename_i hidle
      exact (Function.update_of_ne (fun heq => hj heq.symm hidle) ..).trans hreader
    · exact hreader
  | read j =>
    have hj : i ≠ j := by
      rintro rfl
      simp [TableStep.isRead] at ha
    simp only [tableStep]
    split
    · exact hreader
    · split
      · exact (Function.update_of_ne hj ..).trans hreader
      · exact (Function.update_of_ne hj ..).trans hreader

/-- So there is a chain behind it still. -/
theorem TableThreads.Reaches.exists_step {p : Option ℕ} (h : ∃ items, s.Reaches p items)
    (a : TableStep) : ∃ items, (tableStep s a).Reaches p items := by
  obtain ⟨items, hr⟩ := h
  obtain ⟨items', hr', -⟩ := hr.step a
  exact ⟨items', hr'⟩

/-- There is a chain behind what a load of a head returns. -/
theorem TableThreads.Woven.head (h : s.Woven) (key : Bytes) :
    ∃ items, s.Reaches (s.memory.head key) items := by
  unfold TableMemory.head
  rw [List.getD_eq_getElem?_getD]
  cases hp : s.memory.buckets[s.memory.idx key]? with
  | none => exact ⟨[], rfl, fun _ _ => List.not_mem_nil⟩
  | some p => exact h.chains p (List.mem_of_getElem? hp)

/-- The next version in a chain. -/
theorem TableThreads.Reaches.next {v : ℕ} {node : ListNode ℕ Version}
    {items : List (ℕ × Version)} (hr : s.Reaches (some v) items)
    (hnode : s.memory.nodes v = some node) :
    ∃ items', s.Reaches node.next items' ∧ items.length = items'.length + 1 := by
  cases items with
  | nil => cases (show some v = none from hr.linked)
  | cons item items =>
    obtain ⟨hv, next, hheld, hrest⟩ := hr.linked
    rw [← Option.some.inj hv, hnode] at hheld
    obtain rfl := Option.some.inj hheld
    exact ⟨items, ⟨hrest, fun c hc hmem => hr.unshared c hc (List.mem_cons_of_mem _ hmem)⟩, rfl⟩

/-- In a new table nothing is behind any pointer. -/
theorem TableThreads.woven_start (capacity : ℕ) : (TableThreads.start capacity).Woven := by
  refine ⟨fun p hp => ?_, fun c old hc => ?_, fun i snapshotTs key v hv => ?_⟩
  · obtain rfl : p = none := List.eq_of_mem_replicate hp
    exact ⟨[], rfl, fun _ _ => List.not_mem_nil⟩
  · cases hc
  · cases hv

/-- Nothing is written to a node, and threads go on. -/
theorem TableThreads.Woven.goOn {s' : TableThreads} (h : s.Woven)
    (hnodes : s'.memory.nodes = s.memory.nodes) (hbuckets : s'.memory.buckets = s.memory.buckets)
    (hcall : ∀ c ∈ s'.install.call, c ∈ s.install.call)
    (hloaded : ∀ l ∈ s'.install.loaded, l ∈ s.install.loaded)
    (hreaders : ∀ i snapshotTs key v, s'.readers i = .walking snapshotTs key v →
      ∃ items, s.Reaches v items) : s'.Woven := by
  have hreaches : ∀ {p}, (∃ items, s.Reaches p items) → ∃ items, s'.Reaches p items := by
    rintro p ⟨items, hr⟩
    exact ⟨items, hr.congr hnodes hcall⟩
  refine ⟨fun p hp => hreaches (h.chains p (hbuckets ▸ hp)), fun c old hc => ?_,
    fun i snapshotTs key v hv => hreaches (hreaders i snapshotTs key v hv)⟩
  obtain ⟨⟨v, hnode⟩, hold⟩ := h.writer c old (hloaded _ hc)
  exact ⟨⟨v, by rw [hnodes, hnode]⟩, hreaches hold⟩

/-- A writer enters. -/
theorem TableThreads.Woven.insert (h : s.Woven) (c : Install) :
    (tableStep s (.insert c)).Woven := by
  have hkept := fun {p} hp => TableThreads.Reaches.exists_step (s := s) (p := p) hp (.insert c)
  have hbuckets : (tableStep s (.insert c)).memory.buckets = s.memory.buckets := by
    simp only [tableStep]
    split <;> rfl
  have hreaders : (tableStep s (.insert c)).readers = s.readers := by
    simp only [tableStep]
    split <;> rfl
  refine ⟨fun p hp => hkept (h.chains p (hbuckets ▸ hp)), fun c' old hc' => ?_,
    fun i snapshotTs key v hv => hkept (h.readers i snapshotTs key v (hreaders ▸ hv))⟩
  have hsame : tableStep s (.insert c) = s ∨ (tableStep s (.insert c)).install = .loading c := by
    simp only [tableStep]
    split
    · exact Or.inr rfl
    · exact Or.inl rfl
  rcases hsame with hsame | hloading
  · rw [hsame] at hc' ⊢
    exact h.writer c' old hc'
  · rw [hloading] at hc'
    cases hc'

/-- The writer loads the head and points its version to it. -/
theorem TableThreads.Woven.load (h : s.Woven) {c : Install} (hphase : s.install = .loading c) :
    (tableStep s (.write false)).Woven := by
  have hkept := fun {p} hp => TableThreads.Reaches.exists_step (s := s) (p := p) hp (.write false)
  have hhead := hkept (h.head c.key)
  simp only [tableStep, writeStep, hphase] at hkept hhead ⊢
  refine ⟨fun p hp => hkept (h.chains p hp), fun c' old hc' => ?_,
    fun i snapshotTs key v hv => hkept (h.readers i snapshotTs key v hv)⟩
  cases hc'
  exact ⟨⟨c.version, Function.update_self ..⟩, hhead⟩

/-- The writer ends a version; the next one stays the next one. -/
theorem TableThreads.Woven.close (h : s.Woven) {c : Install} {old : Option ℕ} {prev : ℕ}
    {node : ListNode ℕ Version} (hphase : s.install = .closing c old prev)
    (hprev : s.memory.nodes prev = some node) : (tableStep s (.write false)).Woven := by
  have hkept := fun {p} hp => TableThreads.Reaches.exists_step (s := s) (p := p) hp (.write false)
  obtain ⟨⟨v, hnode⟩, hold⟩ := h.writer c old (by rw [hphase]; rfl)
  have hold' := hkept hold
  simp only [tableStep, writeStep, hphase, hprev] at hkept hold' ⊢
  refine ⟨fun p hp => hkept (h.chains p hp), fun c' old' hc' => ?_,
    fun i snapshotTs key v hv => hkept (h.readers i snapshotTs key v hv)⟩
  cases hc'
  refine ⟨?_, hold'⟩
  by_cases hc : c.node = prev
  · rw [hc, hprev] at hnode
    obtain rfl := Option.some.inj hnode
    exact ⟨{ v with endTs := c.commitTs }, by rw [hc]; exact Function.update_self ..⟩
  · exact ⟨v, (Function.update_of_ne hc ..).trans hnode⟩

/-- The compare-and-swap succeeds. -/
theorem TableThreads.Woven.swing (h : s.Woven) {c : Install} {old : Option ℕ}
    (hphase : s.install = .swinging c old) (hhead : s.memory.head c.key = old) :
    (tableStep s (.write false)).Woven := by
  have hkept := fun {p} hp => TableThreads.Reaches.exists_step (s := s) (p := p) hp (.write false)
  obtain ⟨⟨v, hnode⟩, items, hr⟩ := h.writer c old (by rw [hphase]; rfl)
  simp only [tableStep, writeStep, hphase, hhead, and_self, if_true] at hkept ⊢
  refine ⟨fun p hp => ?_, fun c' old' hc' => (by cases hc'),
    fun i snapshotTs key v hv => hkept (h.readers i snapshotTs key v hv)⟩
  rcases List.mem_or_eq_of_mem_set hp with hp | rfl
  · exact hkept (h.chains p hp)
  · exact ⟨(c.node, v) :: items, ⟨rfl, old, hnode, hr.linked⟩, fun c' hc' => by cases hc'⟩

/-- The writer goes on. -/
theorem TableThreads.Woven.write (h : s.Woven) (spurious : Bool) :
    (tableStep s (.write spurious)).Woven := by
  have hgoOn : ∀ phase : InstallPhase, (∀ c ∈ phase.call, c ∈ s.install.call) →
      (∀ l ∈ phase.loaded, l ∈ s.install.loaded) →
      TableThreads.Woven { s with install := phase } :=
    fun _ hcall hloaded => h.goOn rfl rfl hcall hloaded h.readers
  rcases hphase : s.install with _ | c | ⟨c, old, prev⟩ | ⟨c, old, prev⟩ | ⟨c, old⟩ | _
  · simpa only [tableStep, writeStep, hphase] using h
  · simpa only [tableStep, writeStep, hphase] using h.load hphase
  · rw [hphase] at hgoOn
    cases prev with
    | none =>
      simpa only [tableStep, writeStep, hphase] using
        hgoOn (.swinging c old) (fun _ hc => hc) fun _ hl => hl
    | some prev =>
      cases hprev : s.memory.nodes prev with
      | none => simpa only [tableStep, writeStep, hphase, hprev] using h
      | some node =>
        simp only [tableStep, writeStep, hphase, hprev]
        split
        · exact hgoOn (.closing c old prev) (fun _ hc => hc) fun _ hl => hl
        · exact hgoOn (.sealing c old node.next) (fun _ hc => hc) fun _ hl => hl
  · cases hprev : s.memory.nodes prev with
    | none => simpa only [tableStep, writeStep, hphase, hprev] using h
    | some node => simpa only [tableStep, writeStep, hphase, hprev] using h.close hphase hprev
  · by_cases hswap : spurious = false ∧ s.memory.head c.key = old
    · obtain ⟨rfl, hhead⟩ := hswap
      exact h.swing hphase hhead
    · rw [hphase] at hgoOn
      simpa only [tableStep, writeStep, hphase, if_neg hswap] using
        hgoOn (.loading c) (fun _ hc => hc) fun _ hl => by cases hl
  · simp only [tableStep, writeStep, hphase]
    exact h.goOn rfl rfl (fun _ hc => by cases hc) (fun _ hl => by cases hl) h.readers

/-- A reader moves. -/
theorem TableThreads.Woven.moved (h : s.Woven) {phase : ReadPhase} (lookups : List Lookup)
    (hphase : ∀ snapshotTs key v, phase = .walking snapshotTs key v →
      ∃ items, s.Reaches v items) :
    TableThreads.Woven { s with
      readers := Function.update s.readers i phase, lookups := lookups } := by
  refine h.goOn rfl rfl (fun _ hc => hc) (fun _ hl => hl) fun j snapshotTs key v hv => ?_
  by_cases hj : j = i
  · subst hj
    exact hphase snapshotTs key v ((Function.update_self ..).symm.trans hv)
  · exact h.readers j snapshotTs key v ((Function.update_of_ne hj ..).symm.trans hv)

/-- Every step keeps a chain behind every pointer. -/
theorem TableThreads.Woven.step (h : s.Woven) (a : TableStep) : (tableStep s a).Woven := by
  cases a with
  | insert c => exact h.insert c
  | write spurious => exact h.write spurious
  | get j snapshotTs key =>
    simp only [tableStep]
    split
    · refine h.moved s.lookups fun snapshotTs' key' v hv => ?_
      cases hv
      exact h.head key
    · exact h
  | read j =>
    simp only [tableStep]
    split
    · exact h
    · rename_i snapshotTs key v hreader
      split
      · exact h.moved _ fun snapshotTs' key' v' hv' => by cases hv'
      · rename_i next hnext
        refine h.moved s.lookups fun snapshotTs' key' v' hv' => ?_
        cases hv'
        obtain ⟨items, hr⟩ := h.readers j snapshotTs key v hreader
        cases v with
        | none => cases hnext
        | some v =>
          cases hnode : s.memory.nodes v with
          | none =>
            simp only [nextRead, hnode] at hnext
            cases hnext
            exact ⟨[], rfl, fun _ _ => List.not_mem_nil⟩
          | some node =>
            obtain ⟨items', hr', -⟩ := hr.next hnode
            simp only [nextRead, hnode] at hnext
            split at hnext
            · cases hnext
            · cases hnext
              exact ⟨items', hr'⟩

/-- A whole run. -/
theorem TableThreads.Woven.run (as : List TableStep) : ∀ {s : TableThreads}, s.Woven →
    (exec tableStep s as).Woven := by
  induction as with
  | nil => exact fun h => h
  | cons a as ih => exact fun h => ih (h.step a)

/-- A reader returns after as many steps as there are versions before it, and one more, whatever
the others do. -/
theorem TableThreads.Woven.returns (bs : List TableStep) : ∀ {s : TableThreads} {snapshotTs : ℕ}
    {key : Bytes} {v : Option ℕ} {items : List (ℕ × Version)}, s.Woven →
    s.readers i = .walking snapshotTs key v → s.Reaches v items →
    items.length < bs.countP (TableStep.isRead i) →
    ∃ k ≤ bs.length, (exec tableStep s (bs.take k)).readers i = .idle := by
  induction bs with
  | nil => exact fun _ _ _ hn => absurd hn (Nat.not_lt_zero _)
  | cons a bs ih =>
    intro s snapshotTs key v items h hreader hr hn
    obtain ⟨items', hr', hlength⟩ := hr.step a
    have hlater : ∀ {v items}, (tableStep s a).readers i = .walking snapshotTs key v →
        (tableStep s a).Reaches v items → items.length < bs.countP (TableStep.isRead i) →
        ∃ k ≤ (a :: bs).length, (exec tableStep s ((a :: bs).take k)).readers i = .idle := by
      intro v items hreader' hr' hlt
      obtain ⟨k, hk, hidle⟩ := ih (h.step a) hreader' hr' hlt
      exact ⟨k + 1, Nat.succ_le_succ hk, hidle⟩
    by_cases ha : a.isRead i = true
    · have ha' : a = .read i := by
        cases a with
        | read j => rw [of_decide_eq_true ha]
        | insert _ => cases ha
        | write _ => cases ha
        | get _ _ _ => cases ha
      subst ha'
      rw [List.countP_cons_of_pos ha] at hn
      cases hnext : nextRead s.memory snapshotTs key v with
      | inl result =>
        refine ⟨1, by simp, ?_⟩
        simp only [List.take_succ_cons, List.take_zero, exec_cons, exec_nil, tableStep, hreader,
          hnext, Function.update_self]
      | inr next =>
        -- the reader stood at a version, or it would have returned
        cases v with
        | none => cases hnext
        | some v =>
          cases items with
          | nil => cases (show some v = none from hr.linked)
          | cons item items =>
            obtain ⟨hv, next', hnode, -⟩ := hr.linked
            rw [← Option.some.inj hv] at hnode
            obtain ⟨rest, hrest, hcount⟩ := hr.next hnode
            have hsame : next' = next := by
              simp only [nextRead, hnode] at hnext
              split at hnext
              · cases hnext
              · exact Sum.inr.inj hnext
            subst hsame
            obtain ⟨rest', hrest', hlength'⟩ := hrest.step (.read i)
            refine hlater ?_ hrest' (by omega)
            simp only [tableStep, hreader, hnext, Function.update_self]
    · have ha' : a.isRead i = false := by simpa using ha
      rw [List.countP_cons_of_neg ha] at hn
      exact hlater (readers_tableStep hreader ha') hr' (by omega)

end Waiting

/-- Readers never wait for each other nor for a writer, whatever the timestamps are: a reader
returns after as many steps of its own as its bucket has versions when it begins, and one more,
whatever the others do in between. -/
theorem reads_wait_free (capacity : ℕ) (as : List TableStep) (i snapshotTs : ℕ) (key : Bytes)
    (hidle : (exec tableStep (TableThreads.start capacity) as).readers i = .idle) :
    ∃ items, Linked (exec tableStep (TableThreads.start capacity) as).memory.nodes
        ((exec tableStep (TableThreads.start capacity) as).memory.head key) items ∧
      ∀ bs : List TableStep, items.length < bs.countP (TableStep.isRead i) →
        ∃ k ≤ bs.length, (exec tableStep (TableThreads.start capacity)
          (as ++ .get i snapshotTs key :: bs.take k)).readers i = .idle := by
  have h := (TableThreads.woven_start capacity).run as
  set s := exec tableStep (TableThreads.start capacity) as with hs
  obtain ⟨items, hr⟩ := h.head key
  refine ⟨items, hr.linked, fun bs hsteps => ?_⟩
  obtain ⟨items', hr', hlength⟩ := hr.step (.get i snapshotTs key)
  have hreader : (tableStep s (.get i snapshotTs key)).readers i =
      .walking snapshotTs key (s.memory.head key) := by
    simp only [tableStep, hidle, Function.update_self]
  obtain ⟨k, hk, hdone⟩ := (h.step (.get i snapshotTs key)).returns bs hreader hr'
    (by omega)
  refine ⟨k, hk, ?_⟩
  rw [exec_append, exec_cons, ← hs]
  exact hdone

/-- A reader that does not keep apart: it is as late as the version that is being installed, and
that comes into the table while the reader is at the older one. -/
def lateReader : List TableStep :=
  [.insert ⟨1, 5, [1], some [8]⟩, .write false, .write false, .write false, .read 0, .write false,
    .write false, .read 0]

/-- It finds neither the version that has ended nor the one that comes into the table. -/
example : (exec tableStep (TableThreads.start 1)
    (installed ++ .get 0 5 [1] :: lateReader)).lookups = [⟨0, 5, [1], .error .notfound⟩] := rfl

/-- It returns nevertheless. -/
theorem reads_wait_free_late : ∃ k ≤ lateReader.length, (exec tableStep (TableThreads.start 1)
    (installed ++ .get 0 5 [1] :: lateReader.take k)).readers 0 = .idle := by
  obtain ⟨items, hlinked, hreturns⟩ := reads_wait_free 1 installed 0 5 [1] rfl
  have hone : Linked (exec tableStep (TableThreads.start 1) installed).memory.nodes (some 0)
      [(0, ⟨2, tsMax, [1], some [7]⟩)] := ⟨rfl, none, rfl, rfl⟩
  refine hreturns lateReader ?_
  rw [hlinked.unique hone]
  decide

end FastKV
