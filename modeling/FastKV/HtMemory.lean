import FastKV.Lib.LinkedChain
import FastKV.Lib.Steps
import FastKV.VersionMap

/-!
# The hash table in memory

`storage/hashtable/ht.c` once more, now by the single loads and stores. The versions of a
bucket are nodes that a pointer leads to. One thread at a time is in `ht_insert_version`: it
loads the head, looks for the live version of its key and ends it, and makes its own version
the head by a compare-and-swap, which may fail for no reason and is then tried again. Any
number of threads are in `fastkv_ht_get` meanwhile, each at some node of a chain. Nobody
collects garbage.

A read takes its place in the order of all calls at its last load, an insertion at the
compare-and-swap that succeeds.
-/

namespace FastKV

open Lib

/-- `fastkv_ht_t` in memory. -/
structure TableMemory where
  /-- The versions that have been allocated. -/
  nodes : ℕ → Option (ListNode ℕ Version)
  /-- The `buckets` array. -/
  buckets : List (Option ℕ)
  /-- `num_versions`. -/
  numVersions : ℕ

/-- The bucket of a key. -/
def TableMemory.idx (m : TableMemory) (key : Bytes) : ℕ := maskedHash m.buckets.length key

/-- What a load of the head of the bucket of a key returns. -/
def TableMemory.head (m : TableMemory) (key : Bytes) : Option ℕ := m.buckets.getD (m.idx key) none

/-- A store to a node. -/
def TableMemory.store (m : TableMemory) (a : ℕ) (v : Version) (next : Option ℕ) : TableMemory :=
  { m with nodes := Function.update m.nodes a (some ⟨v, next⟩) }

/-- The arguments of `ht_insert_version`, with the memory that it gets for its version. -/
structure Install where
  /-- The address that the allocator returns. -/
  node : ℕ
  /-- `commit_ts`. -/
  commitTs : ℕ
  /-- `key`. -/
  key : Bytes
  /-- `value`; the null slice is a tombstone. -/
  value : Slice
  deriving DecidableEq

/-- The version that is installed. -/
def Install.version (c : Install) : Version := newVersion c.commitTs c.key c.value

/-- A version that the installation ends. -/
def Install.Ends (c : Install) (v : Version) : Prop := v.key = c.key ∧ v.endTs = tsMax

instance (c : Install) (v : Version) : Decidable (c.Ends v) :=
  inferInstanceAs (Decidable (_ ∧ _))

/-- Where the thread in `ht_insert_version` stands. -/
inductive InstallPhase
  /-- There is no such thread. -/
  | idle
  /-- It loads the head next. -/
  | loading (c : Install)
  /-- It looks at the version `prev` next; the head was `old`. -/
  | sealing (c : Install) (old prev : Option ℕ)
  /-- It stores the end of the version `prev` next. -/
  | closing (c : Install) (old : Option ℕ) (prev : ℕ)
  /-- It tries the compare-and-swap next. -/
  | swinging (c : Install) (old : Option ℕ)
  /-- The version is in the table, and the counter is increased next. -/
  | counting
  deriving DecidableEq

/-- The call whose version is not in the table yet. -/
def InstallPhase.call : InstallPhase → Option Install
  | .loading c | .sealing c _ _ | .closing c _ _ | .swinging c _ => some c
  | .idle | .counting => none

/-- Where a thread in `fastkv_ht_get` stands. -/
inductive ReadPhase
  /-- It is not in the call. -/
  | idle
  /-- It looks at the version `v` next. -/
  | walking (snapshotTs : ℕ) (key : Bytes) (v : Option ℕ)

/-- The result of a read. -/
structure Lookup where
  /-- The thread. -/
  reader : ℕ
  /-- `snapshot_ts`. -/
  snapshotTs : ℕ
  /-- `key`. -/
  key : Bytes
  /-- What `fastkv_ht_get` returned. -/
  result : Except Err Bytes

/-- The table with the threads that use it. -/
structure TableThreads where
  /-- The table. -/
  memory : TableMemory
  /-- The writer. -/
  install : InstallPhase
  /-- The readers. -/
  readers : ℕ → ReadPhase
  /-- The reads that have returned. -/
  lookups : List Lookup

/-- One step of one thread. -/
inductive TableStep
  /-- A writer enters `ht_insert_version` and fills in its version. -/
  | insert (c : Install)
  /-- The writer goes on; a compare-and-swap fails for no reason if `spurious` says so. -/
  | write (spurious : Bool)
  /-- A reader enters `fastkv_ht_get` and loads the head. -/
  | get (i snapshotTs : ℕ) (key : Bytes)
  /-- The reader goes on. -/
  | read (i : ℕ)

/-- The writer goes on. The pointer from a node to the next one is written before others can
reach the node, so that it is loaded together with the end of the version. -/
def writeStep (s : TableThreads) (spurious : Bool) : TableThreads :=
  match s.install with
  | .idle => s
  | .loading c =>
    let old := s.memory.head c.key
    { s with memory := s.memory.store c.node c.version old, install := .sealing c old old }
  | .sealing c old none => { s with install := .swinging c old }
  | .sealing c old (some prev) =>
    match s.memory.nodes prev with
    | none => s
    | some node =>
      if c.Ends node.value then { s with install := .closing c old prev }
      else { s with install := .sealing c old node.next }
  | .closing c old prev =>
    match s.memory.nodes prev with
    | none => s
    | some node =>
      { s with
        memory := s.memory.store prev { node.value with endTs := c.commitTs } node.next
        install := .swinging c old }
  | .swinging c old =>
    if spurious = false ∧ s.memory.head c.key = old then
      { s with
        memory := { s.memory with
          buckets := s.memory.buckets.set (s.memory.idx c.key) (some c.node) }
        install := .counting }
    else { s with install := .loading c }
  | .counting =>
    { s with
      memory := { s.memory with numVersions := add64 s.memory.numVersions 1 }
      install := .idle }

/-- What `fastkv_ht_get` returns at a version, if it returns. -/
def look (snapshotTs : ℕ) (key : Bytes) (v : Version) : Option (Except Err Bytes) :=
  if v.key = key ∧ v.beginTs ≤ snapshotTs ∧ snapshotTs < v.endTs then some (readResult v.value)
  else none

/-- What the next step of a reader makes of it: the call returns, or it goes on to the next
version. -/
def nextRead (m : TableMemory) (snapshotTs : ℕ) (key : Bytes) :
    Option ℕ → Except Err Bytes ⊕ Option ℕ
  | none => .inl (.error .notfound)
  | some v =>
    match m.nodes v with
    | none => .inr none
    | some node =>
      match look snapshotTs key node.value with
      | some result => .inl result
      | none => .inr node.next

/-- One step. -/
def tableStep (s : TableThreads) : TableStep → TableThreads
  | .insert c =>
    match s.install, s.memory.nodes c.node with
    | .idle, none =>
      { s with memory := s.memory.store c.node c.version none, install := .loading c }
    | _, _ => s
  | .write spurious => writeStep s spurious
  | .get i snapshotTs key =>
    match s.readers i with
    | .idle =>
      { s with readers :=
          Function.update s.readers i (.walking snapshotTs key (s.memory.head key)) }
    | _ => s
  | .read i =>
    match s.readers i with
    | .idle => s
    | .walking snapshotTs key v =>
      match nextRead s.memory snapshotTs key v with
      | .inl result =>
        { s with
          readers := Function.update s.readers i .idle
          lookups := s.lookups ++ [⟨i, snapshotTs, key, result⟩] }
      | .inr next =>
        { s with readers := Function.update s.readers i (.walking snapshotTs key next) }

/-- A new table. -/
def TableThreads.start (capacity : ℕ) : TableThreads :=
  ⟨⟨fun _ => none, List.replicate capacity none, 0⟩, .idle, fun _ => .idle, []⟩

/-! ## Calls that take place at once -/

/-- A call of the table. -/
inductive TableCall
  /-- `ht_insert_version`. -/
  | insert (commitTs : ℕ) (key : Bytes) (value : Slice)
  /-- `fastkv_ht_get`. -/
  | get (i snapshotTs : ℕ) (key : Bytes)

/-- A table whose calls take place at once, and what the reads have returned. -/
structure Table where
  /-- The table. -/
  ht : Ht
  /-- The reads that have returned. -/
  lookups : List Lookup

/-- One call. -/
def tableCall (t : Table) : TableCall → Table
  | .insert commitTs key value => { t with ht := htInsertVersion t.ht commitTs key value }
  | .get i snapshotTs key =>
    { t with lookups := t.lookups ++ [⟨i, snapshotTs, key, htGet t.ht snapshotTs key⟩] }

/-- The call that takes effect in a step. -/
def takesEffect (s : TableThreads) : TableStep → Option TableCall
  | .write spurious =>
    match s.install with
    | .swinging c old =>
      if spurious = false ∧ s.memory.head c.key = old then
        some (.insert c.commitTs c.key c.value)
      else none
    | _ => none
  | .read i =>
    match s.readers i with
    | .idle => none
    | .walking snapshotTs key v =>
      match nextRead s.memory snapshotTs key v with
      | .inl _ => some (.get i snapshotTs key)
      | .inr _ => none
  | _ => none

/-- The calls of a run, in the order in which they take effect. -/
def tableCalls : TableThreads → List TableStep → List TableCall
  | _, [] => []
  | s, a :: as => (takesEffect s a).toList ++ tableCalls (tableStep s a) as

/-- Readers and writers that keep apart: while a read at a timestamp is going on, versions are
installed with later timestamps only. A transaction that began before the commit drew its
timestamp reads like this. -/
def KeepsApart (s : TableThreads) : TableStep → Prop
  | .insert c =>
    c.commitTs < tsMax ∧
      ∀ i snapshotTs key v, s.readers i = .walking snapshotTs key v → snapshotTs < c.commitTs
  | .get _ snapshotTs _ => snapshotTs < tsMax ∧ ∀ c ∈ s.install.call, snapshotTs < c.commitTs
  | _ => True

end FastKV
