import FastKV.Lib.Locks

/-!
# The locks of the engine

Which locks each call and each background thread takes, in which order, and where it waits for
something outside: a socket, the condition variable of a sender, or the end of a sleep. What a
call does otherwise is left out; where it depends on the data which locks it takes, the data
that decides is an argument. Joining a thread is written as acquiring a lock that the thread has
from its beginning to its end. The functions that the user hands in are not supposed to call the
engine while they run under one of its locks.

The locks are taken in one order: the commit lock, the lock of the log, the lock of the list of
senders, the thread of a sender, its queue, the list of indexes, and the trees.
-/

namespace FastKV.Locking

open Lib

/-- A B+tree with a lock of its own. -/
inductive TreeName
  /-- `db->btree`. -/
  | primary
  /-- `db->ttl_key`. -/
  | ttlKey
  /-- `db->ttl_exp`. -/
  | ttlExp
  /-- The tree of a secondary index. -/
  | index (i : ℕ)
  deriving DecidableEq

/-- The locks, and the threads that can be joined. -/
inductive LockName
  /-- `accept_thr`. -/
  | acceptThread
  /-- `cli->thr`. -/
  | receiverThread
  /-- `compact_thread`. -/
  | compactionThread
  /-- `commit_lock`. -/
  | commitLock
  /-- `wal->lock`. -/
  | walLock
  /-- `senders_lock`. -/
  | sendersLock
  /-- `s->thr` of a sender. -/
  | senderThread (s : ℕ)
  /-- `s->queue_lock` of a sender. -/
  | queueLock (s : ℕ)
  /-- `index_lock`. -/
  | indexLock
  /-- The lock of a B+tree. -/
  | tree (t : TreeName)
  /-- The lock of an R-tree. -/
  | rtree (t : ℕ)
  deriving DecidableEq

/-- The order in which the locks are taken. -/
def LockName.rank : LockName → ℕ
  | .acceptThread | .receiverThread | .compactionThread => 1
  | .commitLock => 2
  | .walLock => 3
  | .sendersLock => 4
  | .senderThread _ => 5
  | .queueLock _ => 6
  | .indexLock => 7
  | .tree _ | .rtree _ => 8

/-- What a piece of code does with the locks. -/
abbrev Locks := List (LockEvent LockName)

/-- `pthread_join`. -/
def join (thread : LockName) : Locks := within thread true []

/-! ## The trees -/

/-- `fastkv_btree_insert`. -/
def btreeInsert (t : TreeName) : Locks := within (.tree t) false []

/-- `fastkv_btree_delete`. -/
def btreeDelete (t : TreeName) : Locks := within (.tree t) false []

/-- `fastkv_btree_get`. -/
def btreeGet (t : TreeName) : Locks := within (.tree t) true []

/-- `fastkv_btree_scan`. -/
def btreeScan (t : TreeName) : Locks := within (.tree t) true []

/-- `fastkv_rtree_insert` and `fastkv_rtree_delete`. -/
def rtreeWrite (t : ℕ) : Locks := within (.rtree t) false []

/-- `fastkv_rtree_within`, `fastkv_rtree_intersects` and `fastkv_rtree_nearby`. -/
def rtreeRead (t : ℕ) : Locks := within (.rtree t) true []

/-! ## Replication, the primary's side -/

/-- `sender_enqueue` for a sender that is connected. -/
def senderEnqueue (s : ℕ) : Locks := within (.queueLock s) false []

/-- `fastkv_repl_broadcast`, with the senders that are connected. -/
def replBroadcast (senders : List ℕ) : Locks :=
  within .sendersLock false (senders.flatMap senderEnqueue)

/-- `sender_destroy`. -/
def senderDestroy (s : ℕ) : Locks := within (.queueLock s) false [] ++ join (.senderThread s)

/-- `prune_disconnected`, with the senders that are not connected. -/
def pruneDisconnected (senders : List ℕ) : Locks :=
  within .sendersLock false (senders.flatMap senderDestroy)

/-- `fastkv_repl_server_destroy`, with the senders of the list. -/
def replServerDestroy (senders : List ℕ) : Locks :=
  join .acceptThread ++ (within .sendersLock false [] ++ senders.flatMap senderDestroy)

/-! ## The log -/

/-- `fastkv_wal_append`; if there is a hook, with the senders that are connected. -/
def walAppend (hook : Option (List ℕ)) : Locks :=
  within .walLock false (hook.elim [] replBroadcast)

/-- `fastkv_wal_sync`, `fastkv_wal_rotate`, `fastkv_wal_set_hook`, `fastkv_wal_current_segment`
and `fastkv_wal_bytes_written`. -/
def walLocked : Locks := within .walLock false []

/-! ## Transactions -/

/-- What decides the locks that `fastkv_db_apply_write_set` takes for an entry. -/
structure EntryLocks where
  /-- Whether there is a log, and the hook of the log. -/
  log : Option (Option (List ℕ))
  /-- The entry has a value. -/
  hasValue : Bool
  /-- The key had a value before. -/
  hadOld : Bool
  /-- The key has an expiry. -/
  expires : Bool
  /-- The indexes, and whether their functions yield a key for the old and for the new value. -/
  indexes : List (ℕ × Bool × Bool)

/-- `fastkv_ttl_remove`. -/
def ttlRemove (expires : Bool) : Locks :=
  btreeGet .ttlKey ++ if expires then btreeDelete .ttlExp ++ btreeDelete .ttlKey else []

/-- `remove_index_entry`. -/
def removeIndexEntry (i : ℕ) (yields : Bool) : Locks :=
  if yields then btreeDelete (.index i) else []

/-- `add_index_entry`. -/
def addIndexEntry (i : ℕ) (yields : Bool) : Locks := if yields then btreeInsert (.index i) else []

/-- `secondary_on_put`. -/
def secondaryOnPut (e : EntryLocks) : Locks :=
  e.indexes.flatMap fun x =>
    (if e.hadOld then removeIndexEntry x.1 x.2.1 else []) ++ addIndexEntry x.1 x.2.2

/-- `secondary_on_delete`. -/
def secondaryOnDelete (e : EntryLocks) : Locks :=
  e.indexes.flatMap fun x => removeIndexEntry x.1 x.2.1

/-- One entry in `fastkv_db_apply_write_set`. -/
def applyEntry (e : EntryLocks) : Locks :=
  e.log.elim [] walAppend ++
    if e.hasValue then btreeInsert .primary ++ within .indexLock true (secondaryOnPut e)
    else
      btreeDelete .primary ++ (ttlRemove e.expires ++
        if e.hadOld then within .indexLock true (secondaryOnDelete e) else [])

/-- What decides the locks of a commit. -/
structure CommitLocks where
  /-- The transaction has something to commit. -/
  writes : Bool
  /-- The entries that are applied; none if there is a conflict. -/
  entries : List EntryLocks
  /-- The hook of the append that fails, if one does. -/
  failed : Option (Option (List ℕ))

/-- `fastkv_txn_mgr_commit`, with `fastkv_db_apply_write_set`. -/
def txnCommit (c : CommitLocks) : Locks :=
  if c.writes then
    within .commitLock false (c.entries.flatMap applyEntry ++ c.failed.elim [] walAppend)
  else []

/-- `fastkv_ttl_set`; the key may have an expiry already. -/
def ttlSet (expires : Bool) : Locks :=
  btreeGet .ttlKey ++ ((if expires then btreeDelete .ttlExp else []) ++
    (btreeInsert .ttlKey ++ btreeInsert .ttlExp))

/-- `fastkv_ttl_expire`, with the commits of the deletes; a key may have been renewed. -/
def ttlExpire (keys : List (Option CommitLocks)) : Locks :=
  btreeScan .ttlExp ++ keys.flatMap fun c => btreeGet .ttlKey ++ c.elim [] txnCommit

/-- `fastkv_checkpoint`: sync, segment name, rotation and expiry. It may stop after the sync, or
after the rotation. -/
def checkpoint (written rotated : Bool) (keys : List (Option CommitLocks)) : Locks :=
  walLocked ++ if written then
    walLocked ++ (walLocked ++ if rotated then ttlExpire keys else [])
  else []

/-! ## Calls and threads -/

/-- A call of the interface. -/
inductive Call
  /-- A call that takes no lock: begin, get, put and delete in a transaction, abort, the steps
  of a cursor, `fastkv_repl_primary_stat`. -/
  | lockless
  /-- `fastkv_txn_commit`, `fastkv_put`, `fastkv_delete`. -/
  | commit (c : CommitLocks)
  /-- `fastkv_put_ttl`. -/
  | putTtl (c : CommitLocks) (stored expires : Bool)
  /-- `fastkv_cursor_open`. -/
  | cursorOpen
  /-- `fastkv_index_create`, `fastkv_json_index_create` and `fastkv_index_drop`. -/
  | indexList
  /-- `fastkv_index_lookup` and `fastkv_index_range`. -/
  | indexScan (i : ℕ)
  /-- `fastkv_rtree_insert` and `fastkv_rtree_delete`. -/
  | rtreeWrite (t : ℕ)
  /-- The queries of an R-tree. -/
  | rtreeRead (t : ℕ)
  /-- `fastkv_sync`. -/
  | sync (written rotated : Bool) (keys : List (Option CommitLocks))
  /-- `fastkv_compaction_pause`. -/
  | compactionPause
  /-- `fastkv_stats` and `fastkv_repl_serve`. -/
  | log
  /-- `fastkv_repl_peers`. -/
  | replPeers
  /-- `fastkv_repl_stop_server`. -/
  | replStopServer (senders : List ℕ)
  /-- `fastkv_repl_disconnect`. -/
  | replDisconnect
  /-- `fastkv_close`; there may be a server, a client and a log. -/
  | close (server : Option (List ℕ)) (client wal : Bool) (written rotated : Bool)
    (keys : List (Option CommitLocks))

/-- What a call does with the locks. -/
def Call.locks : Call → Locks
  | .lockless => []
  | .commit c => txnCommit c
  | .putTtl c stored expires => txnCommit c ++ if stored then ttlSet expires else []
  | .cursorOpen => btreeScan .primary
  | .indexList => within .indexLock false []
  | .indexScan i => btreeScan (.index i)
  | .rtreeWrite t => Locking.rtreeWrite t
  | .rtreeRead t => Locking.rtreeRead t
  | .sync written rotated keys => checkpoint written rotated keys
  | .compactionPause => join .compactionThread
  | .log => walLocked
  | .replPeers => within .sendersLock false []
  | .replStopServer senders => walLocked ++ replServerDestroy senders
  | .replDisconnect => join .receiverThread
  | .close server client wal written rotated keys =>
    server.elim [] replServerDestroy ++ ((if client then join .receiverThread else []) ++
      (join .compactionThread ++ if wal then checkpoint written rotated keys else []))

/-- A thread, with what it does in its life. -/
inductive Worker
  /-- A thread of the user. -/
  | client
  /-- `accept_thread`, with the senders that it prunes after each connection. -/
  | accept (rounds : List (List ℕ))
  /-- `sender_thread`, with the number of times that it sleeps in each round, and whether it has
  a frame to send then. -/
  | sender (s : ℕ) (rounds : List (ℕ × Bool))
  /-- `receiver_thread`, with the records that it applies: a put, a delete, or one that it
  rejects. -/
  | receiver (records : List (Option Bool))
  /-- `compaction_thread_fn`, with its checkpoints. -/
  | compaction (rounds : List (Bool × Bool × List (Option CommitLocks)))

/-- A round of `accept_thread`: `accept`, the greeting, the list of senders. -/
def acceptRound (pruned : List ℕ) : Locks :=
  [.wait] ++ ([.wait] ++ (within .sendersLock false [] ++ pruneDisconnected pruned))

/-- A round of `sender_drain_queue`. While it sleeps the thread does not have the lock. -/
def drainRound (s naps : ℕ) (sends : Bool) : Locks :=
  (List.range naps).flatMap (fun _ => within (.queueLock s) false [] ++ [.wait]) ++
    (within (.queueLock s) false [] ++ if sends then [.wait] else [])

/-- `apply_wal_record`. -/
def applyWalRecord : Option Bool → Locks
  | none => []
  | some true => btreeInsert .primary
  | some false => btreeDelete .primary

/-- What a thread does with the locks in its life. -/
def Worker.life : Worker → Locks
  | .client => []
  | .accept rounds => rounds.flatMap acceptRound
  | .sender s rounds => rounds.flatMap fun x => drainRound s x.1 x.2
  | .receiver records => records.flatMap fun r => [.wait] ++ applyWalRecord r
  | .compaction rounds => rounds.flatMap fun x => [.wait] ++ checkpoint x.1 x.2.1 x.2.2

/-- How others join the thread. -/
def Worker.name : Worker → Option LockName
  | .client => none
  | .accept _ => some .acceptThread
  | .sender s _ => some (.senderThread s)
  | .receiver _ => some .receiverThread
  | .compaction _ => some .compactionThread

/-- A new thread. -/
def Worker.thread (w : Worker) : LockThread LockName :=
  ⟨w.name.toList.map fun l => (l, false), w.life ++ w.name.toList.map .release⟩

/-- A step of the engine. -/
inductive EngineStep
  /-- A thread goes on. -/
  | go (i : ℕ)
  /-- A thread that is in no call makes one. -/
  | call (i : ℕ) (c : Call)
  /-- There is a new thread. -/
  | spawn (w : Worker)

/-- The step at the locks. -/
def EngineStep.lockStep : EngineStep → LockStep LockName
  | .go i => .go i
  | .call i c => .start i c.locks
  | .spawn w => .spawn w.thread

/-- The threads after a run, beginning with none. -/
def engineRun (as : List EngineStep) : List (LockThread LockName) :=
  exec Lib.lockStep [] (as.map EngineStep.lockStep)

/-! ## The order is kept -/

section Order

variable {r : ℕ}

/-- The trees come last. -/
theorem balanced_tree (t : TreeName) (shared : Bool) (hr : r < 8) :
    Balanced LockName.rank r (within (.tree t) shared []) :=
  Balanced.within hr Balanced.nil

/-- A join. -/
theorem balanced_join {thread : LockName} (hr : r < thread.rank) :
    Balanced LockName.rank r (join thread) :=
  Balanced.within hr Balanced.nil

/-- The queue of a sender. -/
theorem balanced_queue (s : ℕ) (hr : r < 6) :
    Balanced LockName.rank r (within (.queueLock s) false []) :=
  Balanced.within hr Balanced.nil

/-- The senders of a list are destroyed. -/
theorem balanced_senderDestroy (senders : List ℕ) (hr : r < 5) :
    Balanced LockName.rank r (senders.flatMap senderDestroy) :=
  Balanced.flatMap senders fun s _ =>
    (balanced_queue s (Nat.lt_succ_of_lt hr)).append (balanced_join hr)

/-- A server is destroyed by a thread that has no lock. -/
theorem balanced_replServerDestroy (senders : List ℕ) :
    Balanced LockName.rank 0 (replServerDestroy senders) :=
  (balanced_join (by decide)).append ((Balanced.within (by decide) Balanced.nil).append
    (balanced_senderDestroy senders (by decide)))

/-- An append. -/
theorem balanced_walAppend (hook : Option (List ℕ)) (hr : r < 3) :
    Balanced LockName.rank r (walAppend hook) := by
  refine Balanced.within hr ?_
  cases hook with
  | none => exact Balanced.nil
  | some senders =>
    exact Balanced.within (show 3 < 4 by decide) (Balanced.flatMap senders fun s _ =>
      balanced_queue s (show 4 < 6 by decide))

/-- The secondary indexes are updated under the lock of their list. -/
theorem balanced_secondary (e : EntryLocks) :
    Balanced LockName.rank 7 (secondaryOnPut e) ∧
      Balanced LockName.rank 7 (secondaryOnDelete e) := by
  have hremove : ∀ i yields, Balanced LockName.rank 7 (removeIndexEntry i yields) :=
    fun i _ => (balanced_tree (.index i) false (by decide)).ite Balanced.nil
  have hadd : ∀ i yields, Balanced LockName.rank 7 (addIndexEntry i yields) :=
    fun i _ => (balanced_tree (.index i) false (by decide)).ite Balanced.nil
  exact ⟨Balanced.flatMap _ fun x _ => ((hremove x.1 x.2.1).ite Balanced.nil).append
    (hadd x.1 x.2.2), Balanced.flatMap _ fun x _ => hremove x.1 x.2.1⟩

/-- An entry, under the commit lock. -/
theorem balanced_applyEntry (e : EntryLocks) : Balanced LockName.rank 2 (applyEntry e) := by
  obtain ⟨hput, hdelete⟩ := balanced_secondary e
  have htree : ∀ t shared, Balanced LockName.rank 2 (within (.tree t) shared []) :=
    fun t shared => balanced_tree t shared (by decide)
  have hlist : ∀ {body}, Balanced LockName.rank 7 body →
      Balanced LockName.rank 2 (within .indexLock true body) :=
    fun hbody => Balanced.within (by decide) hbody
  refine Balanced.append ?_ (Balanced.ite ?_ ?_)
  · cases e.log with
    | none => exact Balanced.nil
    | some hook => exact balanced_walAppend hook (by decide)
  · exact (htree _ _).append (hlist hput)
  · refine (htree _ _).append (Balanced.append ?_ ((hlist hdelete).ite Balanced.nil))
    exact (htree _ _).append (((htree _ _).append (htree _ _)).ite Balanced.nil)

/-- A commit. -/
theorem balanced_txnCommit (c : CommitLocks) (hr : r < 2) :
    Balanced LockName.rank r (txnCommit c) := by
  refine Balanced.ite (Balanced.within hr (Balanced.append ?_ ?_)) Balanced.nil
  · exact Balanced.flatMap _ fun e _ => balanced_applyEntry e
  · cases c.failed with
    | none => exact Balanced.nil
    | some hook => exact balanced_walAppend hook (show 2 < 3 by decide)

/-- The lock of the log alone. -/
theorem balanced_walLocked (hr : r < 3) : Balanced LockName.rank r walLocked :=
  Balanced.within hr Balanced.nil

/-- A checkpoint, perhaps by the thread that others can join. -/
theorem balanced_checkpoint (written rotated : Bool) (keys : List (Option CommitLocks))
    (hr : r < 2) : Balanced LockName.rank r (checkpoint written rotated keys) := by
  have hlog : Balanced LockName.rank r walLocked := balanced_walLocked (Nat.lt_succ_of_lt hr)
  have htree : ∀ t shared, Balanced LockName.rank r (within (.tree t) shared []) :=
    fun t shared => balanced_tree t shared (Nat.lt_trans hr (by decide))
  have hkeys : Balanced LockName.rank r (ttlExpire keys) := by
    refine (htree _ _).append (Balanced.flatMap _ fun c _ => (htree _ _).append ?_)
    cases c with
    | none => exact Balanced.nil
    | some c => exact balanced_txnCommit c hr
  exact hlog.append ((hlog.append (hlog.append (hkeys.ite Balanced.nil))).ite Balanced.nil)

/-- Every call keeps to the order. -/
theorem Call.balanced (c : Call) : Balanced LockName.rank 0 c.locks := by
  have htree : ∀ t shared, Balanced LockName.rank 0 (within (.tree t) shared []) :=
    fun t shared => balanced_tree t shared (by decide)
  cases c with
  | lockless => exact Balanced.nil
  | commit c => exact balanced_txnCommit c (by decide)
  | putTtl c stored expires =>
    refine (balanced_txnCommit c (by decide)).append (Balanced.ite ?_ Balanced.nil)
    exact (htree _ _).append
      (((htree _ _).ite Balanced.nil).append ((htree _ _).append (htree _ _)))
  | cursorOpen => exact htree _ _
  | indexList => exact Balanced.within (by decide) Balanced.nil
  | indexScan i => exact htree _ _
  | rtreeWrite t => exact Balanced.within (Nat.zero_lt_succ 7) Balanced.nil
  | rtreeRead t => exact Balanced.within (Nat.zero_lt_succ 7) Balanced.nil
  | sync written rotated keys => exact balanced_checkpoint written rotated keys (by decide)
  | compactionPause => exact balanced_join (by decide)
  | log => exact balanced_walLocked (by decide)
  | replPeers => exact Balanced.within (by decide) Balanced.nil
  | replStopServer senders =>
    exact (balanced_walLocked (by decide)).append (balanced_replServerDestroy senders)
  | replDisconnect => exact balanced_join (by decide)
  | close server client wal written rotated keys =>
    refine Balanced.append ?_ (((balanced_join (by decide)).ite Balanced.nil).append
      ((balanced_join (by decide)).append
        ((balanced_checkpoint written rotated keys (by decide)).ite Balanced.nil)))
    cases server with
    | none => exact Balanced.nil
    | some senders => exact balanced_replServerDestroy senders

/-- Every thread keeps to the order all its life. -/
theorem Worker.ordered (w : Worker) :
    Ordered LockName.rank (w.thread.held.map Prod.fst) w.thread.todo := by
  cases w with
  | client => rfl
  | accept rounds =>
    refine Balanced.ordered_of_joined (r := 1) (Nat.le_refl _) (Balanced.flatMap _ fun x _ => ?_)
    exact Balanced.wait.append (Balanced.wait.append ((Balanced.within (by decide)
      Balanced.nil).append (Balanced.within (by decide) (balanced_senderDestroy x (by decide)))))
  | sender s rounds =>
    refine Balanced.ordered_of_joined (r := 5) (Nat.le_refl _) (Balanced.flatMap _ fun x _ => ?_)
    have hqueue := balanced_queue s (show 5 < 6 by decide)
    exact (Balanced.flatMap _ fun _ _ => hqueue.append Balanced.wait).append
      (hqueue.append (Balanced.wait.ite Balanced.nil))
  | receiver records =>
    refine Balanced.ordered_of_joined (r := 1) (Nat.le_refl _) (Balanced.flatMap _ fun x _ => ?_)
    refine Balanced.wait.append ?_
    rcases x with _ | _ | _
    · exact Balanced.nil
    · exact balanced_tree .primary false (by decide)
    · exact balanced_tree .primary false (by decide)
  | compaction rounds =>
    refine Balanced.ordered_of_joined (r := 1) (Nat.le_refl _) (Balanced.flatMap _ fun x _ => ?_)
    exact Balanced.wait.append (balanced_checkpoint x.1 x.2.1 x.2.2 (by decide))

/-- Every step begins programs that keep to the order. -/
theorem EngineStep.startsOrdered (a : EngineStep) (s : List (LockThread LockName)) :
    StartsOrdered LockName.rank s a.lockStep := by
  cases a with
  | go i => trivial
  | call i c => exact c.balanced.ordered
  | spawn w => exact w.ordered

/-- All threads keep to the order in every run. -/
theorem allOrdered_engineRun (as : List EngineStep) :
    AllOrdered LockName.rank (engineRun as) := by
  refine exec_invariant (fun _ _ h ha => h.step ha) _ (fun t ht => absurd ht List.not_mem_nil)
    (Permitted.of_forall _ _ fun b hb s => ?_)
  obtain ⟨a, -, rfl⟩ := List.mem_map.mp hb
  exact a.startsOrdered s

end Order

/-- There is no deadlock. Whatever calls the threads of the user make, and whatever the
background threads do: a thread in the middle of a call, or of its life, can go on, or it waits
through a chain of threads for one that can. The callbacks of the user make no calls, and a thread
that waits for a socket or on a condition variable counts as one that can go on. -/
theorem no_deadlock (as : List EngineStep) (i : ℕ) (t : LockThread LockName)
    (hi : (engineRun as)[i]? = some t) (hbusy : t.todo ≠ []) :
    ∃ j, Relation.ReflTransGen (WaitsFor (engineRun as)) i j ∧ CanGo (engineRun as) j := by
  refine (allOrdered_engineRun as).chain 8 (fun l => ?_) hi hbusy
  cases l <;> simp [LockName.rank]

/-! ## A replica that takes no bytes -/

/-- A sender is in `send_all` when it is pruned, and then a thread commits. -/
def pruneWhileSending (c : CommitLocks) : List EngineStep :=
  [.spawn .client, .spawn (.accept [[7]]), .spawn (.sender 7 [(0, true)]), .go 2, .go 2, .go 1,
    .go 1, .go 1, .go 1, .go 1, .go 1, .go 1, .call 0 (.commit c), .go 0, .go 0]

/-- A put that is broadcast to one sender. -/
def broadcastPut : CommitLocks := ⟨true, [⟨some (some [7]), true, false, false, []⟩], none⟩

/-- The commit waits for a thread that waits for the sender's thread. -/
theorem no_deadlock_broadcastPut : ∃ j,
    Relation.ReflTransGen (WaitsFor (engineRun (pruneWhileSending broadcastPut))) 0 j ∧
      CanGo (engineRun (pruneWhileSending broadcastPut)) j :=
  no_deadlock (pruneWhileSending broadcastPut) 0 _ rfl (by simp)

/-- The accepting thread joins a sender with the list of senders locked, and the sender's thread
is in `send_all`. -/
structure PrunesSending (s : List (LockThread LockName)) (a k sender : ℕ) : Prop where
  /-- The accepting thread. -/
  joins : ∃ t todo, s[a]? = some t ∧ (.sendersLock, false) ∈ t.held ∧
    t.todo = .acquire (.senderThread sender) true :: todo
  /-- The sender's thread. -/
  sends : ∃ t todo, s[k]? = some t ∧ (.senderThread sender, false) ∈ t.held ∧
    t.todo = .wait :: todo

/-- The first entry of the commit is logged and broadcast. -/
def CommitLocks.Broadcasts (c : CommitLocks) : Prop :=
  c.writes = true ∧ ∃ e es senders, c.entries = e :: es ∧ e.log = some (some senders)

/-- A thread that has not got past the first broadcast of its commit: it has none of the locks
yet, the commit lock, or the lock of the log too. -/
def Begun (c : CommitLocks) (t : LockThread LockName) : Prop :=
  t = ⟨[], txnCommit c⟩ ∨ t = ⟨[(.commitLock, false)], (txnCommit c).tail⟩ ∨
    t = ⟨[(.walLock, false), (.commitLock, false)], (txnCommit c).tail.tail⟩

/-- The locks up to the broadcast. -/
theorem CommitLocks.Broadcasts.locks {c : CommitLocks} (hc : c.Broadcasts) :
    ∃ todo, txnCommit c = .acquire .commitLock false :: .acquire .walLock false ::
      .acquire .sendersLock false :: todo := by
  obtain ⟨hwrites, e, es, senders, hentries, hlog⟩ := hc
  rw [txnCommit, if_pos hwrites, hentries, List.flatMap_cons, applyEntry, hlog]
  exact ⟨_, rfl⟩

section Pruned

variable {s : List (LockThread LockName)} {a k sender : ℕ}

/-- The accepting thread waits for the sender's thread. -/
theorem PrunesSending.behind (h : PrunesSending s a k sender) : Behind s k a := by
  obtain ⟨t, todo, ht, -, htodo⟩ := h.joins
  obtain ⟨u, -, hu, hheld, -⟩ := h.sends
  exact .single ⟨t, u, .senderThread sender, true, todo, ht, htodo, hu, _, hheld, rfl, rfl⟩

/-- The sender's thread is in the middle of something. -/
theorem PrunesSending.busy (h : PrunesSending s a k sender) :
    ∃ t, s[k]? = some t ∧ t.todo ≠ [] := by
  obtain ⟨t, todo, ht, -, htodo⟩ := h.sends
  exact ⟨t, ht, by rw [htodo]; exact List.cons_ne_nil _ _⟩

/-- Nobody gets the list of senders while the accepting thread stays where it is. -/
theorem PrunesSending.not_grants (h : PrunesSending s a k sender)
    {s' : List (LockThread LockName)} (hsame : s'[a]? = s[a]?) :
    ¬ Grants s' .sendersLock false := by
  obtain ⟨t, -, ht, hheld, -⟩ := h.joins
  exact fun hgrants => hgrants t (List.mem_of_getElem? (hsame.trans ht)) _ hheld ⟨rfl, rfl⟩

/-- A committing thread does not get past its first broadcast in a step of any thread. -/
theorem PrunesSending.begun_step (h : PrunesSending s a k sender) {c : CommitLocks}
    (hc : c.Broadcasts) {s' : List (LockThread LockName)} (hsame : s'[a]? = s[a]?) {i : ℕ}
    {t : LockThread LockName} (hi : s'[i]? = some t) (ht : Begun c t) (b : LockStep LockName) :
    ∃ t', (Lib.lockStep s' b)[i]? = some t' ∧ Begun c t' := by
  obtain ⟨todo, hlocks⟩ := hc.locks
  have hlt : i < s'.length := (List.getElem?_eq_some_iff.mp hi).1
  have hself : ∀ u : LockThread LockName, (s'.set i u)[i]? = some u :=
    fun u => List.getElem?_set_self hlt
  cases b with
  | go m =>
    by_cases hm : m = i
    · subst hm
      rcases ht with rfl | rfl | rfl
      · -- it asks for the commit lock
        simp only [Lib.lockStep, hi, hlocks]
        split
        · exact ⟨_, hself _, Or.inr (Or.inl (by rw [hlocks]; rfl))⟩
        · exact ⟨_, hi, Or.inl rfl⟩
      · -- it asks for the lock of the log
        simp only [Lib.lockStep, hi, hlocks, List.tail_cons]
        split
        · exact ⟨_, hself _, Or.inr (Or.inr (by rw [hlocks]; rfl))⟩
        · exact ⟨_, hi, Or.inr (Or.inl rfl)⟩
      · -- it asks for the list of senders, in vain
        simp only [Lib.lockStep, hi, hlocks, List.tail_cons, if_neg (h.not_grants hsame)]
        exact ⟨_, rfl, Or.inr (Or.inr (by rw [hlocks]; rfl))⟩
    · refine ⟨t, ?_, ht⟩
      have hother : ∀ u : LockThread LockName, (s'.set m u)[i]? = some t :=
        fun u => (List.getElem?_set_ne hm).trans hi
      simp only [Lib.lockStep]
      split
      · exact hi
      · split
        · exact hi
        · split
          · exact hother _
          · exact hi
        · exact hother _
        · exact hother _
  | start m todo' =>
    refine ⟨t, ?_, ht⟩
    have hbusy : t.todo ≠ [] := by
      rcases ht with rfl | rfl | rfl
      all_goals simp [hlocks]
    simp only [Lib.lockStep]
    split
    · exact hi
    · rename_i u hu
      split
      · rename_i hidle
        by_cases hm : m = i
        · subst hm
          rw [hi] at hu
          rw [Option.some.inj hu] at hbusy
          exact absurd hidle.1 hbusy
        · exact (List.getElem?_set_ne hm).trans hi
      · exact hi
  | spawn u => exact ⟨t, (List.getElem?_append_left hlt).trans hi, ht⟩

/-- Nor does it in any number of steps without one of the sender's thread. -/
theorem PrunesSending.begun_run (h : PrunesSending s a k sender) {c : CommitLocks}
    (hc : c.Broadcasts) {i : ℕ} {t : LockThread LockName} (hi : s[i]? = some t) (ht : Begun c t)
    (bs : List (LockStep LockName)) (hbs : ∀ b ∈ bs, b ≠ .go k) :
    (∀ j, Behind s k j → (exec Lib.lockStep s bs)[j]? = s[j]?) ∧
      ∃ t', (exec Lib.lockStep s bs)[i]? = some t' ∧ Begun c t' :=
  exec_invariant
    (I := fun s' => (∀ j, Behind s k j → s'[j]? = s[j]?) ∧ ∃ t', s'[i]? = some t' ∧ Begun c t')
    (P := fun _ b => b ≠ .go k)
    (fun _ b hI hb => ⟨fun _ hj => behind_step h.busy hI.1 hb hj,
      hI.2.elim fun _ ht' => h.begun_step hc (hI.1 a h.behind) ht'.1 ht'.2 b⟩) bs
    ⟨fun _ _ => rfl, t, hi, ht⟩ (Permitted.of_forall bs s fun b hb _ => hbs b hb)

/-- The accepting thread and the sender's thread stay where they are. -/
theorem PrunesSending.congr (h : PrunesSending s a k sender) {s' : List (LockThread LockName)}
    (hsame : ∀ j, Behind s k j → s'[j]? = s[j]?) : PrunesSending s' a k sender := by
  obtain ⟨t, todo, ht, hjoins⟩ := h.joins
  obtain ⟨u, todo', hu, hsends⟩ := h.sends
  exact ⟨⟨t, todo, (hsame a h.behind).trans ht, hjoins⟩,
    ⟨u, todo', (hsame k .refl).trans hu, hsends⟩⟩

end Pruned

/-- A replica that takes no bytes can stop every commit. In any state in which the accepting
thread prunes a sender whose thread is in `send_all`, it joins the thread with the list of senders
locked. As long as `send_all` does not return, whatever the other threads do: no commit that is to
be broadcast comes to its end, and once it has the commit lock and the log it keeps both, so that
every thread that asks for the commit lock waits for good. -/
theorem slow_replica_stops_commits (as : List EngineStep) {a k sender : ℕ}
    (hprunes : PrunesSending (engineRun as) a k sender) {c : CommitLocks} (hc : c.Broadcasts)
    {i : ℕ} {t : LockThread LockName} (hi : (engineRun as)[i]? = some t) (ht : Begun c t)
    (bs : List EngineStep) (hbs : ∀ b ∈ bs, b ≠ .go k) :
    ∃ t', (engineRun (as ++ bs))[i]? = some t' ∧ t'.todo ≠ [] ∧
      (t'.held = [(.walLock, false), (.commitLock, false)] →
        ∀ cs : List EngineStep, (∀ b ∈ cs, b ≠ .go k) →
          (engineRun (as ++ bs ++ cs))[i]? = some t' ∧
          ∀ (j : ℕ) (u : LockThread LockName) (todo : Locks),
            (engineRun (as ++ bs))[j]? = some u → u.todo = .acquire .commitLock false :: todo →
              (engineRun (as ++ bs ++ cs))[j]? = some u) := by
  have hgo : ∀ {cs : List EngineStep}, (∀ b ∈ cs, b ≠ .go k) →
      ∀ b ∈ cs.map EngineStep.lockStep, b ≠ .go k := by
    intro cs hcs b hb
    obtain ⟨b', hb', rfl⟩ := List.mem_map.mp hb
    cases b' with
    | go m =>
      intro heq
      injection heq with hm
      exact hcs _ hb' (by rw [hm])
    | call m c => intro heq; cases heq
    | spawn w => intro heq; cases heq
  have hsplit : ∀ as bs : List EngineStep, engineRun (as ++ bs) =
      exec Lib.lockStep (engineRun as) (bs.map EngineStep.lockStep) := by
    intro as bs
    rw [engineRun, List.map_append, exec_append]
    rfl
  obtain ⟨hstuck, t', hi', ht'⟩ := hprunes.begun_run hc hi ht _ (hgo hbs)
  rw [← hsplit] at hstuck hi'
  obtain ⟨todo, hlocks⟩ := hc.locks
  refine ⟨t', hi', ?_, fun hheld cs hcs => ?_⟩
  · rcases ht' with rfl | rfl | rfl
    all_goals simp [hlocks]
  · have hpruned := hprunes.congr hstuck
    have hnext : t'.todo = .acquire .sendersLock false :: todo := by
      rcases ht' with rfl | rfl | rfl
      · cases hheld
      · cases hheld
      · rw [hlocks]
        rfl
    -- the committing thread waits for the accepting one
    have hbehind : Behind (engineRun (as ++ bs)) k i := by
      obtain ⟨u, -, hu, hlist, -⟩ := hpruned.joins
      exact .head ⟨t', u, .sendersLock, false, todo, hi', hnext, hu, _, hlist, rfl, rfl⟩
        hpruned.behind
    have hstays := stuck_behind hpruned.busy _ (hgo hcs)
    rw [hsplit (as ++ bs) cs]
    refine ⟨(hstays i hbehind).trans hi', fun j u todo' hj hasks => ?_⟩
    refine (hstays j (.head ?_ hbehind)).trans hj
    exact ⟨u, t', .commitLock, false, todo', hj, hasks, hi', (.commitLock, false),
      by rw [hheld]; simp, rfl, rfl⟩

/-- The accepting thread has the list of senders and joins the sender's thread; the committing
thread has the log and waits for the list. -/
theorem prunesSending_pruneWhileSending :
    PrunesSending (engineRun (pruneWhileSending broadcastPut)) 1 2 7 :=
  ⟨⟨_, _, rfl, by simp, rfl⟩, ⟨_, _, rfl, List.mem_cons_self, rfl⟩⟩

/-- Another connection and another commit do not help. -/
theorem slow_replica_stops_commits_twoClients : ∃ t,
    (engineRun (pruneWhileSending broadcastPut ++
      [.go 1, .go 0, .spawn .client, .call 3 (.commit broadcastPut), .go 3, .go 0]))[0]? =
        some t ∧ t.todo ≠ [] ∧ t.held = [(.walLock, false), (.commitLock, false)] := by
  obtain ⟨t, hi, hbusy, -⟩ := slow_replica_stops_commits (pruneWhileSending broadcastPut)
    prunesSending_pruneWhileSending (c := broadcastPut) ⟨rfl, _, _, _, rfl, rfl⟩ (i := 0) rfl
    (Or.inr (Or.inr rfl))
    [.go 1, .go 0, .spawn .client, .call 3 (.commit broadcastPut), .go 3, .go 0] (by simp)
  refine ⟨t, hi, hbusy, ?_⟩
  obtain rfl := Option.some.inj hi
  rfl

end FastKV.Locking
