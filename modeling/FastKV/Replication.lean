import FastKV.Lib.Steps
import FastKV.ReplHook
import FastKV.ReplStream

/-!
# A primary and a replica

`repl/repl_client.c` beside the server: the thread of the replica connects, takes the greeting
and then frame after frame, and applies the record in each. The primary serves requests, the
records it logs are handed to the server one after the other, and the threads of both sides take
their steps in any order. When the connection is lost the replica connects again; frames of the
old connection that it has not taken are gone.
-/

namespace FastKV

open Lib

/-! ## The replica -/

/-- Where `receiver_thread` is. -/
inductive Receiver
  /-- Not connected. -/
  | idle
  /-- Waiting for the greeting on a connection. -/
  | greeting (conn : ℕ)
  /-- Taking frames from a connection. -/
  | streaming (conn : ℕ)
  deriving DecidableEq, Repr

/-- The connection in use. -/
def Receiver.conn : Receiver → Option ℕ
  | .idle => none
  | .greeting i => some i
  | .streaming i => some i

/-- `struct fastkv_repl_client` with its database. -/
structure ReplClient where
  /-- The database of the replica. -/
  db : Db
  /-- Where its thread is. -/
  receiver : Receiver
  /-- The number of messages taken from the connection. -/
  taken : ℕ
  /-- The number of payload bytes received, a 64-bit counter. -/
  bytesReceived : ℕ
  /-- The last offset received. -/
  primaryOffset : ℕ
  /-- The frames whose records have been applied, oldest first. -/
  seen : List ReplMsg

/-- What `receiver_thread` does with a message; `beyond` is the memory behind the payload. The
loop of a connection ends at a message that is not from a server, or that is too large. -/
def receive (beyond : Bytes) (c : ReplClient) (m : ReplMsg) : ReplClient :=
  match c.receiver with
  | .idle => c
  | .greeting i =>
    if m.hdr.magic ≠ replMagic then { c with receiver := .idle }
    else
      { c with
        receiver := .streaming i
        taken := c.taken + 1
        primaryOffset := m.hdr.offset }
  | .streaming _ =>
    if m.hdr.magic ≠ replMagic then { c with receiver := .idle }
    else if m.hdr.payloadLen = 0 then
      { c with taken := c.taken + 1, primaryOffset := m.hdr.offset }
    else if maxKeyLen + maxValLen + 32 < m.hdr.payloadLen then { c with receiver := .idle }
    else
      { c with
        db := applyWalRecord beyond m.payload c.db
        taken := c.taken + 1
        bytesReceived := add64 c.bytesReceived m.hdr.payloadLen
        primaryOffset := m.hdr.offset
        seen := c.seen ++ [m] }

/-! ## Both sides -/

/-- `fastkv_repl_serve`: the hook is installed. -/
def fastkvReplServe (w : World) : World :=
  { w with db := { w.db with wal := w.db.wal.map fun wal => { wal with hook := true } } }

/-- A primary and one of its replicas. -/
structure Replication where
  /-- The primary. -/
  primary : Session
  /-- The number of records of the log that have been handed to the server. -/
  handed : ℕ
  /-- The primary's server. -/
  server : ReplServer
  /-- The replica. -/
  client : ReplClient

/-- The next message on the replica's connection. -/
def Replication.next (s : Replication) : Option ReplMsg :=
  s.client.receiver.conn.bind fun i => s.server.peers[i]?.bind fun p =>
    p.sender.sent[s.client.taken]?

/-- The steps of the two sides. -/
inductive ReplStep
  /-- The primary serves a request. -/
  | request (r : Request)
  /-- The next record of the log is handed to `fastkv_repl_broadcast`, which moves the offset. -/
  | broadcast
  /-- Another step of the server. -/
  | server (a : ServerStep)
  /-- The replica connects, and `accept_thread` creates the sender. -/
  | connect
  /-- The replica finds its connection closed. -/
  | lose
  /-- The replica takes a message. -/
  | receive (beyond : Bytes)
  /-- Transactions that only read begin and end on the replica, and draw timestamps. -/
  | reads (txnMgr : TxnMgr)

/-- Execute a step. Broadcasts come from the log only. -/
def replStep (s : Replication) : ReplStep → Replication
  | .request r => { s with primary := s.primary.after r }
  | .broadcast =>
    match s.server.pending, s.primary.world.hooked[s.handed]? with
    | none, some data =>
      { s with server := serverStep s.server (.advance data), handed := s.handed + 1 }
    | _, _ => s
  | .server (.advance _) => s
  | .server a => { s with server := serverStep s.server a }
  | .connect =>
    if s.client.receiver = .idle then
      { s with
        server := serverStep s.server .create
        client := { s.client with receiver := .greeting s.server.peers.length, taken := 0 } }
    else s
  | .lose => { s with client := { s.client with receiver := .idle } }
  | .receive beyond =>
    match s.next with
    | none => s
    | some m => { s with client := receive beyond s.client m }
  | .reads txnMgr =>
    if s.client.db.clock ≤ txnMgr.oracle.clock then
      { s with client := { s.client with db := { s.client.db with txnMgr } } }
    else s

/-- A primary that serves replicas, and a replica that has not connected. -/
def Replication.start (w : World) (db : Db) : Replication where
  primary := .start (fastkvReplServe w)
  handed := 0
  server := replServerInit
  client := ⟨db, .idle, 0, 0, 0, []⟩

/-! ## Frames -/

/-- The offset behind some records. -/
def offsetFrom (o : ℕ) (datas : List Bytes) : ℕ :=
  datas.foldl (fun o data => add64 o data.length) o

/-- The frames of records that are broadcast one after the other. -/
def framesFrom : ℕ → List Bytes → List ReplMsg
  | _, [] => []
  | o, data :: datas =>
    ⟨⟨replMagic, data.length, add64 o data.length⟩, data⟩ ::
      framesFrom (add64 o data.length) datas

/-- The frames of two lists of records. -/
theorem framesFrom_append (datas : List Bytes) : ∀ (o : ℕ) (datas' : List Bytes),
    framesFrom o (datas ++ datas') =
      framesFrom o datas ++ framesFrom (offsetFrom o datas) datas' := by
  induction datas with
  | nil => exact fun o datas' => rfl
  | cons data datas ih =>
    intro o datas'
    rw [List.cons_append, framesFrom, framesFrom, ih, List.cons_append]
    rfl

/-- The number of records that have been put in the queues. -/
def Replication.queued (s : Replication) : ℕ :=
  if s.server.pending.isSome then s.handed - 1 else s.handed

/-- The records that have been put in the queues. -/
def Replication.queuedData (s : Replication) : List Bytes :=
  s.primary.world.hooked.take s.queued

/-- The frames on a connection behind the first messages. -/
def ReplSender.after (s : ReplSender) (taken : ℕ) : List ReplMsg :=
  s.sent.drop taken ++ s.queue.map QueuedFrame.message

/-- The frames on the replica's connection that it has not taken; the greeting is none. -/
def Replication.untaken (s : Replication) : List ReplMsg :=
  match s.client.receiver.conn.bind fun i => s.server.peers[i]? with
  | some p => p.sender.after (max 1 s.client.taken)
  | none => []

end FastKV
