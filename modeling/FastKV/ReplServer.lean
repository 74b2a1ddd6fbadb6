import FastKV.WalFormat

/-!
# The primary's side of replication

`repl/repl_server.c`. Every record that goes into the log is handed to `fastkv_repl_broadcast`
by the thread that holds the lock of the log, and is put in the queue of every connection in the
list of senders. A thread for each connection takes the frames out and writes them to its socket.
The thread that accepts connections creates the sender, sends a greeting with the offset that
has been reached, and links the sender into the list; each of these is a step of its own, and so
are the two halves of a broadcast, of which only the second takes the lock of the list.
-/

namespace FastKV

open Lib

/-! ## Senders -/

/-- `REPL_MAGIC`. -/
def replMagic : ℕ := 0x464B5254

/-- `REPL_MAX_QUEUE_BYTES`. -/
def replMaxQueueBytes : ℕ := 8 * 1024 * 1024

/-- `repl_frame_hdr_t`. -/
structure ReplHdr where
  /-- Must be `replMagic`. -/
  magic : ℕ
  /-- The number of bytes that follow. -/
  payloadLen : ℕ
  /-- The number of bytes broadcast so far, these included. -/
  offset : ℕ
  deriving DecidableEq, Repr

/-- A header on the connection with the bytes that follow it. -/
structure ReplMsg where
  /-- The header. -/
  hdr : ReplHdr
  /-- The payload. -/
  payload : Bytes
  deriving DecidableEq, Repr

/-- `struct repl_queued_frame`. -/
structure QueuedFrame where
  /-- The bytes of a record. -/
  data : Bytes
  /-- Their number. -/
  len : ℕ
  /-- The offset behind them. -/
  offset : ℕ
  deriving DecidableEq, Repr

/-- What the sender's thread writes for a frame. -/
def QueuedFrame.message (f : QueuedFrame) : ReplMsg := ⟨⟨replMagic, f.len, f.offset⟩, f.data⟩

/-- The greeting of `accept_thread`. -/
def replHello (offset : ℕ) : ReplMsg := ⟨⟨replMagic, 0, offset⟩, []⟩

/-- `struct repl_sender`, with what has been written to its socket. -/
structure ReplSender where
  /-- Whether frames are still accepted. -/
  connected : Bool
  /-- Whether the thread has been told to stop. -/
  stop : Bool
  /-- The frames to send, oldest first. -/
  queue : List QueuedFrame
  /-- The number of bytes in the queue. -/
  queueBytes : ℕ
  /-- The messages written to the socket, oldest first. -/
  sent : List ReplMsg

/-- `sender_create`. -/
def senderCreate : ReplSender := ⟨true, false, [], 0, []⟩

/-- `sender_enqueue`; `alloc` tells whether there is memory for the frame. -/
def senderEnqueue (alloc : Bool) (s : ReplSender) (data : Bytes) (len offset : ℕ) : ReplSender :=
  if s.connected = false then s
  else if replMaxQueueBytes < s.queueBytes + len then { s with stop := true, connected := false }
  else if alloc = false then s
  else
    { s with
      queue := s.queue ++ [⟨data.take len, len, offset⟩]
      queueBytes := s.queueBytes + len }

/-- One round of `sender_drain_queue`; `ok` tells whether the frame could be written to the
socket. With an empty queue the thread waits. -/
def senderDrain (ok : Bool) (s : ReplSender) : ReplSender :=
  if s.stop then { s with connected := false }
  else
    match s.queue with
    | [] => s
    | f :: queue =>
      let s := { s with queue, queueBytes := s.queueBytes - f.len }
      if ok then { s with sent := s.sent ++ [f.message] }
      else { s with connected := false, stop := true }

/-- `sender_destroy`, up to the memory it frees. -/
def senderDestroy (s : ReplSender) : ReplSender :=
  { s with stop := true, connected := false, queue := [] }

/-! ## The server -/

/-- How far a connection is. -/
inductive PeerStage
  /-- The sender exists. -/
  | created
  /-- The greeting has been sent. -/
  | greeted
  /-- The sender is in the list. -/
  | linked
  /-- The sender has been taken out of the list. -/
  | pruned
  deriving DecidableEq, Repr

/-- A connection. -/
structure Peer where
  /-- Its sender. -/
  sender : ReplSender
  /-- How far it is. -/
  stage : PeerStage

/-- A broadcast between its two halves: the offset has been moved, but no queue has the frame. -/
structure Broadcast where
  /-- The record. -/
  data : Bytes
  /-- The offset behind it. -/
  offset : ℕ

/-- `struct fastkv_repl_server`, with all connections it has accepted. -/
structure ReplServer where
  /-- The number of bytes broadcast, a 64-bit counter. -/
  primaryOffset : ℕ
  /-- The connections in the order in which they were accepted. -/
  peers : List Peer
  /-- The broadcast in progress; there is one at a time, since the log is locked. -/
  pending : Option Broadcast

/-- `fastkv_repl_server_init`. -/
def replServerInit : ReplServer := ⟨0, [], none⟩

/-- The greeting. -/
def Peer.greet (offset : ℕ) (p : Peer) : Peer :=
  if p.stage = .created then
    ⟨{ p.sender with sent := p.sender.sent ++ [replHello offset] }, .greeted⟩
  else p

/-- The sender is put in the list. -/
def Peer.link (p : Peer) : Peer := if p.stage = .greeted then { p with stage := .linked } else p

/-- A frame is put in the queue of a sender in the list. The length is cut to 32 bits. -/
def Peer.offer (alloc : Bool) (b : Broadcast) (p : Peer) : Peer :=
  if p.stage = .linked then
    { p with sender := senderEnqueue alloc p.sender b.data (b.data.length % 2 ^ 32) b.offset }
  else p

/-- `prune_disconnected`, for one sender. -/
def Peer.prune (p : Peer) : Peer :=
  if p.stage = .linked ∧ p.sender.connected = false then ⟨senderDestroy p.sender, .pruned⟩ else p

/-- The steps of the threads of the server. -/
inductive ServerStep
  /-- `accept_thread` creates a sender. -/
  | create
  /-- `accept_thread` sends the greeting. -/
  | greet (i : ℕ)
  /-- `accept_thread` links the sender into the list. -/
  | link (i : ℕ)
  /-- `accept_thread` removes senders that are not connected. -/
  | prune
  /-- The first half of `fastkv_repl_broadcast`: the offset moves. -/
  | advance (data : Bytes)
  /-- The second half of `fastkv_repl_broadcast`, under the lock of the list. -/
  | enqueue (alloc : ℕ → Bool)
  /-- A round of the thread of a sender. -/
  | drain (i : ℕ) (ok : Bool)

/-- Execute a step. -/
def serverStep (s : ReplServer) : ServerStep → ReplServer
  | .create => { s with peers := s.peers ++ [⟨senderCreate, .created⟩] }
  | .greet i => { s with peers := s.peers.modify i (Peer.greet s.primaryOffset) }
  | .link i => { s with peers := s.peers.modify i Peer.link }
  | .prune => { s with peers := s.peers.map Peer.prune }
  | .advance data =>
    if s.pending.isSome then s
    else
      let offset := add64 s.primaryOffset data.length
      { s with primaryOffset := offset, pending := some ⟨data, offset⟩ }
  | .enqueue alloc =>
    match s.pending with
    | none => s
    | some b =>
      { s with peers := s.peers.mapIdx fun i p => p.offer (alloc i) b, pending := none }
  | .drain i ok =>
    { s with peers := s.peers.modify i fun p => { p with sender := senderDrain ok p.sender } }

/-- What a step does to a connection. -/
def Peer.step (s : ReplServer) (i : ℕ) (p : Peer) : ServerStep → Peer
  | .greet j => if j = i then p.greet s.primaryOffset else p
  | .link j => if j = i then p.link else p
  | .prune => p.prune
  | .enqueue alloc =>
    match s.pending with
    | none => p
    | some b => p.offer (alloc i) b
  | .drain j ok => if j = i then { p with sender := senderDrain ok p.sender } else p
  | _ => p

/-- A connection after a step is one that was there, or a new one. -/
theorem peers_serverStep {s : ReplServer} {a : ServerStep} {i : ℕ} {p' : Peer}
    (h : (serverStep s a).peers[i]? = some p') :
    (∃ p, s.peers[i]? = some p ∧ p' = p.step s i a) ∨
      (a = .create ∧ i = s.peers.length ∧ p' = ⟨senderCreate, .created⟩) := by
  have hmodify : ∀ (j : ℕ) (f : Peer → Peer), (s.peers.modify j f)[i]? = some p' →
      ∃ p, s.peers[i]? = some p ∧ p' = if j = i then f p else p := by
    intro j f h
    rw [List.getElem?_modify] at h
    obtain ⟨p, hp, heq⟩ := Option.map_eq_some_iff.mp h
    exact ⟨p, hp, heq.symm⟩
  have hsame : s.peers[i]? = some p' → ∃ p, s.peers[i]? = some p ∧ p' = p :=
    fun h => ⟨p', h, rfl⟩
  cases a with
  | create =>
    have h' : (s.peers ++ [⟨senderCreate, .created⟩])[i]? = some p' := h
    rw [List.getElem?_append] at h'
    split at h'
    · exact Or.inl (hsame h')
    · rename_i hlen
      obtain ⟨hlt, heq⟩ := List.getElem?_eq_some_iff.mp h'
      rw [List.length_singleton] at hlt
      have hzero : i - s.peers.length = 0 := by omega
      simp only [hzero, List.getElem_cons_zero] at heq
      exact Or.inr ⟨rfl, by omega, heq.symm⟩
  | greet j => exact Or.inl (hmodify j _ h)
  | link j => exact Or.inl (hmodify j _ h)
  | drain j ok => exact Or.inl (hmodify j _ h)
  | prune =>
    have h' : (s.peers.map Peer.prune)[i]? = some p' := h
    rw [List.getElem?_map] at h'
    obtain ⟨p, hp, heq⟩ := Option.map_eq_some_iff.mp h'
    exact Or.inl ⟨p, hp, heq.symm⟩
  | advance data =>
    simp only [serverStep] at h
    split at h <;> exact Or.inl (hsame h)
  | enqueue alloc =>
    simp only [serverStep] at h
    simp only [Peer.step]
    split at h
    · exact Or.inl (hsame h)
    · rw [List.getElem?_mapIdx] at h
      obtain ⟨p, hp, heq⟩ := Option.map_eq_some_iff.mp h
      exact Or.inl ⟨p, hp, heq.symm⟩

end FastKV
