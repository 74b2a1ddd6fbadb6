import FastKV.Lib.ByteCodec
import FastKV.Lib.ByteStream
import FastKV.ReplRun

/-!
# Replication byte by byte

Between a primary and a replica there are only bytes. `send_all` writes a message to a socket in
as many calls of `send` as the socket wants, and may fail in any of them; `recv_all` takes what
has arrived in pieces of any size until the header, and then the payload, is complete. Here each
of these calls is a step of its own, and steps of all other threads may come between. Whatever
the pieces are, the primary and the replica do what they do when whole messages are written and
taken at once.
-/

namespace FastKV

open Lib

/-! ## Headers in memory -/

/-- `sizeof(repl_frame_hdr_t)`. -/
def replHdrSize : ℕ := 16

/-- The bytes of a `repl_frame_hdr_t`. -/
def ReplHdr.bytes (h : ReplHdr) : Bytes :=
  leBytes 4 h.magic ++ leBytes 4 h.payloadLen ++ leBytes 8 h.offset

/-- The `repl_frame_hdr_t` that bytes are. -/
def ReplHdr.ofBytes (bs : Bytes) : ReplHdr :=
  ⟨leNat (bs.take 4), leNat ((bs.drop 4).take 4), leNat ((bs.drop 8).take 8)⟩

/-- The bytes of a message. -/
def ReplMsg.bytes (m : ReplMsg) : Bytes := m.hdr.bytes ++ m.payload

/-- The fields of a message are within their ranges, and its payload has the stated length. -/
structure ReplMsg.Fits (m : ReplMsg) : Prop where
  /-- It is one of a server. -/
  magic : m.hdr.magic = replMagic
  /-- The length of the payload. -/
  payloadLen : m.payload.length = m.hdr.payloadLen
  /-- A 32-bit length. -/
  payloadLen_lt : m.hdr.payloadLen < 2 ^ 32
  /-- A 64-bit offset. -/
  offset_lt : m.hdr.offset < 2 ^ 64

/-- The length of a header. -/
@[simp] theorem ReplHdr.length_bytes (h : ReplHdr) : h.bytes.length = replHdrSize := by
  simp [ReplHdr.bytes, replHdrSize]

/-- A header is read back. -/
theorem ReplMsg.Fits.ofBytes {m : ReplMsg} (h : m.Fits) : ReplHdr.ofBytes m.hdr.bytes = m.hdr := by
  have hmagic : leNat (leBytes 4 m.hdr.magic) = m.hdr.magic := by
    rw [h.magic]
    exact leNat_leBytes (by decide)
  have hlen : leNat (leBytes 4 m.hdr.payloadLen) = m.hdr.payloadLen := leNat_leBytes h.payloadLen_lt
  have hoffset : leNat (leBytes 8 m.hdr.offset) = m.hdr.offset := leNat_leBytes h.offset_lt
  unfold ReplHdr.ofBytes ReplHdr.bytes
  simp only [List.append_assoc, List.take_left' (leBytes_length 4 _),
    List.drop_left' (leBytes_length 4 _)]
  rw [← List.append_assoc, List.drop_left' (by simp : (leBytes 4 m.hdr.magic ++
    leBytes 4 m.hdr.payloadLen).length = 8), List.take_of_length_le (by simp), hmagic, hlen,
    hoffset]

/-! ## The sockets -/

/-- What a thread that writes to a socket has in hand. -/
structure Sending where
  /-- The message. -/
  msg : ReplMsg
  /-- What `send_all` has not written yet, one buffer for each call of it. -/
  rest : List Bytes

/-- The primary's end of a connection. -/
structure Link where
  /-- The bytes that the socket has taken so far. -/
  wire : Bytes
  /-- Whether a `send` has failed; a socket that fails does not recover. -/
  down : Bool
  /-- What is being written. -/
  sending : Option Sending

/-- A new connection. -/
def Link.fresh : Link := ⟨[], false, none⟩

/-- One round of the loop in `send_all`, in which the socket takes at most `n` bytes: what it
takes, and the buffers that are left. Taking nothing is a failure. When a buffer is empty
`send_all` returns, and the next call goes on with the next buffer. -/
def sendSome (n : ℕ) (down : Bool) : List Bytes → Option (Bytes × List Bytes)
  | [] => some ([], [])
  | buf :: rest =>
    let k := if down then 0 else min n buf.length
    if k = 0 then none else some (buf.take k, (buf.drop k :: rest).dropWhile List.isEmpty)

/-- The first half of a round of `sender_drain_queue`: a frame is taken out of the queue. -/
def senderTake (s : ReplSender) : ReplSender × Option ReplMsg :=
  if s.stop then ({ s with connected := false }, none)
  else
    match s.queue with
    | [] => (s, none)
    | f :: queue => ({ s with queue, queueBytes := s.queueBytes - f.len }, some f.message)

/-- The message has been written. The one that is written before the sender is linked is the
greeting. -/
def Peer.wrote (m : ReplMsg) (p : Peer) : Peer :=
  ⟨{ p.sender with sent := p.sender.sent ++ [m] },
    if p.stage = .created then .greeted else p.stage⟩

/-- The message could not be written. `accept_thread` does not look at that, and
`sender_drain_queue` stops. -/
def Peer.broke (p : Peer) : Peer :=
  if p.stage = .created then { p with stage := .greeted }
  else { p with sender := { p.sender with connected := false, stop := true } }

/-- The replica's end of a connection, inside `recv_all`. -/
structure Reader where
  /-- The header whose payload is being read; otherwise it is a header that is being read. -/
  hdr : Option ReplHdr
  /-- What the buffer has been filled with. -/
  buf : Bytes
  /-- The number of bytes that have been taken from the connection. -/
  pos : ℕ

/-- The number of bytes that `recv_all` has been asked for. -/
def Reader.want (r : Reader) : ℕ :=
  match r.hdr with
  | none => replHdrSize
  | some h => h.payloadLen

/-- A primary and one of its replicas with the bytes between them. -/
structure Wires where
  /-- The two sides. -/
  repl : Replication
  /-- The connections. -/
  links : ℕ → Link
  /-- Where the replica is in its connection. -/
  reader : Reader

/-- Whether `receiver_thread` asks for a payload after the header. -/
def wantsPayload (c : ReplClient) (h : ReplHdr) : Bool :=
  match c.receiver with
  | .streaming _ =>
    h.magic = replMagic ∧ h.payloadLen ≠ 0 ∧ h.payloadLen ≤ maxKeyLen + maxValLen + 32
  | _ => false

/-- One `recv`, which gives at most `n` bytes of those that have arrived. -/
def Wires.recv (n : ℕ) (beyond : Bytes) (w : Wires) : Wires :=
  match w.repl.client.receiver.conn with
  | none => w
  | some i =>
    let r := w.reader
    let got := ((w.links i).wire.drop r.pos).take (min n (r.want - r.buf.length))
    let buf := r.buf ++ got
    let pos := r.pos + got.length
    if buf.length < r.want then { w with reader := ⟨r.hdr, buf, pos⟩ }
    else
      match r.hdr with
      | some h =>
        { w with
          repl := { w.repl with client := receive beyond w.repl.client ⟨h, buf⟩ }
          reader := ⟨none, [], pos⟩ }
      | none =>
        let h := ReplHdr.ofBytes buf
        if wantsPayload w.repl.client h then { w with reader := ⟨some h, [], pos⟩ }
        else
          { w with
            repl := { w.repl with client := receive beyond w.repl.client ⟨h, []⟩ }
            reader := ⟨none, [], pos⟩ }

/-- A connection after a step of the thread that writes to it. -/
def Wires.put (i : ℕ) (p : Peer) (ℓ : Link) (w : Wires) : Wires :=
  { w with
    repl := { w.repl with
      server := { w.repl.server with peers := w.repl.server.peers.set i p } }
    links := Function.update w.links i ℓ }

/-- Whether the threads that `prune_disconnected` joins are not in the middle of a message. -/
def Wires.joinable (w : Wires) : Bool :=
  (List.range w.repl.server.peers.length).all fun i =>
    match w.repl.server.peers[i]? with
    | some p => p.stage ≠ .linked || p.sender.connected || (w.links i).sending.isNone
    | none => true

/-- The steps of both sides. -/
inductive WireStep
  /-- A step that neither writes nor reads. -/
  | other (a : ReplStep)
  /-- `accept_thread` begins to write the greeting. -/
  | greet (i : ℕ)
  /-- The thread of a sender takes a frame out of its queue. -/
  | take (i : ℕ)
  /-- A `send` on a connection, of which the socket takes at most `n` bytes. -/
  | send (i n : ℕ)
  /-- A `recv` of the replica. -/
  | recv (n : ℕ) (beyond : Bytes)

/-- Execute a step. -/
def wireStep (w : Wires) : WireStep → Wires
  | .other (.server (.greet _)) => w
  | .other (.server (.drain ..)) => w
  | .other (.receive _) => w
  | .other (.server .prune) =>
    if w.joinable then { w with repl := replStep w.repl (.server .prune) } else w
  | .other .connect =>
    if w.repl.client.receiver = .idle then
      { w with repl := replStep w.repl .connect, reader := ⟨none, [], 0⟩ }
    else w
  | .other a => { w with repl := replStep w.repl a }
  | .greet i =>
    match w.repl.server.peers[i]?, (w.links i).sending with
    | some p, none =>
      if p.stage = .created then
        let hello := replHello w.repl.server.primaryOffset
        w.put i p { w.links i with sending := some ⟨hello, [hello.hdr.bytes]⟩ }
      else w
    | _, _ => w
  | .take i =>
    match w.repl.server.peers[i]?, (w.links i).sending with
    | some p, none =>
      let (sender, m) := senderTake p.sender
      w.put i { p with sender } { w.links i with
        sending := m.map fun m => ⟨m, [m.hdr.bytes, m.payload]⟩ }
    | _, _ => w
  | .send i n =>
    match w.repl.server.peers[i]?, (w.links i).sending with
    | some p, some ⟨m, rest⟩ =>
      match sendSome n (w.links i).down rest with
      | none => w.put i p.broke { w.links i with down := true, sending := none }
      | some (bytes, []) => w.put i (p.wrote m) { w.links i with
          wire := (w.links i).wire ++ bytes, sending := none }
      | some (bytes, rest) => w.put i p { w.links i with
          wire := (w.links i).wire ++ bytes, sending := some ⟨m, rest⟩ }
    | _, _ => w
  | .recv n beyond => w.recv n beyond

/-- A primary that serves replicas, and a replica that has not connected. -/
def Wires.start (w : World) (db : Db) : Wires := ⟨.start w db, fun _ => .fresh, ⟨none, [], 0⟩⟩

/-! ## Whole messages -/

/-- A connection of the server, as far as the bytes on it depend on it. -/
structure Peer.Framed (p : Peer) : Prop where
  /-- What has been written. -/
  sent : ∀ m ∈ p.sender.sent, m.Fits
  /-- What is going to be written. -/
  queue : ∀ f ∈ p.sender.queue, f.message.Fits
  /-- The greeting is written first. -/
  created : p.stage = .created → p.sender.sent = []
  /-- Nothing is queued before the sender is linked. -/
  unlinked : p.stage = .created ∨ p.stage = .greeted → p.sender.queue = []
  /-- It is the first message. -/
  first : p.stage ≠ .created → ∃ o frames, p.sender.sent = replHello o :: frames

/-- The offsets of a server are 64-bit numbers. -/
structure ReplServer.InRange (s : ReplServer) : Prop where
  /-- The offset. -/
  offset : s.primaryOffset < 2 ^ 64
  /-- That of the broadcast in progress. -/
  pending : ∀ b, s.pending = some b → b.offset < 2 ^ 64

/-- The offsets after a step. -/
theorem ReplServer.InRange.step {s : ReplServer} (h : s.InRange) (a : ServerStep) :
    (serverStep s a).InRange := by
  cases a with
  | create | greet | link | prune | drain => exact ⟨h.offset, h.pending⟩
  | enqueue alloc =>
    simp only [serverStep]
    split
    · exact h
    · exact ⟨h.offset, fun b hb => by cases hb⟩
  | advance data =>
    have hlt : add64 s.primaryOffset data.length < 2 ^ 64 := Nat.mod_lt _ (by decide)
    simp only [serverStep]
    split
    · exact h
    · refine ⟨hlt, fun b hb => ?_⟩
      cases hb
      exact hlt

/-- The greeting fits. -/
theorem replHello_fits {offset : ℕ} (h : offset < 2 ^ 64) : (replHello offset).Fits :=
  ⟨rfl, rfl, by show 0 < 2 ^ 32; decide, h⟩

/-- A frame that is offered fits. -/
theorem Peer.Framed.offer {p : Peer} (h : p.Framed) {b : Broadcast} (hb : b.offset < 2 ^ 64)
    (alloc : Bool) :
    (p.offer alloc b).Framed ∧ p.sender.sent <+: (p.offer alloc b).sender.sent := by
  unfold Peer.offer
  split
  · rename_i hstage
    refine ⟨⟨?_, ?_, fun hc => ?_, fun hc => ?_, fun hc => ?_⟩, ?_⟩
    · rw [sent_senderEnqueue]
      exact h.sent
    · show ∀ f ∈ (senderEnqueue alloc p.sender b.data (b.data.length % 2 ^ 32) b.offset).queue, _
      unfold senderEnqueue
      split
      · exact h.queue
      · split
        · exact h.queue
        · split
          · exact h.queue
          · intro f hf
            rcases List.mem_append.mp hf with hold | hnew
            · exact h.queue f hold
            · rw [List.mem_singleton.mp hnew]
              refine ⟨rfl, ?_, Nat.mod_lt _ (by decide), hb⟩
              exact List.length_take_of_le (Nat.mod_le _ _)
    · rw [hstage] at hc
      cases hc
    · rw [hstage] at hc
      rcases hc with hc | hc <;> cases hc
    · rw [sent_senderEnqueue]
      exact h.first hc
    · exact ⟨[], by rw [List.append_nil, sent_senderEnqueue]⟩
  · exact ⟨h, List.prefix_refl _⟩

/-- Writing whole messages. -/
theorem Peer.Framed.drain {p : Peer} (h : p.Framed) (ok : Bool) :
    Peer.Framed { p with sender := senderDrain ok p.sender } ∧
      p.sender.sent <+: (senderDrain ok p.sender).sent := by
  refine ⟨?_, sent_senderDrain ok p.sender⟩
  unfold senderDrain
  split
  · exact ⟨h.sent, h.queue, h.created, h.unlinked, h.first⟩
  · cases hqueue : p.sender.queue with
    | nil => exact h
    | cons f queue =>
      have hlinked : ¬ (p.stage = .created ∨ p.stage = .greeted) := by
        intro hc
        rw [h.unlinked hc] at hqueue
        cases hqueue
      have hrest : ∀ f' ∈ queue, f'.message.Fits := fun f' hf' =>
        h.queue f' (by rw [hqueue]; exact List.mem_cons_of_mem _ hf')
      cases ok with
      | false =>
        exact ⟨h.sent, hrest, h.created, fun hc => absurd hc hlinked, h.first⟩
      | true =>
        refine ⟨fun m hm => ?_, hrest, fun hc => absurd (Or.inl hc) hlinked,
          fun hc => absurd hc hlinked, fun hc => ?_⟩
        · rcases List.mem_append.mp hm with hold | hnew
          · exact h.sent m hold
          · rw [List.mem_singleton.mp hnew]
            exact h.queue f (by rw [hqueue]; exact List.mem_cons_self)
        · obtain ⟨o, frames, hsent⟩ := h.first hc
          exact ⟨o, frames ++ [f.message], by simp [hsent]⟩

/-- A connection after a step of the server: what has been written stays. -/
theorem Peer.Framed.step {p : Peer} (h : p.Framed) {s : ReplServer} (hs : s.InRange) (i : ℕ)
    (a : ServerStep) : (p.step s i a).Framed ∧ p.sender.sent <+: (p.step s i a).sender.sent := by
  have hsame : p.Framed ∧ p.sender.sent <+: p.sender.sent := ⟨h, List.prefix_refl _⟩
  cases a with
  | create | advance => exact hsame
  | greet j =>
    simp only [Peer.step]
    split
    · unfold Peer.greet
      split
      · rename_i hstage
        have hnil := h.created hstage
        refine ⟨⟨fun m hm => ?_, h.queue, fun hc => (by cases hc),
          fun _ => h.unlinked (Or.inl hstage), fun _ => ⟨_, [], by rw [hnil]; rfl⟩⟩,
          List.prefix_append _ _⟩
        have hmem : m ∈ p.sender.sent ++ [replHello s.primaryOffset] := hm
        rw [hnil] at hmem
        rw [List.mem_singleton.mp hmem]
        exact replHello_fits hs.offset
      · exact hsame
    · exact hsame
  | link j =>
    simp only [Peer.step]
    split
    · unfold Peer.link
      split
      · rename_i hstage
        refine ⟨⟨h.sent, h.queue, fun hc => (by cases hc), fun hc => ?_,
          fun _ => h.first (by rw [hstage]; exact fun hc => by cases hc)⟩, List.prefix_refl _⟩
        rcases hc with hc | hc <;> cases hc
      · exact hsame
    · exact hsame
  | prune =>
    simp only [Peer.step, Peer.prune]
    split
    · rename_i hcond
      exact ⟨⟨h.sent, fun f hf => (by cases hf), fun hc => (by cases hc), fun _ => rfl,
        fun _ => h.first (by rw [hcond.1]; exact fun hc => by cases hc)⟩, List.prefix_refl _⟩
    · exact hsame
  | enqueue alloc =>
    simp only [Peer.step]
    split
    · exact hsame
    · rename_i b hb
      exact h.offer (hs.pending b hb) (alloc i)
  | drain j ok =>
    simp only [Peer.step]
    split
    · exact h.drain ok
    · exact hsame

/-- A new connection. -/
theorem Peer.Framed.create : Peer.Framed ⟨senderCreate, .created⟩ :=
  ⟨fun m hm => (by cases hm), fun f hf => (by cases hf), fun _ => rfl, fun _ => rfl,
    fun hc => absurd rfl hc⟩

/-! ## Both models side by side -/

/-- A connection on which nothing has failed: the message that is being written counts as written
where messages are written at once. -/
def Link.Matches (ℓ : Link) (p q : Peer) : Prop :=
  match ℓ.sending with
  | none => q = p ∧ ℓ.wire = stream ReplMsg.bytes q.sender.sent
  | some x => q = p.wrote x.msg ∧
      ℓ.wire ++ x.rest.flatten = stream ReplMsg.bytes q.sender.sent

/-- A connection in both models. What has arrived is the beginning of the messages; after a
failure nothing more is said. -/
structure Link.Carries (ℓ : Link) (p q : Peer) : Prop where
  /-- What the bytes are. -/
  wire : ℓ.wire <+: stream ReplMsg.bytes q.sender.sent
  /-- The messages. -/
  framed : q.Framed
  /-- While nothing has failed. -/
  up : ℓ.down = false → ℓ.Matches p q

/-- Where the replica is in the messages of its connection. -/
structure Reader.Reads (r : Reader) (wire : Bytes) (sent : List ReplMsg) (c : ReplClient) :
    Prop where
  /-- It has taken whole messages and a part of the next. -/
  taken : Taken ReplMsg.bytes sent c.taken ((r.hdr.elim [] ReplHdr.bytes) ++ r.buf)
  /-- These are the bytes that it has taken. -/
  pos : wire.take r.pos = stream ReplMsg.bytes (sent.take c.taken) ++
    ((r.hdr.elim [] ReplHdr.bytes) ++ r.buf)
  /-- They have arrived. -/
  pos_le : r.pos ≤ wire.length
  /-- The buffer is not full. -/
  room : r.buf.length < r.want
  /-- The header is that of the next message, which has a payload. -/
  hdr : ∀ h, r.hdr = some h → (∃ m, sent[c.taken]? = some m ∧ m.hdr = h) ∧
    wantsPayload c h = true
  /-- The greeting is the first message. -/
  greeting : ∀ i, c.receiver = .greeting i → c.taken = 0

/-- Both models are in corresponding states. -/
structure Wires.Refines (w : Wires) (s : Replication) : Prop where
  /-- The primaries are the same. -/
  primary : w.repl.primary = s.primary
  /-- They have handed over the same records. -/
  handed : w.repl.handed = s.handed
  /-- The replicas are the same. -/
  client : w.repl.client = s.client
  /-- The offsets are the same. -/
  offset : w.repl.server.primaryOffset = s.server.primaryOffset
  /-- The broadcasts are the same. -/
  pending : w.repl.server.pending = s.server.pending
  /-- The offsets are in range. -/
  inRange : s.server.InRange
  /-- The connections are the same. -/
  length : w.repl.server.peers.length = s.server.peers.length
  /-- What is on them. -/
  links : ∀ i p q, w.repl.server.peers[i]? = some p → s.server.peers[i]? = some q →
    (w.links i).Carries p q
  /-- There is nothing on those to come. -/
  fresh : ∀ i, w.repl.server.peers.length ≤ i → w.links i = .fresh
  /-- Where the replica is. -/
  reader : ∀ i, s.client.receiver.conn = some i → ∃ q, s.server.peers[i]? = some q ∧
    w.reader.Reads (w.links i).wire q.sender.sent s.client

/-- More bytes arrive, of the same messages and of more of them. -/
theorem Reader.Reads.mono {r : Reader} {wire wire' : Bytes} {sent sent' : List ReplMsg}
    {c : ReplClient} (h : r.Reads wire sent c) (hwire : wire <+: wire') (hsent : sent <+: sent') :
    r.Reads wire' sent' c := by
  refine ⟨h.taken.mono hsent, ?_, Nat.le_trans h.pos_le hwire.length_le, h.room,
    fun hd hhd => ?_, h.greeting⟩
  · obtain ⟨more, rfl⟩ := hwire
    obtain ⟨more', rfl⟩ := hsent
    rw [List.take_append_of_le_length h.pos_le, List.take_append_of_le_length h.taken.le]
    exact h.pos
  · obtain ⟨⟨m, hm, heq⟩, hwants⟩ := h.hdr hd hhd
    obtain ⟨more', rfl⟩ := hsent
    refine ⟨⟨m, ?_, heq⟩, hwants⟩
    rw [List.getElem?_append_left (List.getElem?_eq_some_iff.mp hm).1, hm]

/-! ## The writers -/

/-- What the socket takes and what is left are the buffers. -/
theorem sendSome_eq_some {n : ℕ} {down : Bool} {rest rest' : List Bytes} {bytes : Bytes}
    (h : sendSome n down rest = some (bytes, rest')) :
    bytes ++ rest'.flatten = rest.flatten ∧ (down = true → bytes = []) := by
  have hdrop : ∀ bufs : List Bytes, (bufs.dropWhile List.isEmpty).flatten = bufs.flatten := by
    intro bufs
    induction bufs with
    | nil => rfl
    | cons buf bufs ih =>
      rw [List.dropWhile_cons]
      split
      · rename_i hempty
        rw [ih, List.flatten_cons, List.isEmpty_iff.mp hempty, List.nil_append]
      · rfl
  cases rest with
  | nil =>
    cases h
    exact ⟨rfl, fun _ => rfl⟩
  | cons buf rest =>
    simp only [sendSome] at h
    by_cases hk : (if down = true then 0 else min n buf.length) = 0
    · rw [if_pos hk] at h
      cases h
    · rw [if_neg hk] at h
      cases h
      refine ⟨?_, fun hdown => ?_⟩
      · rw [hdrop, List.flatten_cons, List.flatten_cons, ← List.append_assoc,
          List.take_append_drop]
      · rw [if_pos hdown] at hk
        exact absurd rfl hk

section Writers

variable {ℓ : Link} {p q : Peer}

/-- A call of `send` in the middle of a message. -/
theorem Link.Carries.send (h : ℓ.Carries p q) {m : ReplMsg} {rest rest' : List Bytes}
    {bytes : Bytes} {n : ℕ} (hsending : ℓ.sending = some ⟨m, rest⟩)
    (hsend : sendSome n ℓ.down rest = some (bytes, rest')) :
    Link.Carries { ℓ with wire := ℓ.wire ++ bytes, sending := some ⟨m, rest'⟩ } p q := by
  obtain ⟨hbytes, hdown⟩ := sendSome_eq_some hsend
  have hup : ℓ.down = false → q = p.wrote m ∧
      (ℓ.wire ++ bytes) ++ rest'.flatten = stream ReplMsg.bytes q.sender.sent := by
    intro hok
    have hmatches := h.up hok
    simp only [Link.Matches, hsending] at hmatches
    refine ⟨hmatches.1, ?_⟩
    rw [List.append_assoc, hbytes]
    exact hmatches.2
  refine ⟨?_, h.framed, hup⟩
  cases hlink : ℓ.down with
  | true =>
    rw [hdown hlink, List.append_nil]
    exact h.wire
  | false =>
    rw [← (hup hlink).2]
    exact List.prefix_append _ _

/-- The call that writes the end of a message. -/
theorem Link.Carries.sent (h : ℓ.Carries p q) {m : ReplMsg} {rest : List Bytes}
    {bytes : Bytes} {n : ℕ} (hsending : ℓ.sending = some ⟨m, rest⟩)
    (hsend : sendSome n ℓ.down rest = some (bytes, [])) :
    Link.Carries { ℓ with wire := ℓ.wire ++ bytes, sending := none } (p.wrote m) q := by
  have hlast := h.send hsending hsend
  refine ⟨hlast.wire, h.framed, fun hok => ?_⟩
  have hmatches := hlast.up hok
  simp only [Link.Matches, List.flatten_nil, List.append_nil] at hmatches
  exact hmatches

/-- A call that fails. -/
theorem Link.Carries.broke (h : ℓ.Carries p q) (p' : Peer) :
    Link.Carries { ℓ with down := true, sending := none } p' q :=
  ⟨h.wire, h.framed, fun hok => by cases hok⟩

end Writers

end FastKV
