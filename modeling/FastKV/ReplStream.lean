import Mathlib.Data.List.Chain
import FastKV.Lib.Steps
import FastKV.ReplServer

/-!
# Offsets on a connection

A replica learns from the greeting how many bytes the primary has broadcast, and from every
frame how many there are with it. If the sender is linked while the queues stand where the
greeting said, the offsets on the connection follow each other without a gap. The greeting and
the link are two steps, though, and a broadcast in between is on no connection's stream.
-/

namespace FastKV

open Lib

/-! ## Streams -/

/-- The offset of a message is the next after that of the one before it. -/
def ReplMsg.Follows (m m' : ReplMsg) : Prop :=
  sub64 m'.hdr.offset m'.hdr.payloadLen = m.hdr.offset

instance (m m' : ReplMsg) : Decidable (m.Follows m') := inferInstanceAs (Decidable (_ = _))

/-- What has been sent and what is queued, in order. -/
def ReplSender.stream (s : ReplSender) : List ReplMsg := s.sent ++ s.queue.map QueuedFrame.message

/-- The offset up to which the queues have been filled: that of the last broadcast, without the
one in progress. -/
def ReplServer.queued (s : ReplServer) : ℕ :=
  match s.pending with
  | none => s.primaryOffset
  | some b => sub64 b.offset b.data.length

/-- A greeting and frames whose offsets follow each other. -/
def Gapless (msgs : List ReplMsg) : Prop :=
  ∃ o frames, msgs = replHello o :: frames ∧ msgs.IsChain ReplMsg.Follows

/-- A connection up to date with the queues. -/
structure ReplSender.UpToDate (s : ReplSender) (queued : ℕ) : Prop where
  /-- Frames are accepted. -/
  connected : s.connected = true
  /-- Frames are sent. -/
  running : s.stop = false
  /-- What has been sent. -/
  gapless : Gapless s.sent
  /-- The offsets follow each other. -/
  chain : s.stream.IsChain ReplMsg.Follows
  /-- The last one is that of the queues. -/
  last : (s.stream.getLast?).map (fun m => m.hdr.offset) = some queued

/-- What holds of a connection. -/
inductive Peer.Steady (queued : ℕ) : Peer → Prop
  /-- Before the greeting. -/
  | created : Steady queued ⟨senderCreate, .created⟩
  /-- After the greeting. -/
  | greeted (o : ℕ) : Steady queued ⟨{ senderCreate with sent := [replHello o] }, .greeted⟩
  /-- In the list. -/
  | linked {s : ReplSender} (h : s.UpToDate queued) : Steady queued ⟨s, .linked⟩
  /-- The sender has been stopped, and will send nothing more. -/
  | stopped {p : Peer} (hstop : p.sender.stop = true) (h : Gapless p.sender.sent)
      (hstage : p.stage ≠ .created ∧ p.stage ≠ .greeted) : Steady queued p

/-- What holds of the server. -/
structure ReplServer.Steady (s : ReplServer) : Prop where
  /-- The offset is a 64-bit number. -/
  offset_lt : s.primaryOffset < 2 ^ 64
  /-- The broadcast in progress is the last one, and a record. -/
  pending : ∀ b, s.pending = some b → b.offset = s.primaryOffset ∧ b.data.length < 2 ^ 32
  /-- The connections. -/
  peers : ∀ (i : ℕ) (p : Peer), s.peers[i]? = some p → p.Steady s.queued

/-! ## Steps -/

/-- The data of a broadcast is a record of the log. -/
def ServerStep.OfRecord : ServerStep → Prop
  | .advance data => ∃ r : Record, r.Valid ∧ data = r.frame.encode
  | _ => True

/-- A sender is linked only while the queues stand where its greeting said, and there is memory
for every frame. -/
def LinksInStep (s : ReplServer) : ServerStep → Prop
  | .link i => ∀ p, s.peers[i]? = some p → p.stage = .greeted →
    p.sender.sent = [replHello s.queued]
  | .enqueue alloc => ∀ i, alloc i = true
  | _ => True

/-- The length of a record fits in 32 bits. -/
theorem Record.Valid.length_lt {r : Record} (h : r.Valid) : r.frame.encode.length < 2 ^ 32 := by
  obtain ⟨-, hval, -⟩ := h.frame.realVlen
  have hkey := h.frame.key_le
  have hkeyMax : maxKeyLen = 4096 := rfl
  have hvalMax : maxValLen = 67108864 := rfl
  rw [Frame.length_encode, walHeaderSize]
  omega

/-- Subtracting what was added. -/
theorem sub64_add64 {a n : ℕ} (ha : a < 2 ^ 64) (hn : n < 2 ^ 64) : sub64 (add64 a n) n = a := by
  unfold sub64 add64
  omega

/-- A frame is put in a queue that is up to date, or the connection is given up. -/
theorem ReplSender.UpToDate.enqueue {s : ReplSender} {b : Broadcast}
    (h : s.UpToDate (sub64 b.offset b.data.length)) (hlen : b.data.length < 2 ^ 32) :
    Peer.Steady b.offset
      ⟨senderEnqueue true s b.data (b.data.length % 2 ^ 32) b.offset, .linked⟩ := by
  rw [Nat.mod_eq_of_lt hlen]
  unfold senderEnqueue
  rw [if_neg (by simp [h.connected])]
  split
  · exact .stopped rfl h.gapless (by simp)
  · rw [if_neg (by simp)]
    have hstream : ReplSender.stream { s with
        queue := s.queue ++ [⟨b.data.take b.data.length, b.data.length, b.offset⟩]
        queueBytes := s.queueBytes + b.data.length } = s.stream ++
          [⟨⟨replMagic, b.data.length, b.offset⟩, b.data.take b.data.length⟩] := by
      simp [ReplSender.stream, QueuedFrame.message]
    refine .linked ⟨h.connected, h.running, h.gapless, ?_, ?_⟩
    · rw [hstream]
      refine h.chain.append (List.isChain_singleton _) fun m hm m' hm' => ?_
      have hlast := h.last
      rw [Option.mem_def.mp hm, Option.map_some, Option.some.injEq] at hlast
      rw [List.head?_cons, Option.mem_some_iff] at hm'
      rw [← hm', ReplMsg.Follows, hlast]
    · rw [hstream, List.getLast?_concat]
      rfl

/-- A frame is sent, or the connection is given up. -/
theorem ReplSender.UpToDate.drain {s : ReplSender} {queued : ℕ} (h : s.UpToDate queued)
    (ok : Bool) : Peer.Steady queued ⟨senderDrain ok s, .linked⟩ := by
  unfold senderDrain
  rw [if_neg (by simp [h.running])]
  cases hq : s.queue with
  | nil => exact .linked h
  | cons f queue =>
    cases ok with
    | false => exact .stopped rfl h.gapless (by simp)
    | true =>
      have hstream : s.sent ++ [f.message] ++ queue.map QueuedFrame.message = s.stream := by
        simp [ReplSender.stream, hq]
      obtain ⟨o, frames, hsent, -⟩ := h.gapless
      refine .linked ⟨h.connected, h.running, ⟨o, frames ++ [f.message], ?_, ?_⟩, ?_, ?_⟩
      · simp [hsent]
      · have hchain := h.chain
        rw [← hstream] at hchain
        exact hchain.left_of_append
      · show (s.sent ++ [f.message] ++ queue.map QueuedFrame.message).IsChain _
        rw [hstream]
        exact h.chain
      · show ((s.sent ++ [f.message] ++ queue.map QueuedFrame.message).getLast?).map _ = _
        rw [hstream]
        exact h.last

/-- A stopped sender sends nothing. -/
theorem senderDrain_of_stop {s : ReplSender} (h : s.stop = true) (ok : Bool) :
    (senderDrain ok s).stop = true ∧ (senderDrain ok s).sent = s.sent := by
  unfold senderDrain
  rw [if_pos h]
  exact ⟨h, rfl⟩

/-- A stopped sender stays stopped. -/
theorem senderEnqueue_of_stop {s : ReplSender} (h : s.stop = true) (alloc : Bool) (data : Bytes)
    (len offset : ℕ) : (senderEnqueue alloc s data len offset).stop = true ∧
      (senderEnqueue alloc s data len offset).sent = s.sent := by
  unfold senderEnqueue
  split
  · exact ⟨h, rfl⟩
  · split
    · exact ⟨rfl, rfl⟩
    · split <;> exact ⟨h, rfl⟩

section Steps

variable {s : ReplServer} {i : ℕ} {p : Peer} {queued : ℕ}

/-- The greeting. -/
theorem Peer.Steady.greet (h : p.Steady queued) (offset : ℕ) : (p.greet offset).Steady queued := by
  unfold Peer.greet
  split
  · rename_i hstage
    cases h with
    | created => exact .greeted offset
    | greeted | linked => cases hstage
    | stopped _ _ hlater => exact absurd hstage hlater.1
  · exact h

/-- The sender is linked. -/
theorem Peer.Steady.link (h : p.Steady queued)
    (hhello : p.stage = .greeted → p.sender.sent = [replHello queued]) : p.link.Steady queued := by
  unfold Peer.link
  split
  · rename_i hstage
    have hsent := hhello hstage
    cases h with
    | created | linked => cases hstage
    | stopped _ _ hlater => exact absurd hstage hlater.2
    | greeted o =>
      have hsent' : [replHello o] = [replHello queued] := hsent
      rw [hsent']
      exact .linked ⟨rfl, rfl, ⟨queued, [], rfl, List.isChain_singleton _⟩,
        List.isChain_singleton _, rfl⟩
  · exact h

/-- The sender is taken out of the list. -/
theorem Peer.Steady.prune (h : p.Steady queued) : p.prune.Steady queued := by
  unfold Peer.prune
  split
  · rename_i hcond
    cases h with
    | created | greeted => cases hcond.1
    | linked h => exact .stopped rfl h.gapless (by simp)
    | stopped _ hgapless _ => exact .stopped rfl hgapless (by simp)
  · exact h

/-- A frame is put in the queue. -/
theorem Peer.Steady.offer {b : Broadcast} (h : p.Steady (sub64 b.offset b.data.length))
    (hlen : b.data.length < 2 ^ 32) : (p.offer true b).Steady b.offset := by
  unfold Peer.offer
  cases h with
  | created => exact .created
  | greeted o => exact .greeted o
  | linked h => exact h.enqueue hlen
  | stopped hstop hgapless hlater =>
    split
    · obtain ⟨hstop', hsent⟩ :=
        senderEnqueue_of_stop hstop true b.data (b.data.length % 2 ^ 32) b.offset
      exact .stopped hstop' (hsent ▸ hgapless) hlater
    · exact .stopped hstop hgapless hlater

/-- A frame is sent. -/
theorem Peer.Steady.drain (h : p.Steady queued) (ok : Bool) :
    Peer.Steady queued { p with sender := senderDrain ok p.sender } := by
  cases h with
  | created => exact .created
  | greeted o => exact .greeted o
  | linked h => exact h.drain ok
  | stopped hstop hgapless hlater =>
    obtain ⟨hstop', hsent⟩ := senderDrain_of_stop hstop ok
    exact .stopped hstop' (hsent ▸ hgapless) hlater

/-- Only the second half of a broadcast moves the queues on. -/
theorem ReplServer.Steady.queued_step (hs : s.Steady) {a : ServerStep} (hrecord : a.OfRecord)
    (ha : ∀ alloc, a ≠ .enqueue alloc) : (serverStep s a).queued = s.queued := by
  cases a with
  | create | greet | link | prune | drain => rfl
  | enqueue alloc => exact absurd rfl (ha alloc)
  | advance data =>
    obtain ⟨r, hr, rfl⟩ := hrecord
    have hlt := hr.length_lt
    simp only [serverStep]
    split
    · rfl
    · rename_i hnone
      have hpending : s.pending = none := by simpa using hnone
      simp only [ReplServer.queued, hpending]
      exact sub64_add64 hs.offset_lt (by omega)

/-- A step keeps a connection as it should be. -/
theorem Peer.Steady.step (hs : s.Steady) (hp : s.peers[i]? = some p) {a : ServerStep}
    (hrecord : a.OfRecord) (ha : LinksInStep s a) :
    (p.step s i a).Steady (serverStep s a).queued := by
  have h := hs.peers i p hp
  cases a with
  | enqueue alloc =>
    have halloc : alloc i = true := ha i
    simp only [Peer.step, serverStep]
    split
    · exact h
    · rename_i b hpending
      obtain ⟨hoffset, hlen⟩ := hs.pending b hpending
      rw [ReplServer.queued, hpending] at h
      rw [halloc, ReplServer.queued, ← hoffset]
      exact h.offer hlen
  | create => exact h
  | advance data =>
    rw [hs.queued_step hrecord fun alloc heq => by cases heq]
    exact h
  | prune => exact h.prune
  | greet j =>
    show (if j = i then p.greet s.primaryOffset else p).Steady s.queued
    split
    · exact h.greet _
    · exact h
  | link j =>
    show (if j = i then p.link else p).Steady s.queued
    split
    · rename_i heq
      subst heq
      exact h.link (ha p hp)
    · exact h
  | drain j ok =>
    show (if j = i then { p with sender := senderDrain ok p.sender } else p).Steady s.queued
    split
    · exact h.drain ok
    · exact h

/-- A step keeps the server as it should be. -/
theorem ReplServer.Steady.step (hs : s.Steady) {a : ServerStep} (hrecord : a.OfRecord)
    (ha : LinksInStep s a) : (serverStep s a).Steady := by
  have hpeers : ∀ (i : ℕ) (p : Peer), (serverStep s a).peers[i]? = some p →
      p.Steady (serverStep s a).queued := by
    intro i p' hp'
    rcases peers_serverStep hp' with ⟨p, hp, rfl⟩ | ⟨-, -, rfl⟩
    · exact .step hs hp hrecord ha
    · exact .created
  cases a with
  | create | greet | link | prune | drain => exact ⟨hs.offset_lt, hs.pending, hpeers⟩
  | advance data =>
    obtain ⟨r, hr, rfl⟩ := hrecord
    refine ⟨?_, fun b hb => ?_, hpeers⟩
    · simp only [serverStep]
      split
      · exact hs.offset_lt
      · exact Nat.mod_lt _ (by decide)
    · simp only [serverStep] at hb ⊢
      split at hb
      · rename_i hsome
        rw [if_pos hsome]
        exact hs.pending b hb
      · rename_i hnone
        rw [if_neg hnone]
        cases hb
        exact ⟨rfl, hr.length_lt⟩
  | enqueue alloc =>
    refine ⟨?_, fun b hb => ?_, hpeers⟩
    · simp only [serverStep]
      split <;> exact hs.offset_lt
    · simp only [serverStep] at hb ⊢
      split at hb
      · rename_i hnone
        rw [hnone] at hb
        cases hb
      · cases hb

end Steps

/-! ## Runs -/

/-- For every interleaving of the steps that accept connections, broadcast records and send
frames, in which senders are linked while the queues stand where their greetings said and there
is memory for the frames: what has been sent on a connection is a greeting and frames whose
offsets follow each other. -/
theorem stream_gapless {steps : List ServerStep} (hrecords : ∀ a ∈ steps, a.OfRecord)
    (hlinks : Permitted serverStep LinksInStep replServerInit steps) {i : ℕ} {p : Peer}
    (hp : (exec serverStep replServerInit steps).peers[i]? = some p) :
    p.sender.sent = [] ∨ Gapless p.sender.sent := by
  have hrun : ∀ (steps : List ServerStep) (s : ReplServer), s.Steady → (∀ a ∈ steps, a.OfRecord) →
      Permitted serverStep LinksInStep s steps → (exec serverStep s steps).Steady := by
    intro steps
    induction steps with
    | nil => exact fun s hs _ _ => hs
    | cons a steps ih =>
      intro s hs hrecords hlinks
      exact ih _ (hs.step (hrecords a List.mem_cons_self) hlinks.1)
        (fun b hb => hrecords b (List.mem_cons_of_mem _ hb)) hlinks.2
  have hsteady := hrun steps replServerInit ⟨by decide, fun b hb => (by cases hb),
    fun i p hp => (by cases hp)⟩ hrecords hlinks
  cases hsteady.peers i p hp with
  | created => exact Or.inl rfl
  | greeted o => exact Or.inr ⟨o, [], rfl, List.isChain_singleton _⟩
  | linked h => exact Or.inr h.gapless
  | stopped _ h => exact Or.inr h

/-- A record of 23 bytes. -/
def shortRecord : Record := ⟨.put, 1, [1], some [10]⟩

/-- It is a record of the log. -/
theorem shortRecord_valid : shortRecord.Valid :=
  ⟨by decide, by decide, fun v hv => by rw [← Option.mem_some_iff.mp hv]; decide⟩

/-- A broadcast of the record, and the sender's thread. -/
def broadcastShort : List ServerStep :=
  [.advance shortRecord.frame.encode, .enqueue fun _ => true, .drain 0 true]

/-- Such steps broadcast records. -/
theorem broadcastShort_ofRecord : ∀ a ∈ broadcastShort, a.OfRecord := by
  intro a ha
  simp only [broadcastShort, List.mem_cons, List.not_mem_nil, or_false] at ha
  rcases ha with rfl | rfl | rfl
  · exact ⟨shortRecord, shortRecord_valid, rfl⟩
  · trivial
  · trivial

/-- A replica connects before two broadcasts. -/
def linkedBefore : List ServerStep :=
  [.create, .greet 0, .link 0] ++ broadcastShort ++ broadcastShort

/-- The offsets that it gets follow each other. -/
theorem stream_gapless_linkedBefore :
    ∃ p, (exec serverStep replServerInit linkedBefore).peers[0]? = some p ∧
      (p.sender.sent.map fun m => (m.hdr.payloadLen, m.hdr.offset)) =
        [(0, 0), (23, 23), (23, 46)] ∧ Gapless p.sender.sent := by
  have hrecords : ∀ a ∈ linkedBefore, a.OfRecord := by
    intro a ha
    simp only [linkedBefore, List.mem_append] at ha
    rcases ha with (ha | ha) | ha
    · simp only [List.mem_cons, List.not_mem_nil, or_false] at ha
      rcases ha with rfl | rfl | rfl <;> trivial
    · exact broadcastShort_ofRecord a ha
    · exact broadcastShort_ofRecord a ha
  have hlinks : Permitted serverStep LinksInStep replServerInit linkedBefore := by
    refine ⟨trivial, trivial, fun p hp _ => ?_, trivial, fun _ => rfl, trivial, trivial,
      fun _ => rfl, trivial, trivial⟩
    rw [← Option.some.inj hp]
    rfl
  have hpeer : ((exec serverStep replServerInit linkedBefore).peers[0]?).map
      (fun p => p.sender.sent.map fun m => (m.hdr.payloadLen, m.hdr.offset)) =
        some [(0, 0), (23, 23), (23, 46)] := by decide +kernel
  obtain ⟨p, hp, hsent⟩ := Option.map_eq_some_iff.mp hpeer
  refine ⟨p, hp, hsent, (stream_gapless hrecords hlinks hp).resolve_left fun hnil => ?_⟩
  rw [hnil] at hsent
  cases hsent

/-- A record is broadcast between the greeting and the link. -/
def linkedLate : List ServerStep :=
  [.create, .greet 0] ++ broadcastShort ++ [.link 0] ++ broadcastShort

/-- The first frame does not follow the greeting. -/
theorem stream_gap_after_greeting : ¬ ∀ steps : List ServerStep, (∀ a ∈ steps, a.OfRecord) →
    ∀ (i : ℕ) (p : Peer), (exec serverStep replServerInit steps).peers[i]? = some p →
      p.sender.sent.IsChain ReplMsg.Follows := by
  intro hclaim
  have hrecords : ∀ a ∈ linkedLate, a.OfRecord := by
    intro a ha
    simp only [linkedLate, List.mem_append] at ha
    rcases ha with ((ha | ha) | ha) | ha
    · simp only [List.mem_cons, List.not_mem_nil, or_false] at ha
      rcases ha with rfl | rfl <;> trivial
    · exact broadcastShort_ofRecord a ha
    · rw [List.mem_singleton.mp ha]
      trivial
    · exact broadcastShort_ofRecord a ha
  have hpeer : ((exec serverStep replServerInit linkedLate).peers[0]?).map
      (fun p => decide (p.sender.sent.IsChain ReplMsg.Follows)) = some false := by decide +kernel
  obtain ⟨p, hp, hsent⟩ := Option.map_eq_some_iff.mp hpeer
  exact of_decide_eq_false hsent (hclaim linkedLate hrecords 0 p hp)

end FastKV
