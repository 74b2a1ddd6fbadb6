import FastKV.Replication

/-!
# Frames arrive in order

Whatever the threads of the two sides do, and however often the connection is lost, the frames
that the replica has applied, followed by those on its connection, are some of the frames of the
records that have been queued, in their order. Nothing arrives twice, since a connection carries
only frames that are queued after it was accepted.
-/

namespace FastKV

open Lib

/-! ## Senders -/

section Senders

variable {s : ReplSender} {taken : ℕ}

/-- Putting a frame in the queue does not send anything. -/
theorem sent_senderEnqueue (alloc : Bool) (s : ReplSender) (data : Bytes) (len offset : ℕ) :
    (senderEnqueue alloc s data len offset).sent = s.sent := by
  unfold senderEnqueue
  split
  · rfl
  · split
    · rfl
    · split <;> rfl

/-- A frame is put at the end of the queue, or not at all. -/
theorem after_senderEnqueue (alloc : Bool) (s : ReplSender) {data : Bytes}
    (hlen : data.length < 2 ^ 32) (offset taken : ℕ) :
    ((senderEnqueue alloc s data (data.length % 2 ^ 32) offset).after taken).Sublist
      (s.after taken ++ [⟨⟨replMagic, data.length, offset⟩, data⟩]) := by
  rw [Nat.mod_eq_of_lt hlen]
  unfold senderEnqueue
  split
  · exact List.sublist_append_left _ _
  · split
    · exact List.sublist_append_left _ _
    · split
      · exact List.sublist_append_left _ _
      · simp [ReplSender.after, QueuedFrame.message]

/-- If the connection is not given up and there is memory, the frame is in the queue. -/
theorem after_senderEnqueue_connected {data : Bytes} (hlen : data.length < 2 ^ 32)
    (offset taken : ℕ)
    (h : (senderEnqueue true s data (data.length % 2 ^ 32) offset).connected = true) :
    s.connected = true ∧
      (senderEnqueue true s data (data.length % 2 ^ 32) offset).after taken =
        s.after taken ++ [⟨⟨replMagic, data.length, offset⟩, data⟩] ∧
      (senderEnqueue true s data (data.length % 2 ^ 32) offset).stop = s.stop := by
  rw [Nat.mod_eq_of_lt hlen] at h ⊢
  unfold senderEnqueue at h ⊢
  split at h
  · rename_i hgone
    rw [hgone] at h
    cases h
  · rename_i hconnected
    split at h
    · cases h
    · rename_i hroom
      rw [if_neg hconnected, if_neg hroom, if_neg (by simp)]
      refine ⟨by simpa using hconnected, ?_, rfl⟩
      simp [ReplSender.after, QueuedFrame.message]

/-- What has been sent stays sent. -/
theorem sent_senderDrain (ok : Bool) (s : ReplSender) : s.sent <+: (senderDrain ok s).sent := by
  unfold senderDrain
  split
  · exact List.prefix_refl _
  · split
    · exact List.prefix_refl _
    · simp only
      split
      · exact List.prefix_append _ _
      · exact List.prefix_refl _

/-- Sending a frame moves it from the queue to the connection, or loses it. -/
theorem after_senderDrain (ok : Bool) (htaken : taken ≤ s.sent.length) :
    ((senderDrain ok s).after taken).Sublist (s.after taken) := by
  unfold senderDrain
  split
  · exact List.Sublist.refl _
  · split
    · exact List.Sublist.refl _
    · rename_i f queue hq
      simp only
      split
      · have hsame : (s.sent ++ [f.message]).drop taken ++ queue.map QueuedFrame.message =
            s.sent.drop taken ++ s.queue.map QueuedFrame.message := by
          rw [List.drop_append_of_le_length htaken, hq]
          simp
        unfold ReplSender.after
        rw [hsame]
      · unfold ReplSender.after
        rw [hq, List.map_cons]
        exact (List.sublist_cons_self _ _).append_left _

/-- While the connection is up nothing is lost. -/
theorem after_senderDrain_connected {ok : Bool} (htaken : taken ≤ s.sent.length)
    (h : (senderDrain ok s).connected = true) :
    s.connected = true ∧ (senderDrain ok s).after taken = s.after taken ∧
      (senderDrain ok s).stop = s.stop := by
  unfold senderDrain at h ⊢
  split at h
  · cases h
  · rename_i hstop
    rw [if_neg hstop]
    split at h
    · rename_i hq
      exact ⟨h, rfl, rfl⟩
    · rename_i f queue hq
      cases ok with
      | false => cases h
      | true =>
        refine ⟨h, ?_, rfl⟩
        show (s.sent ++ [f.message]).drop taken ++ queue.map QueuedFrame.message = _
        unfold ReplSender.after
        rw [List.drop_append_of_le_length htaken, hq]
        simp

end Senders

/-! ## Connections -/

/-- The greeting is the first message, and nothing is queued before the sender is linked. -/
inductive Peer.Shaped : Peer → Prop
  /-- Before the greeting. -/
  | created : Shaped ⟨senderCreate, .created⟩
  /-- After the greeting. -/
  | greeted (o : ℕ) : Shaped ⟨{ senderCreate with sent := [replHello o] }, .greeted⟩
  /-- Once linked. -/
  | opened {p : Peer} (o : ℕ) (frames : List ReplMsg)
      (hsent : p.sender.sent = replHello o :: frames)
      (hstage : p.stage = .linked ∨ p.stage = .pruned) : Shaped p

/-- The frame that a step puts in queues. -/
def ReplServer.offered (s : ReplServer) : ServerStep → List ReplMsg
  | .enqueue _ =>
    match s.pending with
    | some b => [⟨⟨replMagic, b.data.length, b.offset⟩, b.data⟩]
    | none => []
  | _ => []

/-- What a step does to a connection: messages that were sent stay, and at most the frame that
is offered is added. -/
theorem Peer.Shaped.step {p : Peer} (h : p.Shaped) {s : ReplServer} {i : ℕ} {a : ServerStep}
    (hlen : ∀ b, s.pending = some b → b.data.length < 2 ^ 32) (taken : ℕ) (hpos : 0 < taken)
    (htaken : taken ≤ max 1 p.sender.sent.length) :
    (p.step s i a).Shaped ∧ p.sender.sent <+: (p.step s i a).sender.sent ∧
      ((p.step s i a).sender.after taken).Sublist (p.sender.after taken ++ s.offered a) := by
  have hsame : p.Shaped ∧ p.sender.sent <+: p.sender.sent ∧
      (p.sender.after taken).Sublist (p.sender.after taken ++ s.offered a) :=
    ⟨h, List.prefix_refl _, List.sublist_append_left _ _⟩
  cases a with
  | create => exact hsame
  | advance data => exact hsame
  | greet j =>
    simp only [Peer.step]
    split
    · unfold Peer.greet
      split
      · rename_i hstage
        cases h with
        | created =>
          refine ⟨.greeted _, List.nil_prefix, ?_⟩
          obtain ⟨n, rfl⟩ : ∃ n, taken = n + 1 := ⟨taken - 1, by omega⟩
          simp [ReplSender.after, senderCreate]
        | greeted o => cases hstage
        | opened o frames hsent hlater =>
          rw [hstage] at hlater
          rcases hlater with h | h <;> cases h
      · exact hsame
    · exact hsame
  | link j =>
    simp only [Peer.step]
    split
    · unfold Peer.link
      split
      · rename_i hstage
        cases h with
        | created => cases hstage
        | greeted o =>
          exact ⟨.opened o [] rfl (Or.inl rfl), List.prefix_refl _, List.sublist_append_left _ _⟩
        | opened o frames hsent hlater =>
          rw [hstage] at hlater
          rcases hlater with h | h <;> cases h
      · exact hsame
    · exact hsame
  | prune =>
    simp only [Peer.step, Peer.prune]
    split
    · rename_i hcond
      cases h with
      | created => cases hcond.1
      | greeted o => cases hcond.1
      | opened o frames hsent hlater =>
        refine ⟨.opened o frames hsent (Or.inr rfl), List.prefix_refl _, ?_⟩
        simp [ReplSender.after, senderDestroy]
    · exact hsame
  | enqueue alloc =>
    simp only [Peer.step]
    split
    · exact hsame
    · rename_i b hb
      unfold Peer.offer
      split
      · rename_i hstage
        have hoffered : s.offered (.enqueue alloc) =
            [⟨⟨replMagic, b.data.length, b.offset⟩, b.data⟩] := by
          simp [ReplServer.offered, hb]
        cases h with
        | created => cases hstage
        | greeted o => cases hstage
        | opened o frames hsent hlater =>
          have hkeep := sent_senderEnqueue (alloc i) p.sender b.data (b.data.length % 2 ^ 32)
            b.offset
          rw [hoffered]
          exact ⟨.opened o frames (hkeep.trans hsent) hlater, hkeep ▸ List.prefix_refl _,
            after_senderEnqueue _ _ (hlen b hb) _ _⟩
      · exact hsame
  | drain j ok =>
    simp only [Peer.step]
    split
    · cases h with
      | created => exact ⟨.created, List.prefix_refl _, List.sublist_append_left _ _⟩
      | greeted o => exact ⟨.greeted o, List.prefix_refl _, List.sublist_append_left _ _⟩
      | opened o frames hsent hlater =>
        have hlong : taken ≤ p.sender.sent.length := by
          rw [hsent, List.length_cons] at htaken ⊢
          omega
        obtain ⟨more, hmore⟩ := sent_senderDrain ok p.sender
        refine ⟨.opened o (frames ++ more) ?_ hlater, ⟨more, hmore⟩,
          (after_senderDrain ok hlong).trans (List.sublist_append_left _ _)⟩
        rw [← hmore, hsent, List.cons_append]
    · exact hsame

/-- A connection after a step. -/
theorem getElem?_serverStep {s : ReplServer} {i : ℕ} {p : Peer} (h : s.peers[i]? = some p)
    (a : ServerStep) : (serverStep s a).peers[i]? = some (p.step s i a) := by
  have hmodify : ∀ (j : ℕ) (f : Peer → Peer),
      (s.peers.modify j f)[i]? = some (if j = i then f p else p) := by
    intro j f
    rw [List.getElem?_modify, h]
    rfl
  cases a with
  | create =>
    have hlt := (List.getElem?_eq_some_iff.mp h).1
    show (s.peers ++ [⟨senderCreate, .created⟩])[i]? = some p
    rw [List.getElem?_append_left hlt, h]
  | greet j => exact hmodify j _
  | link j => exact hmodify j _
  | drain j ok => exact hmodify j _
  | prune =>
    show (s.peers.map Peer.prune)[i]? = some p.prune
    rw [List.getElem?_map, h]
    rfl
  | advance data =>
    simp only [serverStep]
    split <;> exact h
  | enqueue alloc =>
    simp only [serverStep, Peer.step]
    split
    · exact h
    · rw [List.getElem?_mapIdx, h]
      rfl

/-! ## Both sides -/

/-- What holds of a primary and a replica. -/
structure Replication.InOrder (s : Replication) : Prop where
  /-- Records are handed over once they are in the log. -/
  handed_le : s.handed ≤ s.primary.world.hooked.length
  /-- The offset is behind the records that have been handed over. -/
  offset : s.server.primaryOffset = offsetFrom 0 (s.primary.world.hooked.take s.handed)
  /-- The broadcast in progress is that of the last of them. -/
  pending : ∀ b, s.server.pending = some b → ∃ n, s.handed = n + 1 ∧
    s.primary.world.hooked[n]? = some b.data ∧ b.offset = s.server.primaryOffset
  /-- Records have permitted sizes. -/
  lengths : ∀ data ∈ s.primary.world.hooked, data.length < 2 ^ 32
  /-- The replica's connection. -/
  conn : ∀ i, s.client.receiver.conn = some i → ∃ p, s.server.peers[i]? = some p ∧ p.Shaped ∧
    s.client.taken ≤ p.sender.sent.length
  /-- Before the greeting has been taken. -/
  greeting : ∀ i, s.client.receiver = .greeting i → s.client.taken = 0
  /-- Afterwards. -/
  streaming : ∀ i, s.client.receiver = .streaming i → 0 < s.client.taken
  /-- The frames that the replica has applied or can still take. -/
  sublist : (s.client.seen ++ s.untaken).Sublist (framesFrom 0 s.queuedData)

section Steps

variable {s : Replication}

/-- The frames that can still be taken. -/
theorem Replication.untaken_eq {i : ℕ} {p : Peer} (hconn : s.client.receiver.conn = some i)
    (hp : s.server.peers[i]? = some p) : s.untaken = p.sender.after (max 1 s.client.taken) := by
  simp only [Replication.untaken, hconn, Option.bind_some, hp]

/-- Without a connection there are none. -/
theorem Replication.untaken_of_idle (h : s.client.receiver = .idle) : s.untaken = [] := by
  simp only [Replication.untaken, h, Receiver.conn, Option.bind_none]

/-- A request of the primary does not reach the queues at once. -/
theorem Replication.InOrder.queuedData_request (h : s.InOrder) {r : Request} {more : List Bytes}
    (hmore : (s.primary.after r).world.hooked = s.primary.world.hooked ++ more) :
    (replStep s (.request r)).queuedData = s.queuedData := by
  have hqueued : s.queued ≤ s.handed := by
    unfold Replication.queued
    split <;> omega
  show (s.primary.after r).world.hooked.take s.queued = s.primary.world.hooked.take s.queued
  rw [hmore, List.take_append_of_le_length (hqueued.trans h.handed_le)]

/-- The primary logs more records. -/
theorem Replication.InOrder.request (h : s.InOrder) {r : Request} {more : List Bytes}
    (hmore : (s.primary.after r).world.hooked = s.primary.world.hooked ++ more)
    (hlengths : ∀ data ∈ more, data.length < 2 ^ 32) : (replStep s (.request r)).InOrder := by
  have hdata := h.queuedData_request hmore
  refine ⟨?_, ?_, fun b hb => ?_, fun data hd => ?_, h.conn, h.greeting, h.streaming, ?_⟩
  · show s.handed ≤ (s.primary.after r).world.hooked.length
    rw [hmore, List.length_append]
    exact h.handed_le.trans (Nat.le_add_right _ _)
  · show s.server.primaryOffset = offsetFrom 0 ((s.primary.after r).world.hooked.take s.handed)
    rw [hmore, List.take_append_of_le_length h.handed_le]
    exact h.offset
  · obtain ⟨n, hn, hget, hoffset⟩ := h.pending b hb
    refine ⟨n, hn, ?_, hoffset⟩
    have hlt := (List.getElem?_eq_some_iff.mp hget).1
    show (s.primary.after r).world.hooked[n]? = some b.data
    rw [hmore, List.getElem?_append_left hlt, hget]
  · have hd' : data ∈ (s.primary.after r).world.hooked := hd
    rw [hmore] at hd'
    rcases List.mem_append.mp hd' with hd' | hd'
    · exact h.lengths data hd'
    · exact hlengths data hd'
  · rw [hdata]
    exact h.sublist

/-- The offset after one more record. -/
theorem offsetFrom_take_succ {datas : List Bytes} {n : ℕ} {data : Bytes}
    (h : datas[n]? = some data) (o : ℕ) :
    offsetFrom o (datas.take (n + 1)) = add64 (offsetFrom o (datas.take n)) data.length := by
  rw [List.take_add_one, h]
  simp [offsetFrom]

/-- Nor does the first half of a broadcast reach the queues. -/
theorem Replication.queuedData_broadcast (s : Replication) :
    (replStep s .broadcast).queuedData = s.queuedData := by
  simp only [replStep]
  split
  · rename_i data hnone hget
    simp [Replication.queuedData, Replication.queued, serverStep, hnone]
  · rfl

/-- A record is handed to the server. -/
theorem Replication.InOrder.broadcast (h : s.InOrder) : (replStep s .broadcast).InOrder := by
  simp only [replStep]
  split
  · rename_i data hnone hget
    have hlt := (List.getElem?_eq_some_iff.mp hget).1
    have hserver : serverStep s.server (.advance data) =
        { s.server with
          primaryOffset := add64 s.server.primaryOffset data.length
          pending := some ⟨data, add64 s.server.primaryOffset data.length⟩ } := by
      simp [serverStep, hnone]
    rw [hserver]
    refine ⟨hlt, ?_, fun b hb => ?_, h.lengths, h.conn, h.greeting, h.streaming, ?_⟩
    · show add64 s.server.primaryOffset data.length = _
      rw [h.offset, offsetFrom_take_succ hget]
    · cases hb
      exact ⟨s.handed, rfl, hget, rfl⟩
    · have hdata := s.queuedData_broadcast
      simp only [replStep, hnone, hget, hserver] at hdata
      have hsub := h.sublist
      rw [← hdata] at hsub
      exact hsub
  · exact h

/-- The steps of the server leave the offset alone. -/
theorem primaryOffset_serverStep (srv : ReplServer) {a : ServerStep}
    (ha : ∀ data, a ≠ .advance data) :
    (serverStep srv a).primaryOffset = srv.primaryOffset := by
  cases a with
  | advance data => exact absurd rfl (ha data)
  | enqueue alloc =>
    simp only [serverStep]
    split <;> rfl
  | create | greet | link | prune | drain => rfl

/-- The broadcast in progress goes on until its frame is put in the queues. -/
theorem pending_serverStep (srv : ReplServer) {a : ServerStep} (ha : ∀ data, a ≠ .advance data) :
    (serverStep srv a).pending = srv.pending ∧ srv.offered a = [] ∨
      ∃ b, srv.pending = some b ∧ (serverStep srv a).pending = none ∧
        srv.offered a = [⟨⟨replMagic, b.data.length, b.offset⟩, b.data⟩] := by
  cases a with
  | advance data => exact absurd rfl (ha data)
  | enqueue alloc =>
    cases hpending : srv.pending with
    | none => exact Or.inl ⟨by simp only [serverStep, hpending], by
        simp only [ReplServer.offered, hpending]⟩
    | some b => exact Or.inr ⟨b, rfl, by simp only [serverStep, hpending], by
        simp only [ReplServer.offered, hpending]⟩
  | create | greet | link | prune | drain => exact Or.inl ⟨rfl, rfl⟩

/-- The frames in the queues after a step of the server. -/
theorem Replication.InOrder.frames_server (h : s.InOrder) {a : ServerStep}
    (ha : ∀ data, a ≠ .advance data) :
    framesFrom 0 ({ s with server := serverStep s.server a } : Replication).queuedData =
      framesFrom 0 s.queuedData ++ s.server.offered a := by
  unfold Replication.queuedData Replication.queued
  rcases pending_serverStep s.server ha with ⟨hsame, hnone⟩ | ⟨b, hb, hdone, hone⟩
  · rw [hnone, List.append_nil, hsame]
  · obtain ⟨n, hn, hget, hoffset⟩ := h.pending b hb
    have hlast : b.offset = add64 (offsetFrom 0 (s.primary.world.hooked.take n)) b.data.length := by
      rw [hoffset, h.offset, hn, offsetFrom_take_succ hget]
    rw [hone, hdone, hb, hn]
    simp only [Option.isSome_none, Option.isSome_some, Bool.false_eq_true, if_false, if_true,
      Nat.add_sub_cancel]
    rw [List.take_add_one, hget, framesFrom_append, hlast]
    rfl

/-- A step of the server. -/
theorem Replication.InOrder.server (h : s.InOrder) (a : ServerStep) :
    (replStep s (.server a)).InOrder := by
  by_cases ha : ∃ data, a = .advance data
  · obtain ⟨data, rfl⟩ := ha
    exact h
  have ha' : ∀ data, a ≠ .advance data := fun data heq => ha ⟨data, heq⟩
  have hstep : replStep s (.server a) = { s with server := serverStep s.server a } := by
    cases a with
    | advance data => exact absurd rfl (ha' data)
    | create | greet | link | prune | drain | enqueue => rfl
  have hlen : ∀ b, s.server.pending = some b → b.data.length < 2 ^ 32 := by
    intro b hb
    obtain ⟨n, -, hget, -⟩ := h.pending b hb
    exact h.lengths _ (List.mem_of_getElem? hget)
  rw [hstep]
  refine ⟨h.handed_le, ?_, fun b hb => ?_, h.lengths, fun i hi => ?_, h.greeting, h.streaming, ?_⟩
  · exact (primaryOffset_serverStep s.server ha').trans h.offset
  · rcases pending_serverStep s.server ha' with ⟨hsame, -⟩ | ⟨b', -, hdone, -⟩
    · have hb' : s.server.pending = some b := hsame.symm.trans hb
      obtain ⟨n, hn, hget, hoffset⟩ := h.pending b hb'
      exact ⟨n, hn, hget, hoffset.trans (primaryOffset_serverStep s.server ha').symm⟩
    · have hb' : (serverStep s.server a).pending = some b := hb
      rw [hdone] at hb'
      cases hb'
  · obtain ⟨p, hp, hshaped, htaken⟩ := h.conn i hi
    obtain ⟨hshaped', hsent, -⟩ := hshaped.step (i := i) (a := a) hlen 1 Nat.one_pos
      (Nat.le_max_left _ _)
    exact ⟨_, getElem?_serverStep hp a, hshaped', htaken.trans hsent.length_le⟩
  · rw [h.frames_server ha']
    cases hconn : s.client.receiver.conn with
    | none =>
      have hidle : ∀ srv : ReplServer, ({ s with server := srv } : Replication).untaken = [] := by
        intro srv
        simp only [Replication.untaken, hconn, Option.bind_none]
      have hsub := h.sublist
      rw [hidle s.server] at hsub
      rw [hidle]
      exact hsub.trans (List.sublist_append_left _ _)
    | some i =>
      obtain ⟨p, hp, hshaped, htaken⟩ := h.conn i hconn
      obtain ⟨-, -, hafter⟩ := hshaped.step (i := i) (a := a) hlen _
        (lt_of_lt_of_le Nat.one_pos (Nat.le_max_left 1 s.client.taken))
        (max_le_max (Nat.le_refl 1) htaken)
      have hsub := h.sublist
      rw [Replication.untaken_eq hconn hp] at hsub
      have huntaken : ({ s with server := serverStep s.server a } : Replication).untaken =
          (p.step s.server i a).sender.after (max 1 s.client.taken) :=
        Replication.untaken_eq hconn (getElem?_serverStep hp a)
      rw [huntaken]
      have hmore := (List.Sublist.refl s.client.seen).append hafter
      rw [← List.append_assoc] at hmore
      exact hmore.trans (hsub.append (List.Sublist.refl _))

/-- The replica connects. -/
theorem Replication.InOrder.connect (h : s.InOrder) : (replStep s .connect).InOrder := by
  simp only [replStep]
  split
  · rename_i hidle
    have hnew : (serverStep s.server .create).peers[s.server.peers.length]? =
        some ⟨senderCreate, .created⟩ := by
      show (s.server.peers ++ [_])[s.server.peers.length]? = _
      rw [List.getElem?_append_right (Nat.le_refl _), Nat.sub_self]
      rfl
    refine ⟨h.handed_le, h.offset, h.pending, h.lengths, fun i hi => ?_, fun i hi => rfl,
      fun i hi => (by cases hi), ?_⟩
    · cases hi
      exact ⟨_, hnew, .created, Nat.zero_le _⟩
    · have huntaken : ({ s with
          server := serverStep s.server .create
          client := { s.client with
            receiver := .greeting s.server.peers.length, taken := 0 } } : Replication).untaken =
          [] := by
        simp only [Replication.untaken, Receiver.conn, Option.bind_some, hnew]
        rfl
      have hsub := h.sublist
      rw [Replication.untaken_of_idle hidle] at hsub
      rw [huntaken]
      exact hsub
  · exact h

/-- The replica loses its connection. -/
theorem Replication.InOrder.lose (h : s.InOrder) : (replStep s .lose).InOrder := by
  refine ⟨h.handed_le, h.offset, h.pending, h.lengths, fun i hi => (by cases hi),
    fun i hi => (by cases hi), fun i hi => (by cases hi), ?_⟩
  have hnone : (replStep s .lose).untaken = [] := Replication.untaken_of_idle rfl
  rw [hnone, List.append_nil]
  exact (List.sublist_append_left _ _).trans h.sublist

/-- The next message of a connection. -/
theorem Replication.next_eq_some {m : ReplMsg} (h : s.next = some m) : ∃ i p,
    s.client.receiver.conn = some i ∧ s.server.peers[i]? = some p ∧
      p.sender.sent[s.client.taken]? = some m := by
  obtain ⟨i, hi, hrest⟩ := Option.bind_eq_some_iff.mp h
  obtain ⟨p, hp, hm⟩ := Option.bind_eq_some_iff.mp hrest
  exact ⟨i, p, hi, hp, hm⟩

/-- The first message is the greeting. -/
theorem Peer.Shaped.first {p : Peer} (h : p.Shaped) {m : ReplMsg}
    (hm : p.sender.sent[0]? = some m) : ∃ o, m = replHello o := by
  cases h with
  | created => cases hm
  | greeted o =>
    cases hm
    exact ⟨o, rfl⟩
  | opened o frames hsent =>
    rw [hsent] at hm
    cases hm
    exact ⟨o, rfl⟩

/-- Taking the greeting or a frame. -/
theorem Replication.InOrder.next_cases (h : s.InOrder) {m : ReplMsg} (hm : s.next = some m) :
    (∃ i o, s.client.receiver = .greeting i ∧ s.client.taken = 0 ∧ m = replHello o) ∨
      ∃ i p, s.client.receiver = .streaming i ∧ s.server.peers[i]? = some p ∧
        s.untaken = m :: p.sender.after (s.client.taken + 1) := by
  obtain ⟨i, p, hconn, hp, hget⟩ := Replication.next_eq_some hm
  have huntaken := Replication.untaken_eq hconn hp
  cases hreceiver : s.client.receiver with
  | idle =>
    rw [hreceiver] at hconn
    cases hconn
  | greeting j =>
    have hzero := h.greeting j hreceiver
    obtain ⟨p', hp', hshaped, -⟩ := h.conn i hconn
    rw [hp] at hp'
    cases hp'
    rw [hzero] at hget
    obtain ⟨o, ho⟩ := hshaped.first hget
    exact Or.inl ⟨j, o, rfl, hzero, ho⟩
  | streaming j =>
    have hpos := h.streaming j hreceiver
    rw [hreceiver] at hconn
    cases hconn
    refine Or.inr ⟨i, p, rfl, hp, ?_⟩
    obtain ⟨hlt, hget'⟩ := List.getElem?_eq_some_iff.mp hget
    rw [huntaken, max_eq_right hpos]
    unfold ReplSender.after
    rw [List.drop_eq_getElem_cons hlt, hget', List.cons_append]

/-- The replica has given up its connection. -/
theorem Replication.InOrder.gone (h : s.InOrder) {c : ReplClient} (hidle : c.receiver = .idle)
    (hseen : c.seen = s.client.seen) : ({ s with client := c } : Replication).InOrder := by
  refine ⟨h.handed_le, h.offset, h.pending, h.lengths, fun j hj => ?_, fun j hj => ?_,
    fun j hj => ?_, ?_⟩
  · have hj' : c.receiver.conn = some j := hj
    rw [hidle] at hj'
    cases hj'
  · have hj' : c.receiver = .greeting j := hj
    rw [hidle] at hj'
    cases hj'
  · have hj' : c.receiver = .streaming j := hj
    rw [hidle] at hj'
    cases hj'
  · have hnone : ({ s with client := c } : Replication).untaken = [] :=
      Replication.untaken_of_idle hidle
    rw [hnone, List.append_nil]
    show c.seen.Sublist _
    rw [hseen]
    exact (List.sublist_append_left _ _).trans h.sublist

/-- The replica has taken a message. -/
theorem Replication.InOrder.took (h : s.InOrder) {i : ℕ} {p : Peer} {c : ReplClient}
    (hconn : s.client.receiver.conn = some i) (hp : s.server.peers[i]? = some p)
    (hlt : s.client.taken < p.sender.sent.length) (hreceiver : c.receiver = .streaming i)
    (htaken : c.taken = s.client.taken + 1)
    (hseen : (c.seen ++ p.sender.after (s.client.taken + 1)).Sublist (s.client.seen ++ s.untaken)) :
    ({ s with client := c } : Replication).InOrder := by
  refine ⟨h.handed_le, h.offset, h.pending, h.lengths, fun j hj => ?_, fun j hj => ?_,
    fun j hj => ?_, ?_⟩
  · have hj' : c.receiver.conn = some j := hj
    rw [hreceiver] at hj'
    cases hj'
    obtain ⟨p', hp', hshaped, -⟩ := h.conn i hconn
    rw [hp] at hp'
    cases hp'
    exact ⟨p, hp, hshaped, by show c.taken ≤ _; omega⟩
  · have hj' : c.receiver = .greeting j := hj
    rw [hreceiver] at hj'
    cases hj'
  · show 0 < c.taken
    omega
  · have huntaken : ({ s with client := c } : Replication).untaken =
        p.sender.after (max 1 c.taken) :=
      Replication.untaken_eq (by show c.receiver.conn = some i; rw [hreceiver]; rfl) hp
    rw [huntaken, htaken, max_eq_right (Nat.le_add_left 1 _)]
    exact hseen.trans h.sublist

/-- The replica takes a message. -/
theorem Replication.InOrder.receive (h : s.InOrder) (beyond : Bytes) :
    (replStep s (.receive beyond)).InOrder := by
  simp only [replStep]
  split
  · exact h
  · rename_i m hm
    obtain ⟨i, p, hconn, hp, hget⟩ := Replication.next_eq_some hm
    have hlt : s.client.taken < p.sender.sent.length := (List.getElem?_eq_some_iff.mp hget).1
    rcases h.next_cases hm with ⟨j, o, hreceiver, hzero, rfl⟩ | ⟨j, p', hreceiver, hp', huntaken⟩
    · rw [hreceiver] at hconn
      cases hconn
      simp only [FastKV.receive, hreceiver]
      rw [if_neg (by simp [replHello])]
      refine h.took (by rw [hreceiver]; rfl) hp hlt rfl rfl ?_
      rw [Replication.untaken_eq (by rw [hreceiver]; rfl) hp, hzero]
      exact List.Sublist.refl _
    · rw [hreceiver] at hconn
      cases hconn
      rw [hp] at hp'
      cases hp'
      have hskip : (s.client.seen ++ p.sender.after (s.client.taken + 1)).Sublist
          (s.client.seen ++ s.untaken) := by
        rw [huntaken]
        exact (List.Sublist.refl _).append (List.sublist_cons_self _ _)
      simp only [FastKV.receive, hreceiver]
      split
      · exact h.gone rfl rfl
      · split
        · exact h.took (by rw [hreceiver]; rfl) hp hlt rfl rfl hskip
        · split
          · exact h.gone rfl rfl
          · refine h.took (by rw [hreceiver]; rfl) hp hlt rfl rfl ?_
            show (s.client.seen ++ [m] ++ p.sender.after (s.client.taken + 1)).Sublist _
            rw [huntaken, List.append_assoc, List.singleton_append]

/-- Reading changes nothing. -/
theorem Replication.InOrder.reads (h : s.InOrder) (txnMgr : TxnMgr) :
    (replStep s (.reads txnMgr)).InOrder := by
  simp only [replStep]
  split
  · exact ⟨h.handed_le, h.offset, h.pending, h.lengths, h.conn, h.greeting, h.streaming, h.sublist⟩
  · exact h

end Steps

end FastKV
