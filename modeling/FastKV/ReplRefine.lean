import FastKV.ReplBytes

/-!
# Replication byte by byte, and with whole messages

Every step of the model in which sockets take and give bytes is at most one step of the model in
which messages are written and taken at once. A message counts as written there as soon as its
thread has it in hand, and as taken when its last byte has been; on a connection that has failed
the models go separate ways, but nothing that they do differently can arrive any more.
-/

namespace FastKV

open Lib

/-! ## One step -/

section Step

variable {w : Wires} {s : Replication}

/-- The thread that writes to a connection takes a step, and the whole messages may be written
at once. -/
theorem Wires.Refines.put (h : w.Refines s) {i : ℕ} {p p' q q' : Peer} {ℓ : Link}
    {srv : ReplServer} (hp : w.repl.server.peers[i]? = some p)
    (hq : s.server.peers[i]? = some q) (hoffset : srv.primaryOffset = s.server.primaryOffset)
    (hpending : srv.pending = s.server.pending)
    (hpeers : srv.peers = s.server.peers.set i q') (hsent : q.sender.sent <+: q'.sender.sent)
    (hwire : (w.links i).wire <+: ℓ.wire) (hcarries : ℓ.Carries p' q') :
    (w.put i p' ℓ).Refines { s with server := srv } := by
  have hi := (List.getElem?_eq_some_iff.mp hp).1
  have hi' := (List.getElem?_eq_some_iff.mp hq).1
  refine ⟨h.primary, h.handed, h.client, h.offset.trans hoffset.symm,
    h.pending.trans hpending.symm, ⟨?_, ?_⟩, ?_, fun j p₁ q₁ hp₁ hq₁ => ?_, fun j hj => ?_,
    fun j hj => ?_⟩
  · rw [hoffset]
    exact h.inRange.offset
  · rw [hpending]
    exact h.inRange.pending
  · show (w.repl.server.peers.set i p').length = srv.peers.length
    rw [hpeers, List.length_set, List.length_set, h.length]
  · have hp₂ : (w.repl.server.peers.set i p')[j]? = some p₁ := hp₁
    have hq₂ : (s.server.peers.set i q')[j]? = some q₁ := by
      rw [← hpeers]
      exact hq₁
    show (Function.update w.links i ℓ j).Carries p₁ q₁
    by_cases hji : j = i
    · subst hji
      rw [List.getElem?_set_self hi] at hp₂
      rw [List.getElem?_set_self hi'] at hq₂
      cases hp₂
      cases hq₂
      rw [Function.update_self]
      exact hcarries
    · rw [List.getElem?_set_ne (Ne.symm hji)] at hp₂ hq₂
      rw [Function.update_of_ne hji]
      exact h.links j p₁ q₁ hp₂ hq₂
  · have hlen : w.repl.server.peers.length ≤ j := by
      have hlen' : (w.repl.server.peers.set i p').length ≤ j := hj
      rwa [List.length_set] at hlen'
    show Function.update w.links i ℓ j = .fresh
    rw [Function.update_of_ne (by omega)]
    exact h.fresh j hlen
  · obtain ⟨q₁, hq₁, hreads⟩ := h.reader j hj
    show ∃ q₂, srv.peers[j]? = some q₂ ∧
      w.reader.Reads (Function.update w.links i ℓ j).wire q₂.sender.sent s.client
    by_cases hji : j = i
    · subst hji
      rw [hq] at hq₁
      cases hq₁
      refine ⟨q', ?_, ?_⟩
      · rw [hpeers, List.getElem?_set_self hi']
      · rw [Function.update_self]
        exact hreads.mono hwire hsent
    · refine ⟨q₁, ?_, ?_⟩
      · rw [hpeers, List.getElem?_set_ne (Ne.symm hji), hq₁]
      · rw [Function.update_of_ne hji]
        exact hreads

/-- The same without a step of the other model. -/
theorem Wires.Refines.put_same (h : w.Refines s) {i : ℕ} {p p' q : Peer} {ℓ : Link}
    (hp : w.repl.server.peers[i]? = some p) (hq : s.server.peers[i]? = some q)
    (hwire : (w.links i).wire <+: ℓ.wire) (hcarries : ℓ.Carries p' q) :
    (w.put i p' ℓ).Refines s := by
  refine h.put hp hq rfl rfl ?_ (List.prefix_refl _) hwire hcarries
  refine List.ext_getElem? fun j => ?_
  by_cases hji : j = i
  · subst hji
    rw [List.getElem?_set_self (List.getElem?_eq_some_iff.mp hq).1, hq]
  · rw [List.getElem?_set_ne (Ne.symm hji)]

/-- A connection of one model is one of the other. -/
theorem Wires.Refines.peer (h : w.Refines s) {i : ℕ} {p : Peer}
    (hp : w.repl.server.peers[i]? = some p) :
    ∃ q, s.server.peers[i]? = some q ∧ (w.links i).Carries p q := by
  have hi := (List.getElem?_eq_some_iff.mp hp).1
  rw [h.length] at hi
  exact ⟨_, List.getElem?_eq_getElem hi, h.links i p _ hp (List.getElem?_eq_getElem hi)⟩

/-- A step of the server is to the connections what it is with the same offset and the same
broadcast. -/
theorem Peer.step_congr {srv srv' : ReplServer} (hoffset : srv.primaryOffset = srv'.primaryOffset)
    (hpending : srv.pending = srv'.pending) (i : ℕ) (p : Peer) (a : ServerStep) :
    p.step srv i a = p.step srv' i a := by
  unfold Peer.step
  rw [hoffset, hpending]

/-- The steps of the server that neither write nor read. -/
def ServerStep.Silent : ServerStep → Prop
  | .greet _ => False
  | .drain .. => False
  | _ => True

/-- What such a step does does not depend on what has been written. -/
theorem Peer.step_wrote (p : Peer) (m : ReplMsg) (srv : ReplServer) (i : ℕ) {a : ServerStep}
    (ha : a.Silent) (hlink : a = .link i → p.stage ≠ .created)
    (hprune : a = .prune → ¬ (p.stage = .linked ∧ p.sender.connected = false)) :
    (p.wrote m).step srv i a = (p.step srv i a).wrote m := by
  cases a with
  | create | advance => rfl
  | greet | drain => exact absurd ha id
  | link j =>
    simp only [Peer.step]
    split
    · rename_i hji
      subst hji
      have hcreated := hlink rfl
      have hstage : (p.wrote m).stage = p.stage := if_neg hcreated
      unfold Peer.link
      rw [hstage]
      split <;> rfl
    · rfl
  | prune =>
    have hkept := hprune rfl
    have hkept' : ¬ ((p.wrote m).stage = .linked ∧ (p.wrote m).sender.connected = false) := by
      rintro ⟨hstage, hconnected⟩
      refine hkept ⟨?_, hconnected⟩
      have hstage' : (if p.stage = .created then PeerStage.greeted else p.stage) = .linked := hstage
      split at hstage'
      · cases hstage'
      · exact hstage'
    simp only [Peer.step, Peer.prune]
    rw [if_neg hkept, if_neg hkept']
  | enqueue alloc =>
    simp only [Peer.step]
    split
    · rfl
    · unfold Peer.offer
      by_cases hstage : p.stage = .linked
      · have hstage' : (p.wrote m).stage = .linked := by
          unfold Peer.wrote
          rw [hstage]
          rfl
        rw [if_pos hstage, if_pos hstage']
        unfold Peer.wrote senderEnqueue
        repeat' split
        all_goals rfl
      · have hstage' : ¬ (p.wrote m).stage = .linked := by
          unfold Peer.wrote
          split
          · exact fun hc => by cases hc
          · exact hstage
        rw [if_neg hstage, if_neg hstage']

/-- Such a step writes nothing. -/
theorem Peer.sent_step (p : Peer) (srv : ReplServer) (i : ℕ) {a : ServerStep} (ha : a.Silent) :
    (p.step srv i a).sender.sent = p.sender.sent := by
  cases a with
  | create | advance => rfl
  | greet | drain => exact absurd ha id
  | link j =>
    simp only [Peer.step, Peer.link]
    repeat' split
    all_goals rfl
  | prune =>
    simp only [Peer.step, Peer.prune]
    split <;> rfl
  | enqueue alloc =>
    simp only [Peer.step]
    split
    · rfl
    · unfold Peer.offer
      split
      · exact sent_senderEnqueue ..
      · rfl

/-- What it does to a connection in both models. -/
theorem Link.Carries.step {ℓ : Link} {p q : Peer} (h : ℓ.Carries p q) {srv srv' : ReplServer}
    (hsrv : srv'.InRange) (hoffset : srv.primaryOffset = srv'.primaryOffset)
    (hpending : srv.pending = srv'.pending) (i : ℕ) {a : ServerStep} (ha : a.Silent)
    (hlink : a = .link i → p.stage ≠ .created)
    (hprune : a = .prune → p.stage = .linked ∧ p.sender.connected = false → ℓ.sending = none) :
    ℓ.Carries (p.step srv i a) (q.step srv' i a) := by
  have hsent := q.sent_step srv' i ha
  refine ⟨?_, (h.framed.step hsrv i a).1, fun hok => ?_⟩
  · rw [hsent]
    exact h.wire
  · have hmatches := h.up hok
    unfold Link.Matches at hmatches ⊢
    split at hmatches
    · rename_i hsending
      obtain ⟨rfl, hwire⟩ := hmatches
      rw [hsent]
      exact ⟨(q.step_congr hoffset hpending i a).symm, hwire⟩
    · rename_i x hsending
      obtain ⟨rfl, hwire⟩ := hmatches
      rw [hsent, p.step_congr hoffset hpending i a]
      refine ⟨Peer.step_wrote p x.msg srv' i ha hlink fun hp hcond => ?_, hwire⟩
      rw [hprune hp hcond] at hsending
      cases hsending

/-- The offset and the broadcast after such a step. -/
theorem serverStep_congr {srv srv' : ReplServer} (hoffset : srv.primaryOffset = srv'.primaryOffset)
    (hpending : srv.pending = srv'.pending) (hlen : srv.peers.length = srv'.peers.length)
    (a : ServerStep) : (serverStep srv a).primaryOffset = (serverStep srv' a).primaryOffset ∧
      (serverStep srv a).pending = (serverStep srv' a).pending ∧
      (serverStep srv a).peers.length = (serverStep srv' a).peers.length := by
  cases a with
  | create | greet | link | prune | drain => simp [serverStep, hoffset, hpending, hlen]
  | advance data =>
    simp only [serverStep, hpending]
    split
    · exact ⟨hoffset, hpending, hlen⟩
    · rw [hoffset]
      exact ⟨rfl, rfl, hlen⟩
  | enqueue alloc =>
    simp only [serverStep, hpending]
    split
    · exact ⟨hoffset, hpending, hlen⟩
    · simp [hoffset, hlen]

/-- Such a step in both models. -/
theorem Wires.Refines.server (h : w.Refines s) {a : ServerStep} (ha : a.Silent)
    (hlink : ∀ i p, w.repl.server.peers[i]? = some p → a = .link i → p.stage ≠ .created)
    (hprune : ∀ i p, w.repl.server.peers[i]? = some p → a = .prune →
      p.stage = .linked ∧ p.sender.connected = false → (w.links i).sending = none) :
    Wires.Refines { w with repl := { w.repl with server := serverStep w.repl.server a } }
      { s with server := serverStep s.server a } := by
  obtain ⟨hoffset, hpending, hlen⟩ := serverStep_congr h.offset h.pending h.length a
  refine ⟨h.primary, h.handed, h.client, hoffset, hpending, h.inRange.step a, hlen,
    fun i p' q' hp' hq' => ?_, fun i hi => ?_, fun i hi => ?_⟩
  · rcases peers_serverStep hp' with ⟨p, hp, rfl⟩ | ⟨rfl, hi, rfl⟩
    · obtain ⟨q, hq, hcarries⟩ := h.peer hp
      have hq₂ := getElem?_serverStep hq a
      rw [hq₂] at hq'
      cases hq'
      exact hcarries.step h.inRange h.offset h.pending i ha (hlink i p hp) (hprune i p hp)
    · have hq₂ : (s.server.peers ++ [⟨senderCreate, .created⟩])[i]? = some q' := hq'
      rw [hi, h.length, List.getElem?_concat_length] at hq₂
      cases hq₂
      show (w.links i).Carries _ _
      rw [h.fresh i (Nat.le_of_eq hi.symm)]
      exact ⟨List.nil_prefix, .create, fun _ => ⟨rfl, rfl⟩⟩
  · refine h.fresh i (Nat.le_trans ?_ hi)
    cases a with
    | create => simp [serverStep]
    | greet | link | prune | drain => simp [serverStep]
    | advance | enqueue =>
      simp only [serverStep]
      split <;> simp
  · obtain ⟨q, hq, hreads⟩ := h.reader i hi
    refine ⟨_, getElem?_serverStep hq a, ?_⟩
    rw [q.sent_step s.server i ha]
    exact hreads

/-- The primaries or the replicas take a step, and the replicas stay in their place. -/
theorem Wires.Refines.sides (h : w.Refines s) {primary primary' : Session}
    (hprimary : primary = primary') {handed handed' : ℕ} (hhanded : handed = handed')
    {c c' : ReplClient} (hclient : c = c') (hconn : c'.receiver = s.client.receiver)
    (htaken : c'.taken = s.client.taken) :
    Wires.Refines { w with repl := { w.repl with primary, handed, client := c } }
      { s with primary := primary', handed := handed', client := c' } := by
  refine ⟨hprimary, hhanded, hclient, h.offset, h.pending, h.inRange, h.length, h.links, h.fresh,
    fun i hi => ?_⟩
  have hi' : c'.receiver.conn = some i := hi
  rw [hconn] at hi'
  obtain ⟨q, hq, hreads⟩ := h.reader i hi'
  have hwants : ∀ hd, wantsPayload c' hd = wantsPayload s.client hd := by
    intro hd
    unfold wantsPayload
    rw [hconn]
  refine ⟨q, hq, ?_, ?_, hreads.pos_le, hreads.room, fun hd hhd => ?_, fun j hj => ?_⟩
  · show Taken _ _ c'.taken _
    rw [htaken]
    exact hreads.taken
  · show _ = stream _ (q.sender.sent.take c'.taken) ++ _
    rw [htaken]
    exact hreads.pos
  · show (∃ m, q.sender.sent[c'.taken]? = some m ∧ _) ∧ wantsPayload c' hd = true
    rw [htaken, hwants]
    exact hreads.hdr hd hhd
  · have hj' : c'.receiver = .greeting j := hj
    rw [hconn] at hj'
    exact htaken.trans (hreads.greeting j hj')

/-- The replica is not connected any more. -/
theorem Wires.Refines.idle (h : w.Refines s) {c c' : ReplClient} (hclient : c = c')
    (hidle : c'.receiver = .idle) (r : Reader) :
    Wires.Refines { w with repl := { w.repl with client := c }, reader := r }
      { s with client := c' } := by
  refine ⟨h.primary, h.handed, hclient, h.offset, h.pending, h.inRange, h.length, h.links, h.fresh,
    fun i hi => ?_⟩
  have hconn : c'.receiver.conn = some i := hi
  rw [hidle] at hconn
  cases hconn

/-! ## The reader -/

/-- What a `recv` adds to what has been taken. -/
theorem Reader.Reads.got {r : Reader} {wire : Bytes} {sent : List ReplMsg} {c : ReplClient}
    (h : r.Reads wire sent c) (hwire : wire <+: stream ReplMsg.bytes sent) (n : ℕ) {got : Bytes}
    (hgot : got = (wire.drop r.pos).take (min n (r.want - r.buf.length))) :
    Taken ReplMsg.bytes sent c.taken ((r.hdr.elim [] ReplHdr.bytes) ++ (r.buf ++ got)) ∧
      wire.take (r.pos + got.length) = stream ReplMsg.bytes (sent.take c.taken) ++
        ((r.hdr.elim [] ReplHdr.bytes) ++ (r.buf ++ got)) ∧
      r.pos + got.length ≤ wire.length ∧ (r.buf ++ got).length ≤ r.want := by
  have hbegin : got <+: wire.drop r.pos := by
    rw [hgot]
    exact List.take_prefix _ _
  have hpos : wire.take (r.pos + got.length) = stream ReplMsg.bytes (sent.take c.taken) ++
      ((r.hdr.elim [] ReplHdr.bytes) ++ (r.buf ++ got)) := by
    rw [List.take_add, h.pos, ← List.prefix_iff_eq_take.mp hbegin]
    simp only [List.append_assoc]
  refine ⟨⟨h.taken.le, ?_⟩, hpos, ?_, ?_⟩
  · rw [← hpos]
    exact (List.take_prefix _ _).trans hwire
  · have hlen := hbegin.length_le
    have hle := h.pos_le
    rw [List.length_drop] at hlen
    omega
  · have hroom := h.room
    have hlen : got.length ≤ r.want - r.buf.length := by
      rw [hgot, List.length_take]
      omega
    rw [List.length_append]
    omega

/-- A message is taken, or the connection is given up. -/
theorem receive_cases (beyond : Bytes) {c : ReplClient} {i : ℕ} (hconn : c.receiver.conn = some i)
    (m : ReplMsg) : (receive beyond c m).receiver = .idle ∨
      ((receive beyond c m).receiver = .streaming i ∧
        (receive beyond c m).taken = c.taken + 1) := by
  unfold receive
  cases hreceiver : c.receiver with
  | idle =>
    rw [hreceiver] at hconn
    cases hconn
  | greeting j =>
    rw [hreceiver] at hconn
    cases hconn
    dsimp only
    split
    · exact Or.inl rfl
    · exact Or.inr ⟨rfl, rfl⟩
  | streaming j =>
    rw [hreceiver] at hconn
    cases hconn
    dsimp only
    repeat' split
    · exact Or.inl rfl
    · exact Or.inr ⟨rfl, rfl⟩
    · exact Or.inl rfl
    · exact Or.inr ⟨rfl, rfl⟩

/-- Where no payload is asked for, none is used, and the connection is given up if the message
has one. -/
theorem receive_of_not_wanted (beyond : Bytes) {c : ReplClient} {m : ReplMsg}
    (h : wantsPayload c m.hdr = false) :
    receive beyond c ⟨m.hdr, []⟩ = receive beyond c m ∧
      ((receive beyond c m).receiver ≠ .idle →
        m.hdr.payloadLen = 0 ∨ ∃ i, c.receiver = .greeting i) := by
  unfold receive
  unfold wantsPayload at h
  cases hreceiver : c.receiver with
  | idle => exact ⟨rfl, fun hc => absurd hreceiver hc⟩
  | greeting j => exact ⟨rfl, fun _ => Or.inr ⟨j, rfl⟩⟩
  | streaming j =>
    rw [hreceiver] at h
    have hnot := of_decide_eq_false h
    dsimp only
    by_cases hmagic : m.hdr.magic = replMagic
    · by_cases hzero : m.hdr.payloadLen = 0
      · simp [hmagic, hzero]
      · have hlarge : maxKeyLen + maxValLen + 32 < m.hdr.payloadLen := by
          by_contra hle
          exact hnot ⟨hmagic, hzero, Nat.le_of_not_lt hle⟩
        simp [hmagic, hzero, hlarge]
    · simp [hmagic]

/-- The next message is taken in both models. -/
theorem Wires.Refines.took (h : w.Refines s) {i : ℕ} {q : Peer} {m : ReplMsg} {part : Bytes}
    {pos : ℕ} (hconn : s.client.receiver.conn = some i) (hq : s.server.peers[i]? = some q)
    (hnext : q.sender.sent[s.client.taken]? = some m)
    (hpos : (w.links i).wire.take pos =
      stream ReplMsg.bytes (q.sender.sent.take s.client.taken) ++ part)
    (hpos_le : pos ≤ (w.links i).wire.length) (beyond : Bytes) {c : ReplClient}
    (hc : c = receive beyond s.client m) (hwhole : c.receiver ≠ .idle → part = m.bytes) :
    Wires.Refines { w with repl := { w.repl with client := c }, reader := ⟨none, [], pos⟩ }
      (exec replStep s [.receive beyond]) := by
  have hstep : exec replStep s [.receive beyond] = { s with client := c } := by
    have hnext' : s.next = some m := by
      unfold Replication.next
      rw [hconn, Option.bind_some, hq, Option.bind_some, hnext]
    rw [exec_cons, exec_nil, hc]
    simp only [replStep, hnext']
  rw [hstep]
  rcases receive_cases beyond hconn m with hidle | ⟨hstreaming, htaken⟩
  · exact h.idle rfl (hc ▸ hidle) _
  · rw [← hc] at hstreaming htaken
    refine ⟨h.primary, h.handed, rfl, h.offset, h.pending, h.inRange, h.length, h.links, h.fresh,
      fun j hj => ?_⟩
    have hj' : c.receiver.conn = some j := hj
    rw [hstreaming] at hj'
    cases hj'
    have hpart := hwhole (by rw [hstreaming]; exact fun hn => by cases hn)
    refine ⟨q, hq, ?_, ?_, hpos_le, ?_, fun hd hhd => (by cases hhd), fun j hj => ?_⟩
    · show Taken _ _ c.taken []
      rw [htaken]
      exact taken_succ hnext
    · show _ = stream _ (q.sender.sent.take c.taken) ++ ([] ++ [])
      rw [htaken, stream_take_succ hnext, hpos, hpart]
      simp
    · show 0 < replHdrSize
      decide
    · have hj₁ : c.receiver = .greeting j := hj
      rw [hstreaming] at hj₁
      cases hj₁

/-- The first message of a connection has no payload. -/
theorem Peer.Framed.payload_first {q : Peer} (h : q.Framed) {m : ReplMsg}
    (hm : q.sender.sent[0]? = some m) : m.payload = [] := by
  by_cases hstage : q.stage = .created
  · rw [h.created hstage] at hm
    cases hm
  · obtain ⟨o, frames, hsent⟩ := h.first hstage
    rw [hsent] at hm
    cases hm
    rfl

/-- A `recv`: either the next message is complete, or it is not. -/
theorem Wires.Refines.recv (h : w.Refines s) (n : ℕ) (beyond : Bytes) :
    (w.recv n beyond).Refines s ∨
      (w.recv n beyond).Refines (exec replStep s [.receive beyond]) := by
  unfold Wires.recv
  split
  · exact Or.inl h
  · rename_i i hconn
    rw [h.client] at hconn
    obtain ⟨q, hq, hreads⟩ := h.reader i hconn
    have hp := (List.getElem?_eq_some_iff.mp hq).1
    rw [← h.length] at hp
    have hcarries := h.links i _ q (List.getElem?_eq_getElem hp) hq
    dsimp only
    generalize hgot : ((w.links i).wire.drop w.reader.pos).take
      (min n (w.reader.want - w.reader.buf.length)) = got
    obtain ⟨htaken, hpos, hpos_le, hle⟩ := hreads.got hcarries.wire n hgot.symm
    have hsame : ∀ r : Reader, r.Reads (w.links i).wire q.sender.sent s.client →
        Wires.Refines { w with reader := r } s := fun r hr =>
      ⟨h.primary, h.handed, h.client, h.offset, h.pending, h.inRange, h.length, h.links, h.fresh,
        fun j hj => by
          rw [hconn] at hj
          cases hj
          exact ⟨q, hq, hr⟩⟩
    split
    · rename_i hroom
      exact Or.inl (hsame _ ⟨htaken, hpos, hpos_le, hroom, hreads.hdr, hreads.greeting⟩)
    · rename_i hfull
      have hlen : (w.reader.buf ++ got).length = w.reader.want := by omega
      split
      · rename_i hd hhd
        obtain ⟨⟨m, hnext, rfl⟩, -⟩ := hreads.hdr hd hhd
        rw [hhd] at htaken hpos
        have hfits := hcarries.framed.sent m (List.mem_of_getElem? hnext)
        have hwant : w.reader.want = m.payload.length := by
          unfold Reader.want
          rw [hhd]
          exact hfits.payloadLen.symm
        -- header and payload have the length of the message
        have hwhole : m.hdr.bytes ++ (w.reader.buf ++ got) = m.bytes := by
          have hsum : (m.hdr.bytes ++ (w.reader.buf ++ got)).length = m.bytes.length := by
            rw [List.length_append, hlen, hwant]
            exact List.length_append.symm
          have hpart := htaken.part_of_next hnext (Nat.le_of_eq hsum)
          rw [Option.elim_some, hsum, List.take_length] at hpart
          exact hpart
        have hpayload : w.reader.buf ++ got = m.payload := List.append_cancel_left hwhole
        refine Or.inr (h.took hconn hq hnext hpos hpos_le beyond ?_ fun _ => hwhole)
        rw [h.client, hpayload]
      · rename_i hhd
        rw [hhd, Option.elim_none, List.nil_append] at htaken hpos
        have hwant : (w.reader.buf ++ got).length = replHdrSize := by
          rw [hlen]
          unfold Reader.want
          rw [hhd]
        have hne : w.reader.buf ++ got ≠ [] := by
          intro hnil
          rw [hnil] at hwant
          cases hwant
        obtain ⟨m, hnext⟩ := htaken.next hne
        have hfits := hcarries.framed.sent m (List.mem_of_getElem? hnext)
        have hhead : w.reader.buf ++ got = m.hdr.bytes := by
          have hshort : (w.reader.buf ++ got).length ≤ m.bytes.length := by
            rw [hwant]
            unfold ReplMsg.bytes
            rw [List.length_append, ReplHdr.length_bytes]
            exact Nat.le_add_right _ _
          have hpart := htaken.part_of_next hnext hshort
          rw [hwant] at hpart
          rw [hpart]
          exact List.take_left' m.hdr.length_bytes
        rw [hhead] at htaken hpos
        rw [hhead, hfits.ofBytes, h.client]
        split
        · rename_i hwants
          refine Or.inl (hsame _ ⟨?_, ?_, hpos_le, ?_, fun hd heq => ?_, hreads.greeting⟩)
          · rw [Option.elim_some, List.append_nil]
            exact htaken
          · rw [Option.elim_some, List.append_nil]
            exact hpos
          · show 0 < m.hdr.payloadLen
            unfold wantsPayload at hwants
            split at hwants
            · exact Nat.pos_of_ne_zero (of_decide_eq_true hwants).2.1
            · cases hwants
          · cases heq
            exact ⟨⟨m, hnext, rfl⟩, hwants⟩
        · rename_i hwants
          obtain ⟨hsame, hzero⟩ :=
            receive_of_not_wanted beyond (Bool.eq_false_iff.mpr hwants)
          refine Or.inr (h.took hconn hq hnext hpos hpos_le beyond hsame fun hidle => ?_)
          have hnil : m.payload = [] := by
            rcases hzero (hsame ▸ hidle) with hzero | ⟨j, hj⟩
            · exact List.eq_nil_of_length_eq_zero (hfits.payloadLen.trans hzero)
            · rw [hreads.greeting j hj] at hnext
              exact hcarries.framed.payload_first hnext
          rw [ReplMsg.bytes, hnil, List.append_nil]

/-- The replica connects. -/
theorem Wires.Refines.connect (h : w.Refines s) (hidle : s.client.receiver = .idle) :
    Wires.Refines { w with repl := replStep w.repl .connect, reader := ⟨none, [], 0⟩ }
      (replStep s .connect) := by
  have hcreated := h.server (a := .create) trivial (fun i p _ hc => by cases hc)
    fun i p _ hc => by cases hc
  have hconnect : ∀ s' : Replication, s'.client.receiver = .idle → replStep s' .connect =
      { s' with
        server := serverStep s'.server .create
        client := { s'.client with receiver := .greeting s'.server.peers.length, taken := 0 } } :=
    fun s' hs' => if_pos hs'
  rw [hconnect s hidle, hconnect w.repl (by rw [h.client]; exact hidle)]
  refine ⟨h.primary, h.handed, ?_, hcreated.offset, hcreated.pending, hcreated.inRange,
    hcreated.length, hcreated.links, hcreated.fresh, fun i hi => ?_⟩
  · show _ = _
    rw [h.client, h.length]
  · have hi' : some s.server.peers.length = some i := hi
    cases hi'
    refine ⟨⟨senderCreate, .created⟩, List.getElem?_concat_length, ⟨Nat.zero_le _, ?_⟩, ?_,
      Nat.zero_le _, by show 0 < replHdrSize; decide, fun hd hhd => (by cases hhd), fun j _ => rfl⟩
    · exact List.nil_prefix
    · exact List.take_zero

/-- A step of `accept_thread`, which links the sender once it has tried to write the greeting. -/
theorem Wires.Refines.link (h : w.Refines s) (j : ℕ) :
    Wires.Refines { w with repl := replStep w.repl (.server (.link j)) } s ∨
      Wires.Refines { w with repl := replStep w.repl (.server (.link j)) }
        (replStep s (.server (.link j))) := by
  cases hp : w.repl.server.peers[j]? with
  | none =>
    refine Or.inr (h.server (a := .link j) trivial (fun i p hi hc => ?_)
      fun i p _ hc => by cases hc)
    cases hc
    rw [hp] at hi
    cases hi
  | some p =>
    by_cases hstage : p.stage = .created
    · -- the greeting is being written here, and has been written in the other model
      have hsame : serverStep w.repl.server (.link j) = w.repl.server := by
        have hlink : p.link = p := by
          unfold Peer.link
          rw [hstage, if_neg (by decide)]
        have hpeers : w.repl.server.peers.modify j Peer.link = w.repl.server.peers := by
          refine List.ext_getElem? fun i => ?_
          rw [List.getElem?_modify]
          by_cases hji : j = i
          · subst hji
            rw [hp]
            simpa using hlink
          · simp [hji]
        show { w.repl.server with peers := w.repl.server.peers.modify j Peer.link } = _
        rw [hpeers]
      refine Or.inl ?_
      show Wires.Refines
        { w with repl := { w.repl with server := serverStep w.repl.server (.link j) } } s
      rw [hsame]
      exact h
    · refine Or.inr (h.server (a := .link j) trivial (fun i p' hi hc => ?_)
        fun i p' _ hc => by cases hc)
      cases hc
      rw [hp] at hi
      cases hi
      exact hstage

/-- `prune_disconnected` waits for the threads that it joins. -/
theorem Wires.sending_of_joinable (hjoin : w.joinable = true) {i : ℕ} {p : Peer}
    (hp : w.repl.server.peers[i]? = some p)
    (hpruned : p.stage = .linked ∧ p.sender.connected = false) : (w.links i).sending = none := by
  have hi := (List.getElem?_eq_some_iff.mp hp).1
  have hall := List.all_eq_true.mp hjoin i (List.mem_range.mpr hi)
  rw [hp] at hall
  simpa [hpruned.1, hpruned.2] using hall

/-- `accept_thread` begins to write the greeting, which in the other model it writes at once. -/
theorem Wires.Refines.greet (h : w.Refines s) (i : ℕ) :
    (wireStep w (.greet i)).Refines s ∨
      (wireStep w (.greet i)).Refines (replStep s (.server (.greet i))) := by
  simp only [wireStep]
  split
  · rename_i p hp hsending
    obtain ⟨q, hq, hcarries⟩ := h.peer hp
    split
    · rename_i hstage
      cases hdown : (w.links i).down with
      | true =>
        exact Or.inl (h.put_same hp hq (List.prefix_refl _) ⟨hcarries.wire, hcarries.framed,
          fun hok => by cases hok⟩)
      | false =>
        have hmatches := hcarries.up hdown
        simp only [Link.Matches, hsending] at hmatches
        obtain ⟨rfl, hwire⟩ := hmatches
        have hgreet : q.greet s.server.primaryOffset =
            q.wrote (replHello s.server.primaryOffset) := by
          unfold Peer.greet Peer.wrote
          rw [if_pos hstage, if_pos hstage]
        have hframed := (hcarries.framed.step h.inRange i (.greet i)).1
        simp only [Peer.step, if_pos] at hframed
        have hstream : (w.links i).wire ++ [(replHello s.server.primaryOffset).hdr.bytes].flatten =
            stream ReplMsg.bytes (q.wrote (replHello s.server.primaryOffset)).sender.sent := by
          show _ = stream _ (q.sender.sent ++ [_])
          rw [stream_concat, hwire]
          simp [ReplMsg.bytes, replHello]
        have hpeers : (serverStep s.server (.greet i)).peers =
            s.server.peers.set i (q.wrote (replHello s.server.primaryOffset)) := by
          show s.server.peers.modify i (Peer.greet s.server.primaryOffset) = _
          rw [List.modify_eq_set_getElem?, hq]
          exact congrArg _ hgreet
        refine Or.inr (h.put hp hq rfl rfl hpeers (List.prefix_append _ _) (List.prefix_refl _)
          ⟨?_, ?_, fun _ => ⟨?_, ?_⟩⟩)
        · rw [← hstream]
          exact List.prefix_append _ _
        · rw [← hgreet]
          exact hframed
        · rw [h.offset]
        · rw [h.offset]
          exact hstream
    · exact Or.inl h
  · exact Or.inl h

/-- A frame is taken out of the queue exactly when one is written in the other model. -/
theorem senderTake_cases (s : ReplSender) :
    (∃ s', senderTake s = (s', none) ∧ senderDrain true s = s' ∧ s'.sent = s.sent) ∨
      ∃ f queue s', s.queue = f :: queue ∧ senderTake s = (s', some f.message) ∧
        senderDrain true s = { s' with sent := s'.sent ++ [f.message] } ∧ s'.sent = s.sent := by
  unfold senderTake senderDrain
  by_cases hstop : s.stop = true
  · rw [if_pos hstop, if_pos hstop]
    exact Or.inl ⟨_, rfl, rfl, rfl⟩
  · rw [if_neg hstop, if_neg hstop]
    cases hqueue : s.queue with
    | nil => exact Or.inl ⟨s, rfl, rfl, rfl⟩
    | cons f queue => exact Or.inr ⟨f, queue, _, rfl, rfl, rfl, rfl⟩

/-- The thread of a sender takes a frame, which in the other model it writes at once. -/
theorem Wires.Refines.take (h : w.Refines s) (i : ℕ) :
    (wireStep w (.take i)).Refines s ∨
      (wireStep w (.take i)).Refines (replStep s (.server (.drain i true))) := by
  simp only [wireStep]
  split
  · rename_i p hp hsending
    obtain ⟨q, hq, hcarries⟩ := h.peer hp
    cases hdown : (w.links i).down with
    | true =>
      exact Or.inl (h.put_same hp hq (List.prefix_refl _) ⟨hcarries.wire, hcarries.framed,
        fun hok => by cases hok⟩)
    | false =>
      have hmatches := hcarries.up hdown
      simp only [Link.Matches, hsending] at hmatches
      obtain ⟨rfl, hwire⟩ := hmatches
      obtain ⟨hframed, hsent⟩ := hcarries.framed.drain true
      have hpeers : (serverStep s.server (.drain i true)).peers =
          s.server.peers.set i { q with sender := senderDrain true q.sender } := by
        show s.server.peers.modify i _ = _
        rw [List.modify_eq_set_getElem?, hq]
        rfl
      refine Or.inr (h.put hp hq rfl rfl hpeers hsent (List.prefix_refl _)
        ⟨?_, hframed, fun _ => ?_⟩)
      · exact hcarries.wire.trans (stream_mono ReplMsg.bytes hsent)
      · rcases senderTake_cases q.sender with ⟨s', htake, hdrain, hsame⟩ |
          ⟨f, queue, s', hqueue, htake, hdrain, hsame⟩
        · rw [htake, hdrain]
          refine ⟨rfl, ?_⟩
          show _ = stream _ s'.sent
          rw [hsame]
          exact hwire
        · have hstage : q.stage ≠ .created := by
            intro hstage
            rw [hcarries.framed.unlinked (Or.inl hstage)] at hqueue
            cases hqueue
          rw [htake, hdrain]
          refine ⟨?_, ?_⟩
          · unfold Peer.wrote
            rw [if_neg hstage]
          · show (w.links i).wire ++ [f.message.hdr.bytes, f.message.payload].flatten =
              stream _ (s'.sent ++ [f.message])
            rw [stream_concat, hsame, hwire]
            simp [ReplMsg.bytes]
  · exact Or.inl h

/-- A `send` changes nothing in the other model. -/
theorem Wires.Refines.send (h : w.Refines s) (i n : ℕ) : (wireStep w (.send i n)).Refines s := by
  simp only [wireStep]
  split
  · rename_i p m rest hp hsending
    obtain ⟨q, hq, hcarries⟩ := h.peer hp
    split
    · exact h.put_same hp hq (List.prefix_refl _) (hcarries.broke _)
    · rename_i bytes hsend
      exact h.put_same hp hq (List.prefix_append _ _) (hcarries.sent hsending hsend)
    · rename_i bytes rest' _ hsend
      exact h.put_same hp hq (List.prefix_append _ _) (hcarries.send hsending hsend)
  · exact h

/-- The next record is broadcast. -/
theorem Wires.Refines.broadcast (h : w.Refines s) :
    Wires.Refines { w with repl := replStep w.repl .broadcast } (replStep s .broadcast) := by
  cases hpending : s.server.pending with
  | some b =>
    simp only [replStep, h.pending, hpending]
    exact h
  | none =>
    cases hdata : s.primary.world.hooked[s.handed]? with
    | none =>
      simp only [replStep, h.pending, hpending, h.primary, h.handed, hdata]
      exact h
    | some data =>
      have hadvance := h.server (a := .advance data) trivial (fun i p _ hc => by cases hc)
        fun i p _ hc => by cases hc
      have hboth := hadvance.sides h.primary (congrArg (· + 1) h.handed) h.client rfl rfl
      simp only [replStep, h.pending, hpending, h.primary, h.handed, hdata]
      rw [h.primary, h.handed] at hboth
      exact hboth

end Step

/-! ## Whole runs -/

/-- What the primary is asked. -/
def ReplStep.asked : ReplStep → List Request
  | .request r => [r]
  | _ => []

/-- What the primary is asked. -/
def WireStep.asked : WireStep → List Request
  | .other a => a.asked
  | _ => []

/-- One step byte by byte is at most one step with whole messages. -/
theorem Wires.Refines.step {w : Wires} {s : Replication} (h : w.Refines s) (a : WireStep) :
    ∃ bs : List ReplStep, (wireStep w a).Refines (exec replStep s bs) ∧ bs.length ≤ 1 ∧
      bs.flatMap ReplStep.asked = a.asked := by
  have hnone : ∀ {w' : Wires} {requests : List Request}, w'.Refines s → requests = [] →
      ∃ bs : List ReplStep, w'.Refines (exec replStep s bs) ∧ bs.length ≤ 1 ∧
        bs.flatMap ReplStep.asked = requests := fun hw hr => ⟨[], hw, Nat.zero_le _, hr.symm⟩
  have hone : ∀ {w' : Wires} {requests : List Request} (b : ReplStep),
      w'.Refines (replStep s b) → b.asked = requests →
      ∃ bs : List ReplStep, w'.Refines (exec replStep s bs) ∧ bs.length ≤ 1 ∧
        bs.flatMap ReplStep.asked = requests := fun b hw hr =>
    ⟨[b], hw, Nat.le_refl _, by rw [List.flatMap_singleton, hr]⟩
  cases a with
  | greet i =>
    rcases h.greet i with hw | hw
    · exact hnone hw rfl
    · exact hone _ hw rfl
  | take i =>
    rcases h.take i with hw | hw
    · exact hnone hw rfl
    · exact hone _ hw rfl
  | send i n => exact hnone (h.send i n) rfl
  | recv n beyond =>
    rcases h.recv n beyond with hw | hw
    · exact hnone hw rfl
    · exact hone (.receive beyond) hw rfl
  | other a =>
    cases a with
    | request r =>
      exact hone (.request r)
        (h.sides (by rw [h.primary]) h.handed h.client rfl rfl) rfl
    | broadcast => exact hone _ h.broadcast rfl
    | connect =>
      simp only [wireStep]
      split
      · rename_i hidle
        rw [h.client] at hidle
        exact hone _ (h.connect hidle) rfl
      · exact hnone h rfl
    | lose => exact hone .lose (h.idle (by rw [h.client]) rfl w.reader) rfl
    | receive beyond => exact hnone h rfl
    | reads txnMgr =>
      have hreads : Wires.Refines { w with repl := replStep w.repl (.reads txnMgr) }
          (replStep s (.reads txnMgr)) := by
        simp only [replStep]
        rw [h.client]
        split
        · exact h.sides h.primary h.handed rfl rfl rfl
        · exact h
      exact hone _ hreads rfl
    | server a =>
      cases a with
      | greet i => exact hnone h rfl
      | drain i ok => exact hnone h rfl
      | advance data => exact hnone h rfl
      | link j =>
        rcases h.link j with hw | hw
        · exact hnone hw rfl
        · exact hone (.server (.link j)) hw rfl
      | prune =>
        simp only [wireStep]
        split
        · rename_i hjoin
          exact hone (.server .prune) (h.server trivial (fun i p _ hc => by cases hc)
            fun i p hp _ hpruned => Wires.sending_of_joinable hjoin hp hpruned) rfl
        · exact hnone h rfl
      | create =>
        exact hone (.server .create) (h.server trivial (fun i p _ hc => by cases hc)
          fun i p _ hc => by cases hc) rfl
      | enqueue alloc =>
        exact hone (.server (.enqueue alloc)) (h.server trivial (fun i p _ hc => by cases hc)
          fun i p _ hc => by cases hc) rfl

/-- Nothing has been written yet. -/
theorem Wires.start_refines (w : World) (db : Db) :
    (Wires.start w db).Refines (.start w db) :=
  ⟨rfl, rfl, rfl, rfl, rfl, ⟨by show 0 < 2 ^ 64; decide, fun b hb => (by cases hb)⟩, rfl,
    fun i p q hp _ => (by cases hp), fun i _ => rfl, fun i hi => (by cases hi)⟩

/-- Sockets that take and give bytes in pieces of any size, and fail at any moment and for good,
make no difference: for every run of a primary and a replica byte by byte there is one, of no
more steps and with the same requests, in which messages are written and taken as a whole, and
which leads to the same primary and to the same replica; and what has arrived on a connection is
a beginning of the messages written to it there. -/
theorem bytes_refine_messages (w : World) (db : Db) (steps : List WireStep) :
    ∃ steps' : List ReplStep, steps'.length ≤ steps.length ∧
      steps'.flatMap ReplStep.asked = steps.flatMap WireStep.asked ∧
      (exec wireStep (.start w db) steps).repl.primary =
        (exec replStep (.start w db) steps').primary ∧
      (exec wireStep (.start w db) steps).repl.handed =
        (exec replStep (.start w db) steps').handed ∧
      (exec wireStep (.start w db) steps).repl.client =
        (exec replStep (.start w db) steps').client ∧
      ∀ i p, (exec replStep (.start w db) steps').server.peers[i]? = some p →
        ((exec wireStep (.start w db) steps).links i).wire <+:
          stream ReplMsg.bytes p.sender.sent := by
  obtain ⟨steps', hrefines, hlen, hasked⟩ := exec_simulated (R := Wires.Refines) WireStep.asked
    ReplStep.asked (fun w s a h => h.step a) steps (Wires.start_refines w db)
  refine ⟨steps', hlen, hasked, hrefines.primary, hrefines.handed, hrefines.client,
    fun i q hq => ?_⟩
  have hi := (List.getElem?_eq_some_iff.mp hq).1
  rw [← hrefines.length] at hi
  exact (hrefines.links i _ q (List.getElem?_eq_getElem hi) hq).wire

end FastKV
