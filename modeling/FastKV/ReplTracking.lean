import FastKV.ReplTransport

/-!
# A replica tracks its primary

What the replica has applied is the records in the frames that it has seen. As long as its
connection holds and there is memory for the frames, it sees those of all records that are
queued after its sender was linked; if that was before the first record, the replica goes
through the states of the primary one record after the other.
-/

namespace FastKV

open Lib

/-! ## Without loss -/

/-- The sender accepts and sends frames, or it has been stopped. -/
structure Peer.Settled (p : Peer) : Prop where
  /-- It was linked. -/
  opened : ∃ o frames, p.sender.sent = replHello o :: frames
  /-- While connected it is in the list and runs. -/
  connected : p.sender.connected = true → p.stage = .linked ∧ p.sender.stop = false
  /-- Otherwise it has been stopped. -/
  stopped : p.sender.connected = false → p.sender.stop = true
  /-- It has been linked. -/
  stage : p.stage = .linked ∨ p.stage = .pruned

/-- A settled sender stays so: it has taken the frames that were offered, or it is stopped and
sends nothing more. -/
structure Peer.Kept (taken : ℕ) (offered : List ReplMsg) (p p' : Peer) : Prop where
  /-- It is settled. -/
  settled : p'.Settled
  /-- It has taken the frames. -/
  connected : p'.sender.connected = true → p.sender.connected = true ∧
    p'.sender.after taken = p.sender.after taken ++ offered
  /-- It sends nothing. -/
  sent : p'.sender.connected = false → p'.sender.sent = p.sender.sent

/-- A frame is offered to a settled sender. -/
theorem Peer.Settled.offer {p : Peer} (h : p.Settled) {b : Broadcast}
    (hlen : b.data.length < 2 ^ 32) (taken : ℕ) :
    p.Kept taken [⟨⟨replMagic, b.data.length, b.offset⟩, b.data⟩] (p.offer true b) := by
  unfold Peer.offer
  split
  · rename_i hstage
    have hsent := sent_senderEnqueue true p.sender b.data (b.data.length % 2 ^ 32) b.offset
    have hstop : (senderEnqueue true p.sender b.data (b.data.length % 2 ^ 32)
        b.offset).connected = false → (senderEnqueue true p.sender b.data (b.data.length % 2 ^ 32)
        b.offset).stop = true := by
      unfold senderEnqueue
      split
      · exact h.stopped
      · rename_i hc
        split
        · exact fun _ => rfl
        · split <;> exact fun hc' => absurd hc' hc
    refine ⟨⟨?_, fun hc => ⟨hstage, ?_⟩, hstop, h.stage⟩, fun hc => ?_, fun _ => hsent⟩
    · obtain ⟨o, frames, heq⟩ := h.opened
      exact ⟨o, frames, hsent.trans heq⟩
    · obtain ⟨hc', -, hsame⟩ := after_senderEnqueue_connected hlen b.offset taken hc
      exact hsame.trans (h.connected hc').2
    · obtain ⟨hc', hafter, -⟩ := after_senderEnqueue_connected hlen b.offset taken hc
      exact ⟨hc', hafter⟩
  · rename_i hstage
    exact ⟨h, fun hc => absurd (h.connected hc).1 hstage, fun _ => rfl⟩

/-- A settled sender sends a frame. -/
theorem Peer.Settled.drain {p : Peer} (h : p.Settled) (ok : Bool) {taken : ℕ}
    (htaken : taken ≤ p.sender.sent.length) :
    p.Kept taken [] { p with sender := senderDrain ok p.sender } := by
  have hsettled : (senderDrain ok p.sender).connected = false →
      (senderDrain ok p.sender).stop = true ∧ (senderDrain ok p.sender).sent = p.sender.sent := by
    unfold senderDrain
    split
    · rename_i hstop
      exact fun _ => ⟨hstop, rfl⟩
    · rename_i hstop
      split
      · exact fun hc => ⟨h.stopped hc, rfl⟩
      · cases ok with
        | false => exact fun _ => ⟨rfl, rfl⟩
        | true => exact fun hc => absurd (h.stopped hc) hstop
  refine ⟨⟨?_, fun hc => ?_, fun hc => (hsettled hc).1, h.stage⟩, fun hc => ?_,
    fun hc => (hsettled hc).2⟩
  · obtain ⟨o, frames, heq⟩ := h.opened
    obtain ⟨more, hmore⟩ := sent_senderDrain ok p.sender
    exact ⟨o, frames ++ more, by rw [← hmore, heq, List.cons_append]⟩
  · obtain ⟨hc', -, hstop⟩ := after_senderDrain_connected htaken hc
    exact ⟨(h.connected hc').1, hstop.trans (h.connected hc').2⟩
  · obtain ⟨hc', hafter, -⟩ := after_senderDrain_connected htaken hc
    exact ⟨hc', hafter.trans (List.append_nil _).symm⟩

/-- What a step does to a settled sender. -/
theorem Peer.Settled.step {p : Peer} (h : p.Settled) {s : ReplServer} {i : ℕ} {a : ServerStep}
    (hlen : ∀ b, s.pending = some b → b.data.length < 2 ^ 32)
    (halloc : ∀ alloc, a = .enqueue alloc → ∀ i, alloc i = true) {taken : ℕ}
    (htaken : taken ≤ p.sender.sent.length) : p.Kept taken (s.offered a) (p.step s i a) := by
  have hsame : p.Kept taken [] p :=
    ⟨h, fun hc => ⟨hc, (List.append_nil _).symm⟩, fun _ => rfl⟩
  have hlinked : p.stage ≠ .created ∧ p.stage ≠ .greeted := by
    rcases h.stage with hs | hs <;> simp [hs]
  cases a with
  | create | advance => exact hsame
  | greet j =>
    have hstep : p.step s i (.greet j) = p := by simp [Peer.step, Peer.greet, hlinked.1]
    rw [hstep]
    exact hsame
  | link j =>
    have hstep : p.step s i (.link j) = p := by simp [Peer.step, Peer.link, hlinked.2]
    rw [hstep]
    exact hsame
  | prune =>
    show p.Kept taken [] p.prune
    unfold Peer.prune
    split
    · exact ⟨⟨h.opened, fun hc => (by cases hc), fun _ => rfl, Or.inr rfl⟩,
        fun hc => (by cases hc), fun _ => rfl⟩
    · exact hsame
  | enqueue alloc =>
    cases hb : s.pending with
    | none =>
      have hstep : p.step s i (.enqueue alloc) = p := by simp only [Peer.step, hb]
      have hoffered : s.offered (.enqueue alloc) = [] := by simp only [ReplServer.offered, hb]
      rw [hstep, hoffered]
      exact hsame
    | some b =>
      have hstep : p.step s i (.enqueue alloc) = p.offer true b := by
        simp only [Peer.step, hb, halloc alloc rfl i]
      have hoffered : s.offered (.enqueue alloc) =
          [⟨⟨replMagic, b.data.length, b.offset⟩, b.data⟩] := by
        simp only [ReplServer.offered, hb]
      rw [hstep, hoffered]
      exact h.offer (hlen b hb) taken
  | drain j ok =>
    show p.Kept taken [] (if j = i then { p with sender := senderDrain ok p.sender } else p)
    split
    · exact h.drain ok htaken
    · exact hsame

/-! ## Records -/

/-- The bytes of records. -/
def encodings (rs : List Record) : List Bytes := rs.map fun r => r.frame.encode

/-- What records make of some structures. -/
def Stores.replayed (rs : List Record) (s : Stores) : Stores :=
  rs.foldl (fun s r => replayRecord r s) s

/-- The bytes of a record determine it. -/
theorem Record.Valid.encode_inj {r r' : Record} (h : r.Valid) (h' : r'.Valid)
    (heq : r.frame.encode = r'.frame.encode) : r = r' := by
  have hread := readFrame_encode r.frame [] h.frame
  rw [heq, readFrame_encode r'.frame [] h'.frame] at hread
  simp only [Option.some.injEq, Prod.mk.injEq, and_true] at hread
  have hcode : r.type = r'.type := by
    have hbyte : r'.type.code = r.type.code := congrArg Frame.typeByte hread
    cases hr : r.type <;> cases hr' : r'.type <;> rw [hr, hr'] at hbyte <;>
      first | rfl | cases hbyte
  have hvalue : r.value = r'.value := by
    have hvlen : r'.frame.vlen = r.frame.vlen := congrArg Frame.vlen hread
    have hval : r'.value.getD [] = r.value.getD [] := congrArg Frame.val hread
    have htomb : ∀ {r : Record}, r.Valid → ∀ v, r.value = some v → v.length ≠ vlenTombstone := by
      intro r h v hv
      have hle := h.value_le v (by rw [hv]; rfl)
      have hmax : maxValLen = 67108864 := rfl
      have htomb : vlenTombstone = 4294967295 := rfl
      omega
    cases hv : r.value with
    | none =>
      cases hv' : r'.value with
      | none => rfl
      | some v' =>
        simp only [Record.frame, hv, hv'] at hvlen
        exact absurd hvlen (htomb h' v' hv')
    | some v =>
      cases hv' : r'.value with
      | none =>
        simp only [Record.frame, hv, hv'] at hvlen
        exact absurd hvlen.symm (htomb h v hv)
      | some v' =>
        rw [hv, hv'] at hval
        exact congrArg some hval.symm
  have hts : r.ts = r'.ts := (congrArg Frame.ts hread).symm
  have hkey : r.key = r'.key := (congrArg Frame.key hread).symm
  cases r
  cases r'
  cases hcode
  cases hts
  cases hkey
  cases hvalue
  rfl

/-- The bytes of several records determine them. -/
theorem encodings_inj {rs : List Record} : ∀ {rs' : List Record}, (∀ r ∈ rs, r.Valid) →
    (∀ r ∈ rs', r.Valid) → encodings rs = encodings rs' → rs = rs' := by
  induction rs with
  | nil =>
    intro rs' _ _ heq
    exact (List.map_eq_nil_iff.mp heq.symm).symm
  | cons r rs ih =>
    intro rs' h h' heq
    cases rs' with
    | nil => cases heq
    | cons r' rs' =>
      simp only [encodings, List.map_cons, List.cons.injEq] at heq
      rw [(h r List.mem_cons_self).encode_inj (h' r' List.mem_cons_self) heq.1,
        ih (fun x hx => h x (List.mem_cons_of_mem _ hx))
          (fun x hx => h' x (List.mem_cons_of_mem _ hx)) heq.2]

/-- A frame that carries a record. -/
theorem mem_framesFrom {m : ReplMsg} (datas : List Bytes) : ∀ {o : ℕ}, m ∈ framesFrom o datas →
    m.hdr.magic = replMagic ∧ m.hdr.payloadLen = m.payload.length ∧ m.payload ∈ datas := by
  induction datas with
  | nil => exact fun hm => by cases hm
  | cons data datas ih =>
    intro o hm
    rcases List.mem_cons.mp hm with rfl | hm
    · exact ⟨rfl, rfl, List.mem_cons_self⟩
    · obtain ⟨hmagic, hlen, hmem⟩ := ih hm
      exact ⟨hmagic, hlen, List.mem_cons_of_mem _ hmem⟩

/-- The two sides: the structures of the primary are those that the records handed to the hook
make of the ones it started from, and those of the replica are what the records in the frames it
has seen make of the ones it started from. -/
structure Replication.Mirrors (origin origin' : Stores) (s : Replication) : Prop where
  /-- The frames. -/
  inOrder : s.InOrder
  /-- The open transactions of the primary. -/
  txnsOk : s.primary.TxnsOk
  /-- The database of the primary. -/
  sound : s.primary.world.db.Sound
  /-- The log of the primary. -/
  primary : s.primary.world.Primary
  /-- What it has logged. -/
  records : ∃ rs : List Record, s.primary.world.hooked = encodings rs ∧ (∀ r ∈ rs, r.Shipped) ∧
    s.primary.world.db.stores.Alike (origin.replayed rs)
  /-- What the replica has seen. -/
  seen : ∃ rs : List Record, s.client.seen.map ReplMsg.payload = encodings rs ∧
    (∀ r ∈ rs, r.Shipped) ∧ s.client.db.stores.Alike (origin'.replayed rs)

section Mirrors

variable {s : Replication} {origin origin' : Stores}

/-- A frame that the replica can take carries a record. -/
theorem Replication.Mirrors.record_of_untaken (h : s.Mirrors origin origin') {m : ReplMsg}
    (hm : m ∈ s.untaken) : ∃ r : Record, r.Shipped ∧ m.payload = r.frame.encode ∧
      m.hdr.magic = replMagic ∧ m.hdr.payloadLen = r.frame.encode.length := by
  have hmem : m ∈ framesFrom 0 s.queuedData :=
    h.inOrder.sublist.subset (List.mem_append_right _ hm)
  obtain ⟨hmagic, hlen, hdata⟩ := mem_framesFrom _ hmem
  obtain ⟨rs, hrs, hvalid, -⟩ := h.records
  have hhooked : m.payload ∈ s.primary.world.hooked := List.mem_of_mem_take hdata
  rw [hrs] at hhooked
  obtain ⟨r, hr, heq⟩ := List.mem_map.mp hhooked
  exact ⟨r, hvalid r hr, heq.symm, hmagic, by rw [hlen, heq]⟩

/-- So the replica applies it. -/
theorem receive_record {c : ReplClient} {i : ℕ} (hreceiver : c.receiver = .streaming i)
    {m : ReplMsg} {r : Record} (hr : r.Valid) (hmagic : m.hdr.magic = replMagic)
    (hlen : m.hdr.payloadLen = r.frame.encode.length) (beyond : Bytes) :
    receive beyond c m = { c with
      db := applyWalRecord beyond m.payload c.db
      taken := c.taken + 1
      bytesReceived := add64 c.bytesReceived m.hdr.payloadLen
      primaryOffset := m.hdr.offset
      seen := c.seen ++ [m] } := by
  have hlength := r.frame.length_encode
  obtain ⟨-, hval, -⟩ := hr.frame.realVlen
  have hkey := hr.frame.key_le
  have hheader : walHeaderSize = 21 := rfl
  simp only [receive, hreceiver]
  rw [if_neg (by simp [hmagic]), if_neg (by omega), if_neg (by omega)]

/-- The replica takes a message. -/
theorem Replication.Mirrors.receive (h : s.Mirrors origin origin') (beyond : Bytes) :
    (replStep s (.receive beyond)).Mirrors origin origin' := by
  have hinOrder := h.inOrder.receive beyond
  simp only [replStep] at hinOrder ⊢
  split
  · exact h
  · rename_i m hm
    rw [hm] at hinOrder
    simp only at hinOrder
    refine ⟨hinOrder, h.txnsOk, h.sound, h.primary, h.records, ?_⟩
    rcases h.inOrder.next_cases hm with ⟨i, o, hreceiver, -, rfl⟩ | ⟨i, p, hreceiver, -, huntaken⟩
    · have htake : (FastKV.receive beyond s.client (replHello o)).seen = s.client.seen ∧
          (FastKV.receive beyond s.client (replHello o)).db = s.client.db := by
        simp only [FastKV.receive, hreceiver]
        split <;> exact ⟨rfl, rfl⟩
      show ∃ rs, (FastKV.receive beyond s.client (replHello o)).seen.map ReplMsg.payload = _ ∧ _ ∧
        (FastKV.receive beyond s.client (replHello o)).db.stores.Alike _
      rw [htake.1, htake.2]
      exact h.seen
    · obtain ⟨r, hr, hpayload, hmagic, hlen⟩ := h.record_of_untaken (m := m) (by
        rw [huntaken]
        exact List.mem_cons_self)
      rw [receive_record hreceiver hr.valid hmagic hlen]
      obtain ⟨rs, hrs, hvalid, hstores⟩ := h.seen
      refine ⟨rs ++ [r], ?_, fun r' hr' => ?_, ?_⟩
      · simp [encodings, hrs, hpayload]
      · rcases List.mem_append.mp hr' with hr' | hr'
        · exact hvalid r' hr'
        · rw [List.mem_singleton.mp hr']
          exact hr
      · show (applyWalRecord beyond m.payload s.client.db).stores.Alike _
        rw [hpayload, (applyWalRecord_record hr.valid beyond s.client.db).1, Stores.replayed,
          List.foldl_append]
        exact hstores.replayRecord r

/-- The primary serves a request. -/
theorem Replication.Mirrors.request (h : s.Mirrors origin origin')
    (hclock : s.primary.clock + drawsMax < tsMax) (r : Request) :
    (replStep s (.request r)).Mirrors origin origin' := by
  obtain ⟨new, hships⟩ := serve_ships h.primary h.txnsOk h.sound.oneLive hclock r
  obtain ⟨rs, hrs, hvalid, hstores⟩ := h.records
  have hsound := (serve_moves hclock (fun _ _ _ => trivial)
    (Request.Meets.trivially s.primary r)).invariant (I := Db.Sound)
    (fun _ _ hmove h => h.move hmove) h.sound
  refine ⟨h.inOrder.request hships.hooked fun data hd => ?_, h.txnsOk.after hclock r, hsound,
    hships.primary, ⟨rs ++ new, ?_, fun r' hr' => ?_, ?_⟩, h.seen⟩
  · obtain ⟨r', hr', rfl⟩ := List.mem_map.mp hd
    exact (hships.shipped r' hr').valid.length_lt
  · show (s.primary.after r).world.hooked = _
    rw [hships.hooked, hrs]
    simp [encodings]
  · rcases List.mem_append.mp hr' with hr' | hr'
    · exact hvalid r' hr'
    · exact hships.shipped r' hr'
  · rw [Stores.replayed, List.foldl_append]
    exact hships.stores.trans (hstores.replayRecords new)

/-- Every step keeps the two sides as they should be. -/
theorem Replication.Mirrors.step (h : s.Mirrors origin origin')
    (hclock : s.primary.clock + drawsMax < tsMax) (a : ReplStep) :
    (replStep s a).Mirrors origin origin' := by
  cases a with
  | request r => exact h.request hclock r
  | receive beyond => exact h.receive beyond
  | broadcast =>
    have hinOrder := h.inOrder.broadcast
    simp only [replStep] at hinOrder ⊢
    split
    · rename_i data hnone hget
      simp only [hnone, hget] at hinOrder
      exact ⟨hinOrder, h.txnsOk, h.sound, h.primary, h.records, h.seen⟩
    · exact h
  | server a =>
    have hinOrder := h.inOrder.server a
    cases a with
    | advance data => exact h
    | create | greet | link | prune | enqueue | drain =>
      exact ⟨hinOrder, h.txnsOk, h.sound, h.primary, h.records, h.seen⟩
  | connect =>
    have hinOrder := h.inOrder.connect
    simp only [replStep] at hinOrder ⊢
    split
    · rename_i hidle
      rw [if_pos hidle] at hinOrder
      exact ⟨hinOrder, h.txnsOk, h.sound, h.primary, h.records, h.seen⟩
    · exact h
  | lose => exact ⟨h.inOrder.lose, h.txnsOk, h.sound, h.primary, h.records, h.seen⟩
  | reads txnMgr =>
    have hinOrder := h.inOrder.reads txnMgr
    simp only [replStep] at hinOrder ⊢
    split
    · rename_i hclock'
      rw [if_pos hclock'] at hinOrder
      exact ⟨hinOrder, h.txnsOk, h.sound, h.primary, h.records, h.seen⟩
    · exact h

/-- A step draws a bounded number of timestamps on the primary. -/
theorem replStep_clock {s : Replication} (hclock : s.primary.clock + drawsMax < tsMax)
    (a : ReplStep) : (replStep s a).primary.clock ≤ s.primary.clock + drawsMax := by
  have hsame : s.primary.clock ≤ s.primary.clock + drawsMax := Nat.le_add_right _ _
  cases a with
  | request r => exact Session.clock_after hclock r
  | lose => exact hsame
  | server a => cases a <;> exact hsame
  | broadcast | connect | receive | reads =>
    simp only [replStep]
    split <;> exact hsame

end Mirrors

/-! ## One connection -/

/-- The frames that the replica sees on a connection that is not interrupted: those it had seen
before, and then all but the first `n`. -/
def Replication.expected (pre : List ReplMsg) (n : ℕ) (s : Replication) : List ReplMsg :=
  pre ++ (framesFrom 0 s.queuedData).drop n

/-- The replica is on one connection, whose sender was linked when `n` records had been queued
and the replica had seen the frames `pre`. -/
structure Replication.Whole (i : ℕ) (pre : List ReplMsg) (n : ℕ) (s : Replication) : Prop where
  /-- The connection. -/
  conn : s.client.receiver.conn = some i
  /-- The records queued so far. -/
  started : n ≤ (framesFrom 0 s.queuedData).length
  /-- While the sender is connected no frame is missing, and what has been sent is the
  beginning of what is expected. -/
  peer : ∃ p, s.server.peers[i]? = some p ∧ p.Settled ∧
    (p.sender.connected = true → s.client.seen ++ s.untaken = s.expected pre n) ∧
    s.client.seen ++ p.sender.sent.drop (max 1 s.client.taken) <+: s.expected pre n

/-- A step that does not interrupt the connection. -/
def ReplStep.Unbroken : ReplStep → Prop
  | .connect => False
  | .lose => False
  | .server (.enqueue alloc) => ∀ i, alloc i = true
  | _ => True

section Whole

variable {s : Replication} {origin origin' : Stores} {i n : ℕ} {pre : List ReplMsg}

/-- A step that concerns neither the queues nor the frames seen. -/
theorem Replication.Whole.of_same (h : s.Whole i pre n) {s' : Replication}
    (hdata : s'.queuedData = s.queuedData)
    (hpeer : ∀ p, s.server.peers[i]? = some p → s'.server.peers[i]? = some p)
    (hreceiver : s'.client.receiver = s.client.receiver)
    (htaken : s'.client.taken = s.client.taken) (hseen : s'.client.seen = s.client.seen) :
    s'.Whole i pre n := by
  obtain ⟨p, hp, hsettled, hall, hsent⟩ := h.peer
  have hconn : s'.client.receiver.conn = some i := by
    rw [hreceiver]
    exact h.conn
  have huntaken : s'.untaken = s.untaken := by
    rw [Replication.untaken_eq hconn (hpeer p hp), Replication.untaken_eq h.conn hp, htaken]
  have hexpected : s'.expected pre n = s.expected pre n := by
    unfold Replication.expected
    rw [hdata]
  refine ⟨hconn, ?_, p, hpeer p hp, hsettled, ?_, ?_⟩
  · rw [hdata]
    exact h.started
  · rw [hseen, huntaken, hexpected]
    exact hall
  · rw [hseen, htaken, hexpected]
    exact hsent

/-- A step of the server. -/
theorem Replication.Whole.server (h : s.Whole i pre n) (hinOrder : s.InOrder) {a : ServerStep}
    (ha : ∀ data, a ≠ .advance data) (halloc : ∀ alloc, a = .enqueue alloc → ∀ i, alloc i = true) :
    ({ s with server := serverStep s.server a } : Replication).Whole i pre n := by
  obtain ⟨p, hp, hsettled, hall, hsent⟩ := h.peer
  have hlen : ∀ b, s.server.pending = some b → b.data.length < 2 ^ 32 := by
    intro b hb
    obtain ⟨n, -, hget, -⟩ := hinOrder.pending b hb
    exact hinOrder.lengths _ (List.mem_of_getElem? hget)
  obtain ⟨p', hp', -, htaken⟩ := hinOrder.conn i h.conn
  rw [hp] at hp'
  cases hp'
  have hmax : max 1 s.client.taken ≤ p.sender.sent.length := by
    obtain ⟨o, frames, heq⟩ := hsettled.opened
    rw [heq, List.length_cons] at htaken ⊢
    omega
  have hkept := hsettled.step (i := i) hlen halloc hmax
  have hframes := hinOrder.frames_server ha
  have hexpected : ({ s with server := serverStep s.server a } : Replication).expected pre n =
      s.expected pre n ++ s.server.offered a := by
    unfold Replication.expected
    rw [hframes, List.drop_append_of_le_length h.started, List.append_assoc]
  have hpeer := getElem?_serverStep hp a
  have huntaken : ({ s with server := serverStep s.server a } : Replication).untaken =
      (p.step s.server i a).sender.after (max 1 s.client.taken) :=
    Replication.untaken_eq h.conn hpeer
  have hall' : (p.step s.server i a).sender.connected = true →
      s.client.seen ++ (p.step s.server i a).sender.after (max 1 s.client.taken) =
        s.expected pre n ++ s.server.offered a := by
    intro hc
    obtain ⟨hc', hafter⟩ := hkept.connected hc
    rw [hafter, ← hall hc', Replication.untaken_eq h.conn hp, List.append_assoc]
  refine ⟨h.conn, ?_, _, hpeer, hkept.settled, fun hc => ?_, ?_⟩
  · rw [hframes, List.length_append]
    exact h.started.trans (Nat.le_add_right _ _)
  · rw [huntaken, hexpected]
    exact hall' hc
  · rw [hexpected]
    show s.client.seen ++ (p.step s.server i a).sender.sent.drop (max 1 s.client.taken) <+: _
    cases hc : (p.step s.server i a).sender.connected with
    | true =>
      rw [← hall' hc]
      exact (List.prefix_append_right_inj _).mpr (List.prefix_append _ _)
    | false =>
      rw [hkept.sent hc]
      exact hsent.trans (List.prefix_append _ _)

/-- The replica takes a message. -/
theorem Replication.Whole.receive (h : s.Whole i pre n) (hmirrors : s.Mirrors origin origin')
    (beyond : Bytes) : (replStep s (.receive beyond)).Whole i pre n := by
  simp only [replStep]
  split
  · exact h
  · rename_i m hm
    obtain ⟨p, hp, hsettled, hall, hsent⟩ := h.peer
    obtain ⟨i', p', hconn, hp', hget⟩ := Replication.next_eq_some hm
    rw [h.conn] at hconn
    cases hconn
    rw [hp] at hp'
    cases hp'
    obtain ⟨hlt, hget'⟩ := List.getElem?_eq_some_iff.mp hget
    rcases hmirrors.inOrder.next_cases hm with
      ⟨j, o, hreceiver, hzero, rfl⟩ | ⟨j, p', hreceiver, hp', huntaken⟩
    · have hj := h.conn
      rw [hreceiver] at hj
      cases hj
      have htake : FastKV.receive beyond s.client (replHello o) = { s.client with
          receiver := .streaming i
          taken := s.client.taken + 1
          primaryOffset := o } := by
        simp only [FastKV.receive, hreceiver]
        exact if_neg (by simp [replHello])
      rw [htake]
      have huntaken' : ({ s with client := { s.client with
          receiver := .streaming i
          taken := s.client.taken + 1
          primaryOffset := o } } : Replication).untaken = s.untaken := by
        rw [Replication.untaken_eq h.conn hp]
        simp only [Replication.untaken, Receiver.conn, Option.bind_some, hp, hzero]
        rfl
      refine ⟨rfl, h.started, p, hp, hsettled, fun hc => ?_, ?_⟩
      · rw [huntaken']
        exact hall hc
      · rw [hzero] at hsent
        show s.client.seen ++ p.sender.sent.drop (max 1 (s.client.taken + 1)) <+: _
        rw [hzero]
        exact hsent
    · have hj := h.conn
      rw [hreceiver] at hj
      cases hj
      rw [hp] at hp'
      cases hp'
      obtain ⟨r, hr, hpayload, hmagic, hlen⟩ := hmirrors.record_of_untaken (m := m) (by
        rw [huntaken]
        exact List.mem_cons_self)
      rw [receive_record hreceiver hr.valid hmagic hlen]
      have hpos := hmirrors.inOrder.streaming i hreceiver
      refine ⟨h.conn, h.started, p, hp, hsettled, fun hc => ?_, ?_⟩
      · have huntaken' : ({ s with client := { s.client with
            db := applyWalRecord beyond m.payload s.client.db
            taken := s.client.taken + 1
            bytesReceived := add64 s.client.bytesReceived m.hdr.payloadLen
            primaryOffset := m.hdr.offset
            seen := s.client.seen ++ [m] } } : Replication).untaken =
              p.sender.after (s.client.taken + 1) := by
          simp only [Replication.untaken, hreceiver, Receiver.conn, Option.bind_some, hp,
            max_eq_right (Nat.le_add_left 1 s.client.taken)]
        rw [huntaken']
        show s.client.seen ++ [m] ++ p.sender.after (s.client.taken + 1) = s.expected pre n
        rw [← hall hc, huntaken, List.append_assoc, List.singleton_append]
      · show s.client.seen ++ [m] ++ p.sender.sent.drop (max 1 (s.client.taken + 1)) <+:
          s.expected pre n
        rw [max_eq_right hpos, List.drop_eq_getElem_cons hlt, hget'] at hsent
        rw [max_eq_right (Nat.le_add_left 1 s.client.taken), List.append_assoc,
          List.singleton_append]
        exact hsent

/-- Every step that does not interrupt the connection. -/
theorem Replication.Whole.step (h : s.Whole i pre n) (hmirrors : s.Mirrors origin origin')
    (hclock : s.primary.clock + drawsMax < tsMax) {a : ReplStep} (ha : a.Unbroken) :
    (replStep s a).Whole i pre n := by
  cases a with
  | request r =>
    obtain ⟨new, hships⟩ :=
      serve_ships hmirrors.primary hmirrors.txnsOk hmirrors.sound.oneLive hclock r
    exact h.of_same (hmirrors.inOrder.queuedData_request hships.hooked) (fun _ hp => hp) rfl rfl rfl
  | broadcast =>
    have hdata := s.queuedData_broadcast
    simp only [replStep] at hdata ⊢
    split
    · rename_i data hnone hget
      simp only [hnone, hget] at hdata
      exact h.of_same hdata (fun p hp => getElem?_serverStep hp (.advance data)) rfl rfl rfl
    · exact h
  | receive beyond => exact h.receive hmirrors beyond
  | connect => exact ha.elim
  | lose => exact ha.elim
  | reads txnMgr =>
    simp only [replStep]
    split
    · exact h.of_same rfl (fun _ hp => hp) rfl rfl rfl
    · exact h
  | server a =>
    cases a with
    | advance data => exact h
    | enqueue alloc =>
      exact h.server hmirrors.inOrder (fun data heq => by cases heq) fun alloc' heq => by
        cases heq
        exact ha
    | create | greet | link | prune | drain =>
      exact h.server hmirrors.inOrder (fun data heq => by cases heq) fun alloc' heq => by cases heq

end Whole

end FastKV
