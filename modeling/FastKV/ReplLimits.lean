import FastKV.Replication

/-!
# The limits that a replicated record meets

A key and value are accepted by `fastkv_txn_put` up to a length of their own, the record that the
log makes of them is counted against the cap of a sender's queue, its length travels in 32 bits,
and the replica refuses a payload beyond a cap of its own. The caps of the replica and of the
length field have room for every record; that of the queue, of 8 MiB, has not, although values go
up to 64 MiB: a connection without anything in its queue is given up over a large record.
-/

namespace FastKV

open Lib

/-! ## The bytes in a queue -/

/-- While a sender is connected its counter is the number of bytes in its queue. -/
def ReplSender.Counted (s : ReplSender) : Prop :=
  s.connected = true → s.queueBytes = (s.queue.map QueuedFrame.len).sum

section Counted

variable {s : ReplSender}

/-- A frame is put in the queue. -/
theorem ReplSender.Counted.enqueue (h : s.Counted) (alloc : Bool) (data : Bytes)
    (len offset : ℕ) : (senderEnqueue alloc s data len offset).Counted := by
  unfold senderEnqueue
  split
  · exact h
  · split
    · intro hconnected
      cases hconnected
    · split
      · exact h
      · intro hconnected
        have hcounted := h hconnected
        simp only [List.map_append, List.sum_append, List.map_cons, List.map_nil, List.sum_cons,
          List.sum_nil]
        omega

/-- A frame is taken out. -/
theorem ReplSender.Counted.drain (h : s.Counted) (ok : Bool) : (senderDrain ok s).Counted := by
  unfold senderDrain
  split
  · intro hconnected
    cases hconnected
  · cases hq : s.queue with
    | nil => exact h
    | cons f queue =>
      cases ok with
      | false =>
        intro hconnected
        cases hconnected
      | true =>
        intro hconnected
        have hcounted := h hconnected
        rw [hq, List.map_cons, List.sum_cons] at hcounted
        simp only [if_true]
        omega

/-- A step of the server keeps the counter of a connection right. -/
theorem Peer.step_counted {p : Peer} (h : p.sender.Counted) (server : ReplServer) (i : ℕ)
    (a : ServerStep) : (p.step server i a).sender.Counted := by
  cases a with
  | create => exact h
  | advance data => exact h
  | greet j =>
    simp only [Peer.step, Peer.greet]
    split
    · split
      · exact h
      · exact h
    · exact h
  | link j =>
    simp only [Peer.step, Peer.link]
    split
    · split
      · exact h
      · exact h
    · exact h
  | prune =>
    simp only [Peer.step, Peer.prune]
    split
    · intro hconnected
      cases hconnected
    · exact h
  | enqueue alloc =>
    simp only [Peer.step]
    split
    · exact h
    · unfold Peer.offer
      split
      · exact h.enqueue _ _ _ _
      · exact h
  | drain j ok =>
    simp only [Peer.step]
    split
    · exact h.drain ok
    · exact h

end Counted

/-- The counters of all connections are right. -/
def ReplServer.Counted (s : ReplServer) : Prop :=
  ∀ (i : ℕ) (p : Peer), s.peers[i]? = some p → p.sender.Counted

/-- A step keeps them right. -/
theorem ReplServer.Counted.step {s : ReplServer} (h : s.Counted) (a : ServerStep) :
    (serverStep s a).Counted := by
  intro i p' hp'
  rcases peers_serverStep hp' with ⟨p, hp, rfl⟩ | ⟨-, -, rfl⟩
  · exact Peer.step_counted (h i p hp) s i a
  · intro _
    rfl

/-- They are right in every state that the server reaches. -/
theorem counted_exec (steps : List ServerStep) :
    (exec serverStep replServerInit steps).Counted := by
  refine exec_invariant (I := ReplServer.Counted) (P := fun _ _ => True)
    (fun s a h _ => h.step a) steps (fun i p hp => ?_) (.of_forall steps _ fun _ _ _ => trivial)
  cases hp

/-! ## A broadcast to an idle connection -/

/-- The record is the one frame in the sender's queue, its length has come through the header
as it is, and a replica that takes the frame does not hang up. -/
structure Peer.Carries (p : Peer) (data : Bytes) : Prop where
  /-- The sender has not given the connection up. -/
  connected : p.sender.connected = true
  /-- The frame. -/
  queue : ∃ f, p.sender.queue = [f] ∧ f.message.hdr.payloadLen = data.length ∧
    f.message.payload = data ∧ ∀ (beyond : Bytes) (c : ReplClient) (conn : ℕ),
      c.receiver = .streaming conn → (receive beyond c f.message).receiver = .streaming conn

/-- The replica takes a frame that is not beyond its cap. -/
theorem receiver_receive {f : QueuedFrame} (hlen : f.len ≤ maxKeyLen + maxValLen + 32)
    {c : ReplClient} {conn : ℕ} (hc : c.receiver = .streaming conn) (beyond : Bytes) :
    (receive beyond c f.message).receiver = .streaming conn := by
  unfold receive
  rw [hc]
  simp only
  split
  · rename_i hmagic
    exact absurd rfl hmagic
  · split
    · exact rfl
    · split
      · rename_i hlarge
        exact absurd hlarge (Nat.not_lt.mpr hlen)
      · exact rfl

/-- A connected sender without anything in its queue takes the record exactly if it is within
the cap of the queue and there is memory for it. -/
theorem carries_offer {p : Peer} (hlinked : p.stage = .linked)
    (hconnected : p.sender.connected = true) (hempty : p.sender.queue = [])
    (hcounted : p.sender.Counted) {b : Broadcast}
    (hlen : b.data.length ≤ maxKeyLen + maxValLen + 32) (alloc : Bool) :
    (p.offer alloc b).Carries b.data ↔ b.data.length ≤ replMaxQueueBytes ∧ alloc = true := by
  have hbytes : p.sender.queueBytes = 0 := by
    rw [hcounted hconnected, hempty]
    rfl
  have hmod : b.data.length % 2 ^ 32 = b.data.length := by
    have hkeyMax : maxKeyLen = 4096 := rfl
    have hvalMax : maxValLen = 67108864 := rfl
    exact Nat.mod_eq_of_lt (by omega)
  unfold Peer.offer
  rw [if_pos hlinked, hmod]
  unfold senderEnqueue
  rw [if_neg (by simp [hconnected]), hbytes, Nat.zero_add]
  split
  · rename_i hlarge
    constructor
    · intro h
      cases h.connected
    · rintro ⟨hle, -⟩
      omega
  · rename_i hsmall
    cases alloc with
    | false =>
      constructor
      · intro h
        obtain ⟨f, hf, -⟩ := h.queue
        simp only [if_true] at hf
        rw [hempty] at hf
        cases hf
      · rintro ⟨-, halloc⟩
        cases halloc
    | true =>
      constructor
      · intro _
        exact ⟨Nat.not_lt.mp hsmall, rfl⟩
      · intro _
        rw [if_neg (by simp), hempty, List.take_length]
        constructor
        · exact hconnected
        · refine ⟨_, List.nil_append _, rfl, rfl, fun beyond c conn hc => ?_⟩
          exact receiver_receive hlen hc beyond

/-! ## The records of accepted writes -/

/-- The length of what the hook is handed for a key and a value. -/
theorem length_of_hooked {e : WriteEntry} {ts : ℕ} {log : Log} {data : Bytes}
    (h : (walAppend (e.record ts) log).2.wal.hooked = log.wal.hooked ++ [data]) :
    data.length = walHeaderSize + e.key.length + (e.value.getD []).length := by
  rw [(walAppend_hook (e.record ts) log).2.2] at h
  split at h
  · have hdata := List.append_cancel_left h
    rw [List.singleton_inj] at hdata
    rw [← hdata, Frame.length_encode]
    rfl
  · exact absurd (congrArg List.length h) (by simp)

/-- The record of an accepted write is carried by a connection with an empty queue exactly if it
is within the cap of the queue and there is memory for it. -/
theorem accepted_put_carried {txn : Txn} {key : Bytes} {value : Slice}
    (haccepted : (txnPut txn key value).1 = .ok) {ts : ℕ} {log : Log} {data : Bytes}
    (hhooked : (walAppend (WriteEntry.record ⟨key, value⟩ ts) log).2.wal.hooked =
      log.wal.hooked ++ [data])
    (steps : List ServerStep) {offset i : ℕ} {p : Peer}
    (hpending : (exec serverStep replServerInit steps).pending = some ⟨data, offset⟩)
    (hp : (exec serverStep replServerInit steps).peers[i]? = some p)
    (hlinked : p.stage = .linked) (hconnected : p.sender.connected = true)
    (hempty : p.sender.queue = []) (alloc : ℕ → Bool) :
    (∃ p', (serverStep (exec serverStep replServerInit steps) (.enqueue alloc)).peers[i]? =
      some p' ∧ p'.Carries data) ↔
      walHeaderSize + key.length + (value.getD []).length ≤ replMaxQueueBytes ∧
        alloc i = true := by
  obtain ⟨hfit, -⟩ := txnPut_ok haccepted
  have hkey : key.length ≤ maxKeyLen := hfit.1
  have hvalue : (value.getD []).length ≤ maxValLen := by
    cases value with
    | none => exact Nat.zero_le _
    | some v => exact hfit.2 v rfl
  have hlen := length_of_hooked hhooked
  have hcap : data.length ≤ maxKeyLen + maxValLen + 32 := by
    rw [hlen, walHeaderSize]
    simp only
    omega
  have hafter : (serverStep (exec serverStep replServerInit steps) (.enqueue alloc)).peers[i]? =
      some (p.offer (alloc i) ⟨data, offset⟩) := by
    simp only [serverStep, hpending, List.getElem?_mapIdx, hp, Option.map_some]
  have hiff := carries_offer hlinked hconnected hempty (counted_exec steps i p hp)
    (b := ⟨data, offset⟩) hcap (alloc i)
  rw [hlen] at hiff
  rw [← hiff]
  constructor
  · rintro ⟨p', hp', hcarries⟩
    rw [hafter, Option.some.injEq] at hp'
    rwa [hp']
  · intro hcarries
    exact ⟨_, hafter, hcarries⟩

/-! ## A small record and a large one -/

/-- A replica connects, and a record is handed to the server. -/
def broadcastToOne (data : Bytes) : List ServerStep := [.create, .greet 0, .link 0, .advance data]

/-- The connection then. -/
def idlePeer : Peer := ⟨⟨true, false, [], 0, [replHello 0]⟩, .linked⟩

/-- The log of a new database with the hook installed. -/
def servedLog : Log :=
  ⟨⟨some (segName firstId.hex), false, 0, 0, firstId.hex, [], true, []⟩, newWorld.disk⟩

/-- A transaction that writes. -/
def writingTxn : Txn := (txnMgrBegin txnMgrInit false).1

/-- An append to that log hands the record over. -/
theorem servedLog_hooked (r : Record) :
    (walAppend r servedLog).2.wal.hooked = servedLog.wal.hooked ++ [r.frame.encode] := by
  have hworking : servedLog.Working := ⟨rfl, fun x hx => by cases hx⟩
  have hbroadcasting : servedLog.Broadcasting := ⟨rfl, fun _ => hworking⟩
  have hooked := (hbroadcasting.append r).2
  rwa [(walAppend_working hworking r).1, if_pos rfl] at hooked

/-- A small record is carried. -/
theorem accepted_put_carried_small : ∃ p',
    (serverStep (exec serverStep replServerInit (broadcastToOne
      (WriteEntry.record ⟨[1], some [10]⟩ 2).frame.encode))
      (.enqueue fun _ => true)).peers[0]? = some p' ∧
    p'.Carries (WriteEntry.record ⟨[1], some [10]⟩ 2).frame.encode :=
  (accepted_put_carried (show (txnPut writingTxn [1] (some [10])).1 = .ok by decide)
    (servedLog_hooked _) (broadcastToOne _) (p := idlePeer) rfl rfl rfl rfl rfl
    fun _ => true).mpr ⟨by decide, rfl⟩

/-- A value of 8 MiB is accepted, and the connection is given up over its record. -/
theorem large_put_not_carried : ¬ ∀ (txn : Txn) (key : Bytes) (value : Slice),
    (txnPut txn key value).1 = .ok → ∀ (ts : ℕ) (log : Log) (data : Bytes),
    (walAppend (WriteEntry.record ⟨key, value⟩ ts) log).2.wal.hooked =
      log.wal.hooked ++ [data] →
    ∀ (steps : List ServerStep) (offset i : ℕ) (p : Peer),
      (exec serverStep replServerInit steps).pending = some ⟨data, offset⟩ →
      (exec serverStep replServerInit steps).peers[i]? = some p → p.stage = .linked →
      p.sender.connected = true → p.sender.queue = [] → ∃ p',
        (serverStep (exec serverStep replServerInit steps)
          (.enqueue fun _ => true)).peers[i]? = some p' ∧ p'.Carries data := by
  intro hall
  obtain ⟨large, hlarge⟩ : ∃ large : Bytes, large.length = replMaxQueueBytes :=
    ⟨_, List.length_replicate (n := replMaxQueueBytes) (a := 0)⟩
  have haccepted : (txnPut writingTxn [] (some large)).1 = .ok := by
    have hshort : ¬ maxValLen < large.length := by
      rw [hlarge]
      decide
    simp only [txnPut, List.length_nil, Nat.not_lt_zero, if_false, Option.getD_some, hshort]
    rfl
  obtain ⟨data, hdata⟩ : ∃ data, (WriteEntry.record ⟨[], some large⟩ 2).frame.encode = data :=
    ⟨_, rfl⟩
  have hhooked := servedLog_hooked (WriteEntry.record ⟨[], some large⟩ 2)
  rw [hdata] at hhooked
  have hlen : data.length = 21 + 0 + replMaxQueueBytes := by
    rw [length_of_hooked hhooked, Option.getD_some, hlarge]
    rfl
  have hcap : data.length ≤ maxKeyLen + maxValLen + 32 := by
    rw [hlen]
    decide
  obtain ⟨p', hp', hcarries⟩ := hall writingTxn [] _ haccepted 2 servedLog data hhooked
    (broadcastToOne data) (add64 0 data.length) 0 idlePeer rfl rfl rfl rfl rfl
  have hoffer : idlePeer.offer true ⟨data, add64 0 data.length⟩ = p' := Option.some.inj hp'
  rw [← hoffer] at hcarries
  have hle := ((carries_offer rfl rfl rfl (fun _ => rfl) hcap true).mp hcarries).1
  simp only at hle
  omega

end FastKV
