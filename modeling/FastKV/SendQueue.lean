import FastKV.Lib.LinkedQueue
import FastKV.Lib.Steps
import FastKV.ReplServer

/-!
# The send queue

`sender_enqueue` and `sender_drain_queue` once more, with the nodes of the queue on the heap and
the lock of the queue. Calls and the sender's thread take turns at the lock; what a thread does
outside of it, such as giving the connection up, is a step of its own. Two pointers and a counter
describe one list, and the frames go to the socket in its order.
-/

namespace FastKV

open Lib

/-! ## The threads -/

/-- The arguments of a call of `sender_enqueue`. -/
structure EnqueueCall where
  /-- The bytes of a record. -/
  data : Bytes
  /-- Their number. -/
  len : UInt32
  /-- The offset behind them. -/
  offset : ℕ

/-- Where the sender's thread is. -/
inductive DrainPhase
  /-- At the test of the outer loop. -/
  | test
  /-- At the lock. -/
  | lock
  /-- In front of `send_all`, with a frame it has taken out. -/
  | sending (f : ℕ)
  /-- The socket has failed. -/
  | failed
  /-- The same, after `connected` has been cleared. -/
  | failing
  /-- Behind the loop. -/
  | left
  /-- Ended. -/
  | ended
  deriving DecidableEq

/-- The sender with its queue on the heap, and the threads that use it. -/
structure SendQueue where
  /-- Whether frames are still accepted. -/
  connected : Bool
  /-- Whether the thread has been told to stop. -/
  stop : Bool
  /-- `queue_head` and `queue_tail`, and the nodes. -/
  queue : LinkedQueue ℕ QueuedFrame
  /-- The number of bytes in the queue. -/
  queueBytes : ℕ
  /-- The calls that have found the sender connected and wait for the lock. -/
  calls : List EnqueueCall
  /-- The number of calls that are about to set `stop`. -/
  stopping : ℕ
  /-- The number of calls that have set `stop` and are about to clear `connected`. -/
  leaving : ℕ
  /-- The sender's thread. -/
  thread : DrainPhase
  /-- The frames that calls have put in the queue, oldest first. -/
  enqueued : List QueuedFrame
  /-- The frames that were handed to the socket, oldest first, and whether they were sent. -/
  handed : List (QueuedFrame × Bool)

/-- The frame of a call. -/
def EnqueueCall.frame (c : EnqueueCall) : QueuedFrame :=
  ⟨c.data.take c.len.toNat, c.len.toNat, c.offset⟩

/-- What `sender_enqueue` does under the lock; `node` and `buf` are the results of the two
allocations. -/
def enqueueLocked (c : EnqueueCall) (node : Option ℕ) (buf : Bool) (s : SendQueue) : SendQueue :=
  if replMaxQueueBytes < add64 s.queueBytes c.len.toNat then { s with stopping := s.stopping + 1 }
  else
    match node with
    | none => s
    | some f =>
      if buf = false then s
      else
        { s with
          queue := s.queue.push f c.frame
          queueBytes := add64 s.queueBytes c.len.toNat
          enqueued := s.enqueued ++ [c.frame] }

/-- What `sender_drain_queue` does under the lock. While the queue is empty and it has not been
told to stop, the thread waits. -/
def drainLocked (s : SendQueue) : SendQueue :=
  match s.queue.head with
  | none => if s.stop then { s with thread := .test } else s
  | some f =>
    match s.queue.heap f with
    | none => s
    | some node =>
      { s with
        queue := s.queue.pop
        queueBytes := sub64 s.queueBytes node.value.len
        thread := .sending f }

/-- The thread writes a frame to the socket and frees it; `ok` is the result of `send_all`. -/
def drainSend (ok : Bool) (f : ℕ) (s : SendQueue) : SendQueue :=
  match s.queue.heap f with
  | none => s
  | some node =>
    { s with
      queue := s.queue.free f
      handed := s.handed ++ [(node.value, ok)]
      thread := if ok then .test else .failed }

/-- A step of the sender's thread. -/
def drainStep (ok : Bool) (s : SendQueue) : SendQueue :=
  match s.thread with
  | .test => { s with thread := if s.stop then .left else .lock }
  | .lock => drainLocked s
  | .sending f => drainSend ok f s
  | .failed => { s with connected := false, thread := .failing }
  | .failing => { s with stop := true, thread := .test }
  | .left => { s with connected := false, thread := .ended }
  | .ended => s

/-- The steps of the threads. -/
inductive SendStep
  /-- A call of `sender_enqueue` tests `connected`. -/
  | call (c : EnqueueCall)
  /-- A call gets the lock. Memory that is in use is not handed out again. -/
  | enqueue (i : ℕ) (node : Option ℕ) (buf : Bool)
  /-- A call that has found the queue full sets `stop`. -/
  | setStop
  /-- And clears `connected`. -/
  | clearConnected
  /-- The sender's thread makes a step. -/
  | drain (ok : Bool)
  /-- `sender_destroy` tells the thread to stop. -/
  | destroy

/-- Execute a step. -/
def sendStep (s : SendQueue) : SendStep → SendQueue
  | .call c => if s.connected then { s with calls := s.calls ++ [c] } else s
  | .enqueue i node buf =>
    match s.calls[i]? with
    | none => s
    | some c =>
      if (node.bind s.queue.heap).isSome then s
      else enqueueLocked c node buf { s with calls := s.calls.eraseIdx i }
  | .setStop =>
    if s.stopping = 0 then s
    else { s with stop := true, stopping := s.stopping - 1, leaving := s.leaving + 1 }
  | .clearConnected =>
    if s.leaving = 0 then s else { s with connected := false, leaving := s.leaving - 1 }
  | .drain ok => drainStep ok s
  | .destroy => { s with stop := true }

/-- `sender_create`. -/
def sendStart : SendQueue :=
  ⟨true, false, ⟨fun _ => none, none, none⟩, 0, [], 0, 0, .test, [], []⟩

/-! ## The invariant -/

/-- The frame that the thread has taken out and not yet handed to the socket. -/
def SendQueue.inHand (s : SendQueue) : List QueuedFrame :=
  match s.thread with
  | .sending f => ((s.queue.heap f).map ListNode.value).toList
  | _ => []

/-- There is none unless the thread is in front of `send_all`. -/
theorem SendQueue.inHand_eq_nil {s : SendQueue} (h : ∀ f, s.thread ≠ .sending f) :
    s.inHand = [] := by
  unfold SendQueue.inHand
  split
  · rename_i f hf
    exact absurd hf (h f)
  · rfl

/-- The pointers, the counter and the frames agree. -/
structure SendQueue.Accounted (s : SendQueue) (items : List (ℕ × QueuedFrame)) : Prop where
  /-- The pointers are to the first and to the last node. -/
  holds : s.queue.Holds items
  /-- The counter is the sum of the lengths. -/
  bytes : s.queueBytes = (items.map fun item => item.2.len).sum
  /-- It does not exceed the bound. -/
  bounded : s.queueBytes ≤ replMaxQueueBytes
  /-- The frames were handed over in the order of the calls. -/
  order : s.enqueued = s.handed.map Prod.fst ++ s.inHand ++ items.map Prod.snd
  /-- The frame in hand is not in the list any more. -/
  apart : ∀ f, s.thread = .sending f → f ∉ items.map Prod.fst ∧ ∃ node, s.queue.heap f = some node

section Accounted

variable {s : SendQueue} {items : List (ℕ × QueuedFrame)}

/-- A step that leaves the queue alone, and no frame in hand. -/
theorem SendQueue.Accounted.of_same (h : s.Accounted items) {s' : SendQueue}
    (hqueue : s'.queue = s.queue) (hbytes : s'.queueBytes = s.queueBytes)
    (henq : s'.enqueued = s.enqueued) (hhanded : s'.handed = s.handed)
    (hthread : s'.thread = s.thread ∨
      (∀ f, s.thread ≠ .sending f) ∧ ∀ f, s'.thread ≠ .sending f) :
    s'.Accounted items := by
  have hin : s'.inHand = s.inHand := by
    rcases hthread with heq | ⟨hnone, hne⟩
    · unfold SendQueue.inHand
      rw [heq, hqueue]
    · rw [SendQueue.inHand_eq_nil hnone, SendQueue.inHand_eq_nil hne]
  refine ⟨hqueue ▸ h.holds, hbytes ▸ h.bytes, hbytes ▸ h.bounded, ?_, ?_⟩
  · rw [henq, hhanded, hin, h.order]
  · intro f hf
    rcases hthread with heq | ⟨-, hne⟩
    · rw [hqueue]
      exact h.apart f (heq ▸ hf)
    · exact absurd hf (hne f)

/-- A frame is linked behind the last one. -/
theorem SendQueue.Accounted.push (h : s.Accounted items) {f : ℕ} (hf : s.queue.heap f = none)
    (frame : QueuedFrame) (hle : s.queueBytes + frame.len ≤ replMaxQueueBytes) :
    SendQueue.Accounted
      { s with
        queue := s.queue.push f frame
        queueBytes := s.queueBytes + frame.len
        enqueued := s.enqueued ++ [frame] } (items ++ [(f, frame)]) := by
  have hkept : ∀ g, s.thread = .sending g → g ∉ (items ++ [(f, frame)]).map Prod.fst ∧
      (s.queue.push f frame).heap g = s.queue.heap g := by
    intro g hg
    obtain ⟨hout, node, hnode⟩ := h.apart g hg
    have hne : g ≠ f := by
      rintro rfl
      rw [hf] at hnode
      cases hnode
    refine ⟨?_, h.holds.push_heap hout hne⟩
    rw [List.map_append, List.mem_append, not_or]
    exact ⟨hout, fun hmem => hne (List.mem_singleton.mp hmem)⟩
  refine ⟨h.holds.push hf, ?_, hle, ?_, ?_⟩
  · rw [h.bytes, List.map_append, List.sum_append, List.map_singleton, List.sum_singleton]
  · have hin : SendQueue.inHand { s with
        queue := s.queue.push f frame
        queueBytes := s.queueBytes + frame.len
        enqueued := s.enqueued ++ [frame] } = s.inHand := by
      unfold SendQueue.inHand
      cases hthread : s.thread with
      | sending g => simp only [(hkept g hthread).2]
      | _ => rfl
    rw [hin, h.order, List.map_append, List.map_singleton, List.append_assoc _ _ [frame]]
  · intro g hg
    obtain ⟨-, node, hnode⟩ := h.apart g hg
    obtain ⟨hout, hheap⟩ := hkept g hg
    exact ⟨hout, node, hheap.trans hnode⟩

/-- What a call does under the lock. -/
theorem SendQueue.Accounted.enqueueLocked (h : s.Accounted items) (c : EnqueueCall)
    {node : Option ℕ} (hfree : node.bind s.queue.heap = none) (buf : Bool) :
    ∃ items, (FastKV.enqueueLocked c node buf s).Accounted items := by
  have hlen : c.len.toNat < 2 ^ 32 := c.len.toNat_lt
  have hmax : s.queueBytes ≤ 8 * 1024 * 1024 := h.bounded
  have hsum : add64 s.queueBytes c.len.toNat = s.queueBytes + c.len.toNat := add64_eq (by omega)
  unfold FastKV.enqueueLocked
  rw [hsum]
  by_cases hfull : replMaxQueueBytes < s.queueBytes + c.len.toNat
  · rw [if_pos hfull]
    exact ⟨items, h.of_same rfl rfl rfl rfl (Or.inl rfl)⟩
  · rw [if_neg hfull]
    cases node with
    | none => exact ⟨items, h⟩
    | some f =>
      cases buf with
      | false => exact ⟨items, h⟩
      | true => exact ⟨_, h.push hfree c.frame (Nat.not_lt.mp hfull)⟩

/-- The thread takes out the oldest frame. -/
theorem SendQueue.Accounted.take {f : ℕ} {frame : QueuedFrame}
    (h : s.Accounted ((f, frame) :: items)) (hthread : s.thread = .lock) :
    (∃ next, s.queue.pop.heap f = some ⟨frame, next⟩) ∧
      FastKV.drainLocked s = { s with
        queue := s.queue.pop
        queueBytes := s.queueBytes - frame.len
        thread := .sending f } ∧
      (FastKV.drainLocked s).Accounted items := by
  have hnone : ∀ f, s.thread ≠ .sending f := by simp [hthread]
  obtain ⟨hhead, ⟨next, hnode⟩, hpop, hheap, hout⟩ := h.holds.pop
  have hsum : s.queueBytes = frame.len + (items.map fun item => item.2.len).sum := h.bytes
  have hmax : s.queueBytes ≤ 8 * 1024 * 1024 := h.bounded
  have hrest : sub64 s.queueBytes frame.len = s.queueBytes - frame.len :=
    sub64_eq (by omega) (by omega)
  have hkept : s.queue.pop.heap f = some ⟨frame, next⟩ := (congrFun hheap f).trans hnode
  have htake : FastKV.drainLocked s = { s with
      queue := s.queue.pop
      queueBytes := s.queueBytes - frame.len
      thread := .sending f } := by
    simp only [FastKV.drainLocked, hhead, hnode, hrest]
  refine ⟨⟨next, hkept⟩, htake, ?_⟩
  rw [htake]
  refine ⟨hpop, ?_, ?_, ?_, ?_⟩
  · show s.queueBytes - frame.len = _
    omega
  · exact Nat.le_trans (Nat.sub_le _ _) h.bounded
  · have htaken : SendQueue.inHand { s with
        queue := s.queue.pop
        queueBytes := s.queueBytes - frame.len
        thread := .sending f } = [frame] := by
      simp only [SendQueue.inHand, hkept, Option.map_some, Option.toList_some]
    rw [htaken, h.order, SendQueue.inHand_eq_nil hnone]
    simp
  · intro g hg
    obtain rfl : f = g := DrainPhase.sending.inj hg
    exact ⟨hout, _, hkept⟩

/-- What the thread does under the lock. -/
theorem SendQueue.Accounted.drainLocked (h : s.Accounted items) (hthread : s.thread = .lock) :
    ∃ items, (FastKV.drainLocked s).Accounted items := by
  have hnone : ∀ f, s.thread ≠ .sending f := by simp [hthread]
  cases items with
  | nil =>
    unfold FastKV.drainLocked
    rw [h.holds.head_eq_none]
    cases hstop : s.stop with
    | false => exact ⟨[], h⟩
    | true => exact ⟨[], h.of_same rfl rfl rfl rfl (Or.inr ⟨hnone, by simp⟩)⟩
  | cons item items => exact ⟨items, (h.take hthread).2.2⟩

/-- The thread hands the frame to the socket and frees it. -/
theorem SendQueue.Accounted.drainSend (h : s.Accounted items) {f : ℕ}
    (hthread : s.thread = .sending f) (ok : Bool) :
    (FastKV.drainSend ok f s).Accounted items := by
  obtain ⟨hout, node, hnode⟩ := h.apart f hthread
  have hin : s.inHand = [node.value] := by
    simp only [SendQueue.inHand, hthread, hnode, Option.map_some, Option.toList_some]
  have hnext : ∀ g, (if ok = true then DrainPhase.test else DrainPhase.failed) ≠ .sending g := by
    cases ok <;> simp
  simp only [FastKV.drainSend, hnode]
  refine ⟨h.holds.free hout, h.bytes, h.bounded, ?_, fun g hg => absurd hg (hnext g)⟩
  rw [SendQueue.inHand_eq_nil hnext, h.order, hin]
  simp

/-- A step of the sender's thread. -/
theorem SendQueue.Accounted.drainStep (h : s.Accounted items) (ok : Bool) :
    ∃ items, (FastKV.drainStep ok s).Accounted items := by
  unfold FastKV.drainStep
  cases hthread : s.thread with
  | lock => exact h.drainLocked hthread
  | sending f => exact ⟨items, h.drainSend hthread ok⟩
  | ended => exact ⟨items, h⟩
  | test =>
    refine ⟨items, h.of_same rfl rfl rfl rfl (Or.inr ⟨by simp [hthread], ?_⟩)⟩
    cases s.stop <;> simp
  | failed => exact ⟨items, h.of_same rfl rfl rfl rfl (Or.inr ⟨by simp [hthread], by simp⟩)⟩
  | failing => exact ⟨items, h.of_same rfl rfl rfl rfl (Or.inr ⟨by simp [hthread], by simp⟩)⟩
  | left => exact ⟨items, h.of_same rfl rfl rfl rfl (Or.inr ⟨by simp [hthread], by simp⟩)⟩

/-- A step of any thread. -/
theorem SendQueue.Accounted.step (h : s.Accounted items) (a : SendStep) :
    ∃ items, (sendStep s a).Accounted items := by
  cases a with
  | drain ok => exact h.drainStep ok
  | destroy => exact ⟨items, h.of_same rfl rfl rfl rfl (Or.inl rfl)⟩
  | call c =>
    refine ⟨items, ?_⟩
    simp only [sendStep]
    split
    · exact h.of_same rfl rfl rfl rfl (Or.inl rfl)
    · exact h
  | setStop =>
    refine ⟨items, ?_⟩
    simp only [sendStep]
    split
    · exact h
    · exact h.of_same rfl rfl rfl rfl (Or.inl rfl)
  | clearConnected =>
    refine ⟨items, ?_⟩
    simp only [sendStep]
    split
    · exact h
    · exact h.of_same rfl rfl rfl rfl (Or.inl rfl)
  | enqueue i node buf =>
    simp only [sendStep]
    split
    · exact ⟨items, h⟩
    · split
      · exact ⟨items, h⟩
      · rename_i c _ hfree
        have hsame : SendQueue.Accounted { s with calls := s.calls.eraseIdx i } items :=
          h.of_same rfl rfl rfl rfl (Or.inl rfl)
        exact hsame.enqueueLocked c (by simpa using hfree) buf

end Accounted

/-- In every state that the threads reach, the pointers, the counter and the frames agree. -/
theorem accounted_exec (steps : List SendStep) :
    ∃ items, (exec sendStep sendStart steps).Accounted items := by
  refine exec_invariant (I := fun s => ∃ items, SendQueue.Accounted s items)
    (P := fun _ _ => True) (fun s a h _ => ?_) steps ?_ (.of_forall steps _ fun _ _ _ => trivial)
  · obtain ⟨items, h⟩ := h
    exact h.step a
  · refine ⟨[], ⟨rfl, rfl, List.nodup_nil⟩, rfl, Nat.zero_le _, rfl, fun f hf => ?_⟩
    cases hf

/-- For every interleaving the counter is the sum of the lengths of the frames in the queue, stays
within its bound and is at least the length that is subtracted next; the last node is the tail;
and the frames handed to the socket are the ones enqueued first, in their order. -/
theorem send_queue_accounted (steps : List SendStep) :
    ∃ items, (exec sendStep sendStart steps).Accounted items ∧
      (∀ item ∈ items.head?, item.2.len ≤ (exec sendStep sendStart steps).queueBytes) ∧
      (exec sendStep sendStart steps).handed.map Prod.fst <+:
        (exec sendStep sendStart steps).enqueued := by
  obtain ⟨items, h⟩ := accounted_exec steps
  refine ⟨items, h, ?_, ?_⟩
  · rintro item hitem
    obtain ⟨rest, rfl⟩ := List.head?_eq_some_iff.mp hitem
    rw [h.bytes, List.map_cons, List.sum_cons]
    omega
  · rw [h.order, List.append_assoc]
    exact List.prefix_append _ _

/-! ## Calls and rounds as single steps -/

/-- The sender of `FastKV.ReplServer` for a state in which no call is under way and the thread is
at its test or has ended; `base` is what the socket got before. -/
structure SendQueue.Views (s : SendQueue) (base : List ReplMsg) (r : ReplSender) : Prop where
  /-- No call is under way. -/
  calls : s.calls = [] ∧ s.stopping = 0 ∧ s.leaving = 0
  /-- Nor is a round. -/
  thread : s.thread = .test ∨ s.thread = .ended ∧ s.stop = true ∧ s.connected = false
  /-- The flags. -/
  flags : r.connected = s.connected ∧ r.stop = s.stop
  /-- The queue. -/
  queue : ∃ items, s.Accounted items ∧ r.queue = items.map Prod.snd
  /-- The counter. -/
  queueBytes : r.queueBytes = s.queueBytes
  /-- The messages. -/
  sent : r.sent = base ++ ((s.handed.filter Prod.snd).map fun frame => frame.1.message)

section Views

variable {s : SendQueue} {base : List ReplMsg} {r : ReplSender}

/-- A new sender. -/
theorem sendStart_views : sendStart.Views [] senderCreate := by
  obtain ⟨items, h⟩ := accounted_exec []
  have hnil : items = [] := by
    cases items with
    | nil => rfl
    | cons item items => cases h.holds.linked.1
  exact ⟨⟨rfl, rfl, rfl⟩, Or.inl rfl, ⟨rfl, rfl⟩, ⟨items, h, by rw [hnil]; rfl⟩, rfl, rfl⟩

/-- A call that is not interrupted does what `senderEnqueue` does. -/
theorem SendQueue.Views.enqueue (h : s.Views base r) (c : EnqueueCall) {node : Option ℕ}
    (hfree : node.bind s.queue.heap = none) (buf : Bool) :
    SendQueue.Views
      (exec sendStep s [.call c, .enqueue 0 node buf, .setStop, .clearConnected]) base
      (senderEnqueue (node.isSome && buf) r c.data c.len.toNat c.offset) := by
  obtain ⟨hcalls, hstopping, hleaving⟩ := h.calls
  obtain ⟨items, hacc, hitems⟩ := h.queue
  have hlen : c.len.toNat < 2 ^ 32 := c.len.toNat_lt
  have hmax : s.queueBytes ≤ 8 * 1024 * 1024 := hacc.bounded
  have hsum : add64 s.queueBytes c.len.toNat = s.queueBytes + c.len.toNat := add64_eq (by omega)
  cases hconn : s.connected with
  | false =>
    have hsame : exec sendStep s [.call c, .enqueue 0 node buf, .setStop, .clearConnected] = s := by
      simp [sendStep, hconn, hcalls, hstopping, hleaving]
    rw [hsame, senderEnqueue, if_pos (h.flags.1.trans hconn)]
    exact h
  | true =>
    have hr : ¬ r.connected = false := by simp [h.flags.1, hconn]
    have hback : ({ s with calls := [] } : SendQueue) = s := by
      rw [← hcalls]
    have hcall : sendStep s (.call c) = { s with calls := [c] } := by
      simp only [sendStep, if_pos hconn, hcalls, List.nil_append]
    have hlocked : exec sendStep s [.call c, .enqueue 0 node buf] =
        FastKV.enqueueLocked c node buf s := by
      rw [exec_cons, hcall]
      simp only [exec_cons, exec_nil, sendStep, List.getElem?_cons_zero, List.eraseIdx_cons_zero,
        hfree, Option.isSome_none, Bool.false_eq_true, if_false]
      rw [hback]
    have hlast : exec sendStep s [.call c, .enqueue 0 node buf, .setStop, .clearConnected] =
        sendStep (sendStep (FastKV.enqueueLocked c node buf s) .setStop) .clearConnected := by
      rw [← hlocked]
      rfl
    rw [hlast, senderEnqueue, if_neg hr, h.queueBytes]
    unfold FastKV.enqueueLocked
    rw [hsum]
    have hquiet : ∀ s' : SendQueue, s'.stopping = 0 → s'.leaving = 0 →
        sendStep (sendStep s' .setStop) .clearConnected = s' := by
      intro s' hs hl
      simp [sendStep, hs, hl]
    by_cases hfull : replMaxQueueBytes < s.queueBytes + c.len.toNat
    · rw [if_pos hfull, if_pos hfull]
      have hgone : sendStep (sendStep { s with stopping := s.stopping + 1 } .setStop)
          .clearConnected = { s with stop := true, connected := false } := by
        simp [sendStep, hstopping, hleaving]
      rw [hgone]
      refine ⟨h.calls, ?_, ⟨rfl, rfl⟩, ⟨items, ?_, hitems⟩, rfl, h.sent⟩
      · exact h.thread.imp id fun hended => ⟨hended.1, rfl, rfl⟩
      · exact hacc.of_same rfl rfl rfl rfl (Or.inl rfl)
    · rw [if_neg hfull, if_neg hfull]
      cases node with
      | none =>
        rw [hquiet s hstopping hleaving]
        exact h
      | some f =>
        cases buf with
        | false =>
          show SendQueue.Views (sendStep (sendStep s .setStop) .clearConnected) base r
          rw [hquiet s hstopping hleaving]
          exact h
        | true =>
          have hpush := hacc.push hfree c.frame (Nat.not_lt.mp hfull)
          show SendQueue.Views (sendStep (sendStep
            { s with
              queue := s.queue.push f c.frame
              queueBytes := s.queueBytes + c.len.toNat
              enqueued := s.enqueued ++ [c.frame] } .setStop) .clearConnected) base _
          rw [hquiet]
          · refine ⟨h.calls, h.thread, h.flags, ⟨_, hpush, ?_⟩, rfl, h.sent⟩
            show r.queue ++ [c.frame] = _
            rw [hitems, List.map_append, List.map_singleton]
          · exact hstopping
          · exact hleaving

/-- A round of the thread that is not interrupted does what `senderDrain` does. -/
theorem SendQueue.Views.drain (h : s.Views base r) (ok : Bool) :
    ∃ n, SendQueue.Views (exec sendStep s (List.replicate n (.drain ok))) base
      (senderDrain ok r) := by
  obtain ⟨items, hacc, hitems⟩ := h.queue
  rcases h.thread with htest | ⟨hended, hstop, hconn⟩
  · cases hstop : s.stop with
    | true =>
      refine ⟨2, ?_⟩
      have hend : exec sendStep s (List.replicate 2 (.drain ok)) =
          { s with connected := false, thread := .ended } := by
        simp [List.replicate, sendStep, FastKV.drainStep, htest, hstop]
      rw [hend, senderDrain, if_pos (h.flags.2.trans hstop)]
      refine ⟨h.calls, Or.inr ⟨rfl, hstop, rfl⟩, ⟨rfl, h.flags.2⟩, ⟨items, ?_, hitems⟩,
        h.queueBytes, h.sent⟩
      exact hacc.of_same rfl rfl rfl rfl (Or.inr ⟨by simp [htest], by simp⟩)
    | false =>
      have hr : ¬ r.stop = true := by simp [h.flags.2, hstop]
      cases items with
      | nil =>
        have hnil : r.queue = [] := hitems
        refine ⟨0, ?_⟩
        rw [senderDrain, if_neg hr, hnil]
        exact h
      | cons item items =>
        obtain ⟨f, frame⟩ := item
        have hcons : r.queue = frame :: items.map Prod.snd := hitems
        have hlock : SendQueue.Accounted { s with thread := .lock } ((f, frame) :: items) :=
          hacc.of_same rfl rfl rfl rfl (Or.inr ⟨by simp [htest], by simp⟩)
        obtain ⟨⟨next, hnode⟩, htake, htaken⟩ := hlock.take rfl
        rw [htake] at htaken
        have hsent := htaken.drainSend rfl ok
        have hround : exec sendStep s (List.replicate 3 (.drain ok)) =
            { s with
              queue := s.queue.pop.free f
              queueBytes := s.queueBytes - frame.len
              handed := s.handed ++ [(frame, ok)]
              thread := if ok then .test else .failed } := by
          have hfirst : sendStep s (.drain ok) = { s with thread := .lock } := by
            simp [sendStep, FastKV.drainStep, htest, hstop]
          show sendStep (sendStep (sendStep s (.drain ok)) (.drain ok)) (.drain ok) = _
          rw [hfirst]
          simp only [sendStep, FastKV.drainStep, htake, FastKV.drainSend, hnode]
        simp only [FastKV.drainSend, hnode] at hsent
        cases ok with
        | true =>
          refine ⟨3, ?_⟩
          rw [hround, senderDrain, if_neg hr, hcons]
          refine ⟨h.calls, Or.inl rfl, h.flags, ⟨items, hsent, rfl⟩, ?_, ?_⟩
          · show r.queueBytes - frame.len = _
            rw [h.queueBytes]
          · show r.sent ++ [frame.message] = _
            rw [h.sent]
            simp
        | false =>
          refine ⟨5, ?_⟩
          have hstopped : exec sendStep s (List.replicate 5 (.drain false)) =
              { s with
                connected := false
                stop := true
                queue := s.queue.pop.free f
                queueBytes := s.queueBytes - frame.len
                handed := s.handed ++ [(frame, false)]
                thread := .test } := by
            show sendStep (sendStep (exec sendStep s (List.replicate 3 (.drain false)))
              (.drain false)) (.drain false) = _
            rw [hround]
            rfl
          rw [hstopped, senderDrain, if_neg hr, hcons]
          refine ⟨h.calls, Or.inl rfl, ⟨rfl, rfl⟩, ⟨items, ?_, rfl⟩, ?_, ?_⟩
          · exact hsent.of_same rfl rfl rfl rfl (Or.inr ⟨by simp, by simp⟩)
          · show r.queueBytes - frame.len = _
            rw [h.queueBytes]
          · show r.sent = _
            rw [h.sent]
            simp
  · refine ⟨0, ?_⟩
    rw [senderDrain, if_pos (h.flags.2.trans hstop)]
    have hsame : ({ r with connected := false } : ReplSender) = r := by
      rw [← hconn, ← h.flags.1]
    rw [hsame]
    exact h

end Views

end FastKV
