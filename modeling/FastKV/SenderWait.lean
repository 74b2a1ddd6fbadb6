import FastKV.SendQueue

/-!
# How the sender's thread sleeps and wakes

`sender_drain_queue` and its visitors once more, by the lock of the queue and by its condition
variable. The thread of a sender tests under the lock whether there is a frame or whether it is
to stop, and if neither is the case it gives up the lock and sleeps until somebody signals, or
until `pthread_cond_wait` returns for no reason. The visitors hold the lock of the list of
senders, or have taken the sender out of the list, so that there is one of them at a time:
`sender_enqueue`, which signals under the lock of the queue when it has linked a frame, but
without it when it has found the queue full, and `sender_destroy`, which signals under the lock
and then joins the thread.
-/

namespace FastKV

open Lib

/-! ## The threads -/

/-- Where the sender's thread is. -/
inductive SenderPhase
  /-- At the test of the outer loop. -/
  | outer
  /-- In front of the lock. -/
  | locking
  /-- It has the lock and is at the test of the inner loop. -/
  | testing
  /-- It has the lock and is about to sleep. -/
  | sleeping
  /-- Asleep, without the lock. -/
  | parked
  /-- Awake, and in front of the lock. -/
  | woken
  /-- It has the lock and is behind the inner loop. -/
  | taking
  /-- In `send_all`. -/
  | sending (f : QueuedFrame)
  /-- The socket has failed. -/
  | failed
  /-- The same, after `connected` has been cleared. -/
  | failing
  /-- Behind the outer loop. -/
  | left
  /-- Ended. -/
  | ended
  deriving DecidableEq

/-- Where the visitor is. -/
inductive VisitPhase
  /-- There is none. -/
  | none
  /-- `sender_enqueue` has found the sender connected. -/
  | entering (c : EnqueueCall)
  /-- It has the lock. -/
  | holding (c : EnqueueCall)
  /-- It has linked the frame and is about to signal. -/
  | linked
  /-- It has signalled and still has the lock. -/
  | signalled
  /-- It has found the queue full and given up the lock. -/
  | full
  /-- The same, after `stop` has been set. -/
  | stopped
  /-- The same, after `connected` has been cleared; it is about to signal. -/
  | cleared
  /-- `sender_destroy` has set `stop`. -/
  | stopping
  /-- It has the lock and is about to signal. -/
  | rousing
  /-- It has signalled and still has the lock. -/
  | roused
  /-- It is in `pthread_join`. -/
  | joining

/-- A sender with its lock, its thread and its visitor. -/
structure SenderWait where
  /-- The sender. -/
  sender : ReplSender
  /-- Whether somebody has `queue_lock`. -/
  locked : Bool
  /-- The thread. -/
  thread : SenderPhase
  /-- The visitor. -/
  visit : VisitPhase

/-- `pthread_cond_signal`: without effect unless the thread is asleep. -/
def condSignal (s : SenderWait) : SenderWait :=
  if s.thread = .parked then { s with thread := .woken } else s

/-- A step of the thread; `ok` is the result of `send_all`. -/
def senderThreadStep (ok : Bool) (s : SenderWait) : SenderWait :=
  match s.thread with
  | .outer => { s with thread := if s.sender.stop then .left else .locking }
  | .locking | .woken => if s.locked then s else { s with locked := true, thread := .testing }
  | .testing =>
    { s with thread := if s.sender.queue = [] ∧ s.sender.stop = false then .sleeping else .taking }
  | .sleeping => { s with locked := false, thread := .parked }
  | .parked => s
  | .taking =>
    match s.sender.queue with
    | [] => { s with locked := false, thread := .outer }
    | f :: queue =>
      { s with
        sender := { s.sender with queue, queueBytes := s.sender.queueBytes - f.len }
        locked := false
        thread := .sending f }
  | .sending f =>
    if ok then
      { s with
        sender := { s.sender with sent := s.sender.sent ++ [f.message] }
        thread := .outer }
    else { s with thread := .failed }
  | .failed => { s with sender := { s.sender with connected := false }, thread := .failing }
  | .failing => { s with sender := { s.sender with stop := true }, thread := .outer }
  | .left => { s with sender := { s.sender with connected := false }, thread := .ended }
  | .ended => s

/-- A step of the visitor; `alloc` tells whether there is memory for a frame. -/
def visitorStep (alloc : Bool) (s : SenderWait) : SenderWait :=
  match s.visit with
  | .none | .joining => s
  | .entering c => if s.locked then s else { s with locked := true, visit := .holding c }
  | .holding c =>
    if replMaxQueueBytes < s.sender.queueBytes + c.len.toNat then
      { s with locked := false, visit := .full }
    else if alloc = false then { s with locked := false, visit := .none }
    else
      { s with
        sender := { s.sender with
          queue := s.sender.queue ++ [c.frame]
          queueBytes := s.sender.queueBytes + c.len.toNat }
        visit := .linked }
  | .linked => { condSignal s with visit := .signalled }
  | .signalled => { s with locked := false, visit := .none }
  | .full => { s with sender := { s.sender with stop := true }, visit := .stopped }
  | .stopped => { s with sender := { s.sender with connected := false }, visit := .cleared }
  | .cleared => { condSignal s with visit := .none }
  | .stopping => if s.locked then s else { s with locked := true, visit := .rousing }
  | .rousing => { condSignal s with visit := .roused }
  | .roused => { s with locked := false, visit := .joining }

/-- The steps of the threads. -/
inductive WaitStep
  /-- The sender's thread goes on. -/
  | thread (ok : Bool)
  /-- `pthread_cond_wait` returns for no reason. -/
  | wake
  /-- A broadcast comes to the sender. -/
  | call (c : EnqueueCall)
  /-- The sender is to be destroyed. -/
  | destroy
  /-- The visitor goes on. -/
  | visit (alloc : Bool)

/-- Execute a step. -/
def waitStep (s : SenderWait) : WaitStep → SenderWait
  | .thread ok => senderThreadStep ok s
  | .wake => condSignal s
  | .call c =>
    match s.visit with
    | .none => if s.sender.connected then { s with visit := .entering c } else s
    | _ => s
  | .destroy =>
    match s.visit with
    | .none => { s with sender := { s.sender with stop := true }, visit := .stopping }
    | _ => s
  | .visit alloc => visitorStep alloc s

/-- The sender after `sender_create`. -/
def SenderWait.start : SenderWait := ⟨senderCreate, false, .outer, .none⟩

/-! ## Who has the lock -/

/-- The thread has the lock. -/
def SenderPhase.holds : SenderPhase → Bool
  | .testing | .sleeping | .taking => true
  | _ => false

/-- The thread has made up its mind to sleep. -/
def SenderPhase.rests : SenderPhase → Bool
  | .sleeping | .parked => true
  | _ => false

/-- The visitor has the lock. -/
def VisitPhase.holds : VisitPhase → Bool
  | .holding _ | .linked | .signalled | .rousing | .roused => true
  | _ => false

/-- The visitor is `sender_destroy`. -/
def VisitPhase.destroys : VisitPhase → Bool
  | .stopping | .rousing | .roused | .joining => true
  | _ => false

/-- The visitor is `sender_destroy`, and has signalled. -/
def VisitPhase.hasRoused : VisitPhase → Bool
  | .roused | .joining => true
  | _ => false

/-- Who has signalled is `sender_destroy`. -/
theorem VisitPhase.destroys_of_hasRoused {v : VisitPhase} (h : v.hasRoused = true) :
    v.destroys = true := by
  cases v <;> first | rfl | cases h

/-- The lock excludes, and a thread that sleeps has nothing to do. -/
structure SenderWait.Watchful (s : SenderWait) : Prop where
  /-- The lock is taken by the thread or by the visitor, or it is free. -/
  lock : s.locked = (s.thread.holds || s.visit.holds)
  /-- Not both have it. -/
  exclusive : ¬ (s.thread.holds = true ∧ s.visit.holds = true)
  /-- A thread that rests has no frame to send, or the visitor is about to signal. -/
  idle : s.thread.rests = true → s.sender.queue = [] ∨ s.visit = .linked
  /-- Who destroys the sender has told the thread to stop. -/
  told : s.visit.destroys = true → s.sender.stop = true
  /-- After the signal of `sender_destroy` the thread does not rest. -/
  roused : s.visit.hasRoused = true → s.thread.rests = false

section Watchful

variable {s : SenderWait}

/-- At the beginning nobody has the lock. -/
theorem SenderWait.watchful_start : SenderWait.start.Watchful :=
  ⟨rfl, by simp [SenderWait.start, SenderPhase.holds], fun h => (by cases h),
    fun h => (by cases h), fun h => (by cases h)⟩

/-- The thread goes on to a place where it does not rest, with or without the lock as before. -/
theorem SenderWait.Watchful.goesOn (h : s.Watchful) {thread : SenderPhase} {sender : ReplSender}
    (hholds : thread.holds = s.thread.holds) (hrests : thread.rests = false)
    (hstop : s.sender.stop = true → sender.stop = true) :
    SenderWait.Watchful { s with sender, thread } := by
  refine ⟨?_, ?_, ?_, ?_, ?_⟩
  · rw [h.lock, hholds]
  · rw [hholds]
    exact h.exclusive
  · intro hrest
    rw [hrests] at hrest
    cases hrest
  · exact fun hdestroys => hstop (h.told hdestroys)
  · exact fun _ => hrests

/-- A thread in front of the lock gets it if it is free. -/
theorem SenderWait.Watchful.acquires (h : s.Watchful) (hthread : s.thread.holds = false) :
    SenderWait.Watchful
      (if s.locked then s else { s with locked := true, thread := .testing }) := by
  cases hlocked : s.locked with
  | true => exact h
  | false =>
    have hvisit : s.visit.holds = false := by
      have hlock := h.lock
      rw [hlocked, hthread, Bool.false_or] at hlock
      exact hlock.symm
    rw [if_neg (by simp)]
    refine ⟨rfl, ?_, ?_, h.told, fun _ => rfl⟩
    · rintro ⟨-, hboth⟩
      rw [hvisit] at hboth
      cases hboth
    · intro hrest
      cases hrest

/-- A thread that gives up the lock. -/
theorem SenderWait.Watchful.releases (h : s.Watchful) (hthread : s.thread.holds = true)
    {thread : SenderPhase} {sender : ReplSender} (hholds : thread.holds = false)
    (hstop : sender.stop = s.sender.stop)
    (hidle : thread.rests = true → sender.queue = [] ∧ s.thread.rests = true) :
    SenderWait.Watchful { sender, locked := false, thread, visit := s.visit } := by
  have hvisit : s.visit.holds = false := by
    cases hv : s.visit.holds with
    | false => rfl
    | true => exact absurd ⟨hthread, hv⟩ h.exclusive
  refine ⟨?_, ?_, fun hrest => Or.inl (hidle hrest).1, ?_, ?_⟩
  · rw [hholds, hvisit]
    rfl
  · rintro ⟨hboth, -⟩
    rw [hholds] at hboth
    cases hboth
  · exact fun hdestroys => hstop.trans (h.told hdestroys)
  · intro hroused
    cases hrest : thread.rests with
    | false => rfl
    | true =>
      have hresting := (hidle hrest).2
      rw [h.roused hroused] at hresting
      cases hresting

/-- The thread keeps the lock and its sleep in order. -/
theorem SenderWait.Watchful.thread (h : s.Watchful) (ok : Bool) :
    (senderThreadStep ok s).Watchful := by
  cases hthread : s.thread with
  | outer =>
    simp only [senderThreadStep, hthread]
    refine h.goesOn ?_ ?_ id <;> split <;> simp [hthread, SenderPhase.holds, SenderPhase.rests]
  | locking =>
    simp only [senderThreadStep, hthread]
    exact h.acquires (by rw [hthread]; rfl)
  | testing =>
    simp only [senderThreadStep, hthread]
    split
    · -- Nobody else changes the queue while the thread makes up its mind.
      rename_i hempty
      refine ⟨?_, ?_, fun _ => Or.inl hempty.1, h.told, ?_⟩
      · rw [h.lock, hthread]
        rfl
      · have hexclusive := h.exclusive
        rw [hthread] at hexclusive
        exact hexclusive
      · intro hroused
        have hstop := h.told (VisitPhase.destroys_of_hasRoused hroused)
        rw [hstop] at hempty
        cases hempty.2
    · exact h.goesOn (by rw [hthread]; rfl) rfl id
  | sleeping =>
    simp only [senderThreadStep, hthread]
    refine h.releases (by rw [hthread]; rfl) rfl rfl fun _ => ⟨?_, by rw [hthread]; rfl⟩
    rcases h.idle (by rw [hthread]; rfl) with hempty | hlinked
    · exact hempty
    · exact absurd ⟨by rw [hthread]; rfl, by rw [hlinked]; rfl⟩ h.exclusive
  | parked => simpa only [senderThreadStep, hthread] using h
  | woken =>
    simp only [senderThreadStep, hthread]
    exact h.acquires (by rw [hthread]; rfl)
  | taking =>
    simp only [senderThreadStep, hthread]
    split
    · exact h.releases (by rw [hthread]; rfl) rfl rfl fun hrest => by cases hrest
    · exact h.releases (by rw [hthread]; rfl) rfl rfl fun hrest => by cases hrest
  | sending f =>
    simp only [senderThreadStep, hthread]
    split
    · exact h.goesOn (by rw [hthread]; rfl) rfl id
    · exact h.goesOn (by rw [hthread]; rfl) rfl id
  | failed =>
    simp only [senderThreadStep, hthread]
    exact h.goesOn (by rw [hthread]; rfl) rfl id
  | failing =>
    simp only [senderThreadStep, hthread]
    exact h.goesOn (by rw [hthread]; rfl) rfl fun _ => rfl
  | left =>
    simp only [senderThreadStep, hthread]
    exact h.goesOn (by rw [hthread]; rfl) rfl id
  | ended => simpa only [senderThreadStep, hthread] using h

/-- A visitor that has the lock finds the thread asleep or busy. -/
theorem SenderWait.Watchful.parked_of_rests (h : s.Watchful) (hvisit : s.visit.holds = true)
    (hrests : s.thread.rests = true) : s.thread = .parked := by
  cases hthread : s.thread with
  | parked => rfl
  | sleeping => exact absurd ⟨by rw [hthread]; rfl, hvisit⟩ h.exclusive
  | _ =>
    rw [hthread] at hrests
    cases hrests

/-- The thread wakes up, if it is asleep. -/
theorem SenderWait.Watchful.wakes (h : s.Watchful) : (condSignal s).Watchful := by
  unfold condSignal
  split
  · rename_i hparked
    exact h.goesOn (by rw [hparked]; rfl) rfl id
  · exact h

/-- Under the lock, a signal ends the sleep of the thread. -/
theorem SenderWait.Watchful.rests_condSignal (h : s.Watchful) (hvisit : s.visit.holds = true) :
    (condSignal s).thread.rests = false := by
  unfold condSignal
  split
  · rfl
  · rename_i hparked
    cases hrests : s.thread.rests with
    | false => rfl
    | true => exact absurd (h.parked_of_rests hvisit hrests) hparked

/-- The visitor goes on, with or without the lock as before. -/
theorem SenderWait.Watchful.visits (h : s.Watchful) {visit : VisitPhase} {sender : ReplSender}
    (hholds : visit.holds = s.visit.holds)
    (hidle : s.thread.rests = true → sender.queue = [] ∨ visit = .linked)
    (htold : visit.destroys = true → sender.stop = true)
    (hroused : visit.hasRoused = true → s.thread.rests = false) :
    SenderWait.Watchful { s with sender, visit } := by
  refine ⟨?_, ?_, hidle, htold, hroused⟩
  · rw [h.lock, hholds]
  · rw [hholds]
    exact h.exclusive

/-- A visitor in front of the lock gets it if it is free. -/
theorem SenderWait.Watchful.visitorAcquires (h : s.Watchful) {visit : VisitPhase}
    (hwaits : s.visit.holds = false) (hlinked : s.visit ≠ .linked) (hholds : visit.holds = true)
    (hdestroys : visit.destroys = true → s.visit.destroys = true)
    (hroused : visit.hasRoused = false) :
    SenderWait.Watchful (if s.locked then s else { s with locked := true, visit }) := by
  cases hlocked : s.locked with
  | true => exact h
  | false =>
    have hthread : s.thread.holds = false := by
      have hlock := h.lock
      rw [hlocked, hwaits, Bool.or_false] at hlock
      exact hlock.symm
    rw [if_neg (by simp)]
    refine ⟨?_, ?_, fun hrest => Or.inl ?_, fun hd => h.told (hdestroys hd), ?_⟩
    · rw [hholds, Bool.or_true]
    · rintro ⟨hboth, -⟩
      rw [hthread] at hboth
      cases hboth
    · exact (h.idle hrest).resolve_right hlinked
    · intro hr
      rw [hroused] at hr
      cases hr

/-- A visitor that gives up the lock. -/
theorem SenderWait.Watchful.visitorReleases (h : s.Watchful) {visit : VisitPhase}
    (hheld : s.visit.holds = true) (hlinked : s.visit ≠ .linked) (hholds : visit.holds = false)
    (hdestroys : visit.destroys = true → s.visit.destroys = true)
    (hroused : visit.hasRoused = true → s.visit.hasRoused = true) :
    SenderWait.Watchful { s with locked := false, visit } := by
  have hthread : s.thread.holds = false := by
    cases ht : s.thread.holds with
    | false => rfl
    | true => exact absurd ⟨ht, hheld⟩ h.exclusive
  refine ⟨?_, ?_, fun hrest => Or.inl ((h.idle hrest).resolve_right hlinked),
    fun hd => h.told (hdestroys hd), fun hr => h.roused (hroused hr)⟩
  · rw [hthread, hholds]
    rfl
  · rintro ⟨hboth, -⟩
    rw [hthread] at hboth
    cases hboth

/-- The visitor signals. -/
theorem SenderWait.Watchful.signals (h : s.Watchful) {visit : VisitPhase}
    (hholds : visit.holds = s.visit.holds)
    (hwakes : s.visit.holds = true ∨ s.visit ≠ .linked ∧ visit.hasRoused = false)
    (hdestroys : visit.destroys = true → s.visit.destroys = true) :
    SenderWait.Watchful { condSignal s with visit } := by
  have hvisit : (condSignal s).visit = s.visit := by unfold condSignal; split <;> rfl
  refine h.wakes.visits (hholds.trans (by rw [hvisit])) (fun hrest => ?_)
    (fun hd => h.wakes.told (by rw [hvisit]; exact hdestroys hd)) (fun hr => ?_)
  · rcases hwakes with hheld | ⟨hlinked, -⟩
    · rw [h.rests_condSignal hheld] at hrest
      cases hrest
    · exact Or.inl ((h.wakes.idle hrest).resolve_right (by rwa [hvisit]))
  · rcases hwakes with hheld | ⟨-, hno⟩
    · exact h.rests_condSignal hheld
    · rw [hno] at hr
      cases hr

/-- The visitor keeps the lock and the thread's sleep in order. -/
theorem SenderWait.Watchful.visitor (h : s.Watchful) (alloc : Bool) :
    (visitorStep alloc s).Watchful := by
  have hidle : s.visit ≠ .linked → s.thread.rests = true → s.sender.queue = [] :=
    fun hlinked hrest => (h.idle hrest).resolve_right hlinked
  cases hvisit : s.visit with
  | none => simpa only [visitorStep, hvisit] using h
  | entering c =>
    simp only [visitorStep, hvisit]
    exact h.visitorAcquires (by rw [hvisit]; rfl) (by simp [hvisit]) rfl (fun hd => by cases hd) rfl
  | holding c =>
    have hheld : s.visit.holds = true := by rw [hvisit]; rfl
    have hlinked : s.visit ≠ .linked := by simp [hvisit]
    simp only [visitorStep, hvisit]
    split
    · exact h.visitorReleases hheld hlinked rfl (fun hd => by cases hd) fun hr => by cases hr
    · split
      · exact h.visitorReleases hheld hlinked rfl (fun hd => by cases hd) fun hr => by cases hr
      · exact h.visits hheld.symm (fun _ => Or.inr rfl) (fun hd => by cases hd) fun hr => by
          cases hr
  | linked =>
    simp only [visitorStep, hvisit]
    exact h.signals (by rw [hvisit]; rfl) (Or.inl (by rw [hvisit]; rfl)) fun hd => by cases hd
  | signalled =>
    simp only [visitorStep, hvisit]
    exact h.visitorReleases (by rw [hvisit]; rfl) (by simp [hvisit]) rfl (fun hd => by cases hd)
      fun hr => by cases hr
  | full =>
    simp only [visitorStep, hvisit]
    exact h.visits (by rw [hvisit]; rfl) (fun hr => Or.inl (hidle (by simp [hvisit]) hr))
      (fun hd => by cases hd) fun hr => by cases hr
  | stopped =>
    simp only [visitorStep, hvisit]
    exact h.visits (by rw [hvisit]; rfl) (fun hr => Or.inl (hidle (by simp [hvisit]) hr))
      (fun hd => by cases hd) fun hr => by cases hr
  | cleared =>
    simp only [visitorStep, hvisit]
    exact h.signals (by rw [hvisit]; rfl) (Or.inr ⟨by simp [hvisit], rfl⟩) fun hd => by cases hd
  | stopping =>
    simp only [visitorStep, hvisit]
    exact h.visitorAcquires (by rw [hvisit]; rfl) (by simp [hvisit]) rfl
      (fun _ => by rw [hvisit]; rfl) rfl
  | rousing =>
    simp only [visitorStep, hvisit]
    exact h.signals (by rw [hvisit]; rfl) (Or.inl (by rw [hvisit]; rfl)) fun _ => by
      rw [hvisit]; rfl
  | roused =>
    simp only [visitorStep, hvisit]
    exact h.visitorReleases (by rw [hvisit]; rfl) (by simp [hvisit]) rfl
      (fun _ => by rw [hvisit]; rfl) fun _ => by rw [hvisit]; rfl
  | joining => simpa only [visitorStep, hvisit] using h

/-- Every step keeps the lock and the thread's sleep in order. -/
theorem SenderWait.Watchful.step (h : s.Watchful) (a : WaitStep) : (waitStep s a).Watchful := by
  cases a with
  | thread ok => exact h.thread ok
  | visit alloc => exact h.visitor alloc
  | wake => exact h.wakes
  | call c =>
    cases hvisit : s.visit with
    | none =>
      simp only [waitStep, hvisit]
      split
      · exact h.visits (by rw [hvisit]; rfl)
          (fun hr => Or.inl ((h.idle hr).resolve_right (by simp [hvisit])))
          (fun hd => by cases hd) fun hr => by cases hr
      · exact h
    | _ => simpa only [waitStep, hvisit] using h
  | destroy =>
    cases hvisit : s.visit with
    | none =>
      simp only [waitStep, hvisit]
      exact h.visits (by rw [hvisit]; rfl)
        (fun hr => Or.inl ((h.idle hr).resolve_right (by simp [hvisit])))
        (fun _ => rfl) fun hr => by cases hr
    | _ => simpa only [waitStep, hvisit] using h

end Watchful

/-- Every run keeps the lock and the thread's sleep in order. -/
theorem SenderWait.watchful_run (as : List WaitStep) :
    (exec waitStep SenderWait.start as).Watchful :=
  exec_invariant (P := fun _ _ => True) (fun _ a h _ => h.step a) as SenderWait.watchful_start
    (Permitted.of_forall as _ fun _ _ _ => trivial)

/-! ## Joining the thread -/

/-- How many steps the thread has left after `sender_destroy` has signalled, at most. -/
def SenderPhase.togo : SenderPhase → ℕ
  | .locking | .woken => 8
  | .testing => 7
  | .taking => 6
  | .sending _ => 5
  | .failed => 4
  | .failing => 3
  | .outer => 2
  | .left => 1
  | .ended => 0
  | .sleeping | .parked => 0

/-- A step of the sender's thread. -/
def WaitStep.isThread : WaitStep → Bool
  | .thread _ => true
  | _ => false

section Joining

variable {s : SenderWait}

/-- The thread comes one step closer to its end. -/
theorem SenderWait.Watchful.togo_thread (h : s.Watchful) (hvisit : s.visit = .joining) (ok : Bool) :
    (senderThreadStep ok s).thread.togo ≤ s.thread.togo - 1 := by
  have hstop : s.sender.stop = true := h.told (by rw [hvisit]; rfl)
  have hrests : s.thread.rests = false := h.roused (by rw [hvisit]; rfl)
  have hfree : s.thread.holds = false → s.locked = false := by
    intro hholds
    rw [h.lock, hholds, hvisit]
    rfl
  cases hthread : s.thread with
  | outer => simp [senderThreadStep, hthread, hstop, SenderPhase.togo]
  | locking =>
    have hlocked := hfree (by rw [hthread]; rfl)
    simp [senderThreadStep, hthread, hlocked, SenderPhase.togo]
  | testing => simp [senderThreadStep, hthread, hstop, SenderPhase.togo]
  | sleeping =>
    rw [hthread] at hrests
    cases hrests
  | parked =>
    rw [hthread] at hrests
    cases hrests
  | woken =>
    have hlocked := hfree (by rw [hthread]; rfl)
    simp [senderThreadStep, hthread, hlocked, SenderPhase.togo]
  | taking =>
    simp only [senderThreadStep, hthread]
    split <;> simp [SenderPhase.togo]
  | sending f =>
    simp only [senderThreadStep, hthread]
    split <;> simp [SenderPhase.togo]
  | failed => simp [senderThreadStep, hthread, SenderPhase.togo]
  | failing => simp [senderThreadStep, hthread, SenderPhase.togo]
  | left => simp [senderThreadStep, hthread, SenderPhase.togo]
  | ended => simp [senderThreadStep, hthread, SenderPhase.togo]

/-- The thread leaves the visitor where it is. -/
theorem visit_senderThreadStep (ok : Bool) (s : SenderWait) :
    (senderThreadStep ok s).visit = s.visit := by
  unfold senderThreadStep
  split
  all_goals first | rfl | (split <;> rfl)

/-- While the thread is being joined, nobody else changes anything. -/
theorem SenderWait.Watchful.waitStep_joining (h : s.Watchful) (hvisit : s.visit = .joining)
    {a : WaitStep} (ha : a.isThread = false) : waitStep s a = s := by
  have hrests : s.thread.rests = false := h.roused (by rw [hvisit]; rfl)
  cases a with
  | thread ok => cases ha
  | wake =>
    have hawake : s.thread ≠ .parked := by
      intro hparked
      rw [hparked] at hrests
      cases hrests
    simp only [waitStep, condSignal, if_neg hawake]
  | call c => simp only [waitStep, hvisit]
  | destroy => simp only [waitStep, hvisit]
  | visit alloc => simp only [waitStep, visitorStep, hvisit]

/-- Every step of the thread counts. -/
theorem SenderWait.Watchful.togo_run (bs : List WaitStep) : ∀ {s : SenderWait}, s.Watchful →
    s.visit = .joining →
    (exec waitStep s bs).thread.togo ≤ s.thread.togo - bs.countP WaitStep.isThread ∧
      (exec waitStep s bs).Watchful ∧ (exec waitStep s bs).visit = .joining := by
  induction bs with
  | nil => exact fun h hvisit => ⟨Nat.le_refl _, h, hvisit⟩
  | cons a bs ih =>
    intro s h hvisit
    cases ha : a.isThread with
    | false =>
      rw [exec_cons, h.waitStep_joining hvisit ha, List.countP_cons_of_neg (by simp [ha])]
      exact ih h hvisit
    | true =>
      cases a with
      | thread ok =>
        have hnext : (waitStep s (.thread ok)).visit = .joining :=
          (visit_senderThreadStep ok s).trans hvisit
        obtain ⟨htogo, hrest⟩ := ih (h.step (.thread ok)) hnext
        have hfirst : (waitStep s (.thread ok)).thread.togo ≤ s.thread.togo - 1 :=
          h.togo_thread hvisit ok
        refine ⟨?_, hrest⟩
        rw [exec_cons, List.countP_cons_of_pos ha]
        omega
      | _ => cases ha

/-- A thread that is awake and has no steps left has ended. -/
theorem SenderPhase.ended_of_togo {p : SenderPhase} (hrests : p.rests = false) (h : p.togo = 0) :
    p = .ended := by
  cases p <;> simp_all [SenderPhase.rests, SenderPhase.togo]

end Joining

/-- In every run of the sender's thread and its visitors, a thread that sleeps leaves no frame
behind: the queue is empty, or the visitor who has linked a frame is about to signal. And once
`sender_destroy` waits for the thread, the thread ends after at most eight steps of its own. -/
theorem sender_wakes (as : List WaitStep) :
    ((exec waitStep SenderWait.start as).thread = .parked →
        (exec waitStep SenderWait.start as).sender.queue = [] ∨
          (exec waitStep SenderWait.start as).visit = .linked) ∧
      ((exec waitStep SenderWait.start as).visit = .joining →
        ∀ bs, 8 ≤ bs.countP WaitStep.isThread →
          (exec waitStep (exec waitStep SenderWait.start as) bs).thread = .ended) := by
  have h := SenderWait.watchful_run as
  refine ⟨fun hparked => h.idle (by rw [hparked]; rfl), fun hvisit bs hbs => ?_⟩
  obtain ⟨htogo, hlater, hjoining⟩ := SenderWait.Watchful.togo_run bs h hvisit
  have height : ∀ p : SenderPhase, p.togo ≤ 8 := by
    intro p
    cases p <;> simp [SenderPhase.togo]
  have hmost := height (exec waitStep SenderWait.start as).thread
  exact SenderPhase.ended_of_togo (hlater.roused (by rw [hjoining]; rfl)) (by omega)

/-! ## The signal that comes too early -/

/-- A step that may wake the thread of a sender that has no visitor and takes no more frames. -/
def WaitStep.mayRouse : WaitStep → Bool
  | .wake | .destroy => true
  | _ => false

/-- The thread sleeps although it is to stop, and only `sender_destroy` or chance wakes it. -/
structure SenderWait.Abandoned (s : SenderWait) : Prop where
  /-- The thread sleeps. -/
  parked : s.thread = .parked
  /-- It is to stop. -/
  stop : s.sender.stop = true
  /-- Nothing else changes that. -/
  stuck : ∀ bs : List WaitStep, (∀ b ∈ bs, b.mayRouse = false) → exec waitStep s bs = s

/-- The signal for a full queue is sent without the lock, after `stop` has been set without
it. If the thread empties the queue before `stop` is set and falls asleep after the signal, it
sleeps with `stop` set, until `sender_destroy` comes or `pthread_cond_wait` returns for no
reason. -/
theorem full_signal_lost (c c' : EnqueueCall) (hfits : c.len.toNat ≤ replMaxQueueBytes)
    (hfull : replMaxQueueBytes < c.len.toNat + c'.len.toNat) :
    ∃ as, (exec waitStep SenderWait.start as).sender.sent = [c.frame.message] ∧
      (exec waitStep SenderWait.start as).Abandoned := by
  have hroom : ¬ replMaxQueueBytes < c.len.toNat := Nat.not_lt.mpr hfits
  obtain ⟨as, has⟩ : ∃ as, exec waitStep SenderWait.start as =
      ⟨⟨false, true, [], c.len.toNat - c.frame.len, [c.frame.message]⟩, false, .parked, .none⟩ := by
    -- One record is queued, the next one finds the queue full, and the thread drains the queue
    -- before the second visitor goes on.
    refine ⟨[.call c, .visit true, .visit true, .visit true, .visit true, .call c', .visit true,
      .visit true, .thread true, .thread true, .thread true, .thread true, .thread true,
      .thread true, .thread true, .thread true, .visit true, .visit true, .visit true,
      .thread true], ?_⟩
    simp [waitStep, visitorStep, senderThreadStep, SenderWait.start, senderCreate, condSignal,
      hroom, hfull]
  refine ⟨as, by rw [has], by rw [has], by rw [has], fun bs hbs => exec_stuck bs fun b hb => ?_⟩
  have hquiet := hbs b hb
  rw [has]
  cases b with
  | thread ok => rfl
  | wake => cases hquiet
  | call c'' => rfl
  | destroy => cases hquiet
  | visit alloc => rfl

/-- A record as long as the queue, and one more. -/
theorem full_signal_lost_longRecord : ∃ as,
    (exec waitStep SenderWait.start as).sender.sent =
        [(EnqueueCall.frame ⟨List.replicate 8388608 0, 8388608, 8388608⟩).message] ∧
      (exec waitStep SenderWait.start as).Abandoned :=
  full_signal_lost ⟨List.replicate 8388608 0, 8388608, 8388608⟩ ⟨[0], 1, 8388609⟩ (by decide)
    (by decide)

end FastKV
