import FastKV.IoBackend
import Mathlib.Data.List.Perm.Basic

/-!
# I/O on a ring of requests

`persist/io.c` with io_uring. A call puts its request into the submission queue, and the kernel
completes the submitted requests in any order, each with a result. A call that waits takes the
oldest completion, whatever request it belongs to: `fastkv_io_pwrite` takes one, `fastkv_io_sync`
as many as `pending_ops` says, and the latter looks at none of them. A queue entry that was taken
for a call with an invalid offset is submitted later with whatever stands in it.
-/

namespace FastKV

open Lib

namespace IoBackend

/-! ## The ring -/

/-- What stands in an entry of the submission queue. -/
inductive RingOp
  /-- `io_uring_prep_write`. The number of bytes is passed on as an `unsigned`. -/
  | write (len offset : ℕ)
  /-- `io_uring_prep_fsync`. -/
  | fsync
  /-- An entry that was taken and not filled in. -/
  | stale

/-- A request. -/
structure Request where
  /-- Its number. -/
  id : ℕ
  /-- What it asks for. -/
  op : RingOp
  /-- `pending_ops` counts it. -/
  counted : Bool

/-- What the kernel may report: not more bytes than it was asked to write. -/
def RingOp.Allows : RingOp → ℤ → Prop
  | .write len _, res => res ≤ (len % 2 ^ 32 : ℕ)
  | .fsync, res => res ≤ 0
  | .stale, _ => True

instance (op : RingOp) (res : ℤ) : Decidable (op.Allows res) := by
  cases op with
  | write len offset => exact inferInstanceAs (Decidable (res ≤ (len % 2 ^ 32 : ℕ)))
  | fsync => exact inferInstanceAs (Decidable (res ≤ 0))
  | stale => exact inferInstanceAs (Decidable True)

/-- `struct io_uring_cqe`. -/
structure Completion where
  /-- The request that is completed. -/
  req : Request
  /-- `res`. -/
  res : ℤ

/-- Where the caller is. -/
inductive Phase
  /-- In no call. -/
  | idle
  /-- In `fastkv_io_pwrite`, waiting for a completion. -/
  | writing (req : Request) (len : ℕ)
  /-- In the loop of `fastkv_io_sync`, with the fsync and the number of rounds that are left. -/
  | syncing (fsync : Option ℕ) (left : ℕ)

/-- `fastkv_io_ctx_t` with a ring, and what has happened on it. -/
structure RingIo where
  /-- The submission queue, oldest entry first. -/
  queued : List Request
  /-- Requests that the kernel works on. -/
  inFlight : List Request
  /-- The completion queue, oldest entry first. -/
  completed : List Completion
  /-- `pending_ops`, an `int`. -/
  pendingOps : ℤ
  /-- Where the caller is. -/
  phase : Phase
  /-- The number of the next request. -/
  nextId : ℕ
  /-- The results of completed requests. -/
  results : List (ℕ × ℤ)
  /-- The writes for which `fastkv_io_pwrite_async` has returned success, with their lengths. -/
  accepted : List (ℕ × ℕ)
  /-- The calls so far. -/
  returned : List Returned

/-- `fastkv_io_open`. -/
def ringOpen : RingIo := ⟨[], [], [], 0, .idle, 0, [], [], []⟩

/-- A call returns. -/
def RingIo.finish (r : RingIo) (rc : Err) (due : Due) : RingIo :=
  { r with phase := .idle, returned := r.returned ++ [⟨rc, due⟩] }

/-- The entry that `io_uring_get_sqe` has returned, with a request in it. -/
def RingIo.prep (r : RingIo) (op : RingOp) (counted : Bool) : RingIo :=
  { r with queued := r.queued ++ [⟨r.nextId, op, counted⟩], nextId := r.nextId + 1 }

/-- `io_uring_submit`. -/
def RingIo.submit (r : RingIo) : RingIo :=
  { r with queued := [], inFlight := r.inFlight ++ r.queued }

/-- `++` on an `int`. -/
def intSucc (p : ℤ) : ℤ := Int.bmod (p + 1) (2 ^ 32)

/-- `fastkv_io_pwrite` up to the wait. The flag says whether there is a free queue entry. -/
def ringPwrite (r : RingIo) (sqe : Bool) (len offset : ℕ) : RingIo :=
  if !sqe then r.finish .io .nothing
  else
    match offsetToOfft offset with
    | .error rc => (r.prep .stale false).finish rc .nothing
    | .ok off =>
      { (r.prep (.write len off) false).submit with
        phase := .writing ⟨r.nextId, .write len off, false⟩ len }

/-- `fastkv_io_pwrite_async`. The flags say whether there is a free queue entry, at first and
after what is queued was submitted. -/
def ringPwriteAsync (r : RingIo) (sqe again : Bool) (len offset : ℕ) : RingIo :=
  let r := if sqe then r else r.submit
  if !sqe && !again then r.finish .io .nothing
  else
    match offsetToOfft offset with
    | .error rc => (r.prep .stale false).finish rc .nothing
    | .ok off =>
      { (r.prep (.write len off) true).finish .ok .nothing with
        pendingOps := intSucc r.pendingOps
        accepted := r.accepted ++ [(r.nextId, len)] }

/-- The loop of `fastkv_io_sync` when some rounds are left, and its end. -/
def RingIo.syncLoop (r : RingIo) (fsync : Option ℕ) : ℕ → RingIo
  | 0 => { r.finish .ok (.sync fsync r.accepted) with pendingOps := 0 }
  | left + 1 => { r with phase := .syncing fsync (left + 1) }

/-- `fastkv_io_sync` up to the first wait. -/
def ringSync (r : RingIo) (sqe : Bool) : RingIo :=
  if sqe then
    let r' := { (r.prep .fsync true).submit with pendingOps := intSucc r.pendingOps }
    r'.syncLoop (some r.nextId) r'.pendingOps.toNat
  else r.submit.syncLoop none r.pendingOps.toNat

/-- `io_uring_wait_cqe` returns the oldest completion, which is marked as seen; without one the
call goes on waiting. -/
def ringHarvest (r : RingIo) : RingIo :=
  match r.completed, r.phase with
  | c :: cs, .writing req len =>
    { r with completed := cs }.finish (if c.res < 0 then .io else .ok) (.write req.id len)
  | _ :: cs, .syncing fsync left => { r with completed := cs }.syncLoop fsync (left - 1)
  | _, _ => r

/-- `io_uring_wait_cqe` fails. -/
def ringInterrupt (r : RingIo) : RingIo :=
  match r.phase with
  | .idle => r
  | .writing req len => r.finish .io (.write req.id len)
  | .syncing fsync left => r.syncLoop fsync (left - 1)

/-- The kernel completes a request. -/
def ringComplete (r : RingIo) (i : ℕ) (res : ℤ) : RingIo :=
  match r.inFlight[i]? with
  | none => r
  | some q =>
    if q.op.Allows res then
      { r with
        inFlight := r.inFlight.eraseIdx i
        completed := r.completed ++ [⟨q, res⟩]
        results := r.results ++ [(q.id, res)] }
    else r

/-- A step of the caller or of the kernel. -/
inductive RingStep
  /-- A call of `fastkv_io_pwrite` begins. -/
  | pwrite (sqe : Bool) (len offset : ℕ)
  /-- `fastkv_io_pwrite_async`. -/
  | pwriteAsync (sqe again : Bool) (len offset : ℕ)
  /-- A call of `fastkv_io_sync` begins. -/
  | sync (sqe : Bool)
  /-- A wait ends with a completion. -/
  | harvest
  /-- A wait ends with an error. -/
  | interrupt
  /-- The kernel completes a request in flight. -/
  | complete (i : ℕ) (res : ℤ)

/-- Execute a step. A call begins only when the one before has returned. -/
def ringStep (r : RingIo) : RingStep → RingIo
  | .pwrite sqe len offset =>
    match r.phase with
    | .idle => ringPwrite r sqe len offset
    | _ => r
  | .pwriteAsync sqe again len offset =>
    match r.phase with
    | .idle => ringPwriteAsync r sqe again len offset
    | _ => r
  | .sync sqe =>
    match r.phase with
    | .idle => ringSync r sqe
    | _ => r
  | .harvest => ringHarvest r
  | .interrupt => ringInterrupt r
  | .complete i res => ringComplete r i res

/-! ## The condition -/

/-- A request was done in full. -/
def RingOp.Full : RingOp → ℤ → Prop
  | .write len _, res => res = len
  | .fsync, res => res = 0
  | .stale, _ => False

/-- A completion is what the call that takes it waits for: `fastkv_io_pwrite` takes that of its own
request, which is an error or a full write, and `fastkv_io_sync` that of a write or an fsync that
it counts and that was done in full. -/
def Phase.Awaits (c : Completion) : Phase → Prop
  | .idle => True
  | .writing req len => c.req = req ∧ (0 ≤ c.res → c.res = len)
  | .syncing _ _ => c.req.counted = true ∧ c.req.op.Full c.res

/-- A step does not run into what the code leaves out. -/
def RingStep.Fine (r : RingIo) : RingStep → Prop
  | .pwrite _ _ _ => True
  | .pwriteAsync _ _ _ _ => r.pendingOps + 1 < 2 ^ 31
  | .sync sqe => sqe = true ∧ r.pendingOps + 1 < 2 ^ 31
  | .harvest => ∀ c ∈ r.completed.head?, r.phase.Awaits c
  | .interrupt => ∀ fsync left, r.phase ≠ .syncing fsync left
  | .complete _ _ => True

/-! ## Accounting -/

/-- Requests that no call has taken the completion of. -/
def RingIo.outstanding (r : RingIo) : List Request :=
  r.completed.map Completion.req ++ (r.inFlight ++ r.queued)

/-- How many of them `pending_ops` counts. -/
def RingIo.counted (r : RingIo) : ℕ := r.outstanding.countP Request.counted

/-- What has been returned and accepted. -/
structure Books (r : RingIo) : Prop where
  /-- Success was returned only for what is done. -/
  honest : Honest r.results r.returned
  /-- The kernel has delivered what stands in the completion queue. -/
  delivered : ∀ c ∈ r.completed, (c.req.id, c.res) ∈ r.results
  /-- An accepted write is done or counted. -/
  accepted : ∀ w ∈ r.accepted, (w.1, (w.2 : ℤ)) ∈ r.results ∨
    ∃ offset, ⟨w.1, .write w.2 offset, true⟩ ∈ r.outstanding

/-- What the counter stands for: all counted requests between calls, and in the loop those for
which a round is left. -/
def Phase.Accounted (r : RingIo) : Phase → Prop
  | .idle => r.pendingOps = r.counted
  | .writing req _ => req.counted = false ∧ r.pendingOps = r.counted
  | .syncing fsync left => r.counted = left ∧ ∃ f, fsync = some f ∧
      ((f, 0) ∈ r.results ∨ ⟨f, .fsync, true⟩ ∈ r.outstanding)

/-- What holds between any two steps. -/
structure Accounted (r : RingIo) : Prop where
  /-- What has been returned and accepted. -/
  books : Books r
  /-- The counter. -/
  phase : r.phase.Accounted r

/-- A call returns. -/
theorem Books.finish {r : RingIo} (h : Books r) {rc : Err} {due : Due}
    (hdue : rc = .ok → due.Done r.results) : Books (r.finish rc due) :=
  ⟨h.honest.add hdue, h.delivered, h.accepted⟩

/-- A request is put into the queue. -/
theorem prep_outstanding (r : RingIo) (op : RingOp) (counted : Bool) :
    (r.prep op counted).outstanding = r.outstanding ++ [⟨r.nextId, op, counted⟩] := by
  simp only [RingIo.outstanding, RingIo.prep, List.append_assoc]

/-- What is queued is submitted. -/
theorem submit_outstanding (r : RingIo) : r.submit.outstanding = r.outstanding := by
  simp only [RingIo.outstanding, RingIo.submit, List.append_nil]

/-- The number of counted requests when one is put into the queue. -/
theorem prep_counted (r : RingIo) (op : RingOp) (counted : Bool) :
    (r.prep op counted).counted = r.counted + if counted then 1 else 0 := by
  rw [RingIo.counted, prep_outstanding, List.countP_append, List.countP_singleton]
  rfl

/-- Submission changes nothing that is counted. -/
theorem submit_counted (r : RingIo) : r.submit.counted = r.counted := by
  rw [RingIo.counted, submit_outstanding]
  rfl

/-- A request is put into the queue. -/
theorem Books.prep {r : RingIo} (h : Books r) (op : RingOp) (counted : Bool) :
    Books (r.prep op counted) := by
  refine ⟨h.honest, h.delivered, fun w hw => ?_⟩
  rw [prep_outstanding]
  refine (h.accepted w hw).imp_right ?_
  rintro ⟨offset, hmem⟩
  exact ⟨offset, List.mem_append_left _ hmem⟩

/-- What is queued is submitted. -/
theorem Books.submit {r : RingIo} (h : Books r) : Books r.submit := by
  refine ⟨h.honest, h.delivered, fun w hw => ?_⟩
  rw [submit_outstanding]
  exact h.accepted w hw

/-- If nothing that is counted is left, everything accepted is done. -/
theorem Books.settled {r : RingIo} (h : Books r) (hcounted : r.counted = 0) :
    ∀ w ∈ r.accepted, (w.1, (w.2 : ℤ)) ∈ r.results := by
  intro w hw
  rcases h.accepted w hw with hdone | ⟨offset, hmem⟩
  · exact hdone
  · exact absurd rfl (List.countP_eq_zero.mp hcounted _ hmem)

/-- The loop of `fastkv_io_sync`. -/
theorem Books.syncLoop {r : RingIo} (h : Books r) {f left : ℕ} (hcounted : r.counted = left)
    (hf : (f, 0) ∈ r.results ∨ ⟨f, .fsync, true⟩ ∈ r.outstanding) :
    Accounted (r.syncLoop (some f) left) := by
  cases left with
  | zero =>
    have hdone : (f, 0) ∈ r.results :=
      hf.resolve_right fun hmem => List.countP_eq_zero.mp hcounted _ hmem rfl
    have hfinish : Books (r.finish .ok (.sync (some f) r.accepted)) :=
      h.finish fun _ => ⟨hdone, h.settled hcounted⟩
    refine ⟨⟨hfinish.honest, hfinish.delivered, hfinish.accepted⟩, ?_⟩
    change (0 : ℤ) = (r.counted : ℤ)
    rw [hcounted]
    rfl
  | succ left => exact ⟨⟨h.honest, h.delivered, h.accepted⟩, hcounted, f, rfl, hf⟩

/-- A call returns, and the counter is right. -/
theorem Books.idle {r : RingIo} (h : Books r) (hcount : r.pendingOps = r.counted) {rc : Err}
    {due : Due} (hdue : rc = .ok → due.Done r.results) : Accounted (r.finish rc due) :=
  ⟨h.finish hdue, hcount⟩

/-- Between calls the counter is right. -/
theorem Accounted.count {r : RingIo} (h : Accounted r) (hidle : r.phase = .idle) :
    r.pendingOps = r.counted := by
  have hphase := h.phase
  rw [hidle] at hphase
  exact hphase

/-- An `int` that is not too large. -/
theorem intSucc_eq {p : ℤ} (hpos : 0 ≤ p) (hlt : p + 1 < 2 ^ 31) : intSucc p = p + 1 := by
  unfold intSucc
  rw [Int.bmod_def]
  omega

/-! ## Steps -/

/-- A call of `fastkv_io_pwrite` begins. -/
theorem Accounted.pwrite {r : RingIo} (h : Accounted r) (hidle : r.phase = .idle) (sqe : Bool)
    (len offset : ℕ) : Accounted (ringPwrite r sqe len offset) := by
  have hcount := h.count hidle
  unfold ringPwrite
  cases sqe with
  | false => exact h.books.idle hcount Err.noConfusion
  | true =>
    simp only [Bool.not_true, Bool.false_eq_true, if_false]
    cases hoff : offsetToOfft offset with
    | error rc =>
      apply (h.books.prep .stale false).idle
      · rw [prep_counted]
        exact hcount
      · exact fun hok => absurd hok (offsetToOfft_error hoff)
    | ok off =>
      have hbooks := (h.books.prep (.write len off) false).submit
      refine ⟨⟨hbooks.honest, hbooks.delivered, hbooks.accepted⟩, rfl, ?_⟩
      have hcounted : (r.prep (.write len off) false).submit.counted = r.counted := by
        rw [submit_counted, prep_counted]
        rfl
      change r.pendingOps = ((r.prep (.write len off) false).submit.counted : ℤ)
      rw [hcounted]
      exact hcount

/-- `fastkv_io_pwrite_async`. -/
theorem Accounted.pwriteAsync {r : RingIo} (h : Accounted r) (hidle : r.phase = .idle)
    (sqe again : Bool) (len offset : ℕ) (hlt : r.pendingOps + 1 < 2 ^ 31) :
    Accounted (ringPwriteAsync r sqe again len offset) := by
  unfold ringPwriteAsync
  have hfirst : Books (if sqe then r else r.submit) ∧
      (if sqe then r else r.submit).pendingOps = (if sqe then r else r.submit).counted ∧
      (if sqe then r else r.submit).pendingOps + 1 < 2 ^ 31 := by
    cases sqe with
    | true => exact ⟨h.books, h.count hidle, hlt⟩
    | false =>
      refine ⟨h.books.submit, ?_, hlt⟩
      change r.pendingOps = (r.submit.counted : ℤ)
      rw [submit_counted]
      exact h.count hidle
  generalize (if sqe then r else r.submit) = r' at hfirst
  obtain ⟨hbooks, hcount, hlt'⟩ := hfirst
  simp only
  split
  · exact hbooks.idle hcount Err.noConfusion
  · cases hoff : offsetToOfft offset with
    | error rc =>
      apply (hbooks.prep .stale false).idle
      · rw [prep_counted]
        exact hcount
      · exact fun hok => absurd hok (offsetToOfft_error hoff)
    | ok off =>
      have hprep := hbooks.prep (.write len off) true
      have hnew : (⟨r'.nextId, .write len off, true⟩ : Request) ∈
          (r'.prep (.write len off) true).outstanding := by
        rw [prep_outstanding]
        exact List.mem_append_right _ List.mem_cons_self
      refine ⟨⟨hprep.honest.add fun _ => trivial, hprep.delivered, ?_⟩, ?_⟩
      · intro w hw
        rcases List.mem_append.mp hw with hw | hw
        · exact hprep.accepted w hw
        · rw [List.mem_singleton.mp hw]
          exact Or.inr ⟨off, hnew⟩
      · change intSucc r'.pendingOps = ((r'.prep (.write len off) true).counted : ℤ)
        rw [prep_counted, intSucc_eq (by omega) hlt', hcount]
        rfl

/-- A call of `fastkv_io_sync` begins. -/
theorem Accounted.sync {r : RingIo} (h : Accounted r) (hidle : r.phase = .idle)
    (hlt : r.pendingOps + 1 < 2 ^ 31) : Accounted (ringSync r true) := by
  have hcount := h.count hidle
  have hsucc : intSucc r.pendingOps = r.pendingOps + 1 := intSucc_eq (by omega) hlt
  have hbooks := (h.books.prep .fsync true).submit
  have hcounted : (r.prep .fsync true).submit.counted = r.counted + 1 := by
    rw [submit_counted, prep_counted]
    rfl
  have hmem : (⟨r.nextId, .fsync, true⟩ : Request) ∈ (r.prep .fsync true).submit.outstanding := by
    rw [submit_outstanding, prep_outstanding]
    exact List.mem_append_right _ List.mem_cons_self
  have hbooks' : Books { (r.prep .fsync true).submit with pendingOps := intSucc r.pendingOps } :=
    ⟨hbooks.honest, hbooks.delivered, hbooks.accepted⟩
  refine hbooks'.syncLoop ?_ (Or.inr hmem)
  change (r.prep .fsync true).submit.counted = (intSucc r.pendingOps).toNat
  rw [hcounted, hsucc]
  omega

/-- The request whose completion is taken is no longer outstanding. -/
theorem seen_outstanding {r : RingIo} {c : Completion} {cs : List Completion}
    (hcs : r.completed = c :: cs) :
    r.outstanding = c.req :: { r with completed := cs }.outstanding := by
  simp only [RingIo.outstanding, hcs, List.map_cons, List.cons_append]

/-- A completion is taken. -/
theorem Books.seen {r : RingIo} (h : Books r) {c : Completion} {cs : List Completion}
    (hcs : r.completed = c :: cs) (hfull : c.req.counted = true → c.req.op.Full c.res) :
    Books { r with completed := cs } := by
  refine ⟨h.honest, fun d hd => h.delivered d (hcs ▸ List.mem_cons_of_mem _ hd), fun w hw => ?_⟩
  rcases h.accepted w hw with hdone | ⟨offset, hmem⟩
  · exact Or.inl hdone
  · rw [seen_outstanding hcs] at hmem
    rcases List.mem_cons.mp hmem with heq | hmem
    · left
      have hdelivered := h.delivered c (hcs ▸ List.mem_cons_self)
      rw [← heq] at hfull hdelivered
      rw [← (hfull rfl : c.res = (w.2 : ℤ))]
      exact hdelivered
    · exact Or.inr ⟨offset, hmem⟩

/-- A wait ends with a completion that the call waits for. -/
theorem Accounted.harvest {r : RingIo} (h : Accounted r)
    (hfine : ∀ c ∈ r.completed.head?, r.phase.Awaits c) : Accounted (ringHarvest r) := by
  unfold ringHarvest
  cases hcs : r.completed with
  | nil => exact h
  | cons c cs =>
    have hout := seen_outstanding hcs
    have hdelivered := h.books.delivered c (hcs ▸ List.mem_cons_self)
    have hawaits : r.phase.Awaits c := hfine c (hcs ▸ rfl)
    have hphase := h.phase
    cases hr : r.phase with
    | idle => exact h
    | writing req len =>
      rw [hr] at hawaits hphase
      obtain ⟨rfl, hfull⟩ := hawaits
      obtain ⟨hreq, hcount⟩ := hphase
      have hseen : Books { r with completed := cs } := h.books.seen hcs fun hcounted =>
        absurd hcounted (Bool.eq_false_iff.mp hreq)
      refine hseen.idle ?_ fun hok => ?_
      · have hcounted : r.counted = { r with completed := cs }.counted := by
          rw [RingIo.counted, hout, List.countP_cons, hreq]
          rfl
        rw [← hcounted]
        exact hcount
      · split at hok
        · cases hok
        · rename_i hneg
          change (c.req.id, (len : ℤ)) ∈ r.results
          rw [← hfull (not_lt.mp hneg)]
          exact hdelivered
    | syncing fsync left =>
      rw [hr] at hawaits hphase
      obtain ⟨hreq, hfull⟩ := hawaits
      obtain ⟨hleft, f, rfl, hf⟩ := hphase
      have hseen : Books { r with completed := cs } := h.books.seen hcs fun _ => hfull
      refine hseen.syncLoop ?_ ?_
      · rw [RingIo.counted, hout, List.countP_cons, hreq, if_pos rfl] at hleft
        change { r with completed := cs }.outstanding.countP Request.counted = left - 1
        omega
      · rw [hout] at hf
        rcases hf with hdone | hmem
        · exact Or.inl hdone
        · rcases List.mem_cons.mp hmem with heq | hmem
          · left
            rw [← heq] at hfull hdelivered
            rw [(hfull : c.res = 0)] at hdelivered
            exact hdelivered
          · exact Or.inr hmem

/-- A wait of `fastkv_io_pwrite` fails. -/
theorem Accounted.interrupt {r : RingIo} (h : Accounted r)
    (hfine : ∀ fsync left, r.phase ≠ .syncing fsync left) : Accounted (ringInterrupt r) := by
  unfold ringInterrupt
  have hphase := h.phase
  cases hr : r.phase with
  | idle => exact h
  | writing req len =>
    rw [hr] at hphase
    exact h.books.idle hphase.2 Err.noConfusion
  | syncing fsync left => exact absurd hr (hfine fsync left)

/-- The kernel completes a request. -/
theorem Accounted.complete {r : RingIo} (h : Accounted r) (i : ℕ) (res : ℤ) :
    Accounted (ringComplete r i res) := by
  unfold ringComplete
  cases hq : r.inFlight[i]? with
  | none => exact h
  | some q =>
    simp only
    split
    · obtain ⟨hi, hget⟩ := List.getElem?_eq_some_iff.mp hq
      have hperm : (RingIo.outstanding { r with
          inFlight := r.inFlight.eraseIdx i
          completed := r.completed ++ [⟨q, res⟩]
          results := r.results ++ [(q.id, res)] }).Perm r.outstanding := by
        simp only [RingIo.outstanding, List.map_append, List.map_cons, List.map_nil,
          List.append_assoc, List.singleton_append]
        apply List.Perm.append_left
        rw [← List.cons_append, ← hget]
        exact (List.getElem_cons_eraseIdx_perm hi).append_right _
      have hsub : r.results ⊆ r.results ++ [(q.id, res)] := List.subset_append_left _ _
      refine ⟨⟨h.books.honest.mono hsub, ?_, ?_⟩, ?_⟩
      · intro c hc
        rcases List.mem_append.mp hc with hc | hc
        · exact hsub (h.books.delivered c hc)
        · rw [List.mem_singleton.mp hc]
          exact List.mem_append_right _ List.mem_cons_self
      · intro w hw
        refine (h.books.accepted w hw).imp (fun hdone => hsub hdone) ?_
        rintro ⟨offset, hmem⟩
        exact ⟨offset, hperm.mem_iff.mpr hmem⟩
      · have hcounted := hperm.countP_eq Request.counted
        have hphase := h.phase
        cases hr : r.phase with
        | idle =>
          rw [hr] at hphase
          exact hphase.trans (congrArg Nat.cast hcounted.symm)
        | writing req len =>
          rw [hr] at hphase
          exact ⟨hphase.1, hphase.2.trans (congrArg Nat.cast hcounted.symm)⟩
        | syncing fsync left =>
          rw [hr] at hphase
          obtain ⟨hleft, f, hf, hdone⟩ := hphase
          exact ⟨hcounted.trans hleft, f, hf, hdone.imp (fun hdone => hsub hdone)
            fun hmem => hperm.mem_iff.mpr hmem⟩
    · exact h

/-- A step that does not run into what the code leaves out. -/
theorem Accounted.step {r : RingIo} (h : Accounted r) {step : RingStep} (hfine : step.Fine r) :
    Accounted (ringStep r step) := by
  cases step with
  | pwrite sqe len offset =>
    unfold ringStep
    cases hr : r.phase with
    | idle => exact h.pwrite hr sqe len offset
    | writing req n => exact h
    | syncing fsync left => exact h
  | pwriteAsync sqe again len offset =>
    unfold ringStep
    cases hr : r.phase with
    | idle => exact h.pwriteAsync hr sqe again len offset hfine
    | writing req n => exact h
    | syncing fsync left => exact h
  | sync sqe =>
    unfold ringStep
    obtain ⟨rfl, hlt⟩ := hfine
    cases hr : r.phase with
    | idle => exact h.sync hr hlt
    | writing req n => exact h
    | syncing fsync left => exact h
  | harvest => exact h.harvest hfine
  | interrupt => exact h.interrupt hfine
  | complete i res => exact h.complete i res

/-- A new ring. -/
theorem ringOpen_accounted : Accounted ringOpen := by
  refine ⟨⟨?_, ?_, ?_⟩, rfl⟩
  · exact fun _ hr => absurd hr List.not_mem_nil
  · exact fun _ hc => absurd hc List.not_mem_nil
  · exact fun _ hw => absurd hw List.not_mem_nil

/-! ## Runs -/

/-- In a run whose steps do not run into what the code leaves out, success is returned only for what
is done, as it is without a ring in every run. -/
theorem backends_honest {steps : List RingStep}
    (h : Permitted ringStep RingStep.Fine ringOpen steps) :
    (∀ n, Honest (exec ringStep ringOpen (steps.take n)).results
      (exec ringStep ringOpen (steps.take n)).returned) ∧
    ∀ calls : List PosixCall, (∀ c ∈ calls, c.Sized) →
      Honest (exec posixStep posixOpen calls).results (exec posixStep posixOpen calls).returned := by
  constructor
  · intro n
    rw [← List.take_append_drop n steps] at h
    have hfirst := ((permitted_append _).mp h).1
    exact (exec_invariant (I := Accounted) (fun _ _ hr hfine => hr.step hfine) _
      ringOpen_accounted hfirst).books.honest
  · exact fun calls hsized => (posix_books calls hsized).honest

/-- Two writes are queued and synced, completed in another order, and a third one follows. -/
def threeWrites : List RingStep :=
  [.pwriteAsync true true 4 0, .pwriteAsync true true 8 4, .sync true, .complete 1 8,
    .complete 0 4, .complete 0 0, .harvest, .harvest, .harvest, .pwrite true 2 12,
    .complete 0 2, .harvest]

/-- All three writes and the sync are reported as they were. -/
theorem backends_honest_three : Honest (exec ringStep ringOpen threeWrites).results
    (exec ringStep ringOpen threeWrites).returned := by
  have hfine : Permitted ringStep RingStep.Fine ringOpen threeWrites := by
    refine ⟨?_, ?_, ⟨rfl, ?_⟩, trivial, trivial, trivial, ?_, ?_, ?_, trivial, trivial, ?_, trivial⟩
    · exact (by decide : (0 : ℤ) + 1 < 2 ^ 31)
    · exact (by decide : (1 : ℤ) + 1 < 2 ^ 31)
    · exact (by decide : (2 : ℤ) + 1 < 2 ^ 31)
    · exact fun c hc => Option.some.inj hc ▸ ⟨rfl, rfl⟩
    · exact fun c hc => Option.some.inj hc ▸ ⟨rfl, rfl⟩
    · exact fun c hc => Option.some.inj hc ▸ ⟨rfl, rfl⟩
    · exact fun c hc => Option.some.inj hc ▸ ⟨rfl, fun _ => rfl⟩
  exact (backends_honest hfine).1 12

/-- A short write is reported as a success. -/
theorem short_write_reported_ok : ¬ ∀ (steps : List RingStep) (n : ℕ),
    Honest (exec ringStep ringOpen (steps.take n)).results
      (exec ringStep ringOpen (steps.take n)).returned := by
  intro h
  have hshort := h [.pwrite true 8 0, .complete 0 3, .harvest] 3 ⟨.ok, .write 0 8⟩ (by
    exact List.mem_cons_self) rfl
  have hmem : ((0, 8) : ℕ × ℤ) ∈ [((0, 3) : ℕ × ℤ)] := hshort
  revert hmem
  decide

end IoBackend

end FastKV
