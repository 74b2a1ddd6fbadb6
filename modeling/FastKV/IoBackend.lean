import FastKV.Io
import FastKV.Lib.Steps

/-!
# What the I/O functions promise

`persist/io.c` has two implementations of its functions, on plain system calls and on a ring of
requests. Success of `fastkv_io_pwrite` stands for all bytes of the write, and success of
`fastkv_io_sync` for an fsync and for all bytes of the writes that were accepted before. The
implementation on system calls keeps this promise whatever the calls return.
-/

namespace FastKV

open Lib

/-- `fastkv_offset_to_offt`. -/
def offsetToOfft (offset : ℕ) : Except Err ℕ :=
  if 2 ^ 63 - 1 < offset then .error .inval else .ok offset

namespace IoBackend

/-! ## What success stands for -/

/-- What `FASTKV_OK` of a call stands for. Requests are told apart by numbers. -/
inductive Due
  /-- Nothing that has to be done yet. -/
  | nothing
  /-- All bytes of a write. -/
  | write (id len : ℕ)
  /-- An fsync, `none` if the call has not asked for one, and all writes accepted before. -/
  | sync (fsync : Option ℕ) (writes : List (ℕ × ℕ))

/-- What a call stands for is done, by the results of the requests. -/
def Due.Done (results : List (ℕ × ℤ)) : Due → Prop
  | .nothing => True
  | .write id len => (id, (len : ℤ)) ∈ results
  | .sync none _ => False
  | .sync (some f) writes => (f, 0) ∈ results ∧ ∀ w ∈ writes, (w.1, (w.2 : ℤ)) ∈ results

/-- A call that has returned. -/
structure Returned where
  /-- The return code. -/
  rc : Err
  /-- What it would stand for if it were `FASTKV_OK`. -/
  due : Due

/-- Success is returned only for what is done. -/
def Honest (results : List (ℕ × ℤ)) (returned : List Returned) : Prop :=
  ∀ r ∈ returned, r.rc = .ok → r.due.Done results

/-- What is done stays done. -/
theorem Due.Done.mono {results results' : List (ℕ × ℤ)} (hsub : results ⊆ results') {d : Due}
    (h : d.Done results) : d.Done results' := by
  cases d with
  | nothing => trivial
  | write id len => exact hsub h
  | sync fsync writes =>
    cases fsync with
    | none => exact h
    | some f => exact ⟨hsub h.1, fun w hw => hsub (h.2 w hw)⟩

/-- Further results change nothing. -/
theorem Honest.mono {results results' : List (ℕ × ℤ)} (hsub : results ⊆ results')
    {returned : List Returned} (h : Honest results returned) : Honest results' returned :=
  fun r hr hok => (h r hr hok).mono hsub

/-- One more call returns. -/
theorem Honest.add {results : List (ℕ × ℤ)} {returned : List Returned}
    (h : Honest results returned) {r : Returned} (hr : r.rc = .ok → r.due.Done results) :
    Honest results (returned ++ [r]) := by
  intro r' hr' hok
  rcases List.mem_append.mp hr' with hr' | hr'
  · exact h r' hr' hok
  · rw [List.mem_singleton.mp hr'] at hok ⊢
    exact hr hok

/-! ## The POSIX implementation -/

/-- The value of a `size_t` as an `ssize_t`. -/
def ssize (len : ℕ) : ℤ := Int.bmod len (2 ^ 64)

/-- The end of `fastkv_io_pwrite`, for the number of bytes that `pwrite` returns, `-1` if it
fails. -/
def posixRc (len : ℕ) (written : ℤ) : Err := if written = ssize len then .ok else .io

/-- What has happened on a file without a ring. -/
structure PosixIo where
  /-- The number of the next request. -/
  nextId : ℕ
  /-- The results of requests. -/
  results : List (ℕ × ℤ)
  /-- The writes for which `fastkv_io_pwrite_async` has returned success, with their lengths. -/
  accepted : List (ℕ × ℕ)
  /-- The calls so far. -/
  returned : List Returned

/-- `fastkv_io_open`. -/
def posixOpen : PosixIo := ⟨0, [], [], []⟩

/-- A call, with what the system call returns. -/
inductive PosixCall
  /-- `fastkv_io_pwrite`. -/
  | pwrite (len offset : ℕ) (written : ℤ)
  /-- `fastkv_io_pwrite_async`. -/
  | pwriteAsync (len offset : ℕ) (written : ℤ)
  /-- `fastkv_io_sync`. -/
  | sync (result : ℤ)

/-- `fastkv_io_pwrite`. -/
def posixPwrite (s : PosixIo) (len offset : ℕ) (written : ℤ) : PosixIo :=
  match offsetToOfft offset with
  | .error rc => { s with returned := s.returned ++ [⟨rc, .nothing⟩] }
  | .ok _ =>
    { s with
      nextId := s.nextId + 1
      results := s.results ++ [(s.nextId, written)]
      returned := s.returned ++ [⟨posixRc len written, .write s.nextId len⟩] }

/-- `fastkv_io_pwrite_async`, which calls `fastkv_io_pwrite`. -/
def posixPwriteAsync (s : PosixIo) (len offset : ℕ) (written : ℤ) : PosixIo :=
  let s' := posixPwrite s len offset written
  match offsetToOfft offset, posixRc len written with
  | .ok _, .ok => { s' with accepted := s.accepted ++ [(s.nextId, len)] }
  | _, _ => s'

/-- `fastkv_io_sync`, for what `fsync` returns. -/
def posixSync (s : PosixIo) (result : ℤ) : PosixIo :=
  { s with
    nextId := s.nextId + 1
    results := s.results ++ [(s.nextId, result)]
    returned := s.returned ++
      [⟨if result = 0 then .ok else .io, .sync (some s.nextId) s.accepted⟩] }

/-- Execute a call. -/
def posixStep (s : PosixIo) : PosixCall → PosixIo
  | .pwrite len offset written => posixPwrite s len offset written
  | .pwriteAsync len offset written => posixPwriteAsync s len offset written
  | .sync result => posixSync s result

/-- No object is larger than the largest `ssize_t`. -/
def PosixCall.Sized : PosixCall → Prop
  | .pwrite len _ _ => len < 2 ^ 63
  | .pwriteAsync len _ _ => len < 2 ^ 63
  | .sync _ => True

/-- An invalid offset is no success. -/
theorem offsetToOfft_error {offset : ℕ} {rc : Err} (h : offsetToOfft offset = .error rc) :
    rc ≠ .ok := by
  unfold offsetToOfft at h
  split at h
  · cases h
    exact Err.noConfusion
  · cases h

/-- A `size_t` that is not too large. -/
theorem ssize_eq {len : ℕ} (h : len < 2 ^ 63) : ssize len = len := by
  unfold ssize
  rw [Int.bmod_def]
  omega

/-- `fastkv_io_pwrite` returns success only for a full write. -/
theorem posixRc_ok {len : ℕ} {written : ℤ} (h : len < 2 ^ 63) :
    posixRc len written = .ok ↔ written = len := by
  unfold posixRc
  rw [ssize_eq h]
  split
  · rename_i heq
    exact ⟨fun _ => heq, fun _ => rfl⟩
  · rename_i hne
    exact ⟨fun hok => Err.noConfusion hok, fun heq => absurd heq hne⟩

/-- What has been returned and accepted without a ring. -/
structure PosixBooks (s : PosixIo) : Prop where
  /-- Success was returned only for what is done. -/
  honest : Honest s.results s.returned
  /-- An accepted write is done. -/
  accepted : ∀ w ∈ s.accepted, (w.1, (w.2 : ℤ)) ∈ s.results

/-- `fastkv_io_pwrite`. -/
theorem PosixBooks.pwrite {s : PosixIo} (h : PosixBooks s) {len : ℕ} (hlen : len < 2 ^ 63)
    (offset : ℕ) (written : ℤ) : PosixBooks (posixPwrite s len offset written) := by
  unfold posixPwrite
  cases hoff : offsetToOfft offset with
  | error rc => exact ⟨h.honest.add fun hok => absurd hok (offsetToOfft_error hoff), h.accepted⟩
  | ok off =>
    have hsub : s.results ⊆ s.results ++ [(s.nextId, written)] := List.subset_append_left _ _
    refine ⟨(h.honest.mono hsub).add fun hok => ?_, fun w hw => hsub (h.accepted w hw)⟩
    rw [(posixRc_ok hlen).mp hok]
    exact List.mem_append_right _ List.mem_cons_self

/-- `fastkv_io_pwrite_async`. -/
theorem PosixBooks.pwriteAsync {s : PosixIo} (h : PosixBooks s) {len : ℕ} (hlen : len < 2 ^ 63)
    (offset : ℕ) (written : ℤ) : PosixBooks (posixPwriteAsync s len offset written) := by
  have hpwrite := h.pwrite hlen offset written
  unfold posixPwriteAsync
  simp only
  split
  · rename_i off hoff hok
    refine ⟨hpwrite.honest, fun w hw => ?_⟩
    have hdone : (s.nextId, (len : ℤ)) ∈ (posixPwrite s len offset written).results := by
      unfold posixPwrite
      rw [hoff, (posixRc_ok hlen).mp hok]
      exact List.mem_append_right _ List.mem_cons_self
    have hsame : (posixPwrite s len offset written).accepted = s.accepted := by
      unfold posixPwrite
      rw [hoff]
    rcases List.mem_append.mp hw with hw | hw
    · exact hpwrite.accepted w (hsame ▸ hw)
    · rw [List.mem_singleton.mp hw]
      exact hdone
  · exact hpwrite

/-- `fastkv_io_sync`. -/
theorem PosixBooks.sync {s : PosixIo} (h : PosixBooks s) (result : ℤ) :
    PosixBooks (posixSync s result) := by
  have hsub : s.results ⊆ s.results ++ [(s.nextId, result)] := List.subset_append_left _ _
  refine ⟨(h.honest.mono hsub).add fun hok => ?_, fun w hw => hsub (h.accepted w hw)⟩
  split at hok
  · rename_i hzero
    refine ⟨?_, fun w hw => hsub (h.accepted w hw)⟩
    rw [hzero]
    exact List.mem_append_right _ List.mem_cons_self
  · cases hok

/-- Without a ring success is returned only for what is done. -/
theorem posix_books (calls : List PosixCall) (h : ∀ c ∈ calls, c.Sized) :
    PosixBooks (exec posixStep posixOpen calls) := by
  have hsized : Permitted posixStep (fun _ c => c.Sized) posixOpen calls :=
    Permitted.of_forall calls _ fun c hc _ => h c hc
  refine exec_invariant (I := PosixBooks) ?_ calls ⟨?_, ?_⟩ hsized
  · intro s call hs hcall
    cases call with
    | pwrite len offset written => exact hs.pwrite hcall offset written
    | pwriteAsync len offset written => exact hs.pwriteAsync hcall offset written
    | sync result => exact hs.sync result
  · exact fun _ hr => absurd hr List.not_mem_nil
  · exact fun _ hw => absurd hw List.not_mem_nil

/-! ## Files of the database directory -/

/-- What `pwrite` returns for a number of bytes. -/
def Outcome.written (len : ℕ) : Outcome → ℤ
  | .done => len
  | .short n => min n len
  | .error => -1

/-- What `fsync` returns. -/
def Outcome.fsync : Outcome → ℤ
  | .done => 0
  | _ => -1

/-- A write to a file of the directory returns what it returns here. -/
theorem ioPwrite_rc (d : Disk) (name : Name) (data : Bytes) (offset : ℕ)
    (hlen : data.length < 2 ^ 63) :
    (ioPwrite d name data offset).1 =
      posixRc data.length (Outcome.written data.length d.answer.1) := by
  unfold ioPwrite posixRc Outcome.written
  rw [ssize_eq hlen]
  generalize d.answer = answer
  obtain ⟨outcome, d'⟩ := answer
  cases outcome with
  | done => simp only [if_pos]
  | short n =>
    simp only
    by_cases hfits : data.length ≤ n
    · rw [if_pos hfits, if_pos (by omega)]
    · rw [if_neg hfits, if_neg (by omega)]
  | error =>
    simp only
    rw [if_neg (by omega)]

/-- A sync of a file of the directory returns what it returns here. -/
theorem ioSync_rc (d : Disk) :
    (ioSync d).1 = if Outcome.fsync d.answer.1 = 0 then .ok else .io := by
  unfold ioSync
  generalize d.answer = answer
  obtain ⟨outcome, d'⟩ := answer
  cases outcome with
  | done => rfl
  | short n => rfl
  | error => rfl

end IoBackend

end FastKV
