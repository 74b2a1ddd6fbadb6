import Mathlib.Data.List.AList
import FastKV.Types

/-!
# Files of the database directory

The part of the operating system that `persist/io.c` (its POSIX variant), the log and the
snapshot code use: one directory of named files, and calls that may fail. Whether a call
succeeds is not up to the program, so the answers are read off a list; an exhausted list
answers `done`. A write at an offset that `off_t` cannot represent does not occur, since
offsets never pass the end of a file. Every call that changed the directory is recorded in
the order of execution; a crash leaves the effect of a beginning of that record.
-/

namespace FastKV

/-- The name of a file in the database directory. -/
abbrev Name := List Char

/-- The directory: file names and file contents, in the order `readdir` lists them. -/
abbrev Files := AList fun _ : Name => Bytes

/-- The operating system's answer to one call. -/
inductive Outcome
  /-- The call succeeds. -/
  | done
  /-- A write stores only the first bytes; any other call fails. -/
  | short (n : ℕ)
  /-- The call fails without an effect. -/
  | error
  deriving DecidableEq, Repr

/-- A change of the directory. -/
inductive FsOp
  /-- `open` with `O_CREAT`. -/
  | create (name : Name)
  /-- `pwrite` of some bytes at an offset. -/
  | pwrite (name : Name) (offset : ℕ) (data : Bytes)
  /-- `rename`. -/
  | rename (old new : Name)
  /-- `remove`. -/
  | remove (name : Name)
  deriving DecidableEq, Repr

/-- File contents after writing `data` at `offset`; a gap is filled with zeros. -/
def patch (old : Bytes) (offset : ℕ) (data : Bytes) : Bytes :=
  (old ++ List.replicate (offset - old.length) 0).take offset ++ data ++
    old.drop (offset + data.length)

/-- The effect of a change on the directory. Writing to a file that was removed while
open changes nothing that a later process can see. -/
def applyOp (files : Files) : FsOp → Files
  | .create name => if name ∈ files then files else files.insert name []
  | .pwrite name offset data =>
    match files.lookup name with
    | some old => files.insert name (patch old offset data)
    | none => files
  | .rename old new =>
    match files.lookup old with
    | some data => (files.erase old).insert new data
    | none => files
  | .remove name => files.erase name

/-- The directory, the answers still to come and the changes made so far. -/
structure Disk where
  /-- The files. -/
  files : Files
  /-- Answers of the operating system, first call first. -/
  outcomes : List Outcome
  /-- The changes made, in order. -/
  trace : List FsOp

/-- The answer to the next call. -/
def Disk.answer (d : Disk) : Outcome × Disk :=
  (d.outcomes.headD .done, { d with outcomes := d.outcomes.tail })

/-- Make a change and record it. -/
def Disk.perform (d : Disk) (op : FsOp) : Disk :=
  { d with files := applyOp d.files op, trace := d.trace ++ [op] }

/-- A call that makes its change if the answer is `done` and fails otherwise. -/
def Disk.call (d : Disk) (op : FsOp) : Err × Disk :=
  match d.answer with
  | (.done, d) => (.ok, d.perform op)
  | (_, d) => (.io, d)

/-- `fastkv_io_open` with `O_CREAT | O_RDWR`. -/
def ioOpen (d : Disk) (name : Name) : Err × Disk := d.call (.create name)

/-- `fastkv_io_pwrite`: a write that stores less than it was given is an error. -/
def ioPwrite (d : Disk) (name : Name) (data : Bytes) (offset : ℕ) : Err × Disk :=
  match d.answer with
  | (.done, d) => (.ok, d.perform (.pwrite name offset data))
  | (.short n, d) =>
    (if data.length ≤ n then .ok else .io,
      if n = 0 then d else d.perform (.pwrite name offset (data.take n)))
  | (.error, d) => (.io, d)

/-- `fastkv_io_sync`. -/
def ioSync (d : Disk) : Err × Disk :=
  match d.answer with
  | (.done, d) => (.ok, d)
  | (_, d) => (.io, d)

/-- `rename`. -/
def ioRename (d : Disk) (old new : Name) : Err × Disk := d.call (.rename old new)

/-- `remove`. -/
def ioRemove (d : Disk) (name : Name) : Err × Disk := d.call (.remove name)

/-- A call makes its change or fails, and uses up one answer. -/
theorem Disk.call_cases (d : Disk) (op : FsOp) :
    (d.call op = (.ok, { d.perform op with outcomes := d.outcomes.tail })) ∨
      (d.call op = (.io, { d with outcomes := d.outcomes.tail })) := by
  unfold Disk.call Disk.answer
  cases d.outcomes.headD .done with
  | done => exact Or.inl rfl
  | short n => exact Or.inr rfl
  | error => exact Or.inr rfl

/-- A successful call has made its change. -/
theorem Disk.files_of_call_ok {d : Disk} {op : FsOp} (h : (d.call op).1 = .ok) :
    (d.call op).2.files = applyOp d.files op := by
  rcases d.call_cases op with heq | heq
  · rw [heq]
    rfl
  · rw [heq] at h
    cases h

/-- No call will fail. -/
def Disk.Quiet (d : Disk) : Prop := ∀ o ∈ d.outcomes, o = .done

/-- The next answer of a quiet directory, which stays quiet. -/
theorem Disk.Quiet.answer {d : Disk} (h : d.Quiet) :
    d.outcomes.headD .done = .done ∧ ∀ o ∈ d.outcomes.tail, o = .done := by
  unfold Disk.Quiet at h
  cases ho : d.outcomes with
  | nil => simp
  | cons o os =>
    rw [ho] at h
    exact ⟨h o (by simp), fun o' ho' => h o' (by simpa using Or.inr ho')⟩

/-- A call in a quiet directory makes its change. -/
theorem Disk.Quiet.call {d : Disk} (h : d.Quiet) (op : FsOp) :
    d.call op = (.ok, { d.perform op with outcomes := d.outcomes.tail }) ∧
      (d.call op).2.Quiet := by
  obtain ⟨hdone, htail⟩ := h.answer
  have heq : d.call op = (.ok, { d.perform op with outcomes := d.outcomes.tail }) := by
    simp only [Disk.call, Disk.answer, hdone]
    rfl
  rw [heq]
  exact ⟨rfl, htail⟩

/-- A write in a quiet directory is complete. -/
theorem Disk.Quiet.pwrite {d : Disk} (h : d.Quiet) (name : Name) (data : Bytes) (offset : ℕ) :
    ioPwrite d name data offset =
        (.ok, { d.perform (.pwrite name offset data) with outcomes := d.outcomes.tail }) ∧
      (ioPwrite d name data offset).2.Quiet := by
  obtain ⟨hdone, htail⟩ := h.answer
  have heq : ioPwrite d name data offset =
      (.ok, { d.perform (.pwrite name offset data) with outcomes := d.outcomes.tail }) := by
    simp only [ioPwrite, Disk.answer, hdone]
    rfl
  rw [heq]
  exact ⟨rfl, htail⟩

/-- A sync in a quiet directory succeeds. -/
theorem Disk.Quiet.sync {d : Disk} (h : d.Quiet) :
    ioSync d = (.ok, { d with outcomes := d.outcomes.tail }) ∧ (ioSync d).2.Quiet := by
  obtain ⟨hdone, htail⟩ := h.answer
  have heq : ioSync d = (.ok, { d with outcomes := d.outcomes.tail }) := by
    simp only [ioSync, Disk.answer, hdone]
  rw [heq]
  exact ⟨rfl, htail⟩

/-- Opening a file for writing leaves its contents, empty if it is new. -/
theorem lookup_create (files : Files) (name : Name) :
    (applyOp files (.create name)).lookup name = some ((files.lookup name).getD []) := by
  simp only [applyOp]
  split
  · rename_i hmem
    obtain ⟨bytes, hbytes⟩ := Option.isSome_iff_exists.mp (AList.lookup_isSome.mpr hmem)
    rw [hbytes, Option.getD_some]
  · rename_i hmem
    rw [AList.lookup_insert, AList.lookup_eq_none.mpr hmem, Option.getD_none]

/-- Opening a file for writing leaves the other files alone. -/
theorem lookup_create_ne (files : Files) {name other : Name} (h : other ≠ name) :
    (applyOp files (.create name)).lookup other = files.lookup other := by
  simp only [applyOp]
  split
  · rfl
  · exact AList.lookup_insert_ne h

/-- Writing at the end of a file appends. -/
theorem patch_length (old data : Bytes) : patch old old.length data = old ++ data := by
  simp [patch]

/-- A directory in which some changes were made, one after the other. -/
structure Disk.Did (d : Disk) (ops : List FsOp) (d' : Disk) : Prop where
  /-- The files are the result of the changes. -/
  files : d'.files = ops.foldl applyOp d.files
  /-- The changes are on record. -/
  trace : d'.trace = d.trace ++ ops

/-- No changes. -/
theorem Disk.Did.refl (d : Disk) : d.Did [] d := ⟨rfl, (List.append_nil _).symm⟩

/-- Changes after other changes. -/
theorem Disk.Did.trans {d d' d'' : Disk} {ops ops' : List FsOp} (h : d.Did ops d')
    (h' : d'.Did ops' d'') : d.Did (ops ++ ops') d'' :=
  ⟨by rw [h'.files, h.files, List.foldl_append], by rw [h'.trace, h.trace, List.append_assoc]⟩

/-- Removing files. -/
theorem foldl_ioRemove_quiet {α : Type} (name : α → Name) (xs : List α) : ∀ d : Disk, d.Quiet →
    d.Did (xs.map fun x => .remove (name x)) (xs.foldl (fun d x => (ioRemove d (name x)).2) d) ∧
      (xs.foldl (fun d x => (ioRemove d (name x)).2) d).Quiet := by
  induction xs with
  | nil => exact fun d h => ⟨.refl d, h⟩
  | cons x xs ih =>
    intro d h
    obtain ⟨heq, hquiet⟩ := h.call (.remove (name x))
    obtain ⟨hdid, hquiet'⟩ := ih _ hquiet
    have hfirst : d.Did [.remove (name x)] (d.call (.remove (name x))).2 := by
      rw [heq]
      exact ⟨rfl, rfl⟩
    exact ⟨hfirst.trans hdid, hquiet'⟩

/-- Files after some were removed. -/
theorem lookup_foldl_remove (names : List Name) (n : Name) : ∀ files : Files,
    ((names.map .remove).foldl applyOp files).lookup n =
      if n ∈ names then none else files.lookup n := by
  induction names with
  | nil => simp
  | cons m names ih =>
    intro files
    rw [List.map_cons, List.foldl_cons, ih]
    by_cases hn : n = m
    · subst hn
      simp [applyOp]
    · simp [applyOp, hn, AList.lookup_erase_ne]

/-- Writes to one file leave the other files alone. -/
theorem lookup_foldl_pwrite_ne {name : Name} {ops : List FsOp}
    (hops : ∀ op ∈ ops, ∃ offset data, op = .pwrite name offset data) {n : Name} (hn : n ≠ name) :
    ∀ files : Files, (ops.foldl applyOp files).lookup n = files.lookup n := by
  induction ops with
  | nil => exact fun files => rfl
  | cons op ops ih =>
    intro files
    obtain ⟨offset, data, rfl⟩ := hops op (by simp)
    rw [List.foldl_cons, ih (fun op hop => hops op (by simp [hop]))]
    simp only [applyOp]
    split
    · exact AList.lookup_insert_ne hn
    · rfl

end FastKV
