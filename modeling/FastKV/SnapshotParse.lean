import FastKV.OrderedIndex
import FastKV.SnapshotRoundTrip

/-!
# Parsing a snapshot

`fastkv_snapshot_load` maps the file and walks over it with a pointer. Every read is preceded by
a test of the pointer against the end of the mapping; the lengths that it adds come from the
file. `loadMapped` is the function with its pointer, in which a read outside the mapping is an
outcome of its own. It never happens, and what remains are the reads off the front of the
remaining bytes that `loadFile` consists of. What the function accepts is then a matter of
decoding and encoding.
-/

namespace FastKV

open Lib

/-! ## The pointer -/

/-- Why the function stops before the end: a test went to `bad`, or it read outside the
mapping. -/
inductive LoadStop
  | bad
  | outside
  deriving DecidableEq

/-- The bytes at a position of the mapping. -/
def mapped (file : Bytes) (ptr len : ℕ) : Except LoadStop Bytes :=
  if ptr + len ≤ file.length then .ok ((file.drop ptr).take len) else .error .outside

/-- `READ_BUF` of a number. -/
def readBuf (file : Bytes) (ptr len : ℕ) : Except LoadStop ℕ :=
  if file.length < ptr + len then .error .bad else (mapped file ptr len).map leNat

/-- The header reads, with the pointer behind them. -/
def headerAt (file : Bytes) : Except LoadStop (SnapHeader × ℕ) := do
  let magic ← readBuf file 0 4
  let version ← readBuf file 4 2
  let _ ← readBuf file 6 2
  let ts ← readBuf file 8 8
  let numKeys ← readBuf file 16 8
  let storedCrc ← readBuf file 24 4
  let _ ← readBuf file 28 4
  pure (⟨magic, version, ts, numKeys, storedCrc⟩, 32)

/-- The reads of one record. -/
def recordAt (file : Bytes) (ptr : ℕ) : Except LoadStop ((Bytes × Bytes) × ℕ) := do
  let klen ← readBuf file ptr 4
  let vlen ← readBuf file (ptr + 4) 4
  if file.length < ptr + 4 + 4 + klen + vlen then .error .bad
  else
    let key ← mapped file (ptr + 4 + 4) klen
    let val ← mapped file (ptr + 4 + 4 + klen) vlen
    pure ((key, val), ptr + 4 + 4 + klen + vlen)

/-- The loop: the checksum, the structures and the number of rounds. -/
def loadLoop (file : Bytes) (ts : ℕ) :
    ℕ → ℕ → UInt32 → Stores → Except LoadStop UInt32 × Stores × ℕ
  | 0, _, dataCrc, s => (.ok dataCrc, s, 0)
  | numKeys + 1, ptr, dataCrc, s =>
    match recordAt file ptr with
    | .error stop => (.error stop, s, 1)
    | .ok (entry, ptr) =>
      let (r, s, rounds) := loadLoop file ts numKeys ptr ((entryFields entry).foldl crc32c dataCrc)
        (loadEntry ts s entry)
      (r, s, rounds + 1)

/-- What loading a mapped file comes to. -/
structure MappedLoad where
  /-- The result; `none` if the function has read outside the mapping. -/
  rc : Option Err
  /-- The structures. -/
  stores : Stores
  /-- What is left in `*ts_out`. -/
  ts : ℕ
  /-- The rounds of the loop. -/
  rounds : ℕ

/-- The result of stopping. -/
def LoadStop.rc : LoadStop → Option Err
  | .bad => some .corrupt
  | .outside => none

/-- `fastkv_snapshot_load` after `fastkv_io_mmap`. -/
def loadMapped (file : Bytes) (s : Stores) : MappedLoad :=
  match headerAt file with
  | .error stop => ⟨stop.rc, s, 0, 0⟩
  | .ok (header, ptr) =>
    if header.magic ≠ snapshotMagic ∨ header.version ≠ snapshotVersion then
      ⟨some .corrupt, s, 0, 0⟩
    else
      match loadLoop file header.ts header.numKeys ptr 0 s with
      | (.error stop, s, rounds) => ⟨stop.rc, s, 0, rounds⟩
      | (.ok dataCrc, s, rounds) =>
        if dataCrc.toNat = header.storedCrc then ⟨some .ok, s, header.ts, rounds⟩
        else ⟨some .corrupt, s, 0, rounds⟩

/-! ## The pointer and the remaining bytes -/

/-- Reading at a pointer and reading off the front of the remaining bytes agree: both fail, the
former with `bad`, or they have the same result and leave the same bytes. -/
inductive Agrees (file : Bytes) {α : Type} : Except LoadStop (α × ℕ) → Option (α × Bytes) → Prop
  | bad : Agrees file (.error .bad) none
  | ok (a : α) (ptr : ℕ) (inside : ptr ≤ file.length) :
      Agrees file (.ok (a, ptr)) (some (a, file.drop ptr))

section Pointer

variable {file : Bytes} {ptr len : ℕ}

/-- Taking bytes at a pointer inside the mapping. -/
theorem takeExact_drop (hptr : ptr ≤ file.length) : takeExact len (file.drop ptr) =
    if ptr + len ≤ file.length then some ((file.drop ptr).take len, file.drop (ptr + len))
    else none := by
  unfold takeExact
  rw [List.length_drop, List.drop_drop]
  by_cases h : ptr + len ≤ file.length
  · rw [if_pos h, if_pos (by omega)]
  · rw [if_neg h, if_neg (by omega)]

/-- A number is read at the pointer as it is off the front, and so is what follows. -/
theorem Agrees.readBuf {α : Type} {f : ℕ → Except LoadStop (α × ℕ)}
    {g : ℕ × Bytes → Option (α × Bytes)} (hptr : ptr ≤ file.length)
    (h : ∀ v, ptr + len ≤ file.length → Agrees file (f v) (g (v, file.drop (ptr + len)))) :
    Agrees file (FastKV.readBuf file ptr len >>= f) (readLe len (file.drop ptr) >>= g) := by
  unfold FastKV.readBuf mapped readLe
  rw [takeExact_drop hptr]
  by_cases hin : ptr + len ≤ file.length
  · rw [if_neg (by omega), if_pos hin, if_pos hin]
    exact h _ hin
  · rw [if_pos (by omega), if_neg hin]
    exact .bad

/-- The header. -/
theorem headerAt_agrees (file : Bytes) : Agrees file (headerAt file) (readHeader file) := by
  unfold headerAt readHeader
  rw [show readLe 4 file = readLe 4 (file.drop 0) from rfl]
  refine Agrees.readBuf (by omega) fun magic h₁ => ?_
  refine Agrees.readBuf (by omega) fun version h₂ => ?_
  refine Agrees.readBuf (by omega) fun pad h₃ => ?_
  refine Agrees.readBuf (by omega) fun ts h₄ => ?_
  refine Agrees.readBuf (by omega) fun numKeys h₅ => ?_
  refine Agrees.readBuf (by omega) fun storedCrc h₆ => ?_
  refine Agrees.readBuf (by omega) fun pad₂ h₇ => ?_
  exact .ok _ 32 (by omega)

/-- A record. The test of both lengths at once fails exactly if one of the two reads does. -/
theorem recordAt_agrees (hptr : ptr ≤ file.length) :
    Agrees file (recordAt file ptr) (readEntry (file.drop ptr)) := by
  unfold recordAt readEntry
  refine Agrees.readBuf hptr fun klen h₁ => ?_
  refine Agrees.readBuf (by omega) fun vlen h₂ => ?_
  simp only [mapped, Option.bind_eq_bind]
  rw [takeExact_drop h₂]
  by_cases hk : ptr + 4 + 4 + klen ≤ file.length
  · rw [if_pos hk, if_pos hk, Option.bind_some, takeExact_drop hk]
    by_cases hv : ptr + 4 + 4 + klen + vlen ≤ file.length
    · rw [if_neg (by omega), if_pos hv, if_pos hv]
      exact .ok _ _ hv
    · rw [if_pos (by omega), if_neg hv]
      exact .bad
  · rw [if_pos (by omega), if_neg hk]
    exact .bad

end Pointer

/-- An entry that is read stood at the front. -/
theorem readEntry_sound {bs rest : Bytes} {entry : Bytes × Bytes}
    (h : readEntry bs = some (entry, rest)) : bs = (entryFields entry).flatten ++ rest := by
  simp only [readEntry, Option.bind_eq_bind, Option.bind_eq_some_iff, Prod.exists,
    Option.pure_def, Option.some.injEq, Prod.mk.injEq] at h
  obtain ⟨klen, bs₁, h₁, vlen, bs₂, h₂, key, bs₃, h₃, val, bs₄, h₄, rfl, rfl⟩ := h
  obtain ⟨rfl, -⟩ := readLe_eq_some h₁
  obtain ⟨rfl, -⟩ := readLe_eq_some h₂
  obtain ⟨rfl, hkey⟩ := takeExact_eq_some h₃
  obtain ⟨rfl, hval⟩ := takeExact_eq_some h₄
  simp [entryFields, hkey, hval]

/-- A record takes at least the eight bytes of its lengths. -/
theorem recordAt_advance {file : Bytes} {ptr ptr' : ℕ} {entry : Bytes × Bytes}
    (hptr : ptr' ≤ file.length) (h : readEntry (file.drop ptr) = some (entry, file.drop ptr')) :
    ptr + 8 ≤ ptr' := by
  have hbytes := congrArg List.length (readEntry_sound h)
  simp only [entryFields, List.flatten_cons, List.flatten_nil, List.length_append,
    leBytes_length, List.length_drop, List.length_nil] at hbytes
  omega

/-- These bytes are a header with these fields; the padding is arbitrary. -/
structure SnapHeader.StoredAs (header : SnapHeader) (front : Bytes) : Prop where
  /-- The magic number fits its field. -/
  magic_lt : header.magic < 256 ^ 4
  /-- So does the version, -/
  version_lt : header.version < 256 ^ 2
  /-- the timestamp, -/
  ts_lt : header.ts < 256 ^ 8
  /-- the number of entries -/
  numKeys_lt : header.numKeys < 256 ^ 8
  /-- and the checksum. -/
  storedCrc_lt : header.storedCrc < 256 ^ 4
  /-- The fields one after the other. -/
  layout : ∃ pad pad₂ : Bytes, pad.length = 2 ∧ pad₂.length = 4 ∧
    front = leBytes 4 header.magic ++ leBytes 2 header.version ++ pad ++ leBytes 8 header.ts ++
      leBytes 8 header.numKeys ++ leBytes 4 header.storedCrc ++ pad₂

/-- A header has 32 bytes. -/
theorem SnapHeader.StoredAs.length {header : SnapHeader} {front : Bytes}
    (h : header.StoredAs front) : front.length = 32 := by
  obtain ⟨pad, pad₂, hpad, hpad₂, rfl⟩ := h.layout
  simp only [List.length_append, leBytes_length, hpad, hpad₂]

/-- Two bytes of padding are read like a number. -/
theorem readLe_append (pad rest : Bytes) :
    readLe pad.length (pad ++ rest) = some (leNat pad, rest) := by
  rw [readLe, takeExact_append, Option.map_some]

/-- A header that is read stood at the front. -/
theorem readHeader_sound {bs rest : Bytes} {header : SnapHeader}
    (h : readHeader bs = some (header, rest)) :
    ∃ front, header.StoredAs front ∧ bs = front ++ rest := by
  simp only [readHeader, Option.bind_eq_bind, Option.bind_eq_some_iff, Prod.exists,
    Option.pure_def, Option.some.injEq, Prod.mk.injEq] at h
  obtain ⟨magic, bs₁, h₁, version, bs₂, h₂, pad, bs₃, h₃, ts, bs₄, h₄, numKeys, bs₅, h₅,
    storedCrc, bs₆, h₆, pad₂, bs₇, h₇, rfl, rfl⟩ := h
  obtain ⟨rfl, hmagic⟩ := readLe_eq_some h₁
  obtain ⟨rfl, hversion⟩ := readLe_eq_some h₂
  obtain ⟨rfl, -⟩ := readLe_eq_some h₃
  obtain ⟨rfl, hts⟩ := readLe_eq_some h₄
  obtain ⟨rfl, hnum⟩ := readLe_eq_some h₅
  obtain ⟨rfl, hcrc⟩ := readLe_eq_some h₆
  obtain ⟨rfl, -⟩ := readLe_eq_some h₇
  refine ⟨_, ⟨hmagic, hversion, hts, hnum, hcrc, leBytes 2 pad, leBytes 4 pad₂,
    leBytes_length 2 pad, leBytes_length 4 pad₂, rfl⟩, ?_⟩
  simp only [List.append_assoc]

/-- A header is read, whatever stands behind it. -/
theorem SnapHeader.StoredAs.read {header : SnapHeader} {front : Bytes}
    (h : header.StoredAs front) (rest : Bytes) :
    readHeader (front ++ rest) = some (header, rest) := by
  obtain ⟨pad, pad₂, hpad, hpad₂, rfl⟩ := h.layout
  have htwo : ∀ rest, readLe 2 (pad ++ rest) = some (leNat pad, rest) := by
    rw [← hpad]
    exact readLe_append pad
  have hfour : ∀ rest, readLe 4 (pad₂ ++ rest) = some (leNat pad₂, rest) := by
    rw [← hpad₂]
    exact readLe_append pad₂
  simp only [readHeader, List.append_assoc, readLe_leBytes _ h.magic_lt,
    readLe_leBytes _ h.version_lt, htwo, readLe_leBytes _ h.ts_lt, readLe_leBytes _ h.numKeys_lt,
    readLe_leBytes _ h.storedCrc_lt, hfour, Option.bind_eq_bind, Option.bind_some,
    Option.pure_def]

/-- The pointer behind the header. -/
theorem headerAt_advance {file : Bytes} {ptr : ℕ} {header : SnapHeader} (hptr : ptr ≤ file.length)
    (h : readHeader file = some (header, file.drop ptr)) : ptr = 32 := by
  obtain ⟨front, hfront, hbytes⟩ := readHeader_sound h
  have hlen := congrArg List.length hbytes
  rw [List.length_append, hfront.length, List.length_drop] at hlen
  omega

/-- The checksum of the loop, if it came to one. -/
def loopCrc : Except LoadStop UInt32 → Option UInt32
  | .ok dataCrc => some dataCrc
  | .error _ => none

/-- The loop with its pointer does what the loop over the remaining bytes does. It never reads
outside the mapping, and since every round but a last one that fails takes eight bytes, the bytes
bound the rounds whatever the counter is. -/
theorem loadLoop_agrees (file : Bytes) (ts numKeys : ℕ) :
    ∀ (ptr : ℕ) (dataCrc : UInt32) (s : Stores), ptr ≤ file.length →
      (loadLoop file ts numKeys ptr dataCrc s).1 ≠ .error .outside ∧
      (loopCrc (loadLoop file ts numKeys ptr dataCrc s).1,
        (loadLoop file ts numKeys ptr dataCrc s).2.1) =
          loadEntries ts numKeys (file.drop ptr) dataCrc s ∧
      8 * (loadLoop file ts numKeys ptr dataCrc s).2.2 ≤ file.length - ptr + 8 := by
  induction numKeys with
  | zero =>
    intro ptr dataCrc s _
    exact ⟨by simp [loadLoop], rfl, Nat.zero_le _⟩
  | succ numKeys ih =>
    intro ptr dataCrc s hptr
    have hrecord := recordAt_agrees hptr
    unfold loadLoop loadEntries
    generalize hread : readEntry (file.drop ptr) = read at hrecord
    generalize recordAt file ptr = record at hrecord
    cases hrecord with
    | bad => exact ⟨by simp, rfl, Nat.le_add_left 8 _⟩
    | ok entry ptr' hptr' =>
      have hadvance := recordAt_advance hptr' hread
      obtain ⟨hinside, hsame, hrounds⟩ := ih ptr' ((entryFields entry).foldl crc32c dataCrc)
        (loadEntry ts s entry) hptr'
      have htotal : ∀ rounds, 8 * rounds ≤ file.length - ptr' + 8 →
          8 * (rounds + 1) ≤ file.length - ptr + 8 := fun rounds h => by omega
      exact ⟨hinside, hsame, htotal _ hrounds⟩

/-- Loading a mapped file is loading its bytes: nothing outside the mapping is read, and there
are no more rounds than the bytes allow. -/
theorem loadMapped_eq {file : Bytes} (hne : file ≠ []) (s : Stores) :
    (loadMapped file s).rc = some (loadFile file s).1 ∧
      (loadMapped file s).stores = (loadFile file s).2.1 ∧
      (loadMapped file s).ts = (loadFile file s).2.2 ∧
      8 * (loadMapped file s).rounds ≤ file.length := by
  have hheader := headerAt_agrees file
  unfold loadMapped loadFile
  rw [if_neg hne]
  generalize hread : readHeader file = read at hheader
  generalize hat : headerAt file = header at hheader
  cases hheader with
  | bad => exact ⟨rfl, rfl, rfl, Nat.zero_le _⟩
  | ok header ptr hptr =>
    simp only
    by_cases hmagic : header.magic ≠ snapshotMagic ∨ header.version ≠ snapshotVersion
    · rw [if_pos hmagic, if_pos hmagic]
      exact ⟨rfl, rfl, rfl, Nat.zero_le _⟩
    · rw [if_neg hmagic, if_neg hmagic]
      have hstart := headerAt_advance hptr hread
      obtain ⟨hinside, hsame, hrounds⟩ := loadLoop_agrees file header.ts header.numKeys ptr 0 s hptr
      rw [← hsame]
      generalize loadLoop file header.ts header.numKeys ptr 0 s = loop at hinside hrounds ⊢
      obtain ⟨r, s', rounds⟩ := loop
      simp only at hrounds
      cases r with
      | error stop =>
        cases stop with
        | bad => exact ⟨rfl, rfl, rfl, by simp only; omega⟩
        | outside => exact absurd rfl hinside
      | ok dataCrc =>
        simp only [loopCrc]
        split
        · exact ⟨rfl, rfl, rfl, by simp only; omega⟩
        · exact ⟨rfl, rfl, rfl, by simp only; omega⟩

/-! ## The format -/

/-- The file starts with a full header that has the right magic number and version, and behind it
stand the entries that the header counts, all of them inside the file, with the checksum that the
header stores. -/
structure IsSnapshot (file : Bytes) (ts : ℕ) (entries : List (Bytes × Bytes)) : Prop where
  /-- The lengths of keys and values are those of their fields. -/
  fits : ∀ e ∈ entries, FitsEntry e
  /-- The bytes. -/
  layout : ∃ front rest : Bytes,
    SnapHeader.StoredAs ⟨snapshotMagic, snapshotVersion, ts, entries.length,
      (entriesCrc entries).toNat⟩ front ∧
    file = front ++ ((entries.flatMap entryFields).flatten ++ rest)

/-- If the loop comes to its end, the entries stood at the front of the bytes. -/
theorem loadEntries_sound (ts numKeys : ℕ) :
    ∀ (bs : Bytes) (dataCrc crc : UInt32) (s s' : Stores),
      loadEntries ts numKeys bs dataCrc s = (some crc, s') →
      ∃ (entries : List (Bytes × Bytes)) (rest : Bytes), entries.length = numKeys ∧
        (∀ e ∈ entries, FitsEntry e) ∧ bs = (entries.flatMap entryFields).flatten ++ rest ∧
        crc = (entries.flatMap entryFields).foldl crc32c dataCrc ∧
        s' = entries.foldl (loadEntry ts) s := by
  induction numKeys with
  | zero =>
    intro bs dataCrc crc s s' h
    cases h
    exact ⟨[], bs, rfl, nofun, rfl, rfl, rfl⟩
  | succ numKeys ih =>
    intro bs dataCrc crc s s' h
    unfold loadEntries at h
    cases hread : readEntry bs with
    | none =>
      rw [hread] at h
      cases h
    | some r =>
      obtain ⟨entry, bs'⟩ := r
      rw [hread] at h
      obtain ⟨entries, rest, hlen, hfits, hbytes, hcrc, hs⟩ := ih _ _ _ _ _ h
      refine ⟨entry :: entries, rest, by rw [List.length_cons, hlen], ?_, ?_, ?_, hs⟩
      · intro e he
        rcases List.mem_cons.mp he with rfl | he
        · exact readEntry_fits hread
        · exact hfits e he
      · rw [readEntry_sound hread, hbytes, List.flatMap_cons, List.flatten_append,
          List.append_assoc]
      · rw [hcrc, List.flatMap_cons, List.foldl_append]

/-- A file of the format is loaded, entry after entry. -/
theorem IsSnapshot.load {file : Bytes} {ts : ℕ} {entries : List (Bytes × Bytes)}
    (h : IsSnapshot file ts entries) (s : Stores) :
    loadFile file s = (.ok, entries.foldl (loadEntry ts) s, ts) := by
  obtain ⟨front, rest, hfront, rfl⟩ := h.layout
  rw [loadFile_of_header (hfront.read _) rfl rfl, loadEntries_encode ts entries rest h.fits]
  exact if_pos rfl

/-- A file that is loaded without an error is of the format. -/
theorem isSnapshot_of_loadFile {file : Bytes} {s : Stores} (h : (loadFile file s).1 = .ok) :
    ∃ ts entries, IsSnapshot file ts entries := by
  rcases loadFile_cases file s with hbad | ⟨header, bs, hread, hmagic, hversion, heq⟩
  · rw [hbad] at h
    split at h <;> cases h
  · rw [heq] at h
    obtain ⟨⟨dataCrc, hsome, hcrc⟩, -⟩ := loadResult_ok h
    obtain ⟨front, hfront, hbytes⟩ := readHeader_sound hread
    obtain ⟨entries, rest, hlen, hfits, hbs, hsum, -⟩ :=
      loadEntries_sound _ _ _ _ _ _ _ (Prod.ext hsome rfl)
    refine ⟨header.ts, entries, hfits, front, rest, ?_, by rw [hbytes, hbs]⟩
    have hsame : (⟨snapshotMagic, snapshotVersion, header.ts, entries.length,
        (entriesCrc entries).toNat⟩ : SnapHeader) = header := by
      rw [hlen, ← hmagic, ← hversion, entriesCrc, ← hsum, hcrc]
    rwa [hsame]

/-- The left-to-right overlay of entries. -/
def overlay (entries : List (Bytes × Bytes)) : Bytes → Option Bytes :=
  entries.foldl (fun m entry => Function.update m entry.1 (some entry.2)) fun _ => none

/-- Loading entries puts them over what the tree holds. -/
theorem holds_foldl_loadEntry (ts : ℕ) (entries : List (Bytes × Bytes)) :
    ∀ (s : Stores) (m : Bytes → Option Bytes), s.btree.Holds m →
      (entries.foldl (loadEntry ts) s).btree.Holds
        (entries.foldl (fun m entry => Function.update m entry.1 (some entry.2)) m) := by
  induction entries with
  | nil => exact fun s m h => h
  | cons entry entries ih => exact fun s m h => ih _ _ (h.run (.insert entry.1 entry.2))

/-- For every file that can be mapped and all structures: `fastkv_snapshot_load` comes to an end
after at most one round for eight bytes of the file, whatever number of entries the header has,
and never reads outside the mapping. It returns `FASTKV_OK` exactly if the file is of the format,
and then the tree, if it was empty before, holds the overlay of the entries. -/
theorem snapshot_parse {file : Bytes} (hne : file ≠ []) (s : Stores) :
    (loadMapped file s).rc = some (loadFile file s).1 ∧
      8 * (loadMapped file s).rounds ≤ file.length ∧
      ((loadMapped file s).rc = some .ok ↔ ∃ ts entries, IsSnapshot file ts entries) ∧
      ∀ ts entries, IsSnapshot file ts entries →
        (loadMapped file s).ts = ts ∧
        (loadMapped file s).stores = entries.foldl (loadEntry ts) s ∧
        (s.btree = btreeCreate → (loadMapped file s).stores.btree.Holds (overlay entries)) := by
  obtain ⟨hrc, hstores, hts, hrounds⟩ := loadMapped_eq hne s
  refine ⟨hrc, hrounds, ?_, ?_⟩
  · rw [hrc, Option.some.injEq]
    constructor
    · exact isSnapshot_of_loadFile
    · rintro ⟨ts, entries, h⟩
      rw [h.load s]
  · intro ts entries h
    rw [h.load s] at hstores hts
    refine ⟨hts, hstores, fun hempty => ?_⟩
    rw [hstores]
    apply holds_foldl_loadEntry
    rw [hempty]
    exact btreeCreate_holds

/-- The snapshot of one entry, with a byte behind it. -/
def oneEntryFile : Bytes :=
  (headerFields 5 1 (entriesCrc [([1], [7])])).flatten ++
    ((entryFields ([1], [7])).flatten ++ [255])

/-- It is of the format. -/
theorem oneEntryFile_isSnapshot : IsSnapshot oneEntryFile 5 [([1], [7])] := by
  constructor
  · simp [FitsEntry]
  · refine ⟨(headerFields 5 1 (entriesCrc [([1], [7])])).flatten, [255], ?_, by
      simp [oneEntryFile]⟩
    constructor
    · decide
    · decide
    · decide
    · decide
    · exact (entriesCrc [([1], [7])]).toNat_lt
    · exact ⟨leBytes 2 0, leBytes 4 0, rfl, rfl, by simp [headerFields]⟩

/-- It is loaded into an empty tree, which then holds its entry. -/
theorem snapshot_parse_one :
    (loadMapped oneEntryFile oneBucket.stores).rc = some .ok ∧
      (loadMapped oneEntryFile oneBucket.stores).stores.btree.Holds (overlay [([1], [7])]) := by
  have hne : oneEntryFile ≠ [] := by
    simp [oneEntryFile]
  obtain ⟨-, -, hok, hload⟩ := snapshot_parse hne oneBucket.stores
  constructor
  · exact hok.mpr ⟨5, [([1], [7])], oneEntryFile_isSnapshot⟩
  · exact (hload 5 [([1], [7])] oneEntryFile_isSnapshot).2.2 rfl

end FastKV
