import Mathlib.Data.List.Basic
import Mathlib.Tactic.Common

/-!
# Logs of self-delimiting frames

A log is a concatenation of frames, each of which can be read off the front of a byte
string without looking at what follows. A reader takes frames until one cannot be read.
The lemmas say what such a reader finds in a whole log, in a log with a torn end, and in
a log cut at an arbitrary position.
-/

namespace FastKV.Lib

variable {α F : Type*}

/-- A frame format: an encoder, and a decoder that accepts exactly the encodings. -/
structure Format (α F : Type*) where
  /-- The bytes of a frame. -/
  encode : F → List α
  /-- Read one frame off the front. -/
  decode : List α → Option (F × List α)
  /-- The frames that can be read back. -/
  Valid : F → Prop
  /-- A frame takes some room. -/
  encode_ne_nil : ∀ f, encode f ≠ []
  /-- A valid frame is read back, whatever follows it. -/
  decode_encode : ∀ f rest, Valid f → decode (encode f ++ rest) = some (f, rest)
  /-- Whatever is read is a valid frame that stood at the front. -/
  decode_sound : ∀ bs f rest, decode bs = some (f, rest) → Valid f ∧ bs = encode f ++ rest

namespace Format

variable (fmt : Format α F)

/-- The bytes of a sequence of frames. -/
def encodeAll (fs : List F) : List α := fs.flatMap fmt.encode

/-- Read frames until one cannot be read. Every frame takes some room, so the length is
enough fuel. -/
def scanFuel : ℕ → List α → List F
  | 0, _ => []
  | fuel + 1, bs =>
    match fmt.decode bs with
    | none => []
    | some (f, rest) => f :: scanFuel fuel rest

/-- All frames that can be read off the front. -/
def scan (bs : List α) : List F := fmt.scanFuel bs.length bs

@[simp] theorem encodeAll_nil : fmt.encodeAll [] = [] := rfl

@[simp] theorem encodeAll_cons (f : F) (fs : List F) :
    fmt.encodeAll (f :: fs) = fmt.encode f ++ fmt.encodeAll fs := rfl

@[simp] theorem encodeAll_append (fs gs : List F) :
    fmt.encodeAll (fs ++ gs) = fmt.encodeAll fs ++ fmt.encodeAll gs :=
  List.flatMap_append

variable {fmt}

/-- A frame takes some room. -/
theorem encode_pos (f : F) : 0 < (fmt.encode f).length :=
  List.length_pos_iff.mpr (fmt.encode_ne_nil f)

/-- Nothing is read from nothing. -/
theorem decode_nil : fmt.decode [] = none := by
  cases h : fmt.decode [] with
  | none => rfl
  | some r =>
    have hsound := (fmt.decode_sound [] r.1 r.2 h).2
    exact absurd (List.append_eq_nil_iff.mp hsound.symm).1 (fmt.encode_ne_nil r.1)

/-- What is left after reading a frame is shorter. -/
theorem length_lt_of_decode {bs rest : List α} {f : F} (h : fmt.decode bs = some (f, rest)) :
    rest.length < bs.length := by
  have hpos : 0 < (fmt.encode f).length := encode_pos f
  rw [(fmt.decode_sound bs f rest h).2, List.length_append]
  omega

/-- More fuel than bytes changes nothing. -/
theorem scanFuel_eq_scan {fuel : ℕ} {bs : List α} (h : bs.length ≤ fuel) :
    fmt.scanFuel fuel bs = fmt.scan bs := by
  have hstep : ∀ (n fuel : ℕ) (bs : List α), bs.length ≤ n → bs.length ≤ fuel →
      fmt.scanFuel fuel bs = fmt.scanFuel n bs := by
    intro n
    induction n with
    | zero =>
      intro fuel bs hn _
      obtain rfl := List.eq_nil_of_length_eq_zero (Nat.le_zero.mp hn)
      cases fuel with
      | zero => rfl
      | succ fuel => simp [scanFuel, decode_nil]
    | succ n ih =>
      intro fuel bs hn hfuel
      cases fuel with
      | zero =>
        obtain rfl := List.eq_nil_of_length_eq_zero (Nat.le_zero.mp hfuel)
        simp [scanFuel, decode_nil]
      | succ fuel =>
        simp only [scanFuel]
        cases hd : fmt.decode bs with
        | none => rfl
        | some r =>
          have hlt : r.2.length < bs.length := length_lt_of_decode hd
          simp only [ih fuel r.2 (by omega) (by omega)]
  exact hstep bs.length fuel bs (Nat.le_refl _) h

/-- Reading stops where no frame starts. -/
theorem scan_of_none {bs : List α} (h : fmt.decode bs = none) : fmt.scan bs = [] := by
  unfold scan
  cases bs.length with
  | zero => rfl
  | succ n => simp [scanFuel, h]

/-- Reading goes on after a frame. -/
theorem scan_of_some {bs rest : List α} {f : F} (h : fmt.decode bs = some (f, rest)) :
    fmt.scan bs = f :: fmt.scan rest := by
  have hlt := length_lt_of_decode h
  obtain ⟨n, hn⟩ : ∃ n, bs.length = n + 1 := ⟨bs.length - 1, by omega⟩
  rw [scan, hn]
  simp only [scanFuel, h]
  rw [scanFuel_eq_scan (by omega)]

@[simp] theorem scan_nil : fmt.scan [] = [] := scan_of_none decode_nil

/-- Valid frames at the front are read back, and then whatever follows them. -/
theorem scan_encodeAll {fs : List F} (hfs : ∀ f ∈ fs, fmt.Valid f) (tail : List α) :
    fmt.scan (fmt.encodeAll fs ++ tail) = fs ++ fmt.scan tail := by
  induction fs with
  | nil => rfl
  | cons f fs ih =>
    have hf : fmt.Valid f := hfs f (by simp)
    rw [encodeAll_cons, List.append_assoc,
      scan_of_some (fmt.decode_encode f (fmt.encodeAll fs ++ tail) hf),
      ih fun g hg => hfs g (by simp [hg]), List.cons_append]

/-- Whatever is read stood at the front in this order. -/
theorem scan_sound (bs : List α) : ∃ rest, bs = fmt.encodeAll (fmt.scan bs) ++ rest := by
  induction hn : bs.length using Nat.strongRecOn generalizing bs with
  | ind n ih =>
    cases hd : fmt.decode bs with
    | none => exact ⟨bs, by simp [scan_of_none hd]⟩
    | some r =>
      have hlt : r.2.length < bs.length := length_lt_of_decode hd
      have hscan : fmt.scan bs = r.1 :: fmt.scan r.2 := scan_of_some hd
      obtain ⟨rest, hrest⟩ := ih r.2.length (by omega) r.2 rfl
      refine ⟨rest, ?_⟩
      rw [hscan, encodeAll_cons, List.append_assoc, ← hrest]
      exact (fmt.decode_sound bs r.1 r.2 hd).2

/-- Whatever is read is valid. -/
theorem valid_of_mem_scan {bs : List α} {f : F} (h : f ∈ fmt.scan bs) : fmt.Valid f := by
  induction hn : bs.length using Nat.strongRecOn generalizing bs with
  | ind n ih =>
    cases hd : fmt.decode bs with
    | none =>
      rw [scan_of_none hd] at h
      cases h
    | some r =>
      have hlt : r.2.length < bs.length := length_lt_of_decode hd
      have hscan : fmt.scan bs = r.1 :: fmt.scan r.2 := scan_of_some hd
      rw [hscan] at h
      rcases List.mem_cons.mp h with rfl | h
      · exact (fmt.decode_sound bs r.1 r.2 hd).1
      · exact ih r.2.length (by omega) h rfl

/-- A frame that was read is not longer than what it was read from. -/
theorem length_le_of_mem_scan {bs : List α} {f : F} (h : f ∈ fmt.scan bs) :
    (fmt.encode f).length ≤ bs.length := by
  obtain ⟨rest, hrest⟩ : ∃ rest, bs = fmt.encodeAll (fmt.scan bs) ++ rest := scan_sound bs
  have hmem : (fmt.encode f).length ≤ (fmt.encodeAll (fmt.scan bs)).length := by
    obtain ⟨left, right, hsplit⟩ := List.append_of_mem h
    rw [hsplit]
    simp only [encodeAll_append, encodeAll_cons, List.length_append]
    omega
  have hlen := congrArg List.length hrest
  rw [List.length_append] at hlen
  omega

/-- An unfinished frame cannot be read. -/
theorem decode_prefix_eq_none {f : F} (hf : fmt.Valid f) {n : ℕ}
    (hn : n < (fmt.encode f).length) : fmt.decode ((fmt.encode f).take n) = none := by
  cases h : fmt.decode ((fmt.encode f).take n) with
  | none => rfl
  | some r =>
    exfalso
    obtain ⟨hvalid, heq⟩ := fmt.decode_sound _ r.1 r.2 h
    -- reading the whole frame would return what was read from its beginning
    have hwhole : fmt.decode (fmt.encode f) =
        some (r.1, r.2 ++ (fmt.encode f).drop n) := by
      conv_lhs => rw [← List.take_append_drop n (fmt.encode f), heq, List.append_assoc]
      exact fmt.decode_encode r.1 _ hvalid
    have hself := fmt.decode_encode f [] hf
    rw [List.append_nil, hwhole] at hself
    have hrest : r.2 ++ (fmt.encode f).drop n = [] := by simpa using congrArg (·.map Prod.snd) hself
    have hdrop := (List.append_eq_nil_iff.mp hrest).2
    rw [List.drop_eq_nil_iff] at hdrop
    omega

/-- The number of frames that lie completely before a position. -/
def wholeFrames (fmt : Format α F) : List F → ℕ → ℕ
  | [], _ => 0
  | f :: fs, pos =>
    if (fmt.encode f).length ≤ pos then fmt.wholeFrames fs (pos - (fmt.encode f).length) + 1 else 0

/-- There are no more whole frames than frames. -/
theorem wholeFrames_le (fs : List F) (pos : ℕ) : fmt.wholeFrames fs pos ≤ fs.length := by
  induction fs generalizing pos with
  | nil => exact Nat.le_refl 0
  | cons f fs ih =>
    unfold wholeFrames
    split
    · rw [List.length_cons]
      exact Nat.succ_le_succ (ih _)
    · exact Nat.zero_le _

/-- Exactly the frames `fs` lie before a position if it is behind them and the next frame
ends after it. -/
theorem wholeFrames_append_eq_iff (fs gs : List F) (pos : ℕ) :
    fmt.wholeFrames (fs ++ gs) pos = fs.length ↔
      (fmt.encodeAll fs).length ≤ pos ∧
        ∀ g ∈ gs.head?, pos < (fmt.encodeAll fs).length + (fmt.encode g).length := by
  induction fs generalizing pos with
  | nil =>
    cases gs with
    | nil => simp [wholeFrames]
    | cons g gs =>
      simp only [List.nil_append, wholeFrames, encodeAll_nil, List.length_nil, List.head?_cons,
        Option.mem_def, Option.some.injEq, forall_eq', Nat.zero_le, true_and, Nat.zero_add]
      split
      · simp only [Nat.add_eq_zero_iff, Nat.one_ne_zero, and_false, false_iff]
        omega
      · simp only [true_iff]
        omega
  | cons f fs ih =>
    simp only [List.cons_append, wholeFrames, encodeAll_cons, List.length_append, List.length_cons]
    split
    · rw [Nat.add_right_cancel_iff, ih]
      refine and_congr (by omega) (forall_congr' fun g => imp_congr_right fun _ => ?_)
      omega
    · constructor
      · intro h
        omega
      · rintro ⟨h, -⟩
        omega

/-- All frames that end before a position are whole there. -/
theorem le_wholeFrames_append {fs : List F} (gs : List F) {pos : ℕ}
    (h : (fmt.encodeAll fs).length ≤ pos) : fs.length ≤ fmt.wholeFrames (fs ++ gs) pos := by
  induction fs generalizing pos with
  | nil => exact Nat.zero_le _
  | cons f fs ih =>
    rw [encodeAll_cons, List.length_append] at h
    rw [List.cons_append, wholeFrames, if_pos (by omega), List.length_cons]
    exact Nat.succ_le_succ (ih (by omega))

/-- A log cut at any position is read as the frames that lie completely before it. -/
theorem scan_take_encodeAll {fs : List F} (hfs : ∀ f ∈ fs, fmt.Valid f) (pos : ℕ) :
    fmt.scan ((fmt.encodeAll fs).take pos) = fs.take (fmt.wholeFrames fs pos) := by
  induction fs generalizing pos with
  | nil => simp
  | cons f fs ih =>
    have hf : fmt.Valid f := hfs f (by simp)
    unfold wholeFrames
    split
    · rename_i hle
      rw [encodeAll_cons, List.take_append, List.take_of_length_le hle,
        scan_of_some (fmt.decode_encode f _ hf), ih fun g hg => hfs g (by simp [hg]),
        List.take_succ_cons]
    · rename_i hlt
      rw [encodeAll_cons, List.take_append_of_le_length (by omega), List.take_zero]
      exact scan_of_none (decode_prefix_eq_none hf (by omega))

end Format

end FastKV.Lib
