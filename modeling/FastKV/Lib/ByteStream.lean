import Mathlib.Data.List.Basic
import Mathlib.Tactic.Common

/-!
# Messages on a stream

A writer puts messages on a stream one after the other and may stop in the middle of one; a
reader takes what has been written in pieces that have nothing to do with the messages. What
the reader has taken is some whole messages and the beginning of the next one, and the next
message can be told from the elements of it.
-/

namespace FastKV.Lib

variable {α M : Type*} (encode : M → List α)

/-- The messages one after the other. -/
def stream (ms : List M) : List α := ms.flatMap encode

/-- The elements of two lists of messages. -/
theorem stream_append (ms ms' : List M) :
    stream encode (ms ++ ms') = stream encode ms ++ stream encode ms' := List.flatMap_append

/-- The elements of one more message. -/
theorem stream_concat (ms : List M) (m : M) :
    stream encode (ms ++ [m]) = stream encode ms ++ encode m := by
  rw [stream_append]
  simp [stream]

/-- The stream of fewer messages is a beginning of that of more. -/
theorem stream_mono {ms ms' : List M} (h : ms <+: ms') :
    stream encode ms <+: stream encode ms' := by
  obtain ⟨more, rfl⟩ := h
  rw [stream_append]
  exact List.prefix_append _ _

/-- A reader has taken `k` whole messages, and `part` of the next. -/
structure Taken (ms : List M) (k : ℕ) (part : List α) : Prop where
  /-- There are so many. -/
  le : k ≤ ms.length
  /-- What has been taken is the beginning of the stream. -/
  begins : stream encode (ms.take k) ++ part <+: stream encode ms

variable {encode} {ms ms' : List M} {k : ℕ} {part : List α}

/-- More messages are written. -/
theorem Taken.mono (h : Taken encode ms k part) (hms : ms <+: ms') : Taken encode ms' k part := by
  refine ⟨Nat.le_trans h.le hms.length_le, ?_⟩
  obtain ⟨more, rfl⟩ := hms
  rw [List.take_append_of_le_length h.le]
  exact h.begins.trans (stream_mono encode (List.prefix_append _ _))

/-- What has been taken of the next message is the beginning of what follows the whole ones. -/
theorem Taken.part_prefix (h : Taken encode ms k part) : part <+: stream encode (ms.drop k) := by
  have hsplit : stream encode ms = stream encode (ms.take k) ++ stream encode (ms.drop k) := by
    rw [← stream_append, List.take_append_drop]
  have hbegins := h.begins
  rw [hsplit] at hbegins
  exact (List.prefix_append_right_inj _).mp hbegins

/-- If something has been taken of it, there is a next message. -/
theorem Taken.next (h : Taken encode ms k part) (hpart : part ≠ []) : ∃ m, ms[k]? = some m := by
  cases hnext : ms[k]? with
  | some m => exact ⟨m, rfl⟩
  | none =>
    have hlen : ms.length ≤ k := List.getElem?_eq_none_iff.mp hnext
    have hnil := h.part_prefix
    rw [List.drop_eq_nil_of_le hlen] at hnil
    exact absurd (List.prefix_nil.mp hnil) hpart

/-- As long as no more has been taken than the next message has, it is the beginning of it. -/
theorem Taken.part_of_next (h : Taken encode ms k part) {m : M} (hnext : ms[k]? = some m)
    (hlen : part.length ≤ (encode m).length) : part = (encode m).take part.length := by
  have hbegins := h.part_prefix
  obtain ⟨hk, hget⟩ := List.getElem?_eq_some_iff.mp hnext
  rw [List.drop_eq_getElem_cons hk, hget] at hbegins
  have hcons : part <+: encode m ++ stream encode (ms.drop (k + 1)) := hbegins
  have hpart : part <+: encode m :=
    List.prefix_of_prefix_length_le hcons (List.prefix_append _ _) hlen
  exact List.prefix_iff_eq_take.mp hpart

/-- The stream of the messages up to and with one of them. -/
theorem stream_take_succ {m : M} (hnext : ms[k]? = some m) :
    stream encode (ms.take (k + 1)) = stream encode (ms.take k) ++ encode m := by
  obtain ⟨hk, hget⟩ := List.getElem?_eq_some_iff.mp hnext
  rw [← List.take_append_getElem hk, stream_concat, hget]

/-- The whole of the next message has been taken. -/
theorem taken_succ {m : M} (hnext : ms[k]? = some m) : Taken encode ms (k + 1) [] := by
  refine ⟨(List.getElem?_eq_some_iff.mp hnext).1, ?_⟩
  rw [List.append_nil]
  exact stream_mono encode (List.take_prefix _ _)

end FastKV.Lib
