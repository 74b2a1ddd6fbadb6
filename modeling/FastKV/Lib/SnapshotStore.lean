import Mathlib.Data.List.Basic
import Mathlib.Data.List.Nodup
import Mathlib.Tactic.Common

/-!
# Stores that give every client a snapshot

A map from keys to values, and clients that each look at the map as it was when they began,
under the writes they have made themselves. A commit puts the writes of a client into the map,
unless one of the keys it writes has been committed by another client in the meantime. There are
no versions, no timestamps and no collection of garbage: this is what such things are for.
-/

namespace FastKV.Lib

variable {K V : Type*}

/-- A map under some writes, newest first; `none` is a deletion. -/
def overlaid [DecidableEq K] (writes : List (K × Option V)) (m : K → Option V) (key : K) :
    Option V :=
  match writes.find? fun e => e.1 = key with
  | some e => e.2
  | none => m key

/-- A client between its begin and its end. -/
structure Client (K V : Type*) where
  /-- The map when it began. -/
  view : K → Option V
  /-- The keys that other clients have committed since. -/
  stale : K → Bool
  /-- Whether it only reads. -/
  readOnly : Bool
  /-- What it has written, newest first. -/
  writes : List (K × Option V)

/-- The map, and the clients in the order in which they began; `none` once they have ended. -/
structure SnapshotStore (K V : Type*) where
  /-- The committed values. -/
  map : K → Option V
  /-- The clients. -/
  clients : List (Option (Client K V))

/-- What a client reads. -/
def Client.read [DecidableEq K] (c : Client K V) (key : K) : Option V :=
  overlaid c.writes c.view key

/-- Whether the client has to give up. -/
def Client.conflicts (c : Client K V) : Bool := c.writes.any fun e => c.stale e.1

/-- A client after another one has committed. -/
def Client.after [DecidableEq K] (writes : List (K × Option V)) (c : Client K V) : Client K V :=
  { c with stale := fun key => c.stale key || writes.any fun e => e.1 = key }

namespace SnapshotStore

/-- The client of the given number. -/
def client (s : SnapshotStore K V) (i : ℕ) : Option (Client K V) := (s.clients[i]?).join

/-- A client begins. -/
def start (readOnly : Bool) (s : SnapshotStore K V) : SnapshotStore K V :=
  { s with clients := s.clients ++ [some ⟨s.map, fun _ => false, readOnly, []⟩] }

/-- A client writes. -/
def write (i : ℕ) (c : Client K V) (key : K) (value : Option V) (s : SnapshotStore K V) :
    SnapshotStore K V :=
  { s with clients := s.clients.set i (some { c with writes := (key, value) :: c.writes }) }

/-- A client ends. -/
def close (i : ℕ) (s : SnapshotStore K V) : SnapshotStore K V :=
  { s with clients := s.clients.set i none }

/-- A client commits; the result says whether it could. -/
def commit [DecidableEq K] (i : ℕ) (c : Client K V) (s : SnapshotStore K V) :
    Bool × SnapshotStore K V :=
  if c.conflicts then (false, s.close i)
  else
    (true, { map := overlaid c.writes s.map
             clients := (s.clients.set i none).map (Option.map (Client.after c.writes)) })

variable {s : SnapshotStore K V} {i j : ℕ} {c : Client K V}

/-- The clients after one has begun. -/
theorem client_start (readOnly : Bool) (s : SnapshotStore K V) (j : ℕ) :
    (s.start readOnly).client j =
      if j = s.clients.length then some ⟨s.map, fun _ => false, readOnly, []⟩ else s.client j := by
  unfold client start
  rcases Nat.lt_trichotomy j s.clients.length with hj | hj | hj
  · rw [List.getElem?_append_left hj, if_neg (Nat.ne_of_lt hj)]
  · rw [hj, List.getElem?_concat_length, if_pos rfl]
    rfl
  · rw [List.getElem?_eq_none (by simp; omega), if_neg (by omega),
      List.getElem?_eq_none (Nat.le_of_lt hj)]

/-- The clients after one of them has changed or ended. -/
theorem client_set (new : Option (Client K V)) {clients : List (Option (Client K V))}
    (hi : i < s.clients.length) (hset : clients = s.clients.set i new) (j : ℕ) :
    (clients[j]?).join = if j = i then new else s.client j := by
  subst hset
  unfold client
  by_cases hji : j = i
  · subst hji
    rw [List.getElem?_set_self hi, if_pos rfl]
    rfl
  · rw [List.getElem?_set_ne (Ne.symm hji), if_neg hji]

/-- There is no client beyond the last that has begun. -/
theorem lt_of_client (h : s.client i = some c) : i < s.clients.length := by
  by_contra hi
  rw [client, List.getElem?_eq_none (Nat.le_of_not_lt hi)] at h
  cases h

end SnapshotStore

/-- If no key is written twice, the order of the writes does not matter. -/
theorem overlaid_reverse [DecidableEq K] {writes : List (K × Option V)}
    (h : (writes.map Prod.fst).Nodup) (m : K → Option V) :
    overlaid writes.reverse m = overlaid writes m := by
  funext key
  have hfind : writes.reverse.find? (fun e => decide (e.1 = key)) =
      writes.find? fun e => decide (e.1 = key) := by
    induction writes with
    | nil => rfl
    | cons e writes ih =>
      obtain ⟨hfresh, hrest⟩ := List.nodup_cons.mp h
      rw [List.reverse_cons, List.find?_append, ih hrest, List.find?_cons]
      by_cases hkey : e.1 = key
      · have hnone : writes.find? (fun e => decide (e.1 = key)) = none := by
          refine List.find?_eq_none.mpr fun e' he' hc => hfresh ?_
          rw [hkey, ← of_decide_eq_true hc]
          exact List.mem_map_of_mem he'
        rw [hnone]
        simp [hkey]
      · simp [hkey]
  unfold overlaid
  rw [hfind]

end FastKV.Lib
