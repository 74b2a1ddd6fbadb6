import FastKV.Db
import FastKV.OrderedIndex

/-!
# Cursors

The cursor half of `api/kv_api.c`. Opening a cursor copies the whole B+tree; from then on
seeking and stepping only move a position in the copy. Allocations succeed here.
-/

namespace FastKV

open Lib BTree

/-- `struct fastkv_cursor`. -/
structure Cursor where
  /-- The copied entries. -/
  entries : List (Bytes × Bytes)
  /-- The current position, which can lie in front of the entries and behind them. -/
  pos : ℤ
  /-- The direction of `fastkv_cursor_next`. -/
  dir : CursorDir
  deriving DecidableEq

/-- `snap_collect`. -/
def snapCollect (s : List (Bytes × Bytes)) (key val : Bytes) : Err × List (Bytes × Bytes) :=
  (.ok, s ++ [(key, val)])

/-- `fastkv_cursor_open`. Of the transaction only the database is used. -/
def cursorOpen (db : Db) (dir : CursorDir) : Except Err Cursor :=
  match btreeScan db.btree none none .forward snapCollect [] with
  | (.ok, entries) => .ok ⟨entries, if dir = .forward then 0 else entries.length - 1, dir⟩
  | (rc, _) => .error rc

/-- `fastkv_cursor_seek`. -/
def cursorSeek (c : Cursor) (key : Bytes) : Err × Cursor :=
  let lo := lowerBound (fun mid => BTree.cmp (c.entries.getD mid ([], [])).1 key = Ordering.lt)
    c.entries.length 0
    c.entries.length
  if c.entries.length ≤ lo then (.cursorEof, c) else (.ok, { c with pos := lo })

/-- `fastkv_cursor_next`. -/
def cursorNext (c : Cursor) : Err × Cursor :=
  match c.dir with
  | .forward =>
    let pos := c.pos + 1
    (if c.entries.length ≤ pos then .cursorEof else .ok, { c with pos })
  | .backward =>
    let pos := c.pos - 1
    (if pos < 0 then .cursorEof else .ok, { c with pos })

/-- The entry under the cursor. -/
def Cursor.entry (c : Cursor) : Except Err (Bytes × Bytes) :=
  if c.pos < 0 ∨ c.entries.length ≤ c.pos then .error .cursorEof
  else .ok (c.entries.getD c.pos.toNat ([], []))

/-- `fastkv_cursor_key`. -/
def cursorKey (c : Cursor) : Except Err Bytes := c.entry.map Prod.fst

/-- `fastkv_cursor_value`. -/
def cursorValue (c : Cursor) : Except Err Bytes := c.entry.map Prod.snd

/-- Looking a key up with a cursor: seek it and read the value if the cursor stands on it. -/
def Cursor.lookup (c : Cursor) (key : Bytes) : Option Bytes :=
  match cursorSeek c key with
  | (.ok, c) => if cursorKey c = .ok key then (cursorValue c).toOption else none
  | _ => none

/-! ## Opening and seeking -/

/-- A new cursor holds the entries of the tree in order. -/
theorem cursorOpen_eq {db : Db} (hwf : db.btree.WellFormed) (hlinked : db.btree.Linked)
    (dir : CursorDir) : cursorOpen db dir =
      .ok ⟨db.btree.toMap, if dir = .forward then 0 else db.btree.toMap.length - 1, dir⟩ := by
  have hall : db.btree.range none none = db.btree.toMap := by
    simp only [BTree.range, Option.all_none, Bool.and_self, List.filter_true]
  have hscan : btreeScan db.btree none none .forward snapCollect [] = (.ok, db.btree.toMap) := by
    rw [btreeScan_forward hwf hlinked, hall]
    exact congrArg scanResult (feed_collectAll db.btree.toMap [])
  simp only [cursorOpen, hscan]

/-- A seek goes behind the entries with smaller keys. -/
theorem cursorSeek_eq {c : Cursor} (h : SortedKeys c.entries) (key : Bytes) :
    cursorSeek c key = if c.entries.length ≤ below c.entries key then (.cursorEof, c)
      else (.ok, { c with pos := (below c.entries key : ℤ) }) := by
  have hlower : lowerBound (fun mid => BTree.cmp (c.entries.getD mid ([], [])).1 key = Ordering.lt)
      c.entries.length 0 c.entries.length = below c.entries key := leafLower_eq h key
  rw [cursorSeek]
  simp only [hlower]

/-- Looking a key up with a cursor is a lookup among its entries. -/
theorem Cursor.lookup_eq {c : Cursor} (h : SortedKeys c.entries) (key : Bytes) :
    c.lookup key = Lib.find c.entries key := by
  rw [h.find_eq, Cursor.lookup, cursorSeek_eq h]
  by_cases hend : c.entries.length ≤ below c.entries key
  · rw [if_pos hend, List.getElem?_eq_none hend]
    rfl
  · have hlt : below c.entries key < c.entries.length := by omega
    have hentry : ({ c with pos := (below c.entries key : ℤ) } : Cursor).entry =
        .ok c.entries[below c.entries key] := by
      unfold Cursor.entry
      rw [if_neg (by simp only; omega)]
      simp [List.getD_eq_getElem?_getD, List.getElem?_eq_getElem hlt]
    rw [if_neg hend, List.getElem?_eq_getElem hlt, Option.bind_some]
    simp only [cursorKey, cursorValue, hentry, Except.map, Except.ok.injEq]
    by_cases hkey : c.entries[below c.entries key].1 = key
    · rw [if_pos hkey, if_pos hkey]
      rfl
    · rw [if_neg hkey, if_neg hkey]

end FastKV
