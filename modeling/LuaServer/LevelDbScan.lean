import LuaServer.ByteStrings
import LuaServer.KeySortedLists
import LuaServer.MachineIntegers

/-!
# Scanning the store

The fields of a key are stored under raw keys, which are the key, a separator
and the field.  A scan runs over the raw keys from a cursor on and returns the
matching keys, or the matching fields with their values, followed by the raw
key of the next one when there are more than it was asked for.  A reader goes
on from there until it gets the cursor `"0"`.
-/

namespace LuaServer

namespace LevelDb

open MachineIntegers

abbrev RawEntry := ByteString × ByteString

/-- The contents of the store in the order of the raw keys. -/
abbrev Db := KeySorted (Prod.fst : RawEntry → ByteString)

/-- `SPLIT`, and `SEPARATOR` of `db.lua`. -/
def SPLIT : Byte := 255

/-- The key and the field of a raw key, which are cut at its first `SPLIT`. -/
def splitRawkey (rawkey : ByteString) : Option (ByteString × ByteString) :=
  match rawkey.dropWhile (· ≠ SPLIT) with
  | [] => none
  | _ :: field => some (rawkey.takeWhile (· ≠ SPLIT), field)

/-- What a C function sees of a string. -/
def cString (str : ByteString) : ByteString :=
  str.takeWhile (· ≠ 0)

section Scans

variable {State : Type*}

/-- The loop of `db_iter`.  The callback returns whether to go on. -/
def iterate (end_ : ByteString)
    (cb : State → ByteString → ByteString → ByteString → State × Bool) :
    List RawEntry → State → State
  | [], state => state
  | (rawkey, val) :: entries, state =>
      if rawkey < end_ then
        match splitRawkey rawkey with
        | none => iterate end_ cb entries state
        | some (key, field) =>
            match cb state key field val with
            | (state, true) => iterate end_ cb entries state
            | (state, false) => state
      else state

/-- `db_iter`, which starts at the first raw key not below `start`. -/
def dbIter (db : Db) (start end_ : ByteString)
    (cb : State → ByteString → ByteString → ByteString → State × Bool) (state : State) :
    State :=
  iterate end_ cb (db.fromKey start) state

variable (fnmatch : ByteString → ByteString → Int)

/-- The callback of a scan for keys, with the array, whose length is `c`, and
the local `last`. -/
def keyCallback (patt : ByteString) (count : Int) (state : List ByteString × ByteString)
    (key field _val : ByteString) : (List ByteString × ByteString) × Bool :=
  let (arr, last) := state
  if fnmatch (cString patt) (cString key) ≠ 0 then (state, true)
  else if last = key then (state, true)
  else if (arr.length : Int) < count then ((arr ++ [key], key), true)
  else ((arr ++ [key ++ SPLIT :: field], key), false)

/-- The callback of a scan for fields. -/
def fieldCallback (patt : ByteString) (count : Int) (arr : List ByteString)
    (key field val : ByteString) : List ByteString × Bool :=
  if fnmatch (cString patt) (cString field) ≠ 0 then (arr, true)
  else if (arr.length : Int) < toInt32 (2 * count) then (arr ++ [field, val], true)
  else (arr ++ [key ++ SPLIT :: field], false)

/-- `scan` of `lleveldb.cc`. -/
def scan (db : Db) (start end_ patt : ByteString) (count : Int) (scankey : Bool) :
    List ByteString :=
  let count := toInt32 count
  if scankey then (dbIter db start end_ (keyCallback fnmatch patt count) ([], [])).1
  else dbIter db start end_ (fieldCallback fnmatch patt count) []

namespace M

/-- `scan` of `db.lua`.  A cursor that is not a string is nothing here. -/
def scan (patt : Option ByteString) (db : Db) (cursor : Option ByteString)
    (count : Option Int) : Option ByteString × List ByteString :=
  let patt := patt.getD [42]
  let count := count.getD 10
  let start := cursor.getD []
  let end_ := [SPLIT]
  let arr := LevelDb.scan fnmatch db start end_ patt count true
  if (arr.length : Int) > count then (arr.getLast?, arr.dropLast) else (some [48], arr)

/-- `hscan` of `db.lua`. -/
def hscan (key : ByteString) (patt : Option ByteString) (db : Db)
    (cursor : Option ByteString) (count : Option Int) :
    Option ByteString × List ByteString :=
  let patt := patt.getD [42]
  let count := count.getD 10
  let start := cursor.getD (key ++ [SPLIT])
  let end_ := key ++ [SPLIT, SPLIT]
  let arr := LevelDb.scan fnmatch db start end_ patt count false
  if (arr.length : Int) > toInt64 (2 * count) then (arr.getLast?, arr.dropLast)
  else (some [48], arr)

end M

end Scans

/-- A write, or the reader's request for its next page. -/
inductive Event where
  | put (rawkey val : ByteString)
  | del (rawkey : ByteString)
  | page (count : Option Int)
  deriving DecidableEq, Repr

/-- The store, the cursor of a reader, and the elements of its pages. -/
structure Traversal where
  db : Db
  cursor : Option ByteString
  reported : List ByteString

namespace Traversal

variable (ask : Db → Option ByteString → Option Int → Option ByteString × List ByteString)

/-- The reader is done when its cursor is `"0"`. -/
def step (traversal : Traversal) : Event → Traversal
  | .put rawkey val => { traversal with db := traversal.db.put (rawkey, val) }
  | .del rawkey => { traversal with db := traversal.db.drop rawkey }
  | .page count =>
      if traversal.cursor = some [48] then traversal
      else
        let (cursor, arr) := ask traversal.db traversal.cursor count
        { traversal with cursor, reported := traversal.reported ++ arr }

def run (db : Db) (events : List Event) : Traversal :=
  events.foldl (step ask) ⟨db, none, []⟩

end Traversal

end LevelDb

end LuaServer
