import LuaServer.ByteStrings
import LuaServer.KeySortedLists
import LuaServer.MachineIntegers
import Mathlib.Logic.Function.Basic

/-!
# The version core

`Version` keeps for every key the version of its last change, in both
directions.  A reader asks for the keys changed after its cursor, a page at a
time, in the order of their versions.
-/

namespace LuaServer

namespace Versions

open MachineIntegers

/-- An entry of `version_rawkey_`. -/
abbrev Entry := Int × ByteString

/-- `struct Version`. -/
structure Version where
  versionRawkey_ : KeySorted (Prod.fst : Entry → Int)
  rawkeyVersion_ : ByteString → Option Int

namespace Version

/-- A new core. -/
def create : Version :=
  ⟨KeySorted.empty _, fun _ => none⟩

/-- `Version::add`. -/
def add (ver : Version) (key : ByteString) (version : Int) : Version :=
  match ver.versionRawkey_.find version with
  | some _ => ver
  | none =>
      let versionRawkey :=
        match ver.rawkeyVersion_ key with
        | none => ver.versionRawkey_
        | some old => ver.versionRawkey_.drop old
      { versionRawkey_ := versionRawkey.put (version, key)
        rawkeyVersion_ := Function.update ver.rawkeyVersion_ key (some version) }

/-- `Version::last`. -/
def last (ver : Version) : Option Entry :=
  ver.versionRawkey_.elements.getLast?

/-- The entries the loop of `version_after` takes from `rest` when it has taken
`c` already: at least one, and otherwise up to `num`. -/
def takePage (num : Int) : Int → List Entry → List Entry
  | _, [] => []
  | c, entry :: rest =>
      if c + 1 ≥ num then [entry] else entry :: takePage num (c + 1) rest

/-- The local `num` of `version_after`, a hundred unless the third argument is an
integer. -/
def pageSize : Option Int → Int
  | none => 100
  | some num => toInt32 num

/-- The entries a call of `version_after` reports. -/
def page (ver : Version) (version : Int) (num : Option Int) : List Entry :=
  takePage (pageSize num) 0 (ver.versionRawkey_.afterKey version)

/-- `Version::version_after`: nothing, or the keys of the page followed by its
last version. -/
def versionAfter (ver : Version) (version : Int) (num : Option Int) :
    Option (List ByteString × Int) :=
  let entries := ver.page version num
  entries.getLast?.map fun entry => (entries.map Prod.snd, entry.1)

end Version

end Versions

end LuaServer
