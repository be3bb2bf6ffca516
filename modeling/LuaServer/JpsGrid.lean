import LuaServer.WaypointMerging

/-!
# The grid of the jump point search

The obstacle map of `Jps`, the forced neighbours `fneig` reports, and the
cache of jump lengths that `jpcache` fills line by line from the edges of the
map.
-/

namespace LuaServer

namespace Jps

open GridCell MachineIntegers FueledLoops

/-- The map part of `Jps`. -/
structure Grid where
  len : Int
  wid : Int
  obstacle_ : Pos → Bool
  lenRange : 1 ≤ len ∧ len ≤ 32767
  widRange : 1 ≤ wid ∧ wid ≤ 32767

/-- `Pcache`: the jump length in each straight direction. -/
structure Pcache where
  up : Int
  down : Int
  left : Int
  right : Int
  deriving DecidableEq, Repr

abbrev Cache := Pos → Pcache

/-- `p.x_ += d.x_; p.y_ += d.y_` on 16-bit coordinates. -/
def shift (p d : Pos) : Pos :=
  ⟨toInt16 (p.x + d.x), toInt16 (p.y + d.y)⟩

namespace Grid

/-- The constructor `Jps::Jps`: a map without obstacles. -/
def new (len wid : Int) (lenRange : 1 ≤ len ∧ len ≤ 32767)
    (widRange : 1 ≤ wid ∧ wid ≤ 32767) : Grid :=
  { len, wid, obstacle_ := fun _ => false, lenRange, widRange }

/-- `Jps::inarea`. -/
def inarea (g : Grid) (p : Pos) : Bool :=
  p.x ≥ 0 && p.x ≤ g.len - 1 && p.y ≥ 0 && p.y ≤ g.wid - 1

/-- `Jps::obstacle`: everything outside the map is an obstacle. -/
def obstacle (g : Grid) (p : Pos) : Bool :=
  if !g.inarea p then true else g.obstacle_ p

/-- `Jps::set_obstacle`. -/
def setObstacle (g : Grid) (p : Pos) (v : Bool) : Grid :=
  if !g.inarea p then g
  else { g with obstacle_ := Function.update g.obstacle_ p v }

def Free (g : Grid) (p : Pos) : Prop :=
  g.obstacle p = false

instance (g : Grid) (p : Pos) : Decidable (g.Free p) :=
  inferInstanceAs (Decidable (_ = _))

/-- The positions and directions `fneig` passes to its callback, in order. -/
def fneig (g : Grid) (p d : Pos) : List (Pos × Pos) :=
  let p1 := shift p ⟨d.y, d.x⟩
  let p11 := shift p1 d
  let p2 := shift p ⟨-d.y, -d.x⟩
  let p21 := shift p2 d
  (if g.inarea p1 && g.obstacle p1 && !g.obstacle p11 then
    [(p11, ⟨d.x + d.y, d.y + d.x⟩)] else []) ++
  (if g.inarea p2 && g.obstacle p2 && !g.obstacle p21 then
    [(p21, ⟨d.x - d.y, d.y - d.x⟩)] else [])

end Grid

/-- `Jps::setcache`. -/
def setcache (cache : Cache) (p d : Pos) (v : Int) : Cache :=
  fun q =>
    let pcache := cache q
    if q = p then
      let pcache := if d = ⟨0, 1⟩ then { pcache with up := v } else pcache
      let pcache := if d = ⟨0, -1⟩ then { pcache with down := v } else pcache
      let pcache := if d = ⟨-1, 0⟩ then { pcache with left := v } else pcache
      if d = ⟨1, 0⟩ then { pcache with right := v } else pcache
    else pcache

/-- `Jps::getcache`. -/
def getcache (cache : Cache) (p d : Pos) : Int :=
  let pcache := cache p
  if d = ⟨0, 1⟩ then pcache.up
  else if d = ⟨0, -1⟩ then pcache.down
  else if d = ⟨-1, 0⟩ then pcache.left
  else if d = ⟨1, 0⟩ then pcache.right
  else 0

section LineCache

variable (g : Grid) (d : Pos)

/-- The first loop of `linecache`: mark leading obstacles. -/
def skipBody : Pos × Cache → (Pos × Cache) ⊕ (Pos × Cache)
  | (q, cache) =>
      if g.inarea q && g.obstacle q then .inl (shift q d, setcache cache q d 0)
      else .inr (q, cache)

/-- The second loop of `linecache`: walk to an obstacle or a forced
neighbour. -/
def runBody : Pos × Int → (Pos × Int) ⊕ (Pos × Int)
  | (t, i) =>
      let m := !(g.fneig t d).isEmpty
      if g.obstacle t || (m && i ≠ 0) then .inr (t, i)
      else .inl (shift t d, toInt16 (i + 1))

/-- One round of the third loop of `linecache`. -/
def fillCell (q : Pos) (i : Int) (cache : Cache) (j : Nat) : Cache :=
  setcache cache ⟨toInt16 (q.x + d.x * j), toInt16 (q.y + d.y * j)⟩ d
    (toInt16 (i - j))

/-- The third loop of `linecache`: the cells of the run from `q` on get their
distance to its end. -/
def fillRun (q : Pos) (i : Int) (cache : Cache) : Cache :=
  (List.range (i + 1).toNat).foldl (fillCell d q i) cache

/-- `Jps::linecache` on fuel, which also bounds its inner loops. -/
def linecache : Nat → Pos → Cache → Option Cache
  | 0, _, _ => none
  | fuel + 1, p, cache =>
      match loop (skipBody g d) fuel (p, cache) with
      | none => none
      | some (q, cache) =>
          if !g.inarea q then some cache
          else
            match loop (runBody g d) fuel (q, 0) with
            | none => none
            | some (t, i) =>
                let i := if g.obstacle t then i - 1 else i
                linecache fuel t (fillRun d q i cache)

end LineCache

/-- One column of `jpcache`, upwards and downwards. -/
def columnCache (g : Grid) (fuel : Nat) (cache : Cache) (i : Nat) :
    Option Cache :=
  (linecache g ⟨0, 1⟩ fuel ⟨i, 0⟩ cache).bind
    (linecache g ⟨0, -1⟩ fuel ⟨i, g.wid - 1⟩)

/-- One row of `jpcache`, to the right and to the left. -/
def rowCache (g : Grid) (fuel : Nat) (cache : Cache) (j : Nat) :
    Option Cache :=
  (linecache g ⟨1, 0⟩ fuel ⟨0, j⟩ cache).bind
    (linecache g ⟨-1, 0⟩ fuel ⟨g.len - 1, j⟩)

/-- `Jps::jpcache` on fuel. -/
def jpcache (g : Grid) (fuel : Nat) : Option Cache :=
  ((List.range g.len.toNat).foldlM (columnCache g fuel)
    fun _ => ⟨0, 0, 0, 0⟩).bind
      fun cache => (List.range g.wid.toNat).foldlM (rowCache g fuel) cache

/-- `cache` is what `jpcache` leaves in `jpcache_`. -/
def Cached (g : Grid) (cache : Cache) : Prop :=
  ∃ fuel, jpcache g fuel = some cache

end Jps

end LuaServer
