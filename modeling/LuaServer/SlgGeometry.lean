import LuaServer.WaypointMerging

/-!
# Segments and rectangles of the strategy map

A troop on its way is seen by everyone whose rectangle its segment meets.  The
old and the new map test this with the same functions.
-/

namespace LuaServer

namespace Slg

open MachineIntegers

/-- `inarea`. -/
def inarea (p bl tr : Pos) : Bool :=
  if p.x < bl.x then false
  else if p.x > tr.x then false
  else if p.y < bl.y then false
  else if p.y > tr.y then false
  else true

theorem inarea_iff {p bl tr : Pos} :
    inarea p bl tr ↔ bl.x ≤ p.x ∧ p.x ≤ tr.x ∧ bl.y ≤ p.y ∧ p.y ≤ tr.y := by
  simp only [inarea]
  split_ifs <;> simp <;> omega

/-- `cross`, whose conversion to `float` keeps the sign. -/
def cross (a b c : Pos) : Int :=
  let vab : Pos := ⟨toInt16 (b.x - a.x), toInt16 (b.y - a.y)⟩
  let vac : Pos := ⟨toInt16 (c.x - a.x), toInt16 (c.y - a.y)⟩
  vab.x * vac.y - vac.x * vab.y

/-- `intersect`. -/
def intersect (a b c d : Pos) : Bool :=
  if max a.x b.x < min c.x d.x ∨ max c.x d.x < min a.x b.x ∨
      max a.y b.y < min c.y d.y ∨ max c.y d.y < min a.y b.y then
    false
  else
    let c1 := cross a b c
    let c2 := cross a b d
    let c3 := cross c d a
    let c4 := cross c d b
    decide (c1 * c2 ≤ 0) && decide (c3 * c4 ≤ 0)

/-- `World::inview` and `Map::march_in_vision`. -/
def inview (n e bl tr : Pos) : Bool :=
  if inarea n bl tr || inarea e bl tr then true
  else
    let p1 : Pos := ⟨bl.x, bl.y⟩
    let p2 : Pos := ⟨bl.x, tr.y⟩
    let p3 : Pos := ⟨tr.x, tr.y⟩
    let p4 : Pos := ⟨tr.x, bl.y⟩
    intersect n e p1 p2 || intersect n e p2 p3 || intersect n e p3 p4 || intersect n e p4 p1

end Slg

end LuaServer
