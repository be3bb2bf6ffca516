import LuaServer.JpsGrid
import LuaServer.OrderedMultisets
import Mathlib.Data.Nat.Sqrt

/-!
# The jump point search

`Jps::find` as a machine that makes one small step at a time: pop a state from
the open list, start the next direction of a popped state, or make a third of
a round of the diagonal walk of `step`.  A `step` in a straight direction has
no loop and is one step of the machine, also where the diagonal walk calls it.
-/

namespace LuaServer

namespace Jps

open GridCell MachineIntegers PredecessorLinks OrderedMultisets FueledLoops

/-- `Jps::State`. -/
structure State where
  x : Int
  y : Int
  cost : Int
  weigh : Int
  dx : Int
  dy : Int
  deriving DecidableEq, Repr

def LWEI : Int := 100
def HWEI : Int := 141

/-- `Jps::cost`: a hundred times the distance, rounded down. -/
def cost (p1 p2 : Pos) : Int :=
  let dx := toInt16 (p1.x - p2.x)
  let dy := toInt16 (p1.y - p2.y)
  Nat.sqrt (10000 * (dx * dx + dy * dy).toNat)

/-- What `find` is asked: a map with an up-to-date jump cache, the two ends
and the way states are weighed. -/
structure Query where
  grid : Grid
  cache : Cache
  cached : Cached grid cache
  quick : Bool
  start_ : Pos
  end_ : Pos

/-- Ask for a path after `jpcache` has run. -/
def Query.ask (grid : Grid) (fuel : Nat) (ready : (jpcache grid fuel).isSome = true)
    (quick : Bool) (start_ end_ : Pos) : Query where
  grid := grid
  cache := (jpcache grid fuel).get ready
  cached := ⟨fuel, by simp⟩
  quick := quick
  start_ := start_
  end_ := end_

/-- The members of `Jps` that `find` works on. -/
structure Search where
  openlist : List State
  closelist : List Pos
  pre : Pos → Option Pos

namespace State

def pos (s : State) : Pos :=
  ⟨s.x, s.y⟩

/-- `s.x_ += d.x_; s.y_ += d.y_;` -/
def moved (s : State) (d : Pos) : State :=
  { s with x := toInt16 (s.x + d.x), y := toInt16 (s.y + d.y) }

/-- `s.cost_ += weight;` -/
def paid (s : State) (weight : Int) : State :=
  { s with cost := toInt32 (s.cost + weight) }

end State

section Steps

variable (q : Query)

/-- `Jps::addjp`. -/
def addjp (search : Search) (s : State) (pre : Pos) : Search × Bool :=
  let ps := s.pos
  if (search.pre ps).isSome then (search, false)
  else
    let weigh :=
      if ps = q.end_ then 0
      else if q.quick then cost ps q.end_
      else toInt32 (cost ps q.end_ + s.cost)
    ({ search with
        openlist := insertAfter State.weigh { s with weigh } search.openlist
        pre := insertLink search.pre (ps, pre) }, true)

/-- `Jps::addfn`: the flag is that of the last forced neighbour. -/
def addfn (search : Search) (s : State) (d : Pos) : Search × Bool :=
  (q.grid.fneig s.pos d).foldl
    (fun (search, _) (np, nd) =>
      addjp q search ⟨np.x, np.y, toInt32 (s.cost + HWEI), 0, nd.x, nd.y⟩ s.pos)
    (search, false)

/-- `Jps::checkend`. -/
def checkend (p1 p2 : Pos) : Bool :=
  if p1 = q.end_ || p2 = q.end_ then true
  else
    let v1e : Pos := ⟨toInt16 (q.end_.x - p1.x), toInt16 (q.end_.y - p1.y)⟩
    let ve2 : Pos := ⟨toInt16 (p2.x - q.end_.x), toInt16 (p2.y - q.end_.y)⟩
    if v1e.x * ve2.x + v1e.y * ve2.y < 0 then false
    else v1e.x * ve2.y == v1e.y * ve2.x

/-- `if (pre_.find(ps) == pre_.end()) pre_[ps] = pre;` -/
def setpre (search : Search) (ps pre : Pos) : Search :=
  { search with pre := insertLink search.pre (ps, pre) }

/-- `Jps::step` in a straight direction. -/
def stepStraight (search : Search) (st : State) (d : Pos) : Search × Bool :=
  let s := { st with dx := d.x, dy := d.y }
  let ps := s.pos
  if q.grid.obstacle ps then (search, false)
  else
    let len := getcache q.cache ps d
    if len ≤ 0 then (search, false)
    else
      let ns := (s.moved ⟨d.x * len, d.y * len⟩).paid (LWEI * len)
      let pe := ns.pos
      if checkend q ps pe then
        ((addjp q search ⟨q.end_.x, q.end_.y, 0, 0, 0, 0⟩ ps).1, true)
      else
        let added := addfn q search ns d
        if added.2 then ((addjp q added.1 ns ps).1, true)
        else (added.1, false)

end Steps

/-- The directions in which `find` expands a popped state. -/
def dirs (st : State) : List Pos :=
  let dx := toInt8 st.dx
  let dy := toInt8 st.dy
  if dx = 0 ∧ dy = 0 then
    [⟨0, 1⟩, ⟨0, -1⟩, ⟨1, 0⟩, ⟨-1, 0⟩, ⟨1, 1⟩, ⟨1, -1⟩, ⟨-1, 1⟩, ⟨-1, -1⟩]
  else if dx ≠ 0 ∧ dy ≠ 0 then [⟨dx, 0⟩, ⟨0, dy⟩, ⟨dx, dy⟩]
  else [⟨dx, dy⟩]

/-- Where `find` is: at the head of its loop, before the directions that are
left for a popped state `st`, or in the diagonal walk of one of them.  The walk
is at the head of its loop, or has moved `s` to a new cell and is about to call
`step` in the horizontal or the vertical direction; `r1` is what the first of
these calls returned. -/
inductive Phase where
  | pop
  | directions (st : State) (dirs : List Pos)
  | diagonal (st : State) (d : Pos) (s : State) (dirs : List Pos)
  | horizontal (st : State) (d : Pos) (s : State) (dirs : List Pos)
  | vertical (st : State) (d : Pos) (s : State) (r1 : Bool) (dirs : List Pos)

structure Config where
  search : Search
  phase : Phase

section Find

variable (q : Query)

/-- One small step of `find`.  It leaves with the predecessors when `end_` is
popped, and with nothing when the open list is empty. -/
def tick (config : Config) : Config ⊕ Option (Pos → Option Pos) :=
  let search := config.search
  match config.phase with
  | .pop =>
      match search.openlist with
      | [] => .inr none
      | st :: openlist =>
          let search := { search with openlist }
          if st.pos ∈ search.closelist then .inl ⟨search, .pop⟩
          else
            let search := { search with closelist := st.pos :: search.closelist }
            if q.end_ = st.pos then .inr (some search.pre)
            else .inl ⟨search, .directions st (dirs st)⟩
  | .directions _ [] => .inl ⟨search, .pop⟩
  | .directions st (d :: dirs) =>
      if d.x = 0 ∨ d.y = 0 then
        .inl ⟨(stepStraight q search st d).1, .directions st dirs⟩
      else
        .inl ⟨search, .diagonal st d { st with dx := d.x, dy := d.y } dirs⟩
  | .diagonal st d s dirs =>
      let added1 := addfn q search s ⟨d.x, 0⟩
      let added2 := addfn q added1.1 s ⟨0, d.y⟩
      let search := added2.1
      let next := (s.moved d).paid HWEI
      if added1.2 || added2.2 then
        let search := if s.pos = st.pos then search else setpre search s.pos st.pos
        .inl ⟨(addjp q search next st.pos).1, .directions st dirs⟩
      else if next.pos = q.end_ then
        .inl ⟨(addjp q search next st.pos).1, .directions st dirs⟩
      else if q.grid.obstacle next.pos then .inl ⟨search, .directions st dirs⟩
      else if (search.pre next.pos).isSome then .inl ⟨search, .directions st dirs⟩
      else .inl ⟨search, .horizontal st d next dirs⟩
  | .horizontal st d s dirs =>
      let stepped := stepStraight q search s ⟨d.x, 0⟩
      .inl ⟨stepped.1, .vertical st d s stepped.2 dirs⟩
  | .vertical st d s r1 dirs =>
      let stepped := stepStraight q search s ⟨0, d.y⟩
      if r1 || stepped.2 then
        let search := setpre stepped.1 s.pos st.pos
        let beyond := s.moved d
        if q.grid.obstacle beyond.pos then .inl ⟨search, .directions st dirs⟩
        else
          .inl ⟨(addjp q search (beyond.paid HWEI) st.pos).1, .directions st dirs⟩
      else .inl ⟨stepped.1, .diagonal st d s dirs⟩

/-- The search before its first small step. -/
def initial : Config where
  search :=
    { openlist := [⟨q.start_.x, q.start_.y, 0, cost q.start_ q.end_, 0, 0⟩]
      closelist := []
      pre := fun _ => none }
  phase := .pop

/-- Both ends are free and different, so that there is something to search. -/
structure Searches : Prop where
  startFree : q.grid.Free q.start_
  endFree : q.grid.Free q.end_
  different : q.start_ ≠ q.end_

/-- `Jps::find` on fuel; the result is the vector `ret_`. -/
def find (fuel : Nat) : Option (List Pos) :=
  if q.grid.obstacle q.start_ || q.grid.obstacle q.end_ then some []
  else if q.start_ = q.end_ then some []
  else findPath (tick q) (initial q) q.end_ fuel

/-- `find` returns with `ret`. -/
def Finds (ret : List Pos) : Prop :=
  ∃ fuel, find q fuel = some ret

/-- A configuration the search of `find` passes through. -/
def Reaches (config : Config) : Prop :=
  Searches q ∧ Relation.ReflTransGen (Continues (tick q)) (initial q) config

variable {q}

theorem finds_iff (searches : Searches q) {ret : List Pos} :
    Finds q ret ↔ ∃ fuel, findPath (tick q) (initial q) q.end_ fuel = some ret := by
  have startFree : q.grid.obstacle q.start_ = false := searches.startFree
  have endFree : q.grid.obstacle q.end_ = false := searches.endFree
  simp only [Finds, find, startFree, endFree, Bool.or_self, Bool.false_eq_true, if_false,
    searches.different]

theorem finds_nil_of_not_searches (idle : ¬ Searches q) {ret : List Pos} :
    Finds q ret ↔ ret = [] := by
  have immediate : ∀ fuel, find q fuel = some [] := by
    intro fuel
    by_cases blocked : q.grid.obstacle q.start_ = true ∨ q.grid.obstacle q.end_ = true
    · simp [find, blocked]
    · have same : q.start_ = q.end_ := by
        by_contra different
        push Not at blocked
        exact idle ⟨by simpa [Grid.Free] using blocked.1,
          by simpa [Grid.Free] using blocked.2, different⟩
      simp [find, same]
  constructor
  · rintro ⟨fuel, returned⟩
    exact Option.some.inj (returned.symm.trans (immediate fuel))
  · rintro rfl
    exact ⟨0, immediate 0⟩

end Find

end Jps

end LuaServer
