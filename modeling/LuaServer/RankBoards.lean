import LuaServer.ByteStrings
import LuaServer.KeySortedLists
import Mathlib.Data.Prod.Lex
import Mathlib.Order.OrderDual
import Mathlib.Logic.Function.Basic

/-!
# Rank boards

A board keeps the best records, at most one for each id, in the order of score,
time and id.  The C++ `Rank` keeps them in an order-statistics tree next to a
map from ids to iterators, `rank.lua` in a sorted array next to a map from ids
to records.  Both are given here as they are written, next to the board they
implement.
-/

namespace LuaServer

namespace RankBoards

/-- `Rankele`, the record of one id. -/
structure Rankele where
  id : ByteString
  score : Int
  tm : Int
  deriving DecidableEq, Repr

namespace Rankele

/-- `Rankele::operator<`, and `less` of `rank.lua`. -/
def less (lhs rhs : Rankele) : Bool :=
  if lhs.score ≠ rhs.score then lhs.score > rhs.score
  else if lhs.tm ≠ rhs.tm then lhs.tm < rhs.tm
  else lhs.id < rhs.id

/-- Higher scores first, then earlier times, then smaller ids. -/
def place (ele : Rankele) : Lex (Intᵒᵈ × Lex (Int × ByteString)) :=
  toLex (OrderDual.toDual ele.score, toLex (ele.tm, ele.id))

theorem less_iff {lhs rhs : Rankele} : lhs.less rhs = true ↔ lhs.place < rhs.place := by
  simp only [less, place, Prod.Lex.toLex_lt_toLex, OrderDual.toDual_lt_toDual,
    EmbeddingLike.apply_eq_iff_eq]
  split
  next differ => simp [differ]
  next same =>
    have sameScore : lhs.score = rhs.score := not_not.mp same
    split
    next differ => simp [sameScore, differ]
    next sameTm =>
      have equalTm : lhs.tm = rhs.tm := not_not.mp sameTm
      simp [sameScore, equalTm]

theorem place_injective {lhs rhs : Rankele} (same : lhs.place = rhs.place) : lhs = rhs := by
  obtain ⟨id, score, tm⟩ := lhs
  simp only [place, EmbeddingLike.apply_eq_iff_eq, Prod.mk.injEq] at same
  obtain ⟨rfl, rfl, rfl⟩ := same
  rfl

end Rankele

/-- `map` without the entry of `id`. -/
def eraseKey {Value : Type} (map : ByteString → Option Value) (id : ByteString) :
    ByteString → Option Value :=
  Function.update map id none

/-- The C++ board.  The tree is given by its elements in order, an iterator by
the element it points to. -/
structure Rank where
  ranks_ : KeySorted Rankele.place
  idIt_ : ByteString → Option Rankele
  max_ : Nat

namespace Rank

/-- A board as `Lrank::create` makes it. -/
def create (num : Nat) : Rank :=
  ⟨KeySorted.empty _, fun _ => none, num⟩

/-- `Rank::evict`. -/
def evict (rank : Rank) : Rank :=
  if rank.ranks_.elements.length ≤ rank.max_ then rank
  else
    match rank.ranks_.elements.getLast? with
    | none => rank
    | some last =>
        { rank with
          idIt_ := eraseKey rank.idIt_ last.id
          ranks_ := rank.ranks_.drop last.place }

/-- `Rank::add`. -/
def add (rank : Rank) (ele : Rankele) : Rank :=
  let rank :=
    match rank.idIt_ ele.id with
    | none => rank
    | some it =>
        { rank with
          ranks_ := rank.ranks_.drop it.place
          idIt_ := eraseKey rank.idIt_ ele.id }
  evict
    { rank with
      ranks_ := rank.ranks_.put ele
      -- `insert` keeps an entry that is already there.
      idIt_ :=
        match rank.idIt_ ele.id with
        | none => Function.update rank.idIt_ ele.id (some ele)
        | some _ => rank.idIt_ }

/-- `Rank::get_order`; `order_of_key` counts the smaller elements. -/
def getOrder (rank : Rank) (id : ByteString) : Int :=
  match rank.idIt_ id with
  | none => -1
  | some it => (rank.ranks_.below it.place).length + 1

end Rank

/-- `Lrank::get_order`, which pushes nothing unless the order is positive. -/
def Lrank.getOrder (rank : Rank) (id : ByteString) : Option Int :=
  let order := rank.getOrder id
  if order ≤ 0 then none else some order

/-- The board of `rank.lua`. -/
structure RankLua where
  num : Int
  arr : List Rankele
  map : ByteString → Option Rankele

namespace RankLua

/-- `rankarr[pos]`, with `nil` outside the array. -/
def index (arr : List Rankele) (pos : Int) : Option Rankele :=
  if 1 ≤ pos then arr[(pos - 1).toNat]? else none

/-- `table.remove(arr, pos)`; without a position it removes the last element. -/
def remove (arr : List Rankele) (pos : Option Int) : Option (List Rankele) :=
  match pos with
  | none => some arr.dropLast
  | some pos =>
      if pos = arr.length ∨ (1 ≤ pos ∧ pos ≤ arr.length + 1) then
        some (arr.eraseIdx (pos - 1).toNat)
      else none

/-- `table.insert(arr, pos, data)`. -/
def insert (arr : List Rankele) (pos : Int) (data : Rankele) : Option (List Rankele) :=
  if 1 ≤ pos ∧ pos ≤ arr.length + 1 then some (arr.insertIdx (pos - 1).toNat data) else none

/-- The loop of `lower_bound`.  Comparing with `nil` is an error. -/
def lowerBoundFrom (arr : List Rankele) (data : Rankele) (left right ans : Int) :
    Option Int :=
  if left ≤ right then
    let mid := (left + right) / 2
    match index arr mid with
    | none => none
    | some rdata =>
        if rdata.less data then lowerBoundFrom arr data (mid + 1) right ans
        else lowerBoundFrom arr data left (mid - 1) mid
  else some ans
termination_by (right + 1 - left).toNat
decreasing_by all_goals omega

/-- `lower_bound`. -/
def lowerBound (arr : List Rankele) (data : Rankele) : Option Int :=
  lowerBoundFrom arr data 1 arr.length (arr.length + 1)

/-- The loop of `binary_search`: an error, nothing, or a position and its
record. -/
def binarySearchFrom (arr : List Rankele) (data : Rankele) (left right : Int) :
    Option (Option (Int × Rankele)) :=
  if left ≤ right then
    let mid := (left + right) / 2
    match index arr mid with
    | none => none
    | some rdata =>
        if data.less rdata then binarySearchFrom arr data left (mid - 1)
        else if rdata.less data then binarySearchFrom arr data (mid + 1) right
        else some (some (mid, rdata))
  else some none
termination_by (right + 1 - left).toNat
decreasing_by all_goals omega

/-- `binary_search`. -/
def binarySearch (arr : List Rankele) (data : Rankele) :
    Option (Option (Int × Rankele)) :=
  binarySearchFrom arr data 1 arr.length

/-- `M.new`. -/
def new (num : Int) : RankLua :=
  ⟨num, [], fun _ => none⟩

/-- The first block of `M.add`: remove the old record of the id. -/
def removeOld (rank : RankLua) (id : ByteString) : Option RankLua :=
  match rank.map id with
  | none => some rank
  | some bdata => do
      let found ← binarySearch rank.arr bdata
      let arr ← remove rank.arr (found.map Prod.fst)
      return { rank with arr, map := eraseKey rank.map id }

/-- The last block of `M.add`: remove the last record of an overfull board. -/
def removeLast (rank : RankLua) : Option RankLua :=
  if (rank.arr.length : Int) > rank.num then do
    let last ← index rank.arr rank.arr.length
    let arr ← remove rank.arr (some rank.arr.length)
    return { rank with arr, map := eraseKey rank.map last.id }
  else some rank

/-- `M.add`, unless it raises an error. -/
def add (rank : RankLua) (data : Rankele) : Option RankLua := do
  let rank ← removeOld rank data.id
  let map := Function.update rank.map data.id (some data)
  let pos ← lowerBound rank.arr data
  let arr ← insert rank.arr pos data
  removeLast { rank with arr, map }

/-- `M.get_order`, unless it raises an error: nothing, or a position and its
record. -/
def getOrder (rank : RankLua) (id : ByteString) : Option (Option (Int × Rankele)) :=
  match rank.map id with
  | none => some none
  | some data => binarySearch rank.arr data

end RankLua

end RankBoards

end LuaServer
