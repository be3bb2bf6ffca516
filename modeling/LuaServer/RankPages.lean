import LuaServer.RankAgreement
import LuaServer.MachineIntegers

/-!
# Pages of a rank board

`Lrank::info` walks from the iterator of the lower bound to the iterator of the upper
one.  A bound that is negative as an `int` is huge as an order, so its iterator is the
end, and an iterator that starts behind the last one never meets it.  Before that it
reserves three slots for every order between the bounds, as an `int`.  `M.info` of
`rank.lua` counts instead, and skips the orders without a record.
-/

namespace LuaServer

namespace RankBoards

open MachineIntegers

/-- `find_by_order`: the position of an iterator, which is the size at the end. -/
def Rank.findByOrder (rank : Rank) (order : Int) : Nat :=
  min order.toNat rank.ranks_.elements.length

/-- The loop of `Lrank::info` from position `it`, where `rest` are the records: nothing
when it goes on at the end of the tree. -/
def infoFrom (last : Nat) : Nat → List Rankele → Option (List Rankele)
  | it, [] => if it = last then some [] else none
  | it, ele :: rest => if it = last then some [] else (infoFrom last (it + 1) rest).map (ele :: ·)

/-- The loop of `Lrank::info` with the bounds as it has them. -/
def Lrank.walk (rank : Rank) (lb ub : Int) : Option (List Rankele) :=
  let it := rank.findByOrder (toSizeT lb)
  infoFrom (rank.findByOrder (toSizeT ub)) it (rank.ranks_.elements.drop it)

/-- `Lrank::info`, with the records whose fields it pushes: nothing when an `int`
overflows or `lua_createtable` has no room for the slots. -/
def Lrank.info (room : Nat) (rank : Rank) (lb ub : Int) : Option (List Rankele) :=
  let size : Int := rank.ranks_.elements.length
  let lb := toInt32 (lb - 1)
  let ub := toInt32 ub
  let ub := if toSizeT ub > size then toInt32 size else ub
  let slots := (ub - lb) * 3
  -- `lua_createtable` takes a negative number of slots for none.
  if slots < -2147483648 ∨ 2147483647 < slots ∨ (room : Int) < slots then none
  else Lrank.walk rank lb ub

/-- `M.info`.  Inserting `nil` at the end changes nothing. -/
def RankLua.info (rank : RankLua) (lb ub : Int) : List Rankele :=
  let ub := if ub > rank.arr.length then (rank.arr.length : Int) else ub
  (List.range (ub + 1 - lb).toNat).filterMap fun i : Nat => index rank.arr (lb + i)

/-- The records with the orders from `max lb 1` to `min ub size`. -/
def page (records : List Rankele) (lb ub : Int) : List Rankele :=
  (records.take (min ub records.length).toNat).drop (max lb 1 - 1).toNat

/-- The last order that is asked for: a negative bound counts as the size. -/
def lastOrder (size : Nat) (ub : Int) : Int :=
  if ub < 0 then size else min ub size

/-- The order before the first one, which wraps around below the least `int`. -/
def orderBefore (lb : Int) : Int :=
  if lb = -2147483648 then 2147483647 else lb - 1

/-- The bounds for which the loop of `Lrank::info` ends where it should, and three
slots for every order between them are an `int` and have room. -/
structure GoodBounds (room size : Nat) (lb ub : Int) : Prop where
  low : lb ≤ 0 → ub < 0 ∨ size = 0
  beyond : 1 ≤ lb → ub < 0 → size < lb
  ordered : 1 ≤ lb → 0 ≤ ub → lb ≤ ub + 1 ∨ size ≤ ub
  slots : -2147483648 ≤ (lastOrder size ub - orderBefore lb) * 3 ∧
    (lastOrder size ub - orderBefore lb) * 3 ≤ 2147483647
  room : (lastOrder size ub - orderBefore lb) * 3 ≤ room

section Walks

variable {records : List Rankele} {it last : Nat}

/-- The loop stops at its last iterator unless it starts behind it. -/
theorem infoFrom_of_le (inside : last ≤ it + records.length) (before : it ≤ last) :
    infoFrom last it records = some (records.take (last - it)) := by
  induction records generalizing it with
  | nil =>
      have same : it = last := le_antisymm before inside
      simp [infoFrom, same]
  | cons ele rest ih =>
      rw [infoFrom]
      split
      next same => simp [same]
      next differs =>
        have less : it < last := lt_of_le_of_ne before differs
        rw [ih (by simpa [Nat.add_right_comm, Nat.add_assoc] using inside) less]
        obtain ⟨rounds, isRounds⟩ : ∃ rounds, last - it = rounds + 1 := ⟨last - it - 1, by omega⟩
        rw [isRounds, show last - (it + 1) = rounds by omega]
        rfl

theorem infoFrom_of_lt (behind : last < it) : infoFrom last it records = none := by
  induction records generalizing it with
  | nil => rw [infoFrom, if_neg behind.ne']
  | cons ele rest ih => rw [infoFrom, if_neg behind.ne', ih (by omega), Option.map_none]

end Walks

section Pages

variable {lb ub : Int}

/-- Counting over the orders of a page. -/
theorem filterMap_index (records : List Rankele) (lb : Int) (count : Nat)
    (within : lb + count ≤ records.length + 1) :
    (List.range count).filterMap (fun i : Nat => RankLua.index records (lb + i)) =
      (records.take (lb + count - 1).toNat).drop (max lb 1 - 1).toNat := by
  induction count with
  | zero =>
      have empty : (lb + (0 : Nat) - 1).toNat ≤ (max lb 1 - 1).toNat := by omega
      rw [List.drop_eq_nil_of_le (le_trans (List.length_take_le _ _) empty)]
      rfl
  | succ count ih =>
      have one : [count].filterMap (fun i : Nat => RankLua.index records (lb + i)) =
          (RankLua.index records (lb + count)).toList := by
        cases found : RankLua.index records (lb + count) <;> simp [found]
      rw [List.range_succ, List.filterMap_append, ih (by omega), one, RankLua.index]
      split
      next positive =>
        have inside : (lb + count - 1).toNat < records.length := by omega
        have next : (lb + ((count + 1 : Nat) : Int) - 1).toNat = (lb + count - 1).toNat + 1 := by
          omega
        rw [List.getElem?_eq_getElem inside, next, List.take_add_one,
          List.getElem?_eq_getElem inside, Option.toList_some,
          List.drop_append_of_le_length (by rw [List.length_take]; omega)]
      next notPositive =>
        rw [show (lb + ((count + 1 : Nat) : Int) - 1).toNat = (lb + count - 1).toNat by omega]
        simp

theorem RankLua.info_eq (rank : RankLua) (lb ub : Int) : rank.info lb ub = page rank.arr lb ub := by
  have clamped : (if ub > (rank.arr.length : Int) then (rank.arr.length : Int) else ub) =
      min ub rank.arr.length := by
    split <;> omega
  rw [RankLua.info, clamped, page]
  by_cases empty : min ub rank.arr.length + 1 ≤ lb
  · rw [show (min ub rank.arr.length + 1 - lb).toNat = 0 by omega,
      List.drop_eq_nil_of_le (le_trans (List.length_take_le _ _) (by omega))]
    rfl
  · rw [filterMap_index rank.arr lb _ (by omega)]
    congr 2
    omega

end Pages

section Bounds

variable {rank : Rank} {lb ub : Int}

/-- An order that has become a huge one is the end. -/
theorem findByOrder_of_neg {order : Int} (lower : -2147483648 ≤ order) (negative : order < 0)
    (small : rank.ranks_.elements.length < 2 ^ 31) :
    rank.findByOrder (toSizeT order) = rank.ranks_.elements.length := by
  have huge : toSizeT order = order + 2 ^ 64 := by
    rw [toSizeT, toUnsigned]
    omega
  rw [Rank.findByOrder, huge]
  omega

theorem findByOrder_of_nonneg {order : Int} (upper : order ≤ 2147483647) (positive : 0 ≤ order) :
    rank.findByOrder (toSizeT order) = min order.toNat rank.ranks_.elements.length := by
  have same : toSizeT order = order := by
    rw [toSizeT, toUnsigned]
    omega
  rw [Rank.findByOrder, same]

theorem lower_eq (lbRange : -2147483648 ≤ lb ∧ lb ≤ 2147483647) :
    toInt32 (lb - 1) = orderBefore lb := by
  rw [orderBefore]
  split
  next least =>
    -- The difference wraps around to the largest `int`.
    rw [least]
    decide
  next => exact toInt32_of_range (by omega) (by omega)

theorem upper_eq (small : rank.ranks_.elements.length < 2 ^ 31)
    (ubRange : -2147483648 ≤ ub ∧ ub ≤ 2147483647) :
    (if toSizeT (toInt32 ub) > (rank.ranks_.elements.length : Int) then
      toInt32 rank.ranks_.elements.length else toInt32 ub) =
        lastOrder rank.ranks_.elements.length ub := by
  have sizeRange : toInt32 (rank.ranks_.elements.length : Int) = rank.ranks_.elements.length :=
    toInt32_of_range (by omega) (by omega)
  rw [toInt32_of_range (by omega) (by omega), sizeRange, toSizeT, toUnsigned, lastOrder]
  split_ifs <;> omega

theorem find_lower (small : rank.ranks_.elements.length < 2 ^ 31)
    (lbRange : -2147483648 ≤ lb ∧ lb ≤ 2147483647) :
    rank.findByOrder (toSizeT (orderBefore lb)) =
      if 1 ≤ lb then min (lb - 1).toNat rank.ranks_.elements.length
      else rank.ranks_.elements.length := by
  rw [orderBefore]
  by_cases least : lb = -2147483648
  · rw [if_pos least, findByOrder_of_nonneg (by norm_num) (by norm_num), if_neg (by omega)]
    simp only [Int.reduceToNat]
    omega
  · rw [if_neg least]
    split
    · exact findByOrder_of_nonneg (by omega) (by omega)
    · exact findByOrder_of_neg (by omega) (by omega) small

theorem find_upper (small : rank.ranks_.elements.length < 2 ^ 31)
    (ubRange : -2147483648 ≤ ub ∧ ub ≤ 2147483647) :
    rank.findByOrder (toSizeT (lastOrder rank.ranks_.elements.length ub)) =
      if 0 ≤ ub then min ub.toNat rank.ranks_.elements.length
      else rank.ranks_.elements.length := by
  rw [lastOrder]
  by_cases negative : ub < 0
  · rw [if_pos negative, findByOrder_of_nonneg (by omega) (by omega), if_neg (by omega)]
    omega
  · rw [if_neg negative, findByOrder_of_nonneg (by omega) (by omega), if_pos (by omega)]
    omega

theorem Lrank.walk_eq (small : rank.ranks_.elements.length < 2 ^ 31)
    (lbRange : -2147483648 ≤ lb ∧ lb ≤ 2147483647) (ubRange : -2147483648 ≤ ub ∧ ub ≤ 2147483647)
    {it last : Nat}
    (isIt : it = if 1 ≤ lb then min (lb - 1).toNat rank.ranks_.elements.length
      else rank.ranks_.elements.length)
    (isLast : last = if 0 ≤ ub then min ub.toNat rank.ranks_.elements.length
      else rank.ranks_.elements.length) :
    Lrank.walk rank (orderBefore lb) (lastOrder rank.ranks_.elements.length ub) =
      if it ≤ last then some ((rank.ranks_.elements.take last).drop it) else none := by
  have itLe : it ≤ rank.ranks_.elements.length := by
    rw [isIt]
    split <;> omega
  have lastLe : last ≤ rank.ranks_.elements.length := by
    rw [isLast]
    split <;> omega
  simp only [Lrank.walk, find_lower small lbRange, find_upper small ubRange, ← isIt, ← isLast]
  split
  next before =>
    rw [infoFrom_of_le (by rw [List.length_drop]; omega) before, List.drop_take]
  next behind => exact infoFrom_of_lt (not_le.mp behind)

/-- The loop goes over the page exactly for bounds in order. -/
theorem Lrank.walk_eq_page_iff (small : rank.ranks_.elements.length < 2 ^ 31)
    (lbRange : -2147483648 ≤ lb ∧ lb ≤ 2147483647)
    (ubRange : -2147483648 ≤ ub ∧ ub ≤ 2147483647) :
    Lrank.walk rank (orderBefore lb) (lastOrder rank.ranks_.elements.length ub) =
        some (page rank.ranks_.elements lb ub) ↔
      (lb ≤ 0 → ub < 0 ∨ rank.ranks_.elements.length = 0) ∧
        (1 ≤ lb → ub < 0 → rank.ranks_.elements.length < lb) ∧
          (1 ≤ lb → 0 ≤ ub → lb ≤ ub + 1 ∨ rank.ranks_.elements.length ≤ ub) := by
  obtain ⟨it, isIt⟩ : ∃ it, it = if 1 ≤ lb then min (lb - 1).toNat rank.ranks_.elements.length
    else rank.ranks_.elements.length := ⟨_, rfl⟩
  obtain ⟨last, isLast⟩ : ∃ last, last = if 0 ≤ ub then min ub.toNat rank.ranks_.elements.length
    else rank.ranks_.elements.length := ⟨_, rfl⟩
  rw [Lrank.walk_eq small lbRange ubRange isIt isLast, page]
  generalize rank.ranks_.elements = records at small isIt isLast ⊢
  constructor
  · intro returned
    by_cases before : it ≤ last
    · rw [if_pos before] at returned
      have same := congrArg List.length (Option.some.inj returned)
      simp only [List.length_drop, List.length_take] at same
      refine ⟨fun low => ?_, fun positive negative => ?_, fun positive notNegative => ?_⟩ <;>
        split_ifs at isIt isLast <;> omega
    · rw [if_neg before] at returned
      cases returned
  · rintro ⟨low, beyond, ordered⟩
    have before : it ≤ last := by split_ifs at isIt isLast <;> omega
    rw [if_pos before]
    by_cases empty : (min ub records.length).toNat ≤ (max lb 1 - 1).toNat
    · have none : last ≤ it := by split_ifs at isIt isLast <;> omega
      rw [List.drop_eq_nil_of_le (le_trans (List.length_take_le _ _) empty),
        List.drop_eq_nil_of_le (le_trans (List.length_take_le _ _) none)]
    · have sameIt : it = (max lb 1 - 1).toNat := by split_ifs at isIt isLast <;> omega
      have sameLast : last = (min ub records.length).toNat := by
        split_ifs at isIt isLast <;> omega
      rw [sameIt, sameLast]

/-- The C++ board returns the page exactly for good bounds. -/
theorem Lrank.info_eq_page_iff {room : Nat} (small : rank.ranks_.elements.length < 2 ^ 31)
    (lbRange : -2147483648 ≤ lb ∧ lb ≤ 2147483647)
    (ubRange : -2147483648 ≤ ub ∧ ub ≤ 2147483647) :
    Lrank.info room rank lb ub = some (page rank.ranks_.elements lb ub) ↔
      GoodBounds room rank.ranks_.elements.length lb ub := by
  have walks := Lrank.walk_eq_page_iff small lbRange ubRange
  simp only [Lrank.info, lower_eq lbRange, upper_eq small ubRange]
  split
  next fails =>
    exact iff_of_false nofun fun good => by
      have slots := good.slots
      have room := good.room
      omega
  next reserves =>
    rw [walks]
    constructor
    · rintro ⟨low, beyond, ordered⟩
      exact ⟨low, beyond, ordered, by omega, by omega⟩
    · exact fun good => ⟨good.low, good.beyond, good.ordered⟩

end Bounds

/-- For all bounds the C++ board ends and returns the records between them, which are
those that the Lua board returns, exactly when the bounds are good for the room that
Lua has. -/
theorem info_exact_iff (room capacity : Nat) (range : 1 ≤ capacity ∧ capacity ≤ 2147483647)
    (adds : List Rankele) {lb ub : Int} (lbRange : -2147483648 ≤ lb ∧ lb ≤ 2147483647)
    (ubRange : -2147483648 ≤ ub ∧ ub ≤ 2147483647) :
    (∃ records lua, Lrank.info room (Rank.run capacity adds) lb ub = some records ∧
        records = page (Rank.run capacity adds).ranks_.elements lb ub ∧
        RankLua.run capacity adds = some lua ∧ lua.info lb ub = records) ↔
      GoodBounds room (Rank.run capacity adds).ranks_.elements.length lb ub := by
  obtain ⟨board, lua, returned, luaBoard, cppBoard⟩ := exists_board capacity adds
  have same : lua.arr = (Rank.run capacity adds).ranks_.elements := by
    rw [luaBoard.arr, cppBoard.ranks]
  have small : (Rank.run capacity adds).ranks_.elements.length < 2 ^ 31 := by
    rw [cppBoard.ranks]
    have fits := luaBoard.fits
    omega
  rw [← Lrank.info_eq_page_iff small lbRange ubRange]
  constructor
  · rintro ⟨records, -, isInfo, rfl, -, -⟩
    exact isInfo
  · intro isInfo
    exact ⟨_, lua, isInfo, rfl, returned, by rw [RankLua.info_eq, same]⟩

/-- The second page of a board with three records, one of them changed. -/
theorem info_exact_iff_second :
    ∃ records lua, Lrank.info 1000
        (Rank.run 3 [⟨[1], 5, 0⟩, ⟨[2], 7, 0⟩, ⟨[3], 9, 0⟩, ⟨[1], 8, 0⟩]) 2 7 = some records ∧
      records = page (Rank.run 3
        [⟨[1], 5, 0⟩, ⟨[2], 7, 0⟩, ⟨[3], 9, 0⟩, ⟨[1], 8, 0⟩]).ranks_.elements 2 7 ∧
      RankLua.run 3 [⟨[1], 5, 0⟩, ⟨[2], 7, 0⟩, ⟨[3], 9, 0⟩, ⟨[1], 8, 0⟩] = some lua ∧
      lua.info 2 7 = records := by
  refine (info_exact_iff 1000 3 (by decide)
    [⟨[1], 5, 0⟩, ⟨[2], 7, 0⟩, ⟨[3], 9, 0⟩, ⟨[1], 8, 0⟩] (by decide) (by decide)).mpr ?_
  have three : (Rank.run 3 [⟨[1], 5, 0⟩, ⟨[2], 7, 0⟩, ⟨[3], 9, 0⟩,
      ⟨[1], 8, 0⟩]).ranks_.elements.length = 3 := by decide
  rw [three]
  exact ⟨by decide, by decide, by decide, by decide, by decide⟩

/-- With the lower bound 0 the walk from the end runs over the end of the tree, with the
upper bound -1 all records come, and for bounds far apart the slots are no `int` or
too many. -/
theorem not_info_exact :
    Lrank.info 1000000000 (Rank.run 3 [⟨[1], 5, 0⟩, ⟨[2], 7, 0⟩]) 0 1 = none ∧
      Lrank.info 1000000000 (Rank.run 3 [⟨[1], 5, 0⟩, ⟨[2], 7, 0⟩]) 1 (-1) ≠
        some (page (Rank.run 3 [⟨[1], 5, 0⟩, ⟨[2], 7, 0⟩]).ranks_.elements 1 (-1)) ∧
      Lrank.info 1000000000 (Rank.run 3 [⟨[1], 5, 0⟩, ⟨[2], 7, 0⟩]) 1000000001 5 = none ∧
      Lrank.info 1000000000 (Rank.run 3 [⟨[1], 5, 0⟩, ⟨[2], 7, 0⟩]) (-500000000) (-1) = none := by
  refine ⟨?_, ?_, ?_, ?_⟩ <;> decide

end RankBoards

end LuaServer
