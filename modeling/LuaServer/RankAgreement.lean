import LuaServer.RankBoards

/-!
# The two rank boards agree

An abstract board is a list of records sorted by place with distinct ids.
Adding a record takes out the old record of its id, puts the new one at its
place and keeps as many records as the board holds.  The C++ board and the Lua
board both implement it, so they hold the same list after every sequence of
calls and report the same orders.
-/

namespace LuaServer

namespace RankBoards

/-- Records sorted by place, at most one for each id. -/
structure Board where
  records : KeySorted Rankele.place
  distinct : ∀ first ∈ records, ∀ second ∈ records, first.id = second.id → first = second

namespace Board

def empty : Board :=
  ⟨KeySorted.empty _, fun _ member => absurd member KeySorted.not_mem_empty⟩

/-- Take out the record of an id. -/
def without (board : Board) (id : ByteString) : Board where
  records := board.records.restrict fun ele => ele.id ≠ id
  distinct first firstIn second secondIn :=
    board.distinct first (KeySorted.mem_restrict.mp firstIn).1 second
      (KeySorted.mem_restrict.mp secondIn).1

theorem mem_without {board : Board} {id : ByteString} {ele : Rankele} :
    ele ∈ (board.without id).records ↔ ele ∈ board.records ∧ ele.id ≠ id :=
  KeySorted.mem_restrict

theorem place_ne {board : Board} {ele other : Rankele}
    (fresh : ∀ other ∈ board.records, other.id ≠ ele.id) (member : other ∈ board.records) :
    other.place ≠ ele.place := by
  intro same
  exact fresh other member (congrArg Rankele.id (Rankele.place_injective same))

theorem mem_put {board : Board} {ele other : Rankele}
    (fresh : ∀ other ∈ board.records, other.id ≠ ele.id) :
    other ∈ board.records.put ele ↔ other = ele ∨ other ∈ board.records := by
  rw [KeySorted.mem_put]
  exact or_congr_right (and_iff_left_of_imp fun member => place_ne fresh member)

/-- Put a record with a new id at its place. -/
def insert (board : Board) (ele : Rankele)
    (fresh : ∀ other ∈ board.records, other.id ≠ ele.id) : Board where
  records := board.records.put ele
  distinct := by
    intro first firstIn second secondIn same
    rcases (mem_put fresh).mp firstIn with rfl | firstOld <;>
      rcases (mem_put fresh).mp secondIn with rfl | secondOld
    · rfl
    · exact absurd same.symm (fresh second secondOld)
    · exact absurd same (fresh first firstOld)
    · exact board.distinct first firstOld second secondOld same

/-- Keep the first records. -/
def take (board : Board) (capacity : Nat) : Board where
  records := board.records.take capacity
  distinct first firstIn second secondIn :=
    board.distinct first (List.mem_of_mem_take firstIn) second
      (List.mem_of_mem_take secondIn)

theorem fresh_without (board : Board) (ele : Rankele) :
    ∀ other ∈ (board.without ele.id).records, other.id ≠ ele.id :=
  fun _ member => (mem_without.mp member).2

/-- Replace the record of an id and keep the best records. -/
def add (capacity : Nat) (board : Board) (ele : Rankele) : Board :=
  ((board.without ele.id).insert ele (board.fresh_without ele)).take capacity

/-- The 1-based position of the record of an id. -/
def position (board : Board) (id : ByteString) : Option Nat :=
  (board.records.elements.findIdx? fun ele => ele.id == id).map (· + 1)

theorem length_take_le (board : Board) (capacity : Nat) :
    (board.take capacity).records.elements.length ≤ capacity :=
  List.length_take_le capacity _

theorem nodup_ids (board : Board) : (board.records.elements.map Rankele.id).Nodup :=
  List.Nodup.map_on (fun first firstIn second secondIn =>
    board.distinct first firstIn second secondIn) board.records.nodup

/-- A record stands behind the records below its place. -/
theorem position_of_mem {board : Board} {ele : Rankele} (member : ele ∈ board.records) :
    board.position ele.id = some ((board.records.below ele.place).length + 1) := by
  obtain ⟨inside, same⟩ := KeySorted.exists_getElem_below member
  have found : board.records.elements.findIdx? (fun other => other.id == ele.id) =
      some (board.records.below ele.place).length := by
    rw [List.findIdx?_eq_some_iff_getElem]
    refine ⟨inside, by simp [same], ?_⟩
    intro index early
    have indexInside := Nat.lt_trans early inside
    intro sameId
    have equal := board.distinct _ (List.getElem_mem indexInside) ele member
      (by simpa using sameId)
    have less := (KeySorted.getElem_lt_iff indexInside).mpr early
    rw [equal] at less
    exact lt_irrefl _ less
  rw [position, found]
  rfl

theorem position_of_not_mem {board : Board} {id : ByteString}
    (absent : ∀ ele ∈ board.records, ele.id ≠ id) : board.position id = none := by
  have notFound : board.records.elements.findIdx? (fun other => other.id == id) = none := by
    rw [List.findIdx?_eq_none_iff]
    intro ele member
    simpa using absent ele member
  rw [position, notFound]
  rfl

end Board

section Indexes

variable {map : ByteString → Option Rankele} {board : Board} {ele last : Rankele}
  {id : ByteString} {capacity : Nat}

/-- `map` leads from each id on the board to its record. -/
def Indexes (map : ByteString → Option Rankele) (board : Board) : Prop :=
  ∀ id ele, map id = some ele ↔ ele ∈ board.records ∧ ele.id = id

theorem Indexes.absent (indexes : Indexes map board) (missing : map id = none) :
    ∀ ele ∈ board.records, ele.id ≠ id := by
  intro ele member same
  have found := (indexes id ele).mpr ⟨member, same⟩
  simp [missing] at found

theorem Indexes.isSome_iff (indexes : Indexes map board) (id : ByteString) :
    (map id).isSome = true ↔ ∃ ele ∈ board.records.elements, ele.id = id := by
  rw [Option.isSome_iff_exists]
  exact exists_congr fun ele => indexes id ele

theorem Indexes.without (indexes : Indexes map board) (id : ByteString) :
    Indexes (eraseKey map id) (board.without id) := by
  intro other ele
  rw [Board.mem_without]
  by_cases same : other = id
  · subst other
    simp only [eraseKey, Function.update_self]
    constructor
    · intro found
      simp at found
    · rintro ⟨⟨-, differs⟩, same⟩
      exact absurd same differs
  · rw [eraseKey, Function.update_of_ne same, indexes other ele]
    constructor
    · rintro ⟨member, rfl⟩
      exact ⟨⟨member, same⟩, rfl⟩
    · rintro ⟨⟨member, -⟩, here⟩
      exact ⟨member, here⟩

theorem Indexes.insert (indexes : Indexes map board)
    (fresh : ∀ other ∈ board.records, other.id ≠ ele.id) :
    Indexes (Function.update map ele.id (some ele)) (board.insert ele fresh) := by
  intro other candidate
  rw [Board.insert, Board.mem_put fresh]
  by_cases same : other = ele.id
  · subst other
    rw [Function.update_self, Option.some.injEq]
    constructor
    · rintro rfl
      exact ⟨Or.inl rfl, rfl⟩
    · rintro ⟨rfl | old, sameId⟩
      · rfl
      · exact absurd sameId (fresh candidate old)
  · rw [Function.update_of_ne same, indexes other candidate]
    constructor
    · rintro ⟨member, here⟩
      exact ⟨Or.inr member, here⟩
    · rintro ⟨rfl | old, here⟩
      · exact absurd here.symm same
      · exact ⟨old, here⟩

theorem without_of_absent (absent : ∀ ele ∈ board.records, ele.id ≠ id) :
    (board.without id).records = board.records := by
  apply KeySorted.eq_of_mem_iff
  intro ele
  rw [Board.mem_without]
  exact and_iff_left_of_imp (absent ele)

theorem drop_eq_without (member : ele ∈ board.records) :
    board.records.drop ele.place = (board.without ele.id).records := by
  apply KeySorted.eq_of_mem_iff
  intro other
  rw [KeySorted.mem_drop, Board.mem_without]
  refine and_congr_right fun otherIn => not_congr ?_
  constructor
  · exact fun same => congrArg Rankele.id (Rankele.place_injective same)
  · exact fun same => congrArg Rankele.place (board.distinct other otherIn ele member same)

theorem take_of_fits (fits : board.records.elements.length ≤ capacity) :
    board.take capacity = board := by
  obtain ⟨⟨elements, sorted⟩, distinct⟩ := board
  simp only [Board.take, KeySorted.take, Board.mk.injEq, KeySorted.mk.injEq]
  exact List.take_of_length_le fits

/-- On a board with one record too many, only the last one is lost. -/
theorem take_of_full (full : board.records.elements.length = capacity + 1)
    (isLast : board.records.elements.getLast? = some last) :
    board.take capacity = board.without last.id := by
  have member : last ∈ board.records := List.mem_of_getLast? isLast
  have same : (board.take capacity).records = (board.without last.id).records := by
    rw [← drop_eq_without member]
    have front := KeySorted.drop_getLast isLast
    rw [List.dropLast_eq_take, full, Nat.add_sub_cancel] at front
    apply KeySorted.eq_of_mem_iff
    intro ele
    rw [← KeySorted.mem_elements, ← KeySorted.mem_elements, front]
    rfl
  cases taken : board.take capacity
  cases without : board.without last.id
  simp_all

end Indexes

section Trees

/-- The C++ board holds the records of the abstract one. -/
structure Rank.Implements (rank : Rank) (board : Board) : Prop where
  ranks : rank.ranks_ = board.records
  ids : Indexes rank.idIt_ board
  fits : board.records.elements.length ≤ rank.max_

variable {rank : Rank} {board : Board} {ele : Rankele}

theorem Indexes.congr {map : ByteString → Option Rankele} {other : Board}
    (indexes : Indexes map board) (same : board.records = other.records) :
    Indexes map other := by
  intro id candidate
  rw [indexes id candidate, same]

theorem length_without_le (board : Board) (id : ByteString) :
    (board.without id).records.elements.length ≤ board.records.elements.length :=
  List.length_filter_le _ _

theorem length_insert_le (board : Board) (ele : Rankele)
    (fresh : ∀ other ∈ board.records, other.id ≠ ele.id) :
    (board.insert ele fresh).records.elements.length ≤ board.records.elements.length + 1 :=
  KeySorted.length_put_le board.records ele

/-- `evict` keeps the first `max_` records of a board with at most one more. -/
theorem Rank.evict_implements (ranks : rank.ranks_ = board.records)
    (ids : Indexes rank.idIt_ board)
    (almost : board.records.elements.length ≤ rank.max_ + 1) :
    rank.evict.Implements (board.take rank.max_) ∧ rank.evict.max_ = rank.max_ := by
  by_cases fits : rank.ranks_.elements.length ≤ rank.max_
  · rw [Rank.evict, if_pos fits]
    rw [ranks] at fits
    rw [take_of_fits fits]
    exact ⟨⟨ranks, ids, fits⟩, rfl⟩
  · have full : board.records.elements.length = rank.max_ + 1 := by
      rw [ranks] at fits
      omega
    cases isLast : board.records.elements.getLast? with
    | none =>
        have isEmpty := List.getLast?_eq_none_iff.mp isLast
        simp [isEmpty] at full
    | some last =>
        have member : last ∈ board.records := List.mem_of_getLast? isLast
        have bounded := board.length_take_le rank.max_
        rw [Rank.evict, if_neg fits, ranks, isLast]
        rw [take_of_full full isLast] at bounded ⊢
        exact ⟨⟨drop_eq_without member, ids.without last.id, bounded⟩, rfl⟩

theorem Rank.add_implements (implements : rank.Implements board) (ele : Rankele) :
    (rank.add ele).Implements (board.add rank.max_ ele) ∧
      (rank.add ele).max_ = rank.max_ := by
  obtain ⟨ranks, ids, fits⟩ := implements
  have fresh := board.fresh_without ele
  have shorter := length_without_le board ele.id
  have longer := length_insert_le (board.without ele.id) ele fresh
  have almost : ((board.without ele.id).insert ele fresh).records.elements.length ≤
      rank.max_ + 1 := by omega
  cases known : rank.idIt_ ele.id with
  | none =>
      have same := without_of_absent (ids.absent known)
      have idsWithout : Indexes rank.idIt_ (board.without ele.id) := ids.congr same.symm
      simp only [Rank.add, known]
      exact Rank.evict_implements (by rw [ranks, ← same]; rfl) (idsWithout.insert fresh) almost
  | some it =>
      obtain ⟨member, sameId⟩ := (ids ele.id it).mp known
      have dropped : board.records.drop it.place = (board.without ele.id).records := by
        rw [drop_eq_without member, sameId]
      have erased : eraseKey rank.idIt_ ele.id ele.id = none := by simp [eraseKey]
      simp only [Rank.add, known, erased]
      exact Rank.evict_implements (by rw [ranks, dropped]; rfl)
        ((ids.without ele.id).insert fresh) almost

theorem Rank.getOrder_eq (implements : rank.Implements board) (id : ByteString) :
    Lrank.getOrder rank id = (board.position id).map Nat.cast := by
  obtain ⟨ranks, ids, -⟩ := implements
  cases known : rank.idIt_ id with
  | none =>
      rw [Board.position_of_not_mem (ids.absent known)]
      simp [Lrank.getOrder, Rank.getOrder, known]
  | some it =>
      obtain ⟨member, rfl⟩ := (ids id it).mp known
      rw [Board.position_of_mem member]
      have positive : ¬ ((board.records.below it.place).length : Int) + 1 ≤ 0 := by omega
      simp [Lrank.getOrder, Rank.getOrder, known, ranks, positive]

end Trees

section Arrays

variable {board : Board} {data : Rankele}

theorem RankLua.index_eq {arr : List Rankele} {pos : Nat} (inside : pos < arr.length) :
    RankLua.index arr (pos + 1) = some arr[pos] := by
  have positive : (1 : Int) ≤ pos + 1 := by omega
  have back : ((pos : Int) + 1 - 1).toNat = pos := by omega
  rw [RankLua.index, if_pos positive, back, List.getElem?_eq_getElem inside]

/-- The binary search for the place of a record ends at the first record that
is not before it. -/
theorem RankLua.lowerBoundFrom_eq {left right ans : Int} (leftPositive : 1 ≤ left)
    (leftLe : left ≤ (board.records.below data.place).length + 1)
    (ansGe : (board.records.below data.place).length + 1 ≤ ans)
    (ansEq : ans = right + 1) (rightLe : right ≤ board.records.elements.length) :
    RankLua.lowerBoundFrom board.records.elements data left right ans =
      some (((board.records.below data.place).length + 1 : Nat) : Int) := by
  fun_induction RankLua.lowerBoundFrom board.records.elements data left right ans with
  | case1 left right ans inside mid outside =>
      obtain ⟨pos, posEq⟩ : ∃ pos : Nat, mid = pos + 1 := ⟨(mid - 1).toNat, by omega⟩
      rw [posEq, RankLua.index_eq (by omega)] at outside
      simp at outside
  | case2 left right ans inside mid rdata found before ih =>
      obtain ⟨pos, posEq⟩ : ∃ pos : Nat, mid = pos + 1 := ⟨(mid - 1).toNat, by omega⟩
      have posInside : pos < board.records.elements.length := by omega
      rw [posEq, RankLua.index_eq posInside, Option.some.injEq] at found
      subst rdata
      have early := (KeySorted.getElem_lt_iff posInside).mp (Rankele.less_iff.mp before)
      exact ih (by omega) (by omega) ansGe ansEq rightLe
  | case3 left right ans inside mid rdata found notBefore ih =>
      obtain ⟨pos, posEq⟩ : ∃ pos : Nat, mid = pos + 1 := ⟨(mid - 1).toNat, by omega⟩
      have posInside : pos < board.records.elements.length := by omega
      rw [posEq, RankLua.index_eq posInside, Option.some.injEq] at found
      subst rdata
      have late : ¬ pos < (board.records.below data.place).length := by
        rw [← KeySorted.getElem_lt_iff posInside]
        exact fun less => notBefore (Rankele.less_iff.mpr less)
      exact ih leftPositive leftLe (by omega) (by omega) (by omega)
  | case4 left right ans done =>
      have same : ans = (board.records.below data.place).length + 1 := by omega
      simp [same]

theorem RankLua.lowerBound_eq (board : Board) (data : Rankele) :
    RankLua.lowerBound board.records.elements data =
      some (((board.records.below data.place).length + 1 : Nat) : Int) := by
  have shorter : (board.records.below data.place).length ≤ board.records.elements.length :=
    List.length_filter_le _ _
  exact RankLua.lowerBoundFrom_eq le_rfl (by omega) (by omega) rfl le_rfl

/-- The binary search for a record on the board finds its position. -/
theorem RankLua.binarySearchFrom_eq (member : data ∈ board.records) {left right : Int}
    (leftPositive : 1 ≤ left)
    (leftLe : left ≤ (board.records.below data.place).length + 1)
    (rightGe : (board.records.below data.place).length + 1 ≤ right)
    (rightLe : right ≤ board.records.elements.length) :
    RankLua.binarySearchFrom board.records.elements data left right =
      some (some (((board.records.below data.place).length : Int) + 1, data)) := by
  fun_induction RankLua.binarySearchFrom board.records.elements data left right with
  | case1 left right inside mid outside =>
      obtain ⟨pos, posEq⟩ : ∃ pos : Nat, mid = pos + 1 := ⟨(mid - 1).toNat, by omega⟩
      rw [posEq, RankLua.index_eq (by omega)] at outside
      simp at outside
  | case2 left right inside mid rdata found before ih =>
      obtain ⟨pos, posEq⟩ : ∃ pos : Nat, mid = pos + 1 := ⟨(mid - 1).toNat, by omega⟩
      have posInside : pos < board.records.elements.length := by omega
      rw [posEq, RankLua.index_eq posInside, Option.some.injEq] at found
      subst rdata
      have late := (KeySorted.lt_getElem_iff member posInside).mp (Rankele.less_iff.mp before)
      exact ih leftPositive leftLe (by omega) (by omega)
  | case3 left right inside mid rdata found notBefore behind ih =>
      obtain ⟨pos, posEq⟩ : ∃ pos : Nat, mid = pos + 1 := ⟨(mid - 1).toNat, by omega⟩
      have posInside : pos < board.records.elements.length := by omega
      rw [posEq, RankLua.index_eq posInside, Option.some.injEq] at found
      subst rdata
      have early := (KeySorted.getElem_lt_iff posInside).mp (Rankele.less_iff.mp behind)
      exact ih (by omega) (by omega) rightGe rightLe
  | case4 left right inside mid rdata found notBefore notBehind =>
      obtain ⟨pos, posEq⟩ : ∃ pos : Nat, mid = pos + 1 := ⟨(mid - 1).toNat, by omega⟩
      have posInside : pos < board.records.elements.length := by omega
      rw [posEq, RankLua.index_eq posInside, Option.some.injEq] at found
      subst rdata
      have notLate : ¬ (board.records.below data.place).length < pos := by
        rw [← KeySorted.lt_getElem_iff member posInside]
        exact fun less => notBefore (Rankele.less_iff.mpr less)
      have notEarly : ¬ pos < (board.records.below data.place).length := by
        rw [← KeySorted.getElem_lt_iff posInside]
        exact fun less => notBehind (Rankele.less_iff.mpr less)
      have here : pos = (board.records.below data.place).length := by omega
      obtain ⟨atInside, same⟩ := KeySorted.exists_getElem_below member
      simp only [here, same] at posEq ⊢
      rw [posEq]
  | case5 left right done => omega

theorem RankLua.binarySearch_eq (member : data ∈ board.records) :
    RankLua.binarySearch board.records.elements data =
      some (some (((board.records.below data.place).length : Int) + 1, data)) := by
  obtain ⟨inside, -⟩ := KeySorted.exists_getElem_below member
  exact RankLua.binarySearchFrom_eq member le_rfl (by omega) (by omega) le_rfl

/-- The Lua board holds the records of the abstract one. -/
structure RankLua.Implements (rank : RankLua) (board : Board) (capacity : Nat) : Prop where
  arr : rank.arr = board.records.elements
  ids : Indexes rank.map board
  num : rank.num = capacity
  fits : board.records.elements.length ≤ capacity

variable {rank : RankLua} {capacity : Nat}

theorem RankLua.remove_eq (member : data ∈ board.records) :
    RankLua.remove board.records.elements
        (some (((board.records.below data.place).length : Int) + 1)) =
      some (board.without data.id).records.elements := by
  obtain ⟨inside, -⟩ := KeySorted.exists_getElem_below member
  have back : (((board.records.below data.place).length : Int) + 1 - 1).toNat =
      (board.records.below data.place).length := by omega
  rw [RankLua.remove, if_pos (by omega), back, KeySorted.eraseIdx_below member,
    drop_eq_without member]

theorem RankLua.insert_eq (fresh : ∀ other ∈ board.records, other.id ≠ data.id) :
    RankLua.insert board.records.elements
        ((board.records.below data.place).length + 1 : Nat) data =
      some (board.insert data fresh).records.elements := by
  have shorter : (board.records.below data.place).length ≤ board.records.elements.length :=
    List.length_filter_le _ _
  have back : (((board.records.below data.place).length + 1 : Nat) - 1 : Int).toNat =
      (board.records.below data.place).length := by omega
  have placed : board.records.elements.insertIdx (board.records.below data.place).length
      data = (board.records.put data).elements :=
    KeySorted.insertIdx_below fun other member => Board.place_ne fresh member
  rw [RankLua.insert, if_pos (by omega), back, placed]
  rfl

/-- The end of `M.add` keeps the first records of a board with at most one
more. -/
theorem RankLua.removeLast_implements (arr : rank.arr = board.records.elements)
    (ids : Indexes rank.map board) (num : rank.num = capacity)
    (almost : board.records.elements.length ≤ capacity + 1) :
    ∃ trimmed, rank.removeLast = some trimmed ∧
      trimmed.Implements (board.take capacity) capacity := by
  by_cases fits : board.records.elements.length ≤ capacity
  · refine ⟨rank, ?_, ?_⟩
    · rw [RankLua.removeLast, if_neg (by rw [arr, num]; omega)]
    · rw [take_of_fits fits]
      exact ⟨arr, ids, num, fits⟩
  · have full : board.records.elements.length = capacity + 1 := by omega
    cases isLast : board.records.elements.getLast? with
    | none =>
        have isEmpty := List.getLast?_eq_none_iff.mp isLast
        simp [isEmpty] at full
    | some last =>
        have member : last ∈ board.records := List.mem_of_getLast? isLast
        have bounded := board.length_take_le capacity
        have atLast : RankLua.index rank.arr rank.arr.length = some last := by
          rw [List.getLast?_eq_getElem?] at isLast
          rw [RankLua.index, if_pos (by rw [arr]; omega), arr]
          convert isLast using 2
          omega
        have removed : RankLua.remove rank.arr (some rank.arr.length) =
            some (board.without last.id).records.elements := by
          have front : rank.arr.eraseIdx ((rank.arr.length : Int) - 1).toNat =
              rank.arr.dropLast := by
            have back : ((rank.arr.length : Int) - 1).toNat = rank.arr.length - 1 := by omega
            rw [back, List.eraseIdx_length_sub_one]
          rw [RankLua.remove, if_pos (Or.inl rfl), front, arr, ← KeySorted.drop_getLast isLast,
            drop_eq_without member]
        rw [take_of_full full isLast] at bounded ⊢
        refine ⟨{ rank with
            arr := (board.without last.id).records.elements
            map := eraseKey rank.map last.id }, ?_, rfl, ids.without last.id, num, bounded⟩
        rw [RankLua.removeLast, if_pos (by rw [arr, num]; omega), atLast, Option.bind_eq_bind,
          Option.bind_some, removed]
        rfl

/-- The start of `M.add` leaves the array and the map without the id. -/
theorem RankLua.removeOld_implements (implements : rank.Implements board capacity)
    (id : ByteString) : ∃ cleared, rank.removeOld id = some cleared ∧
      cleared.Implements (board.without id) capacity := by
  obtain ⟨arr, ids, num, fits⟩ := implements
  have shorter := length_without_le board id
  cases known : rank.map id with
  | none =>
      have same := without_of_absent (ids.absent known)
      exact ⟨rank, by simp [RankLua.removeOld, known],
        by rw [arr, same], ids.congr same.symm, num, by omega⟩
  | some bdata =>
      obtain ⟨member, rfl⟩ := (ids id bdata).mp known
      refine ⟨{ rank with
          arr := (board.without bdata.id).records.elements
          map := eraseKey rank.map bdata.id }, ?_, rfl, ids.without bdata.id, num, by omega⟩
      simp only [RankLua.removeOld, known, arr, RankLua.binarySearch_eq member,
        Option.bind_eq_bind, Option.bind_some, Option.map_some, RankLua.remove_eq member]
      rfl

/-- `M.add` never fails and adds to the board. -/
theorem RankLua.add_implements (implements : rank.Implements board capacity)
    (data : Rankele) : ∃ after, rank.add data = some after ∧
      after.Implements (board.add capacity data) capacity := by
  have fresh := board.fresh_without data
  have shorter := length_without_le board data.id
  have longer := length_insert_le (board.without data.id) data fresh
  have fits := implements.fits
  obtain ⟨cleared, clears, arr, ids, num, -⟩ := RankLua.removeOld_implements implements data.id
  have searched := RankLua.lowerBound_eq (board.without data.id) data
  have inserted := RankLua.insert_eq fresh
  have last : ∃ trimmed, RankLua.removeLast { cleared with
      arr := ((board.without data.id).insert data fresh).records.elements
      map := Function.update cleared.map data.id (some data) } = some trimmed ∧
        trimmed.Implements (board.add capacity data) capacity :=
    RankLua.removeLast_implements rfl (ids.insert fresh) num (by omega)
  obtain ⟨after, trims, implemented⟩ := last
  refine ⟨after, ?_, implemented⟩
  simp only [RankLua.add, clears, arr, searched, inserted, Option.bind_eq_bind,
    Option.bind_some, trims]

theorem RankLua.getOrder_eq (implements : rank.Implements board capacity)
    (id : ByteString) : ∃ found, rank.getOrder id = some found ∧
      found.map Prod.fst = (board.position id).map Nat.cast := by
  obtain ⟨arr, ids, -, -⟩ := implements
  cases known : rank.map id with
  | none =>
      refine ⟨none, by simp [RankLua.getOrder, known], ?_⟩
      rw [Board.position_of_not_mem (ids.absent known)]
      rfl
  | some data =>
      obtain ⟨member, rfl⟩ := (ids id data).mp known
      have searched := RankLua.binarySearch_eq member
      rw [← arr] at searched
      refine ⟨some (((board.records.below data.place).length : Int) + 1, data),
        by simp only [RankLua.getOrder, known, searched], ?_⟩
      rw [Board.position_of_mem member]
      simp

end Arrays

/-- A new C++ board after some calls of `add`. -/
def Rank.run (capacity : Nat) (adds : List Rankele) : Rank :=
  adds.foldl Rank.add (Rank.create capacity)

/-- A new Lua board after some calls of `M.add`. -/
def RankLua.run (capacity : Nat) (adds : List Rankele) : Option RankLua :=
  adds.foldlM RankLua.add (RankLua.new capacity)

/-- Boards that implement the same abstract one still do after more calls. -/
theorem run_implements {cpp : Rank} {lua : RankLua} {board : Board} {capacity : Nat}
    (cppBoard : cpp.Implements board) (luaBoard : lua.Implements board capacity)
    (same : cpp.max_ = capacity) (adds : List Rankele) :
    ∃ (after : Board) (luaAfter : RankLua), adds.foldlM RankLua.add lua = some luaAfter ∧
      luaAfter.Implements after capacity ∧ (adds.foldl Rank.add cpp).Implements after := by
  induction adds generalizing cpp lua board with
  | nil => exact ⟨board, lua, rfl, luaBoard, cppBoard⟩
  | cons ele adds ih =>
      obtain ⟨middle, added, luaMiddle⟩ := RankLua.add_implements luaBoard ele
      obtain ⟨cppMiddle, stillSame⟩ := Rank.add_implements cppBoard ele
      rw [same] at cppMiddle stillSame
      obtain ⟨after, luaAfter, returned, luaDone, cppDone⟩ := ih cppMiddle luaMiddle stillSame
      refine ⟨after, luaAfter, ?_, luaDone, cppDone⟩
      rw [List.foldlM_cons, added]
      exact returned

/-- Both boards implement the same abstract one after every sequence of calls. -/
theorem exists_board (capacity : Nat) (adds : List Rankele) :
    ∃ (board : Board) (lua : RankLua), RankLua.run capacity adds = some lua ∧
      lua.Implements board capacity ∧ (Rank.run capacity adds).Implements board := by
  have indexes : Indexes (fun _ => none) Board.empty := by
    intro id ele
    simp [Board.empty]
  have cppNew : (Rank.create capacity).Implements Board.empty :=
    ⟨rfl, indexes, Nat.zero_le _⟩
  have luaNew : (RankLua.new capacity).Implements Board.empty capacity :=
    ⟨rfl, indexes, rfl, Nat.zero_le _⟩
  exact run_implements cppNew luaNew rfl adds

/-- After every sequence of calls, the C++ board and the Lua board hold the same
sorted list of at most `capacity` records with distinct ids, index exactly its
ids, and report the position of an id in that list. -/
theorem boards_agree (capacity : Nat) (adds : List Rankele) :
    ∃ lua, RankLua.run capacity adds = some lua ∧
      lua.arr = (Rank.run capacity adds).ranks_.elements ∧
      (lua.arr.Pairwise fun first second => first.less second = true) ∧
      (lua.arr.map Rankele.id).Nodup ∧
      lua.arr.length ≤ capacity ∧
      (∀ id, ((Rank.run capacity adds).idIt_ id).isSome = true ↔
        ∃ ele ∈ lua.arr, ele.id = id) ∧
      (∀ id, (lua.map id).isSome = true ↔ ∃ ele ∈ lua.arr, ele.id = id) ∧
      ∀ id, ∃ found, lua.getOrder id = some found ∧
        found.map Prod.fst = Lrank.getOrder (Rank.run capacity adds) id ∧
        found.map Prod.fst =
          (lua.arr.findIdx? fun ele => ele.id == id).map
            fun index : Nat => (index : Int) + 1 := by
  obtain ⟨board, lua, returned, luaBoard, cppBoard⟩ := exists_board capacity adds
  have arr := luaBoard.arr
  refine ⟨lua, returned, ?_, ?_, ?_, ?_, ?_, ?_, ?_⟩
  · rw [arr, cppBoard.ranks]
  · rw [arr]
    exact board.records.sorted.imp fun less => Rankele.less_iff.mpr less
  · rw [arr]
    exact board.nodup_ids
  · rw [arr]
    exact luaBoard.fits
  · rw [arr]
    exact cppBoard.ids.isSome_iff
  · rw [arr]
    exact luaBoard.ids.isSome_iff
  · intro id
    obtain ⟨found, searched, position⟩ := RankLua.getOrder_eq luaBoard id
    refine ⟨found, searched, ?_, ?_⟩
    · rw [position, Rank.getOrder_eq cppBoard id]
    · rw [position, Board.position, arr, Option.map_map]
      rfl

end RankBoards

end LuaServer
